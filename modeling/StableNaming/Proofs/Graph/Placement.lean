import StableNaming.Proofs.Graph.Embedding
import StableNaming.Proofs.Graph.TopLevel

/-!
# Where classes are placed

A class is created inside the container that its name announces, and later, at its own turn,
moved into the container that its class file claims. Only a claimed container that is inside the
class at that moment is refused. At that moment the classes with smaller numbers have been placed,
and those with greater numbers are still where their names put them. So a claim can be refused
because of a class that has not left yet, although the containers that are stated in the end form
no cycle.
-/

namespace StableNaming

open Relation

namespace ClassGraph

variable {g g' : ClassGraph}

/-- The class of the graph that the name of a class announces as its container. -/
def announced? (g : ClassGraph) (id : ClassId) : Option ClassId :=
  (containerName? (g.nameAt id)).bind g.idOf?

/-- The class of the graph that a class claims as its container. -/
def claimed? (g : ClassGraph) (id : ClassId) : Option ClassId :=
  (claimedContainer? (g.classAt id)).bind g.idOf?

/-- The container of a class: the one that it claims, or else the one that its name announces. -/
def container? (g : ClassGraph) (id : ClassId) : Option ClassId :=
  (g.claimed? id).or (g.announced? id)

/-- Whether the second class is stated to contain the first one, when the classes below `turn`
have been placed and the others are where their names put them. -/
def PlacedIn (g : ClassGraph) (turn : ClassId) (id outer : ClassId) : Prop :=
  (if id < turn then g.container? id else g.announced? id) = some outer

/-- Whether the second class is announced or claimed as the container of the first one. -/
def StatedIn (g : ClassGraph) (id outer : ClassId) : Prop :=
  g.announced? id = some outer ∨ g.claimed? id = some outer

/-- Whether every class is inside its container. -/
def Honoured (g : ClassGraph) : Prop := ∀ id < g.size, (g.classAt id).outer = g.container? id

/-- Only stated containers count at any turn. -/
theorem PlacedIn.statedIn {turn id outer : ClassId} (h : g.PlacedIn turn id outer) :
    g.StatedIn id outer := by
  rw [PlacedIn] at h
  split at h
  · rw [container?, Option.or_eq_some_iff] at h
    exact h.elim .inr fun h => .inl h.2
  · exact .inl h

/-- Only classes of the graph claim containers. -/
theorem lt_size_of_claimed? {id outer : ClassId} (h : g.claimed? id = some outer) :
    id < g.size := by
  refine lt_size_of_classAt_ne fun hdefault => ?_
  rw [claimed?, hdefault] at h
  cases h

/-- Only names of classes of the graph announce containers. -/
theorem lt_size_of_announced? {id outer : ClassId} (h : g.announced? id = some outer) :
    id < g.size := by
  refine lt_size_of_classAt_ne fun hdefault => ?_
  rw [announced?, nameAt, hdefault] at h
  cases h

/-- Only classes of the graph have containers. -/
theorem lt_size_of_container? {id outer : ClassId} (h : g.container? id = some outer) :
    id < g.size := by
  rw [container?, Option.or_eq_some_iff] at h
  obtain hclaimed | ⟨-, hannounced⟩ := h
  · exact lt_size_of_claimed? hclaimed
  · exact lt_size_of_announced? hannounced

/-- What is stated of containers depends only on what is said of classes by themselves. -/
theorem stated_congr (hsize : g'.size = g.size) (hnames : g.DistinctNames)
    (houtline : ∀ id, (g'.classAt id).outline = (g.classAt id).outline) :
    g'.announced? = g.announced? ∧ g'.claimed? = g.claimed? := by
  have hname : ∀ id, g'.nameAt id = g.nameAt id := by
    intro id
    have hname := congrArg ClassSymbol.name (houtline id)
    exact hname
  have hclaimed : ∀ id, claimedContainer? (g'.classAt id) = claimedContainer? (g.classAt id) := by
    intro id
    have hclaimed := congrArg claimedContainer? (houtline id)
    exact hclaimed
  have hid := idOf?_congr hsize hname hnames
  refine ⟨funext fun id => ?_, funext fun id => ?_⟩
  · rw [announced?, announced?, hname, hid]
  · rw [claimed?, claimed?, hclaimed, hid]

/-- Nesting says nothing else of classes. -/
theorem SameButNested.outline_eq (h : SameButNested g g') (id : ClassId) :
    (g'.classAt id).outline = (g.classAt id).outline := by
  rw [h.classAt_eq id]
  rfl

/-! ## Where names put classes -/

/-- Whether every class is inside the container that its name announces. -/
def PutByName (g : ClassGraph) : Prop :=
  ∀ id, g.outerName? id = containerName? (g.nameAt id)

theorem PutByName.empty : PutByName {} := fun _ => rfl

/-- Classes that keep their names and containers are still where their names put them. -/
theorem PutByName.congr (h : g.PutByName) (hname : ∀ id, g'.nameAt id = g.nameAt id)
    (houter : ∀ id, (g'.classAt id).outer = (g.classAt id).outer) : g'.PutByName := by
  intro id
  have hnames : g'.nameAt = g.nameAt := funext hname
  rw [outerName?, houter, hnames]
  exact h id

theorem PutByName.addSymbol (h : g.PutByName) (hforest : g.Forest) {name : String}
    {outer : Option ClassId} (ho : ∀ o ∈ outer, o < g.size)
    (hname : outer.map g.nameAt = containerName? name) :
    (g.addSymbol name outer).2.PutByName := by
  -- the containers are old classes, and these keep their names
  have hold : ∀ {found : Option ClassId}, (∀ o ∈ found, o < g.size) →
      found.map (g.addSymbol name outer).2.nameAt = found.map g.nameAt := by
    intro found hfound
    refine Option.map_congr fun o hmem => ?_
    rw [nameAt_addSymbol g name ho, if_neg (Nat.ne_of_lt (hfound o hmem))]
  intro id
  rw [outerName?, outer_addSymbol g name ho, nameAt_addSymbol g name ho]
  split
  · rw [hold ho]
    exact hname
  · rw [hold fun o hmem => hforest.outer_lt hmem]
    exact h id

/-- A class is created inside the container that its name announces. -/
theorem PutByName.ensureClass (h : g.PutByName) (hnames : g.DistinctNames) (hforest : g.Forest)
    (name : String) : (g.ensureClass name).2.PutByName := by
  induction hlength : name.toList.length using Nat.strong_induction_on generalizing name with
  | _ length ih =>
    subst hlength
    rw [ClassGraph.ensureClass]
    split
    · exact h
    · split
      · rename_i hcontainer
        exact h.addSymbol hforest (by simp) hcontainer.symm
      · rename_i container hcontainer
        have hgrown := ih _ (length_containerName_lt hcontainer) container rfl
        have hensured := ensured_ensureClass hnames hforest container
        refine hgrown.addSymbol hensured.forest (fun o ho => ?_) ?_
        · rw [← Option.some.inj ho]
          exact hensured.lt_size
        · rw [Option.map_some, hensured.nameAt_eq, hcontainer]

theorem PutByName.addClass (h : g.PutByName) (hgrowing : g.Growing) (file : ClassFile) :
    (g.addClass file).2.PutByName := by
  have hgrown := h.ensureClass hgrowing.names hgrowing.forest file.name
  unfold ClassGraph.addClass
  generalize g.ensureClass file.name = result at hgrown
  obtain ⟨id, grown⟩ := result
  dsimp only at hgrown ⊢
  split
  · exact hgrown
  · refine hgrown.congr (fun x => ?_) fun x => ?_
    · rw [nameAt, classAt_load]
      split <;> rfl
    · rw [classAt_load]
      split <;> rfl

theorem PutByName.relate (h : g.PutByName) : g.relate.PutByName :=
  h.congr (nameAt_relate g) fun id => by rw [classAt_relate]

/-- Where names put classes is where they announce their containers. -/
theorem PutByName.outer_eq (h : g.PutByName) (hnames : g.DistinctNames) (hforest : g.Forest)
    (id : ClassId) : (g.classAt id).outer = g.announced? id := by
  have hname := h id
  rw [outerName?] at hname
  rw [announced?, ← hname]
  cases houter : (g.classAt id).outer with
  | none => rfl
  | some outer => exact (hnames.idOf?_nameAt (hforest.outer_lt houter)).symm

/-! ## One turn -/

/-- At its turn a class stays where it is, because it claims no container or one that is inside it,
or it is moved into the container that it claims. The other classes stay where they are. -/
inductive Turn (g : ClassGraph) (id : ClassId) (g' : ClassGraph) : Prop where
  /-- The class stays. -/
  | stays (outer_eq : ∀ x, (g'.classAt x).outer = (g.classAt x).outer)
    (inside : ∀ outer, g.claimed? id = some outer → ReflTransGen g.ContainedIn outer id)
  /-- The class is moved. -/
  | moves {outer : ClassId} (claimed : g.claimed? id = some outer)
    (apart : ¬ ReflTransGen g.ContainedIn outer id)
    (outer_eq : ∀ x, (g'.classAt x).outer = if x = id then some outer else (g.classAt x).outer)

theorem Forest.turn_nest (h : g.Forest) {id : ClassId} (hid : id < g.size) :
    g.Turn id (g.nest id) := by
  cases hclaimed : g.claimed? id with
  | none =>
    rw [ClassGraph.nest, show (claimedContainer? (g.classAt id)).bind g.idOf? = none from hclaimed]
    exact .stays (fun x => rfl) fun outer houter => by rw [hclaimed] at houter; cases houter
  | some outer =>
    rw [ClassGraph.nest,
      show (claimedContainer? (g.classAt id)).bind g.idOf? = some outer from hclaimed]
    dsimp only
    obtain ⟨name, -, hname⟩ := Option.bind_eq_some_iff.1 hclaimed
    have houter : outer < g.size := (of_idOf? hname).1
    split
    · rename_i hinside
      refine .stays (fun x => rfl) fun other hother => ?_
      rw [hclaimed] at hother
      exact Option.some.inj hother ▸ h.isNestedIn_iff.1 hinside
    · rename_i hapart
      refine .moves hclaimed (fun hup => hapart (h.isNestedIn_iff.2 hup)) fun x => ?_
      by_cases hcurrent : (g.classAt id).outer = some outer
      · rw [ClassGraph.moveUnder, if_pos hcurrent]
        split
        · rename_i hx
          rw [hx, hcurrent]
        · rfl
      · exact (classAt_moveUnder h hid houter hcurrent x).1

/-! ## All turns -/

/-- The graph when the classes below a number have had their turns. -/
def afterTurns (g : ClassGraph) (turn : Nat) : ClassGraph := (List.range turn).foldl nest g

theorem afterTurns_succ (g : ClassGraph) (turn : Nat) :
    g.afterTurns (turn + 1) = (g.afterTurns turn).nest turn := by
  rw [afterTurns, afterTurns, List.range_succ, List.foldl_append]
  rfl

theorem sameButNested_afterTurns (g : ClassGraph) (turn : Nat) :
    SameButNested g (g.afterTurns turn) := by
  induction turn with
  | zero => exact .refl g
  | succ turn ih =>
    rw [afterTurns_succ]
    exact ih.trans (.nest _ turn)

theorem Forest.afterTurns (h : g.Forest) {turn : Nat} (hturn : turn ≤ g.size) :
    (g.afterTurns turn).Forest := by
  induction turn with
  | zero => exact h
  | succ turn ih =>
    rw [afterTurns_succ]
    refine (ih (Nat.le_of_succ_le hturn)).nest ?_
    rw [(sameButNested_afterTurns g turn).size_eq]
    exact hturn

section Turns

variable (hnames : g.DistinctNames) (hforest : g.Forest)
include hnames hforest

/-- What happens at a turn, in terms of what is claimed in the graph. -/
theorem turn_afterTurns {turn : Nat} (hturn : turn < g.size) :
    (g.afterTurns turn).Turn turn (g.afterTurns (turn + 1)) ∧
      (g.afterTurns turn).claimed? = g.claimed? := by
  have hsame := sameButNested_afterTurns g turn
  rw [afterTurns_succ]
  exact ⟨(hforest.afterTurns (Nat.le_of_lt hturn)).turn_nest (hsame.size_eq ▸ hturn),
    (stated_congr hsame.size_eq hnames hsame.outline_eq).2⟩

/-- A turn changes the container of its own class only. -/
theorem outer_afterTurns_succ {turn x : Nat} (hturn : turn < g.size) (hx : x ≠ turn) :
    ((g.afterTurns (turn + 1)).classAt x).outer = ((g.afterTurns turn).classAt x).outer := by
  cases (turn_afterTurns hnames hforest hturn).1 with
  | stays houter => exact houter x
  | moves hclaimed hapart houter => rw [houter, if_neg hx]

/-- Before its turn a class is where it was. -/
theorem outer_afterTurns_of_le {turn x : Nat} (hturn : turn ≤ g.size) (hx : turn ≤ x) :
    ((g.afterTurns turn).classAt x).outer = (g.classAt x).outer := by
  induction turn with
  | zero => rfl
  | succ turn ih =>
    rw [outer_afterTurns_succ hnames hforest hturn (Nat.ne_of_gt hx)]
    exact ih (Nat.le_of_succ_le hturn) (Nat.le_of_succ_le hx)

/-- After its turn a class stays where it is. -/
theorem outer_afterTurns_of_lt {turn turn' x : Nat} (hturn : turn ≤ turn')
    (hturn' : turn' ≤ g.size) (hx : x < turn) :
    ((g.afterTurns turn').classAt x).outer = ((g.afterTurns turn).classAt x).outer := by
  induction turn', hturn using Nat.le_induction with
  | base => rfl
  | succ turn' hle ih =>
    rw [outer_afterTurns_succ hnames hforest hturn'
      (Nat.ne_of_lt (Nat.lt_of_lt_of_le hx hle))]
    exact ih (Nat.le_of_succ_le hturn')

variable (hput : ∀ id, (g.classAt id).outer = g.announced? id)
include hput

/-- In the end every class is in its container or in the one that its name announces. -/
theorem outer_nestAll (id : ClassId) :
    (g.nestAll.classAt id).outer = g.container? id ∨
      (g.nestAll.classAt id).outer = g.announced? id := by
  by_cases hid : id < g.size
  · obtain ⟨hturn, hclaims⟩ := turn_afterTurns hnames hforest hid
    have hbefore := outer_afterTurns_of_le hnames hforest (Nat.le_of_lt hid) (Nat.le_refl id)
    have hafter := outer_afterTurns_of_lt hnames hforest (Nat.succ_le_of_lt hid)
      (Nat.le_refl _) (Nat.lt_succ_self id)
    have hall : g.nestAll = g.afterTurns g.size := rfl
    rw [hall, hafter]
    cases hturn with
    | stays houter =>
      right
      rw [houter, hbefore, hput]
    | moves hclaimed hapart houter =>
      left
      rw [hclaims] at hclaimed
      rw [houter, if_pos rfl, container?, hclaimed]
      rfl
  · right
    have hsame := SameButNested.nestAll g
    have hle := Nat.le_of_not_lt hid
    rw [← hput, classAt_of_size_le hle, classAt_of_size_le (hsame.size_eq ▸ hle)]

/-- If all classes come into their containers, then before each turn they are where they are placed
by then. -/
theorem containedIn_afterTurns_of_honoured
    (hhonoured : ∀ id < g.size, (g.nestAll.classAt id).outer = g.container? id) {turn : Nat}
    (hturn : turn ≤ g.size) : (g.afterTurns turn).ContainedIn = g.PlacedIn turn := by
  have hall : g.nestAll = g.afterTurns g.size := rfl
  funext x outer
  rw [ContainedIn, PlacedIn]
  split
  · rename_i hx
    rw [← hhonoured x (Nat.lt_of_lt_of_le hx hturn), hall,
      outer_afterTurns_of_lt hnames hforest hturn (Nat.le_refl _) hx]
  · rename_i hx
    rw [outer_afterTurns_of_le hnames hforest hturn (Nat.le_of_not_lt hx), hput]

/-- If no claim is in the way, then before each turn the classes are where they are placed by
then. -/
theorem containedIn_afterTurns_of_free
    (hfree : ∀ id outer, g.claimed? id = some outer → ¬ ReflTransGen (g.PlacedIn id) outer id)
    {turn : Nat} (hturn : turn ≤ g.size) : (g.afterTurns turn).ContainedIn = g.PlacedIn turn := by
  induction turn with
  | zero =>
    funext x outer
    rw [PlacedIn, if_neg (Nat.not_lt_zero x), ← hput]
    rfl
  | succ turn ih =>
    have ih := ih (Nat.le_of_succ_le hturn)
    funext x outer
    by_cases hx : x = turn
    · subst hx
      obtain ⟨hmove, hclaims⟩ := turn_afterTurns hnames hforest hturn
      rw [ContainedIn, PlacedIn, if_pos (Nat.lt_succ_self x), container?]
      cases hmove with
      | stays houter hinside =>
        have hnone : g.claimed? x = none := by
          refine Option.eq_none_iff_forall_ne_some.2 fun outer hclaimed => ?_
          have hup := hinside outer (hclaims ▸ hclaimed)
          rw [ih] at hup
          exact hfree x outer hclaimed hup
        rw [houter, outer_afterTurns_of_le hnames hforest (Nat.le_of_succ_le hturn) (Nat.le_refl x),
          hput, hnone, Option.none_or]
      | moves hclaimed hapart houter =>
        rw [hclaims] at hclaimed
        rw [houter, if_pos rfl, hclaimed, Option.some_or]
    · have hsame : x < turn + 1 ↔ x < turn :=
        ⟨fun hlt => Nat.lt_of_le_of_ne (Nat.le_of_lt_succ hlt) hx, Nat.lt_succ_of_lt⟩
      rw [ContainedIn, outer_afterTurns_succ hnames hforest hturn hx, PlacedIn]
      simp only [hsame]
      exact congrFun (congrFun ih x) outer

/-- All classes come into their containers exactly if at no turn the claimed container is inside
the class, as far as classes are placed by then. -/
theorem honoured_nestAll_iff :
    (∀ id < g.size, (g.nestAll.classAt id).outer = g.container? id) ↔
      ∀ id outer, g.claimed? id = some outer → ¬ ReflTransGen (g.PlacedIn id) outer id := by
  have hall : g.nestAll = g.afterTurns g.size := rfl
  constructor
  · intro hhonoured id outer hclaimed hup
    have hid := lt_size_of_claimed? hclaimed
    obtain ⟨hturn, hclaims⟩ := turn_afterTurns hnames hforest hid
    rw [← containedIn_afterTurns_of_honoured hnames hforest hput hhonoured
      (Nat.le_of_lt hid)] at hup
    cases hturn with
    | stays houter =>
      -- the class is in its container already, and that one is inside it
      have hend := hhonoured id hid
      rw [hall, outer_afterTurns_of_lt hnames hforest (Nat.succ_le_of_lt hid) (Nat.le_refl _)
        (Nat.lt_succ_self id), container?, hclaimed, Option.some_or, houter] at hend
      exact (hforest.afterTurns (Nat.le_of_lt hid)).not_transGen_self id (.head' hend hup)
    | moves hclaimed' hapart =>
      rw [hclaims, hclaimed] at hclaimed'
      exact hapart (Option.some.inj hclaimed' ▸ hup)
  · intro hfree id hid
    have hend := containedIn_afterTurns_of_free hnames hforest hput hfree (Nat.le_refl g.size)
    refine Option.ext fun outer => ?_
    have houter := congrFun (congrFun hend id) outer
    rw [ContainedIn, PlacedIn, if_pos hid, ← hall] at houter
    rw [houter]

end Turns

end ClassGraph

/-- The container that a class file claims: the class that declares its class, or else the one
that encloses it. -/
def ClassFile.claimedContainer? (file : ClassFile) : Option String :=
  file.declaring.or (file.enclosure.map Enclosure.className)

namespace GraphBuilder

open ClassGraph

/-- Adding class files leaves classes where their names put them. -/
theorem putByName_foldl_addClass (files : List ClassFile) (b : GraphBuilder)
    (hgrowing : b.draft.Growing) (h : b.draft.PutByName) :
    (files.foldl (fun (b : GraphBuilder) file => (b.addClass file).2) b).draft.PutByName := by
  induction files generalizing b with
  | nil => exact h
  | cons file files ih => exact ih _ (hgrowing.addClass file) (h.addClass hgrowing file)

variable (files : List ClassFile)

/-- The graph of class files comes from one in which classes are where their names put them, by
nesting them and changing methods. -/
theorem exists_nestAll : ∃ g : ClassGraph, g.DistinctNames ∧ g.Forest ∧
    (∀ id, (g.classAt id).outer = g.announced? id) ∧ (build files).size = g.size ∧
    (build files).announced? = g.announced? ∧ (build files).claimed? = g.claimed? ∧
    ∀ id, ((build files).classAt id).outer = (g.nestAll.classAt id).outer := by
  have hgrowing := (growing_foldl_addClass files {} .empty).relate
  have hput := (putByName_foldl_addClass files {} .empty .empty).relate
  have hgraph : build files = ClassGraph.join (ClassGraph.nestAll
    (files.foldl (fun (b : GraphBuilder) file => (b.addClass file).2) {}).draft.relate) :=
      build_eq_join files
  generalize (files.foldl (fun (b : GraphBuilder) file => (b.addClass file).2) {}).draft.relate =
    g at hgrowing hput hgraph
  have hsame := SameButNested.nestAll g
  have hsize : (build files).size = g.size := by
    rw [hgraph, size_join, hsame.size_eq]
  have hstated := stated_congr hsize hgrowing.names fun id => by
    rw [hgraph, classAt_join, ← hsame.outline_eq]
    rfl
  refine ⟨g, hgrowing.names, hgrowing.forest, hput.outer_eq hgrowing.names hgrowing.forest, hsize,
    hstated.1, hstated.2, fun id => ?_⟩
  rw [hgraph, classAt_join]

/-- Every class is in its container or in the one that its name announces. -/
theorem outer_build (id : ClassId) :
    ((build files).classAt id).outer = (build files).container? id ∨
      ((build files).classAt id).outer = (build files).announced? id := by
  obtain ⟨g, hnames, hforest, hput, -, hannounced, hclaimed, houter⟩ := exists_nestAll files
  rw [houter, container?, hannounced, hclaimed]
  exact outer_nestAll hnames hforest hput id

/-- All classes are in their containers exactly if at no turn the claimed container is inside the
class, as far as classes are placed by then. -/
theorem honoured_build_iff : (build files).Honoured ↔
    ∀ id outer, (build files).claimed? id = some outer →
      ¬ ReflTransGen ((build files).PlacedIn id) outer id := by
  obtain ⟨g, hnames, hforest, hput, hsize, hannounced, hclaimed, houter⟩ := exists_nestAll files
  have hcontainer : (build files).container? = g.container? := by
    funext id
    rw [container?, container?, hannounced, hclaimed]
  have hplaced : (build files).PlacedIn = g.PlacedIn := by
    funext turn id outer
    rw [PlacedIn, PlacedIn, hcontainer, hannounced]
  rw [Honoured, hsize, hcontainer, hclaimed, hplaced, ← honoured_nestAll_iff hnames hforest hput]
  simp only [houter]

/-- If no containers that are stated form a cycle, all classes are in their containers, in
whatever order the class files have been added. -/
theorem honoured_build_of_acyclic (hacyclic : ∀ id, ¬ TransGen (build files).StatedIn id id) :
    (build files).Honoured := by
  rw [honoured_build_iff]
  intro id outer hclaimed hup
  refine hacyclic id (.head' (.inr hclaimed) ?_)
  exact ReflTransGen.mono (fun _ _ => PlacedIn.statedIn) _ _ hup

/-- A class claims the container that its class file claims. -/
theorem claimedContainer?_build {id : ClassId} (hid : id < (build files).size) :
    claimedContainer? ((build files).classAt id) =
      (ClassFile.named? files ((build files).nameAt id)).bind ClassFile.claimedContainer? := by
  have houtline : ∀ c : ClassSymbol,
      ClassGraph.claimedContainer? c = ClassGraph.claimedContainer? c.outline := fun _ => rfl
  rw [houtline, outline_build hid]
  cases ClassFile.named? files ((build files).nameAt id) with
  | none => rfl
  | some file => rfl

/-- Where the classes of class files come to be. -/
structure PlacesClasses : Prop where
  /-- Classes claim what their class files claim. -/
  claims : ∀ id < (build files).size, claimedContainer? ((build files).classAt id) =
    (ClassFile.named? files ((build files).nameAt id)).bind ClassFile.claimedContainer?
  /-- Every class is in its container or in the one that its name announces. -/
  outer_eq : ∀ id, ((build files).classAt id).outer = (build files).container? id ∨
    ((build files).classAt id).outer = (build files).announced? id
  /-- All classes are in their containers exactly if no class finds at its turn that the container
  that it claims is inside it. -/
  honoured_iff : (build files).Honoured ↔
    ∀ id outer, (build files).claimed? id = some outer →
      ¬ ReflTransGen ((build files).PlacedIn id) outer id
  /-- That is so in any order if no containers that are stated form a cycle. -/
  honoured_of_acyclic : (∀ id, ¬ TransGen (build files).StatedIn id id) → (build files).Honoured

/-- Every list of class files places its classes so. -/
theorem placesClasses_build : PlacesClasses files where
  claims _ hid := claimedContainer?_build files hid
  outer_eq := outer_build files
  honoured_iff := honoured_build_iff files
  honoured_of_acyclic := honoured_build_of_acyclic files

/-- Class files of a class inside a class that moves away from above it. -/
def crossingFiles : List ClassFile :=
  [{ name := "v", declaring := some "x" }, { name := "x", declaring := some "v$w" },
    { name := "v$w", declaring := some "c" }, { name := "c" }]

/-- The containers lead from `v` over `x` and `v$w` to `c`. Yet `x`, when it has its turn, finds
`v$w` inside it, since that is inside `v` still, and `v` is inside `x` already. If the class file of
`v$w` comes first, all classes come into their containers. -/
theorem not_honoured_crossingFiles :
    (crossingFiles.map (·.name)).Nodup ∧
      (∀ id, ¬ TransGen (fun a b => (build crossingFiles).container? a = some b) id id) ∧
      (build crossingFiles).container? 1 = some 2 ∧
      ((build crossingFiles).classAt 1).outer = none ∧ ¬ (build crossingFiles).Honoured ∧
      ∃ files, files.Perm crossingFiles ∧ (build files).Honoured := by
  have hsize : (build crossingFiles).size = 4 := by decide +kernel
  have hrising : ∀ a < 4, ∀ b ∈ (build crossingFiles).container? a, a < b := by decide +kernel
  have hcontainer : (build crossingFiles).container? 1 = some 2 := by decide +kernel
  have houter : ((build crossingFiles).classAt 1).outer = none := by decide +kernel
  refine ⟨by decide, fun id hcycle => ?_, hcontainer, houter, fun hhonoured => ?_, ?_⟩
  · have hlt : TransGen (fun a b => (build crossingFiles).container? a = some b) ≤ (· < ·) :=
      transGen_minimal fun a b hab => hrising a (hsize ▸ lt_size_of_container? hab) b hab
    exact Nat.lt_irrefl id (hlt id id hcycle)
  · have hhonoured := hhonoured 1 (by rw [hsize]; decide)
    rw [houter, hcontainer] at hhonoured
    cases hhonoured
  · refine ⟨[{ name := "v$w", declaring := some "c" }, { name := "v", declaring := some "x" },
      { name := "x", declaring := some "v$w" }, { name := "c" }], by decide, ?_⟩
    rw [Honoured]
    decide +kernel

end GraphBuilder

end StableNaming
