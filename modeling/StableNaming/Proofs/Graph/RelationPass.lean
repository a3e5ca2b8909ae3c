import StableNaming.Proofs.Graph.Growth

/-!
# The turns of the relation pass

The turn of a class appends its name to the lists of its super class and of its interfaces that are
in the graph, and leaves all other lists alone. So after any number of turns each list has the names
of those of the classes dealt with that have the class as super class, or as an interface, once each
and in their order. The nesting that goes on meanwhile depends on no such list, and changes none:
the pass comes to entering all edges first and nesting all classes then.
-/

namespace StableNaming

/-- A name that is put into a list twice stands there once. -/
theorem addName_addName (names : List String) (name : String) :
    addName (addName names name) name = addName names name := by
  by_cases h : name ∈ names <;> simp [addName, h]

theorem addName_of_notMem {names : List String} {name : String} (h : name ∉ names) :
    addName names name = names ++ [name] := by
  simp [addName, h]

namespace ClassGraph

variable {g g' : ClassGraph}

/-- Graphs with the same classes and methods are the same. -/
theorem ext_classAt (hsize : g'.size = g.size) (hmethods : g'.methods = g.methods)
    (hclass : ∀ id < g.size, g'.classAt id = g.classAt id) : g' = g := by
  obtain ⟨classes, methods⟩ := g
  obtain ⟨classes', methods'⟩ := g'
  obtain rfl : methods' = methods := hmethods
  refine congrArg (ClassGraph.mk · methods') (Array.ext hsize fun id hid' hid => ?_)
  have hsame := hclass id hid
  rwa [classAt, classAt, Array.getElem?_eq_getElem hid, Array.getElem?_eq_getElem hid',
    Option.getD_some, Option.getD_some] at hsame

/-- The classes of a graph, in the order of their numbers. -/
theorem toList_classes (g : ClassGraph) : g.classes.toList = g.ids.map g.classAt := by
  refine List.ext_getElem ?_ fun id hid _ => ?_
  · rw [List.length_map, ids, List.length_range]
    rfl
  · have hid : id < g.classes.size := hid
    simp [ids, classAt, hid]

/-! ## Graphs that agree but for edges -/

/-- Whether two graphs differ at most in the lists of subclasses and implementers. -/
structure SameButEdges (g g' : ClassGraph) : Prop where
  /-- There are as many classes. -/
  size_eq : g'.size = g.size
  /-- The methods are the same. -/
  methods_eq : g'.methods = g.methods
  /-- Each class is the same, but for the classes below it. -/
  classAt_eq : ∀ id, g'.classAt id =
    { g.classAt id with
      subclasses := (g'.classAt id).subclasses
      implementers := (g'.classAt id).implementers }

namespace SameButEdges

theorem refl (g : ClassGraph) : SameButEdges g g := ⟨rfl, rfl, fun _ => rfl⟩

theorem trans {g₁ g₂ g₃ : ClassGraph} (h : SameButEdges g₁ g₂) (h' : SameButEdges g₂ g₃) :
    SameButEdges g₁ g₃ where
  size_eq := h'.size_eq.trans h.size_eq
  methods_eq := h'.methods_eq.trans h.methods_eq
  classAt_eq id := by
    have hlast := h'.classAt_eq id
    rw [h.classAt_eq id] at hlast
    exact hlast

theorem nameAt_eq (h : SameButEdges g g') (id : ClassId) : g'.nameAt id = g.nameAt id := by
  rw [nameAt, h.classAt_eq id]
  rfl

theorem outer_eq (h : SameButEdges g g') (id : ClassId) :
    (g'.classAt id).outer = (g.classAt id).outer := by
  rw [h.classAt_eq id]

theorem idOf?_eq (h : SameButEdges g g') (hnames : g.DistinctNames) : g'.idOf? = g.idOf? :=
  idOf?_congr h.size_eq h.nameAt_eq hnames

theorem isNestedIn_eq (h : SameButEdges g g') (id ancestor : ClassId) :
    g'.isNestedIn id ancestor = g.isNestedIn id ancestor := by
  have hcontainers : ∀ (fuel : Nat) (id : ClassId),
      g'.containersFrom fuel id = g.containersFrom fuel id := by
    intro fuel
    induction fuel with
    | zero => exact fun id => rfl
    | succ fuel ih =>
      intro id
      simp only [containersFrom, h.outer_eq id, ih]
  rw [isNestedIn, isNestedIn, containers, containers, h.size_eq, hcontainers]

/-- Changing a list of subclasses or implementers. -/
theorem of_modifyClass (g : ClassGraph) (o : ClassId) {f : ClassSymbol → ClassSymbol}
    (hf : ∀ c, f c =
      { c with subclasses := (f c).subclasses, implementers := (f c).implementers }) :
    SameButEdges g (g.modifyClass o f) where
  size_eq := size_modifyClass g o f
  methods_eq := methods_modifyClass g o f
  classAt_eq id := by
    rw [classAt_modifyClass]
    split
    · exact hf _
    · rfl

/-- A change that does not depend on edges. -/
theorem modifyClass (h : SameButEdges g g') (o : ClassId) {f : ClassSymbol → ClassSymbol}
    (hf : ∀ c subclasses implementers,
      f { c with subclasses, implementers } = { f c with subclasses, implementers }) :
    SameButEdges (g.modifyClass o f) (g'.modifyClass o f) where
  size_eq := by rw [size_modifyClass, size_modifyClass, h.size_eq]
  methods_eq := h.methods_eq
  classAt_eq id := by
    rw [classAt_modifyClass, classAt_modifyClass, h.size_eq]
    split
    · rw [h.classAt_eq id, hf]
    · exact h.classAt_eq id

theorem moveUnder (h : SameButEdges g g') (id outer : ClassId) :
    SameButEdges (g.moveUnder id outer) (g'.moveUnder id outer) := by
  unfold ClassGraph.moveUnder
  rw [h.outer_eq id]
  dsimp only
  split
  · exact h
  · refine modifyClass (modifyClass ?_ _ fun _ _ _ => rfl) _ fun _ _ _ => rfl
    split
    · exact h.modifyClass _ fun _ _ _ => rfl
    · exact h

/-- Nesting does not depend on edges. -/
theorem nest (h : SameButEdges g g') (hnames : g.DistinctNames) (id : ClassId) :
    SameButEdges (g.nest id) (g'.nest id) := by
  have hclaimed : claimedContainer? (g'.classAt id) = claimedContainer? (g.classAt id) := by
    rw [h.classAt_eq id]
    rfl
  unfold ClassGraph.nest
  rw [hclaimed, h.idOf?_eq hnames]
  split
  · exact h
  · rw [h.isNestedIn_eq]
    split
    · exact h
    · exact h.moveUnder _ _

theorem foldl_nest (h : SameButEdges g g') (hnames : g.DistinctNames) (ids : List ClassId) :
    SameButEdges (ids.foldl ClassGraph.nest g) (ids.foldl ClassGraph.nest g') := by
  induction ids generalizing g g' with
  | nil => exact h
  | cons id ids ih =>
    exact ih (h.nest hnames id) ((SameButNested.nest g id).distinctNames hnames)

theorem relate (g : ClassGraph) : SameButEdges g g.relate := ⟨size_relate g, rfl, classAt_relate g⟩

/-- Entering edges leaves the containers where they are. -/
theorem forest (h : SameButEdges g g') (hforest : g.Forest) : g'.Forest :=
  hforest.congr (Nat.le_of_eq h.size_eq.symm) h.outer_eq fun id => by rw [h.classAt_eq id]

end SameButEdges

/-! ## The turn of a class -/

section Turn

variable (name : String) (upper : ClassId)

theorem sameButEdges_addSubclass (g : ClassGraph) : SameButEdges g (g.addSubclass name upper) :=
  .of_modifyClass g upper fun _ => rfl

theorem sameButEdges_addImplementer (g : ClassGraph) :
    SameButEdges g (g.addImplementer name upper) :=
  .of_modifyClass g upper fun _ => rfl

/-- A name is listed with the subclasses of one class. -/
theorem subclasses_addSubclass {x : ClassId} (hx : x < g.size) :
    ((g.addSubclass name upper).classAt x).subclasses =
      if upper = x then addName (g.classAt x).subclasses name else (g.classAt x).subclasses := by
  rw [addSubclass, classAt_modifyClass]
  by_cases hupper : upper = x
  · rw [if_pos ⟨hupper.symm, hx⟩, if_pos hupper]
  · rw [if_neg fun h => hupper h.1.symm, if_neg hupper]

theorem implementers_addSubclass (x : ClassId) :
    ((g.addSubclass name upper).classAt x).implementers = (g.classAt x).implementers := by
  rw [addSubclass, classAt_modifyClass]
  split <;> rfl

/-- A name is listed with the implementers of one class. -/
theorem implementers_addImplementer {x : ClassId} (hx : x < g.size) :
    ((g.addImplementer name upper).classAt x).implementers =
      if upper = x then addName (g.classAt x).implementers name
      else (g.classAt x).implementers := by
  rw [addImplementer, classAt_modifyClass]
  by_cases hupper : upper = x
  · rw [if_pos ⟨hupper.symm, hx⟩, if_pos hupper]
  · rw [if_neg fun h => hupper h.1.symm, if_neg hupper]

theorem subclasses_addImplementer (x : ClassId) :
    ((g.addImplementer name upper).classAt x).subclasses = (g.classAt x).subclasses := by
  rw [addImplementer, classAt_modifyClass]
  split <;> rfl

/-- A name is listed once with the implementers of each class, however often the class comes up. -/
theorem foldl_addImplementer (uppers : List ClassId) (g : ClassGraph) :
    SameButEdges g (uppers.foldl (·.addImplementer name) g) ∧ ∀ x < g.size,
      ((uppers.foldl (·.addImplementer name) g).classAt x).subclasses =
          (g.classAt x).subclasses ∧
        ((uppers.foldl (·.addImplementer name) g).classAt x).implementers =
          if x ∈ uppers then addName (g.classAt x).implementers name
          else (g.classAt x).implementers := by
  induction uppers generalizing g with
  | nil => exact ⟨.refl g, fun x _ => ⟨rfl, rfl⟩⟩
  | cons upper uppers ih =>
    have hfirst := sameButEdges_addImplementer name upper g
    obtain ⟨hsame, hlists⟩ := ih (g.addImplementer name upper)
    refine ⟨hfirst.trans hsame, fun x hx => ?_⟩
    obtain ⟨hsubclasses, himplementers⟩ := hlists x (hfirst.size_eq.symm ▸ hx)
    refine ⟨hsubclasses.trans (subclasses_addImplementer name upper x), himplementers.trans ?_⟩
    rw [implementers_addImplementer name upper hx]
    by_cases hupper : x = upper
    · by_cases hmem : x ∈ uppers <;> simp [hupper.symm, hmem, addName_addName]
    · simp [hupper, Ne.symm hupper]

/-- What the turn of a class enters. -/
theorem enterEdges_spec (g : ClassGraph) (find : String → Option ClassId) (id : ClassId) :
    SameButEdges g (g.enterEdges find id) ∧ ∀ x < g.size,
      ((g.enterEdges find id).classAt x).subclasses =
          (if (g.classAt id).superName.bind find = some x then
            addName (g.classAt x).subclasses (g.nameAt id)
          else (g.classAt x).subclasses) ∧
        ((g.enterEdges find id).classAt x).implementers =
          if x ∈ (g.classAt id).interfaces.filterMap find then
            addName (g.classAt x).implementers (g.nameAt id)
          else (g.classAt x).implementers := by
  unfold enterEdges
  dsimp only
  cases hsuper : (g.classAt id).superName.bind find with
  | none => exact foldl_addImplementer (g.nameAt id) _ g
  | some upper =>
    have hfirst := sameButEdges_addSubclass (g.nameAt id) upper g
    obtain ⟨hsame, hlists⟩ := foldl_addImplementer (g.nameAt id)
      ((g.classAt id).interfaces.filterMap find) (g.addSubclass (g.nameAt id) upper)
    refine ⟨hfirst.trans hsame, fun x hx => ?_⟩
    obtain ⟨hsubclasses, himplementers⟩ := hlists x (hfirst.size_eq.symm ▸ hx)
    rw [implementers_addSubclass] at himplementers
    refine ⟨hsubclasses.trans ?_, himplementers⟩
    rw [subclasses_addSubclass _ _ hx]
    simp only [Option.some_inj]

end Turn

theorem size_relateClass (g : ClassGraph) (id : ClassId) : (g.relateClass id).size = g.size :=
  (SameButNested.nest _ id).size_eq.trans (enterEdges_spec g g.idOf? id).1.size_eq

/-- The turn of a class keeps the forest. -/
theorem Forest.relateClass (h : g.Forest) {id : ClassId} (hid : id < g.size) :
    (g.relateClass id).Forest := by
  have hsame := (enterEdges_spec g g.idOf? id).1
  exact (hsame.forest h).nest (hsame.size_eq.symm ▸ hid)

/-! ## The run -/

/-- Whether no edges have been entered yet. -/
def Edgeless (g : ClassGraph) : Prop :=
  ∀ id, (g.classAt id).subclasses = [] ∧ (g.classAt id).implementers = []

/-- The names of those of the first classes that `below` picks out. -/
def firstNames (g : ClassGraph) (n : Nat) (below : ClassId → Bool) : List String :=
  ((List.range n).filter below).map g.nameAt

/-- The next class goes to the end. -/
theorem firstNames_succ (hnames : g.DistinctNames) {n : Nat} (hn : n < g.size)
    (below : ClassId → Bool) :
    g.firstNames (n + 1) below =
      if below n = true then addName (g.firstNames n below) (g.nameAt n)
      else g.firstNames n below := by
  have hnew : g.nameAt n ∉ g.firstNames n below := by
    intro hmem
    obtain ⟨y, hy, hname⟩ := List.mem_map.1 hmem
    have hlt := List.mem_range.1 (List.mem_filter.1 hy).1
    exact Nat.ne_of_lt hlt (hnames (hlt.trans hn) hn hname)
  rw [addName_of_notMem hnew, firstNames, firstNames, List.range_succ, List.filter_append,
    List.map_append]
  by_cases hbelow : below n = true <;> simp [hbelow]

/-- What the relation pass has made of a graph after `n` turns. -/
structure Related (g : ClassGraph) (n : Nat) (g' : ClassGraph) : Prop where
  /-- The first classes are nested. -/
  same : SameButEdges ((List.range n).foldl nest g) g'
  /-- The first classes are listed with their super classes. -/
  subclasses_eq : ∀ x < g.size, (g'.classAt x).subclasses =
    g.firstNames n fun y => (g.classAt y).superName == some (g.nameAt x)
  /-- The first classes are listed with their interfaces. -/
  implementers_eq : ∀ x < g.size, (g'.classAt x).implementers =
    g.firstNames n fun y => (g.classAt y).interfaces.contains (g.nameAt x)

/-- The turn of the next class. -/
theorem Related.relateClass (hnames : g.DistinctNames) {n : Nat} (hn : n < g.size)
    (h : g.Related n g') : g.Related (n + 1) (g'.relateClass n) := by
  have hnested := SameButNested.foldl_nest (List.range n) g
  have hname : ∀ id, g'.nameAt id = g.nameAt id := fun id =>
    (h.same.nameAt_eq id).trans (hnested.nameAt_eq id)
  have hsize : g'.size = g.size := h.same.size_eq.trans hnested.size_eq
  have hfind : g'.idOf? = g.idOf? := idOf?_congr hsize hname hnames
  have hsuper : (g'.classAt n).superName = (g.classAt n).superName := by
    rw [h.same.classAt_eq, hnested.classAt_eq]
  have hinterfaces : (g'.classAt n).interfaces = (g.classAt n).interfaces := by
    rw [h.same.classAt_eq, hnested.classAt_eq]
  obtain ⟨hedges, hlists⟩ := enterEdges_spec g' g'.idOf? n
  have hturn := SameButNested.nest (g'.enterEdges g'.idOf? n) n
  refine ⟨?_, fun x hx => ?_, fun x hx => ?_⟩
  · rw [List.range_succ, List.foldl_append]
    exact (h.same.trans hedges).nest (hnested.distinctNames hnames) n
  · have hiff : (g.classAt n).superName.bind g.idOf? = some x ↔
        ((g.classAt n).superName == some (g.nameAt x)) = true := by
      rw [Option.bind_eq_some_iff, beq_iff_eq]
      simp only [hnames.idOf?_eq_some_iff, hx, true_and]
      constructor
      · rintro ⟨name, hname, rfl⟩
        exact hname
      · exact fun hname => ⟨_, hname, rfl⟩
    have hlist : ((g'.relateClass n).classAt x).subclasses =
        ((g'.enterEdges g'.idOf? n).classAt x).subclasses := by
      rw [ClassGraph.relateClass, hturn.classAt_eq]
    rw [hlist, (hlists x (hsize ▸ hx)).1, h.subclasses_eq x hx, hname, hsuper, hfind,
      firstNames_succ hnames hn]
    simp only [hiff]
  · have hiff : x ∈ (g.classAt n).interfaces.filterMap g.idOf? ↔
        (g.classAt n).interfaces.contains (g.nameAt x) = true := by
      rw [List.mem_filterMap, List.contains_iff_mem]
      simp only [hnames.idOf?_eq_some_iff, hx, true_and]
      constructor
      · rintro ⟨name, hname, rfl⟩
        exact hname
      · exact fun hname => ⟨_, hname, rfl⟩
    have hlist : ((g'.relateClass n).classAt x).implementers =
        ((g'.enterEdges g'.idOf? n).classAt x).implementers := by
      rw [ClassGraph.relateClass, hturn.classAt_eq]
    rw [hlist, (hlists x (hsize ▸ hx)).2, h.implementers_eq x hx, hname, hinterfaces, hfind,
      firstNames_succ hnames hn]
    simp only [hiff]

/-- The turns of the first classes. -/
theorem Edgeless.related (h : g.Edgeless) (hnames : g.DistinctNames) {n : Nat} (hn : n ≤ g.size) :
    g.Related n ((List.range n).foldl relateClass g) := by
  induction n with
  | zero => exact ⟨.refl g, fun x _ => (h x).1, fun x _ => (h x).2⟩
  | succ n ih =>
    have hnext := (ih (Nat.le_of_succ_le hn)).relateClass hnames hn
    rw [List.range_succ, List.foldl_append]
    exact hnext

/-- The relation pass enters all edges and nests all classes. -/
theorem Edgeless.relationPass_eq (h : g.Edgeless) (hnames : g.DistinctNames) :
    g.relationPass = g.relate.nestAll := by
  have hpass : g.Related g.size g.relationPass := h.related hnames (Nat.le_refl _)
  have hnest : SameButEdges (g.ids.foldl nest g) g.relate.nestAll := by
    rw [nestAll, ids, ids, size_relate]
    exact (SameButEdges.relate g).foldl_nest hnames _
  have hnested := SameButNested.nestAll g.relate
  have hsize := (SameButNested.foldl_nest g.ids g).size_eq
  refine ext_classAt (hpass.same.size_eq.trans hnest.size_eq.symm)
    (hpass.same.methods_eq.trans hnest.methods_eq.symm) fun x hx => ?_
  rw [hnest.size_eq, hsize] at hx
  have hlists : (g.relate.classAt x).subclasses =
        (g.firstNames g.size fun y => (g.classAt y).superName == some (g.nameAt x)) ∧
      (g.relate.classAt x).implementers =
        g.firstNames g.size fun y => (g.classAt y).interfaces.contains (g.nameAt x) := by
    unfold relate
    rw [classAt_map _ _ _ _ hx]
    simp only [toList_classes, List.filter_map, List.map_map]
    exact ⟨rfl, rfl⟩
  have hsame := hpass.same.classAt_eq x
  rw [hpass.subclasses_eq x hx, hpass.implementers_eq x hx] at hsame
  rw [hsame, hnest.classAt_eq x, hnested.classAt_eq x, hlists.1, hlists.2]
  rfl

/-! ## Graphs without edges -/

/-- Nothing has been added yet. -/
theorem Edgeless.empty : Edgeless {} := fun id => by
  rw [classAt_of_size_le (Nat.zero_le id)]
  exact ⟨rfl, rfl⟩

theorem Edgeless.modifyClass (h : g.Edgeless) (o : ClassId) {f : ClassSymbol → ClassSymbol}
    (hf : ∀ c, (f c).subclasses = c.subclasses ∧ (f c).implementers = c.implementers) :
    (g.modifyClass o f).Edgeless := by
  intro id
  rw [classAt_modifyClass]
  split
  · rw [(hf _).1, (hf _).2]
    exact h id
  · exact h id

theorem Edgeless.addSymbol (h : g.Edgeless) (name : String) (outer : Option ClassId) :
    (g.addSymbol name outer).2.Edgeless := by
  have hgrown : ({ g with classes := g.classes.push { name, outer } } : ClassGraph).Edgeless := by
    intro id
    rw [classAt_push]
    split
    · exact ⟨rfl, rfl⟩
    · exact h id
  cases outer with
  | none => exact hgrown
  | some o => exact hgrown.modifyClass o fun _ => ⟨rfl, rfl⟩

/-- A class that is found or created brings no edges. -/
theorem Edgeless.ensureClass (h : g.Edgeless) (name : String) :
    (g.ensureClass name).2.Edgeless := by
  induction hlength : name.toList.length using Nat.strong_induction_on generalizing name with
  | _ length ih =>
    subst hlength
    rw [ClassGraph.ensureClass]
    split
    · exact h
    · split
      · exact h.addSymbol name none
      · rename_i container hcontainer
        exact (ih _ (length_containerName_lt hcontainer) container rfl).addSymbol name _

theorem Edgeless.load (h : g.Edgeless) (id : ClassId) (file : ClassFile) (first : MethodId) :
    (g.modifyClass id fun c => c.load file first).Edgeless :=
  h.modifyClass id fun _ => ⟨rfl, rfl⟩

/-- A class file is added without edges. -/
theorem Edgeless.addClass (h : g.Edgeless) (file : ClassFile) :
    (g.addClass file).2.Edgeless := by
  have hensured := h.ensureClass file.name
  unfold ClassGraph.addClass
  generalize g.ensureClass file.name = result at hensured
  obtain ⟨id, grown⟩ := result
  dsimp only at hensured ⊢
  split
  · exact hensured
  · exact hensured.load id file grown.methods.size

end ClassGraph

end StableNaming
