import StableNaming.Proofs.Collection.Lookup
import StableNaming.Proofs.Graph.Nesting

/-!
# Growing graphs

While class files are added, class names stay distinct, containers form a
forest, and every class holds members of its own under their keys. Entering the edges of the
hierarchy makes supertypes and subtypes say the same.
-/

namespace StableNaming

/-- A class by itself, without its places in the hierarchy and in the nesting. -/
def ClassSymbol.alone (c : ClassSymbol) : ClassSymbol :=
  { c with subclasses := [], implementers := [], outer := none, inner := [] }

namespace ClassGraph

open Relation

variable {g g' : ClassGraph}

/-- Whether each class holds, under each key, a method of its own that is not shared. -/
def OwnSlots (g : ClassGraph) : Prop :=
  ∀ ⦃id : ClassId⦄ ⦃key : MemberKey⦄ ⦃m : MethodId⦄, g.slot? id key = some m →
    ∃ symbol, g.methodAt? m = some symbol ∧ symbol.key = key ∧ symbol.owner = g.nameAt id ∧
      symbol.related = []

/-- Whether each class holds its fields under their own keys. -/
def OwnFields (g : ClassGraph) : Prop :=
  ∀ ⦃id : ClassId⦄ ⦃key : MemberKey⦄ ⦃f : Member⦄,
    (g.classAt id).fields.find? key = some f → f.key = key

/-- The fields of a class are those that it holds under their keys. -/
theorem OwnFields.mem_values_iff {g : ClassGraph} (h : g.OwnFields) {id : ClassId} {f : Member} :
    f ∈ (g.classAt id).fields.values ↔ (g.classAt id).fields.find? f.key = some f := by
  constructor
  · intro hf
    obtain ⟨⟨key, f'⟩, hentry, rfl⟩ := List.mem_map.1 hf
    have hfind := KeyMap.find?_eq_some_iff.2 hentry
    dsimp only
    rw [h hfind]
    exact hfind
  · intro hfind
    exact List.mem_map_of_mem (KeyMap.find?_eq_some_iff.1 hfind)

/-- What holds of every graph that class files are added to. -/
structure Growing (g : ClassGraph) : Prop where
  /-- No two classes have one name. -/
  names : g.DistinctNames
  /-- Containers form a forest. -/
  forest : g.Forest
  /-- No method is shared. -/
  own : g.OwnSlots
  /-- Fields stand under their own keys. -/
  fields : g.OwnFields

/-- Nothing has been added yet. -/
theorem Growing.empty : Growing {} where
  names i j hi := absurd hi (Nat.not_lt_zero i)
  forest :=
    { outer_lt := fun h => absurd h.lt_size (Nat.not_lt_zero _)
      mem_inner_iff := fun {id outer} =>
        ⟨fun h => absurd h List.not_mem_nil, fun h => absurd h.lt_size (Nat.not_lt_zero _)⟩
      nodup_inner := fun _ => List.nodup_nil
      ends := fun id => .intro id fun y h => absurd h.lt_size (Nat.not_lt_zero _) }
  own id key m h := by cases h
  fields id key f h := by cases h

/-! ## Adding a class -/

/-- Whether classes of which only the names are known have been added to a graph, with names no
longer than `bound`. -/
structure Extended (g g' : ClassGraph) (bound : Nat) : Prop where
  /-- No class is lost. -/
  size_le : g.size ≤ g'.size
  /-- There are no new methods. -/
  methods_eq : g'.methods = g.methods
  /-- Each class by itself stays as it is. -/
  alone_eq : ∀ id < g.size, (g'.classAt id).alone = (g.classAt id).alone
  /-- New classes have names, and nothing else. -/
  new_eq : ∀ id, g.size ≤ id → id < g'.size → (g'.classAt id).alone = { name := g'.nameAt id }
  /-- The names of new classes are not too long. -/
  length_le : ∀ id, g.size ≤ id → id < g'.size → (g'.nameAt id).toList.length ≤ bound

namespace Extended

/-- Each class keeps its name. -/
theorem nameAt_eq {bound : Nat} (h : Extended g g' bound) (id : ClassId) (hid : id < g.size) :
    g'.nameAt id = g.nameAt id := by
  have hname := congrArg ClassSymbol.name (h.alone_eq id hid)
  exact hname

/-- Each class keeps its members, and new classes have none. -/
theorem members_eq {bound : Nat} (h : Extended g g' bound) (id : ClassId) :
    (g'.classAt id).methods = (g.classAt id).methods ∧
      (g'.classAt id).fields = (g.classAt id).fields := by
  by_cases hid : id < g.size
  · have hmethods := congrArg ClassSymbol.methods (h.alone_eq id hid)
    have hfields := congrArg ClassSymbol.fields (h.alone_eq id hid)
    exact ⟨hmethods, hfields⟩
  · have hle := Nat.le_of_not_lt hid
    rw [classAt_of_size_le hle]
    by_cases hid' : id < g'.size
    · have hmethods := congrArg ClassSymbol.methods (h.new_eq id hle hid')
      have hfields := congrArg ClassSymbol.fields (h.new_eq id hle hid')
      exact ⟨hmethods, hfields⟩
    · rw [classAt_of_size_le (Nat.le_of_not_lt hid')]
      exact ⟨rfl, rfl⟩

theorem refl (g : ClassGraph) (bound : Nat) : Extended g g bound :=
  ⟨Nat.le_refl _, rfl, fun _ _ => rfl, fun _ h h' => absurd h' (Nat.not_lt_of_le h),
    fun _ h h' => absurd h' (Nat.not_lt_of_le h)⟩

theorem trans {g₁ g₂ g₃ : ClassGraph} {bound bound' : Nat} (h : Extended g₁ g₂ bound)
    (h' : Extended g₂ g₃ bound') (hbound : bound ≤ bound') : Extended g₁ g₃ bound' where
  size_le := h.size_le.trans h'.size_le
  methods_eq := h'.methods_eq.trans h.methods_eq
  alone_eq id hid :=
    (h'.alone_eq id (Nat.lt_of_lt_of_le hid h.size_le)).trans (h.alone_eq id hid)
  new_eq id hid hlt := by
    by_cases hid₂ : id < g₂.size
    · rw [h'.alone_eq id hid₂, h'.nameAt_eq id hid₂]
      exact h.new_eq id hid hid₂
    · exact h'.new_eq id (Nat.le_of_not_lt hid₂) hlt
  length_le id hid hlt := by
    by_cases hid₂ : id < g₂.size
    · rw [h'.nameAt_eq id hid₂]
      exact (h.length_le id hid hid₂).trans hbound
    · exact h'.length_le id (Nat.le_of_not_lt hid₂) hlt

/-- Slots stay those of the class itself. -/
theorem ownSlots {bound : Nat} (h : Extended g g' bound) (hown : g.OwnSlots) : g'.OwnSlots := by
  intro id key m hm
  have hm' : g.slot? id key = some m := by rwa [slot?, ← (h.members_eq id).1]
  have hid : id < g.size := by
    refine lt_size_of_classAt_ne fun hdefault => ?_
    rw [slot?, hdefault] at hm'
    cases hm'
  obtain ⟨symbol, hsymbol, hkey, howner, hrelated⟩ := hown hm'
  refine ⟨symbol, ?_, hkey, ?_, hrelated⟩
  · rwa [methodAt?, h.methods_eq]
  · rw [h.nameAt_eq id hid]
    exact howner

/-- Fields stay under their own keys. -/
theorem ownFields {bound : Nat} (h : Extended g g' bound) (hown : g.OwnFields) :
    g'.OwnFields := by
  intro id key f hf
  rw [(h.members_eq id).2] at hf
  exact hown hf

end Extended

/-- A class that is added at the top level changes nothing else. -/
theorem classAt_addSymbol_none (g : ClassGraph) (name : String) (id : ClassId) :
    (g.addSymbol name none).2.classAt id = if id = g.size then { name } else g.classAt id :=
  classAt_push g _ id

theorem classAt_addSymbol_some (g : ClassGraph) (name : String) {o : ClassId} (ho : o < g.size)
    (id : ClassId) :
    (g.addSymbol name (some o)).2.classAt id =
      if id = g.size then { name, outer := some o }
      else if id = o then { g.classAt o with inner := (g.classAt o).inner ++ [g.size] }
      else g.classAt id := by
  simp only [addSymbol, classAt_modifyClass, classAt_push]
  have hlt : ∀ c : ClassSymbol,
      o < ({ g with classes := g.classes.push c } : ClassGraph).size := by
    intro c
    rw [size, Array.size_push]
    exact Nat.lt_succ_of_lt ho
  by_cases hid : id = o
  · subst hid
    simp [hlt, Nat.ne_of_lt ho]
  · simp [hid]

/-- A class that is added gets the next number. -/
theorem addSymbol_fst (g : ClassGraph) (name : String) (outer : Option ClassId) :
    (g.addSymbol name outer).1 = g.size := by
  cases outer <;> rfl

theorem size_addSymbol (g : ClassGraph) (name : String) (outer : Option ClassId) :
    (g.addSymbol name outer).2.size = g.size + 1 := by
  cases outer with
  | none => exact Array.size_push _
  | some o =>
    simp only [addSymbol, size_modifyClass]
    exact Array.size_push _

theorem nameAt_addSymbol (g : ClassGraph) (name : String) {outer : Option ClassId}
    (ho : ∀ o ∈ outer, o < g.size) (id : ClassId) :
    (g.addSymbol name outer).2.nameAt id = if id = g.size then name else g.nameAt id := by
  cases outer with
  | none =>
    rw [nameAt, classAt_addSymbol_none]
    split <;> rfl
  | some o =>
    rw [nameAt, classAt_addSymbol_some g name (ho o rfl)]
    split
    · rfl
    · split
      · rename_i hid
        rw [hid]
        rfl
      · rfl

/-- A class that is added is in the given container, and the others stay where they are. -/
theorem outer_addSymbol (g : ClassGraph) (name : String) {outer : Option ClassId}
    (ho : ∀ o ∈ outer, o < g.size) (id : ClassId) :
    ((g.addSymbol name outer).2.classAt id).outer =
      if id = g.size then outer else (g.classAt id).outer := by
  cases outer with
  | none =>
    rw [classAt_addSymbol_none]
    split <;> rfl
  | some o =>
    rw [classAt_addSymbol_some g name (ho o rfl)]
    split
    · rfl
    · split
      · rename_i hid
        rw [hid]
      · rfl

/-- Adding a class extends the graph. -/
theorem extended_addSymbol (g : ClassGraph) (name : String) {outer : Option ClassId}
    (ho : ∀ o ∈ outer, o < g.size) :
    Extended g (g.addSymbol name outer).2 name.toList.length where
  size_le := by rw [size_addSymbol]; exact Nat.le_succ _
  methods_eq := by cases outer <;> rfl
  alone_eq id hid := by
    cases outer with
    | none => rw [classAt_addSymbol_none, if_neg (Nat.ne_of_lt hid)]
    | some o =>
      rw [classAt_addSymbol_some g name (ho o rfl), if_neg (Nat.ne_of_lt hid)]
      split
      · rename_i hid
        rw [hid]
        rfl
      · rfl
  new_eq id hid hlt := by
    rw [size_addSymbol] at hlt
    have hid : id = g.size := Nat.le_antisymm (Nat.le_of_lt_succ hlt) hid
    rw [nameAt_addSymbol g name ho, if_pos hid]
    cases outer with
    | none =>
      rw [classAt_addSymbol_none, if_pos hid]
      rfl
    | some o =>
      rw [classAt_addSymbol_some g name (ho o rfl), if_pos hid]
      rfl
  length_le id hid hlt := by
    rw [size_addSymbol] at hlt
    rw [nameAt_addSymbol g name ho, if_pos (Nat.le_antisymm (Nat.le_of_lt_succ hlt) hid)]

/-- A class with a new name leaves names distinct. -/
theorem DistinctNames.addSymbol (h : g.DistinctNames) {name : String} (hnew : g.idOf? name = none)
    {outer : Option ClassId} (ho : ∀ o ∈ outer, o < g.size) :
    (g.addSymbol name outer).2.DistinctNames := by
  have hne := idOf?_eq_none_iff.1 hnew
  intro i j hi hj heq
  rw [size_addSymbol] at hi hj
  rw [nameAt_addSymbol g name ho, nameAt_addSymbol g name ho] at heq
  rcases Nat.lt_succ_iff_lt_or_eq.1 hi with hi | rfl <;>
    rcases Nat.lt_succ_iff_lt_or_eq.1 hj with hj | rfl
  · rw [if_neg (Nat.ne_of_lt hi), if_neg (Nat.ne_of_lt hj)] at heq
    exact h hi hj heq
  · rw [if_neg (Nat.ne_of_lt hi), if_pos rfl] at heq
    exact absurd heq (hne i hi)
  · rw [if_pos rfl, if_neg (Nat.ne_of_lt hj)] at heq
    exact absurd heq.symm (hne j hj)
  · rfl

/-- A class that is added contains nothing, so containers still form a forest. -/
theorem Forest.addSymbol (h : g.Forest) (name : String) {outer : Option ClassId}
    (ho : ∀ o ∈ outer, o < g.size) : (g.addSymbol name outer).2.Forest := by
  have hsize : g.size ≤ (g.addSymbol name outer).2.size := by
    rw [size_addSymbol]
    exact Nat.le_succ _
  have hnew := classAt_of_size_le (Nat.le_refl g.size)
  cases outer with
  | none =>
    have hclass := classAt_addSymbol_none g name
    refine h.congr hsize (fun id => ?_) (fun id => ?_) <;>
    · rw [hclass]
      split
      · rename_i hid
        rw [hid, hnew]
        rfl
      · rfl
  | some o =>
    have ho : o < g.size := ho o rfl
    have hclass := classAt_addSymbol_some g name ho
    refine h.move hsize g.size o ?_ ?_ (fun x => ?_) (fun x => ?_)
    · rw [size_addSymbol]
      exact Nat.lt_succ_of_lt ho
    · intro hup
      rcases hup.cases_tail with heq | ⟨x, -, hx⟩
      · exact absurd ho (heq ▸ Nat.lt_irrefl _)
      · exact absurd (h.outer_lt hx) (Nat.lt_irrefl _)
    · rw [hclass]
      split
      · rfl
      · split
        · rename_i hx
          rw [hx]
        · rfl
    · have hfilter : (g.classAt x).inner.filter (· ≠ g.size) = (g.classAt x).inner := by
        refine List.filter_eq_self.2 fun y hy => decide_eq_true ?_
        exact Nat.ne_of_lt (h.mem_inner_iff.1 hy).lt_size
      rw [hfilter, hclass]
      by_cases hx : x = g.size
      · subst hx
        rw [if_pos rfl, if_neg (Nat.ne_of_gt ho), hnew]
        rfl
      · rw [if_neg hx]
        by_cases hxo : x = o
        · subst hxo
          rw [if_pos rfl, if_pos rfl]
        · rw [if_neg hxo, if_neg hxo, List.append_nil]

/-! ## Finding or creating a class -/

/-- Whether a number is that of the class with a name in a graph that is extended as far as
needed. -/
structure Ensured (g : ClassGraph) (name : String) (result : ClassId × ClassGraph) : Prop where
  /-- The number is in range. -/
  lt_size : result.1 < result.2.size
  /-- The class has the name. -/
  nameAt_eq : result.2.nameAt result.1 = name
  /-- Names stay distinct. -/
  names : result.2.DistinctNames
  /-- Containers still form a forest. -/
  forest : result.2.Forest
  /-- Only classes without members are new. -/
  extended : Extended g result.2 name.toList.length

theorem Ensured.addSymbol (hnames : g'.DistinctNames) (hforest : g'.Forest) {bound : Nat}
    {name : String} (hextended : Extended g g' bound) (hbound : bound ≤ name.toList.length)
    (hnew : g'.idOf? name = none) {outer : Option ClassId} (ho : ∀ o ∈ outer, o < g'.size) :
    Ensured g name (g'.addSymbol name outer) := by
  refine ⟨?_, ?_, hnames.addSymbol hnew ho, hforest.addSymbol name ho,
    hextended.trans (extended_addSymbol g' name ho) hbound⟩
  · rw [addSymbol_fst, size_addSymbol]
    exact Nat.lt_succ_self _
  · rw [addSymbol_fst, nameAt_addSymbol g' name ho, if_pos rfl]

/-- Finding or creating a class creates none with a longer name. -/
theorem Ensured.idOf?_eq_none {container name : String} {result : ClassId × ClassGraph}
    (h : Ensured g container result) (hshorter : container.toList.length < name.toList.length)
    (hnew : g.idOf? name = none) : result.2.idOf? name = none := by
  refine idOf?_eq_none_iff.2 fun id hid hname => ?_
  by_cases hold : id < g.size
  · rw [h.extended.nameAt_eq id hold] at hname
    exact idOf?_eq_none_iff.1 hnew id hold hname
  · have hle := h.extended.length_le id (Nat.le_of_not_lt hold) hid
    rw [hname] at hle
    exact absurd hshorter (Nat.not_lt_of_le hle)

/-- A class is found, or created after its container. -/
theorem ensured_ensureClass (hnames : g.DistinctNames) (hforest : g.Forest) (name : String) :
    Ensured g name (g.ensureClass name) := by
  induction hlength : name.toList.length using Nat.strong_induction_on generalizing name with
  | _ length ih =>
    subst hlength
    rw [ensureClass]
    split
    · rename_i id hid
      obtain ⟨hlt, hname⟩ := of_idOf? hid
      exact ⟨hlt, hname, hnames, hforest, .refl g _⟩
    · rename_i hnew
      split
      · exact .addSymbol hnames hforest (.refl g _) (Nat.le_refl _) hnew (by simp)
      · rename_i container hcontainer
        have hshorter := length_containerName_lt hcontainer
        have houter := ih _ hshorter container rfl
        refine .addSymbol houter.names houter.forest houter.extended (Nat.le_of_lt hshorter)
          (houter.idOf?_eq_none hshorter hnew) (fun o ho => ?_)
        rw [← Option.some.inj ho]
        exact houter.lt_size

/-- Finding or creating a class keeps what holds of growing graphs. -/
theorem Growing.ensureClass (h : g.Growing) (name : String) : (g.ensureClass name).2.Growing :=
  have hensured := ensured_ensureClass h.names h.forest name
  ⟨hensured.names, hensured.forest, hensured.extended.ownSlots h.own,
    hensured.extended.ownFields h.fields⟩

/-! ## Adding a class file -/

theorem classAt_load (g : ClassGraph) (id : ClassId) (f : ClassSymbol → ClassSymbol)
    (methods : Array MethodSymbol) (x : ClassId) :
    ({ (g.modifyClass id f) with methods } : ClassGraph).classAt x =
      if x = id ∧ x < g.size then f (g.classAt x) else g.classAt x :=
  classAt_modifyClass g id x f

/-- Adding a class file keeps what holds of growing graphs. -/
theorem Growing.addClass (h : g.Growing) (file : ClassFile) : (g.addClass file).2.Growing := by
  have hensured := ensured_ensureClass h.names h.forest file.name
  have hown := hensured.extended.ownSlots h.own
  have hfields := hensured.extended.ownFields h.fields
  unfold ClassGraph.addClass
  generalize g.ensureClass file.name = result at hensured hown hfields
  obtain ⟨id, grown⟩ := result
  dsimp only at hensured hown hfields ⊢
  split
  · exact ⟨hensured.names, hensured.forest, hown, hfields⟩
  · -- the links and the name of the class stay, and its methods get numbers of their own
    have hclass := classAt_load grown id
    refine ⟨fun i j hi hj heq => ?_, hensured.forest.congr ?_ (fun x => ?_) (fun x => ?_), ?_,
      fun x key f hf => ?_⟩
    · have hname : ∀ x, (if x = id ∧ x < grown.size then
          (grown.classAt x).load file grown.methods.size else grown.classAt x).name =
            grown.nameAt x := by
        intro x
        split <;> rfl
      rw [nameAt, nameAt, hclass, hclass, hname, hname] at heq
      have hsize := size_modifyClass grown id fun c => c.load file grown.methods.size
      exact hensured.names (hsize ▸ hi) (hsize ▸ hj) heq
    · exact Nat.le_of_eq (size_modifyClass _ _ _).symm
    · rw [hclass]
      split <;> rfl
    · rw [hclass]
      split <;> rfl
    · intro x key m hm
      rw [slot?, hclass] at hm
      rw [nameAt, hclass]
      dsimp only [methodAt?, methods_modifyClass]
      split at hm
      · rename_i hx
        have hmem := KeyMap.mem_of_find?_ofList hm
        obtain ⟨i, hi, heq⟩ := List.mem_mapIdx.1 hmem
        rw [Prod.mk.injEq] at heq
        refine ⟨{ toMember := file.methods[i], owner := file.name }, ?_, heq.1, ?_, rfl⟩
        · rw [← heq.2, Array.getElem?_append_right (Nat.le_add_right _ _), Nat.add_sub_cancel_left]
          simp [hi]
        · rw [if_pos hx, hx.1]
          exact hensured.nameAt_eq.symm
      · rename_i hx
        obtain ⟨symbol, hsymbol, hkey, howner, hrelated⟩ := hown hm
        refine ⟨symbol, ?_, hkey, ?_, hrelated⟩
        · have hlt : m < grown.methods.size := (Array.getElem?_eq_some_iff.1 hsymbol).1
          rw [Array.getElem?_append_left hlt]
          exact hsymbol
        · rw [if_neg hx]
          exact howner
    · rw [hclass] at hf
      split at hf
      · obtain ⟨f', -, heq⟩ := List.mem_map.1 (KeyMap.mem_of_find?_ofList hf)
        rw [Prod.mk.injEq] at heq
        rw [← heq.2, heq.1]
      · exact hfields hf

/-! ## Entering the edges of the hierarchy -/

/-- Whether the classes that list a class among their subtypes are those of its supertypes
that are in the graph. -/
def EdgesAgree (g : ClassGraph) : Prop :=
  ∀ ⦃x : ClassId⦄, x < g.size → ∀ name, name ∈ (g.classAt x).subtypeNames ↔
    ∃ y < g.size, g.nameAt y = name ∧ g.nameAt x ∈ (g.classAt y).supertypeNames

theorem size_relate (g : ClassGraph) : g.relate.size = g.size := Array.size_map

/-- Entering the edges changes the lists of subtypes only. -/
theorem classAt_relate (g : ClassGraph) (id : ClassId) :
    g.relate.classAt id =
      { g.classAt id with
        subclasses := (g.relate.classAt id).subclasses
        implementers := (g.relate.classAt id).implementers } := by
  by_cases hid : id < g.size
  · unfold relate
    rw [classAt_map _ _ _ _ hid]
  · have hid := Nat.le_of_not_lt hid
    rw [classAt_of_size_le hid, classAt_of_size_le (size_relate g ▸ hid)]

theorem nameAt_relate (g : ClassGraph) (id : ClassId) : g.relate.nameAt id = g.nameAt id := by
  rw [nameAt, classAt_relate]
  rfl

theorem supertypeNames_relate (g : ClassGraph) (id : ClassId) :
    (g.relate.classAt id).supertypeNames = (g.classAt id).supertypeNames := by
  rw [classAt_relate]
  rfl

theorem subtypeNames_relate {x : ClassId} (hx : x < g.size) :
    (g.relate.classAt x).subtypeNames =
      (g.classes.toList.filter fun d => d.superName == some (g.nameAt x)).map ClassSymbol.name ++
      (g.classes.toList.filter fun d => d.interfaces.contains (g.nameAt x)).map
        ClassSymbol.name := by
  unfold relate
  rw [classAt_map _ _ _ _ hx]
  rfl

/-- The edges are entered at both ends. -/
theorem edgesAgree_relate (g : ClassGraph) : g.relate.EdgesAgree := by
  intro x hx name
  rw [size_relate] at hx ⊢
  rw [subtypeNames_relate hx, nameAt_relate]
  simp only [List.mem_append, List.mem_map, List.mem_filter, mem_classes_iff, beq_iff_eq,
    List.contains_iff_mem, nameAt_relate, supertypeNames_relate]
  constructor
  · rintro (⟨_, ⟨⟨y, hy, rfl⟩, hsuper⟩, rfl⟩ | ⟨_, ⟨⟨y, hy, rfl⟩, hinterface⟩, rfl⟩)
    · refine ⟨y, hy, rfl, ?_⟩
      rw [ClassSymbol.supertypeNames, hsuper]
      exact List.mem_append_left _ List.mem_cons_self
    · exact ⟨y, hy, rfl, List.mem_append_right _ hinterface⟩
  · rintro ⟨y, hy, rfl, hmem⟩
    rw [ClassSymbol.supertypeNames, List.mem_append, Option.mem_toList] at hmem
    rcases hmem with hsuper | hinterface
    · exact .inl ⟨_, ⟨⟨y, hy, rfl⟩, hsuper⟩, rfl⟩
    · exact .inr ⟨_, ⟨⟨y, hy, rfl⟩, hinterface⟩, rfl⟩

/-- Entering the edges keeps what holds of growing graphs. -/
theorem Growing.relate (h : g.Growing) : g.relate.Growing := by
  refine ⟨fun i j hi hj heq => ?_, h.forest.congr (Nat.le_of_eq (size_relate g).symm)
    (fun id => ?_) (fun id => ?_), fun id key m hm => ?_, fun id key f hf => ?_⟩
  · rw [size_relate] at hi hj
    rw [nameAt_relate, nameAt_relate] at heq
    exact h.names hi hj heq
  · rw [classAt_relate]
  · rw [classAt_relate]
  · rw [slot?, classAt_relate] at hm
    rw [nameAt_relate]
    exact h.own hm
  · rw [classAt_relate] at hf
    exact h.fields hf

/-! ## Nesting all classes -/

/-- Nesting all classes keeps what holds of growing graphs. -/
theorem Growing.nestAll (h : g.Growing) : g.nestAll.Growing := by
  have hsame := SameButNested.nestAll g
  refine ⟨hsame.distinctNames h.names, h.forest.nestAll, fun id key m hm => ?_,
    fun id key f hf => ?_⟩
  · rw [slot?, hsame.classAt_eq] at hm
    rw [hsame.nameAt_eq, methodAt?, hsame.methods_eq]
    exact h.own hm
  · rw [hsame.classAt_eq] at hf
    exact h.fields hf

/-- Nesting leaves the edges alone. -/
theorem EdgesAgree.nestAll (h : g.EdgesAgree) : g.nestAll.EdgesAgree := by
  have hsame := SameButNested.nestAll g
  have hsuper : ∀ id, (g.nestAll.classAt id).supertypeNames = (g.classAt id).supertypeNames := by
    intro id
    rw [hsame.classAt_eq]
    rfl
  intro x hx name
  rw [hsame.size_eq] at hx ⊢
  rw [hsame.classAt_eq x]
  simp only [hsame.nameAt_eq, hsuper]
  exact h hx name

end ClassGraph

namespace GraphBuilder

/-- A graph to which class files have been added is a growing one. -/
theorem growing_foldl_addClass (files : List ClassFile) (b : GraphBuilder)
    (h : b.draft.Growing) :
    (files.foldl (fun (b : GraphBuilder) file => (b.addClass file).2) b).draft.Growing := by
  induction files generalizing b with
  | nil => exact h
  | cons file files ih => exact ih _ (h.addClass file)

end GraphBuilder

end StableNaming
