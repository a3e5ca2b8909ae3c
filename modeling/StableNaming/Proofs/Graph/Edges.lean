import StableNaming.Proofs.Graph.Index

/-!
# Edges at both ends

What the lists of a finished graph say about the hierarchy. The relation pass leaves with every
class the names of the classes right below it, each once and in the order of discovery, and
joining methods leaves these lists alone. So the way up and the way down are one relation,
whatever is loaded twice or not at all, and whatever lists itself or a name twice.
-/

namespace StableNaming

namespace ClassGraph

variable {g : ClassGraph}

/-- Whether each class lists the classes right below it, once each and in order. -/
structure ListsBelow (g : ClassGraph) : Prop where
  /-- The classes that have the class as super class. -/
  subclasses_eq : ∀ x < g.size, (g.classAt x).subclasses =
    g.firstNames g.size fun y => (g.classAt y).superName == some (g.nameAt x)
  /-- The classes that have the class as an interface. -/
  implementers_eq : ∀ x < g.size, (g.classAt x).implementers =
    g.firstNames g.size fun y => (g.classAt y).interfaces.contains (g.nameAt x)

/-- When all classes have had their turns, the lists are complete. -/
theorem ListsBelow.of_related {g' : ClassGraph} (h : g.Related g.size g') : g'.ListsBelow := by
  have hnested := SameButNested.foldl_nest (List.range g.size) g
  have hname : g'.nameAt = g.nameAt := funext fun id =>
    (h.same.nameAt_eq id).trans (hnested.nameAt_eq id)
  have hclass : ∀ id, (g'.classAt id).superName = (g.classAt id).superName ∧
      (g'.classAt id).interfaces = (g.classAt id).interfaces := by
    intro id
    rw [h.same.classAt_eq, hnested.classAt_eq]
    exact ⟨rfl, rfl⟩
  have hsize : g'.size = g.size := h.same.size_eq.trans hnested.size_eq
  refine ⟨fun x hx => ?_, fun x hx => ?_⟩
  · rw [h.subclasses_eq x (hsize ▸ hx)]
    simp only [firstNames, hsize, hname, hclass]
  · rw [h.implementers_eq x (hsize ▸ hx)]
    simp only [firstNames, hsize, hname, hclass]

/-- Joining methods leaves the lists alone. -/
theorem ListsBelow.join (h : g.ListsBelow) : g.join.ListsBelow := by
  have hname : g.join.nameAt = g.nameAt := funext (nameAt_join g)
  refine ⟨fun x hx => ?_, fun x hx => ?_⟩ <;> rw [size_join] at hx
  · simp only [classAt_join, firstNames, size_join, hname]
    exact h.subclasses_eq x hx
  · simp only [classAt_join, firstNames, size_join, hname]
    exact h.implementers_eq x hx

/-- Under distinct names each of the first classes is listed once. -/
theorem nodup_firstNames (hnames : g.DistinctNames) {n : Nat} (hn : n ≤ g.size)
    (below : ClassId → Bool) : (g.firstNames n below).Nodup := by
  refine (List.nodup_range.filter below).map_on fun i hi j hj hname => ?_
  have hlt : ∀ {id}, id ∈ (List.range n).filter below → id < g.size := fun h =>
    Nat.lt_of_lt_of_le (List.mem_range.1 (List.mem_filter.1 h).1) hn
  exact hnames (hlt hi) (hlt hj) hname

/-- Whether the edges of the hierarchy say the same at both ends, and end in the graph. -/
structure TwoEnded (g : ClassGraph) : Prop where
  /-- The subclasses of a class are the classes that name it as super class, in the order of
  discovery. -/
  subclasses_eq : ∀ x < g.size, (g.classAt x).subclasses =
    (g.ids.filter fun y => (g.classAt y).superName = some (g.nameAt x)).map g.nameAt
  /-- The implementers of a class are the classes that name it among their interfaces, in the
  order of discovery. -/
  implementers_eq : ∀ x < g.size, (g.classAt x).implementers =
    (g.ids.filter fun y => g.nameAt x ∈ (g.classAt y).interfaces).map g.nameAt
  /-- No class is listed twice. -/
  nodup : ∀ x, (g.classAt x).subclasses.Nodup ∧ (g.classAt x).implementers.Nodup
  /-- What is above a class has the class below it. -/
  mem_supertypes_iff : ∀ x y, y ∈ g.supertypes x ↔ x ∈ g.subtypes y
  /-- A name is found exactly if a class has it. -/
  idOf?_eq_some_iff : ∀ name id, g.idOf? name = some id ↔ id < g.size ∧ g.nameAt id = name
  /-- What is above a class are the classes of those names that a class has, in their order. -/
  names_supertypes : ∀ x, (g.supertypes x).map g.nameAt =
    (g.classAt x).supertypeNames.filter fun name => (g.idOf? name).isSome
  /-- What is below a class are the classes of all names. -/
  names_subtypes : ∀ x, (g.subtypes x).map g.nameAt = (g.classAt x).subtypeNames

/-- The names of what is found are the names for which something is found. -/
theorem map_nameAt_filterMap_idOf? (g : ClassGraph) (names : List String) :
    (names.filterMap g.idOf?).map g.nameAt = names.filter fun name => (g.idOf? name).isSome := by
  rw [List.map_filterMap, ← List.filterMap_eq_filter]
  refine List.filterMap_congr fun name _ => ?_
  cases hid : g.idOf? name with
  | none => simp [Option.guard, hid]
  | some id => simp [Option.guard, hid, (of_idOf? hid).2]

namespace ListsBelow

/-- A class is listed by the classes that it names. -/
theorem edgesAgree (h : g.ListsBelow) : g.EdgesAgree := by
  intro x hx name
  rw [ClassSymbol.subtypeNames, h.subclasses_eq x hx, h.implementers_eq x hx]
  simp only [firstNames, List.mem_append, List.mem_map, List.mem_filter, List.mem_range, beq_iff_eq,
    List.contains_iff_mem, ClassSymbol.supertypeNames, Option.mem_toList]
  constructor
  · rintro (⟨y, ⟨hy, hsuper⟩, rfl⟩ | ⟨y, ⟨hy, hinterface⟩, rfl⟩)
    · exact ⟨y, hy, rfl, .inl hsuper⟩
    · exact ⟨y, hy, rfl, .inr hinterface⟩
  · rintro ⟨y, hy, rfl, hsuper | hinterface⟩
    · exact .inl ⟨y, ⟨hy, hsuper⟩, rfl⟩
    · exact .inr ⟨y, ⟨hy, hinterface⟩, rfl⟩

theorem nodup (h : g.ListsBelow) (hnames : g.DistinctNames) (x : ClassId) :
    (g.classAt x).subclasses.Nodup ∧ (g.classAt x).implementers.Nodup := by
  by_cases hx : x < g.size
  · rw [h.subclasses_eq x hx, h.implementers_eq x hx]
    exact ⟨nodup_firstNames hnames (Nat.le_refl _) _, nodup_firstNames hnames (Nat.le_refl _) _⟩
  · rw [classAt_of_size_le (Nat.le_of_not_lt hx)]
    exact ⟨List.nodup_nil, List.nodup_nil⟩

/-- All names that a class lists are those of classes. -/
theorem isSome_idOf? (h : g.ListsBelow) (hnames : g.DistinctNames) {x : ClassId} {name : String}
    (hname : name ∈ (g.classAt x).subtypeNames) : (g.idOf? name).isSome := by
  have hx : x < g.size := by
    refine lt_size_of_classAt_ne fun hdefault => ?_
    rw [hdefault] at hname
    exact absurd hname List.not_mem_nil
  obtain ⟨y, hy, rfl, -⟩ := (h.edgesAgree hx name).1 hname
  rw [hnames.idOf?_nameAt hy]
  rfl

/-- Lists of what is right below each class make the edges say the same at both ends. -/
theorem twoEnded (h : g.ListsBelow) (hnames : g.DistinctNames) : g.TwoEnded where
  subclasses_eq x hx := by
    rw [h.subclasses_eq x hx, firstNames, ids]
    simp only [beq_eq_decide]
  implementers_eq x hx := by
    rw [h.implementers_eq x hx, firstNames, ids]
    simp only [List.contains_eq_mem]
  nodup := h.nodup hnames
  mem_supertypes_iff x y := (h.edgesAgree.mem_subtypes_iff_mem_supertypes hnames).symm
  idOf?_eq_some_iff name id := hnames.idOf?_eq_some_iff
  names_supertypes x := g.map_nameAt_filterMap_idOf? _
  names_subtypes x := by
    rw [subtypes, map_nameAt_filterMap_idOf?, List.filter_eq_self]
    exact fun name hname => h.isSome_idOf? hnames hname

end ListsBelow

end ClassGraph

namespace GraphBuilder

open ClassGraph

/-- The lists are those that the relation pass has left. -/
theorem listsBelow_calls (cs : List BuilderCall) : (calls cs).finish.ListsBelow := by
  have hnames := (growing_calls cs).1.names
  have hpass : (calls cs).draft.relationPass.ListsBelow :=
    .of_related ((edgeless_calls cs).related hnames (Nat.le_refl _))
  rw [(finish_calls cs).2, ← relationPass_calls]
  exact hpass.join

/-- Whatever the calls are, the edges of the finished graph say the same at both ends, and its table
of names finds no class under a name that none has. -/
theorem twoEnded_finish (cs : List BuilderCall) :
    (calls cs).finish.TwoEnded ∧ ∀ name, (IndexedGraph.build cs).idOf? name = none ↔
      ∀ id < (calls cs).finish.size, (calls cs).finish.nameAt id ≠ name := by
  refine ⟨(listsBelow_calls cs).twoEnded (finished_calls cs).names, fun name => ?_⟩
  rw [(IndexedGraph.follows_build cs).idOf?_eq, idOf?_eq_none_iff]

-- `a` is its own super class, `b` names it three times, and the second class file of `b` is
-- ignored.
example :
    let cs : List BuilderCall := [.file { name := "b", superName := "a", interfaces := ["a", "a"] },
      .file { name := "a", superName := "a", interfaces := ["c"] }, .file { name := "b" }]
    ((calls cs).finish.classAt 1).subclasses = ["b", "a"] ∧
      ((calls cs).finish.classAt 1).implementers = ["b"] := by
  decide +kernel

end GraphBuilder

end StableNaming
