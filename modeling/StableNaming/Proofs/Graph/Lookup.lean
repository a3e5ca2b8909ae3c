import Mathlib.Data.List.Nodup
import StableNaming.Graph.Builder

/-!
# Looking classes up

In a graph whose classes have distinct names, the number of a name and the name
of a number are inverse to each other. Changing or adding a class changes what
is looked up at that number only.
-/

namespace StableNaming

/-- What is found satisfies the condition, and its index is in range. -/
theorem getElem?_of_lastIndex? {α : Type} {p : α → Bool} {xs : List α} {i : Nat}
    (h : lastIndex? p xs = some i) : ∃ x, xs[i]? = some x ∧ p x = true := by
  induction xs generalizing i with
  | nil => simp [lastIndex?] at h
  | cons x xs ih =>
    simp only [lastIndex?] at h
    cases hrest : lastIndex? p xs with
    | some j =>
      rw [hrest] at h
      obtain ⟨y, hy, hp⟩ := ih hrest
      refine ⟨y, ?_, hp⟩
      rw [← Option.some.inj h, List.getElem?_cons_succ, hy]
    | none =>
      rw [hrest] at h
      by_cases hp : p x = true
      · rw [if_pos hp] at h
        exact ⟨x, by rw [← Option.some.inj h]; rfl, hp⟩
      · simp [hp] at h

/-- Nothing is found exactly when nothing satisfies the condition. -/
theorem lastIndex?_eq_none_iff {α : Type} {p : α → Bool} {xs : List α} :
    lastIndex? p xs = none ↔ ∀ x ∈ xs, p x = false := by
  induction xs with
  | nil => simp [lastIndex?]
  | cons x xs ih =>
    simp only [lastIndex?, List.mem_cons, forall_eq_or_imp]
    cases hrest : lastIndex? p xs with
    | some j =>
      have hne : ¬ ∀ y ∈ xs, p y = false := fun hall => by simp [ih.2 hall] at hrest
      simp [hne]
    | none =>
      have hall := ih.1 hrest
      by_cases hp : p x = true
      · simp [hp]
      · simpa [hp] using hall

namespace ClassGraph

variable {g : ClassGraph}

/-! ## Classes by number -/

/-- A number out of range has the nameless empty class. -/
theorem classAt_of_size_le {id : ClassId} (h : g.size ≤ id) : g.classAt id = default := by
  rw [classAt, Array.getElem?_eq_none h, Option.getD_none]

/-- A number in range has a class of the graph. -/
theorem getElem?_classes {id : ClassId} (h : id < g.size) :
    g.classes[id]? = some (g.classAt id) := by
  rw [classAt, Array.getElem?_eq_getElem h, Option.getD_some]

/-- A class that is in any way more than the empty one has a number in range. -/
theorem lt_size_of_classAt_ne {id : ClassId} (h : g.classAt id ≠ default) : id < g.size :=
  Nat.lt_of_not_le fun hle => h (classAt_of_size_le hle)

/-- Only classes of the graph have fields. -/
theorem lt_size_of_mem_fields {id : ClassId} {f : Member} (h : f ∈ (g.classAt id).fields.values) :
    id < g.size := by
  refine lt_size_of_classAt_ne fun hdefault => ?_
  rw [hdefault] at h
  exact absurd h List.not_mem_nil

/-- The classes of a graph are those at the numbers in range. -/
theorem mem_classes_iff {c : ClassSymbol} :
    c ∈ g.classes.toList ↔ ∃ id < g.size, g.classAt id = c := by
  rw [Array.mem_toList_iff, Array.mem_iff_getElem]
  constructor
  · rintro ⟨id, hid, rfl⟩
    exact ⟨id, hid, by rw [classAt, Array.getElem?_eq_getElem hid, Option.getD_some]⟩
  · rintro ⟨id, hid, rfl⟩
    exact ⟨id, hid, by rw [classAt, Array.getElem?_eq_getElem hid, Option.getD_some]⟩

/-- Changing one class leaves the others alone. -/
theorem classAt_modifyClass (g : ClassGraph) (o id : ClassId) (f : ClassSymbol → ClassSymbol) :
    (g.modifyClass o f).classAt id =
      if id = o ∧ id < g.size then f (g.classAt id) else g.classAt id := by
  simp only [modifyClass, classAt, Array.getElem?_modify]
  by_cases ho : o = id
  · subst ho
    by_cases hlt : o < g.size
    · have hlt' : o < g.classes.size := hlt
      simp [hlt, hlt']
    · have hle : g.classes.size ≤ o := Nat.le_of_not_lt hlt
      simp [hlt, hle]
  · simp [ho, Ne.symm ho]

theorem size_modifyClass (g : ClassGraph) (o : ClassId) (f : ClassSymbol → ClassSymbol) :
    (g.modifyClass o f).size = g.size := Array.size_modify

theorem methods_modifyClass (g : ClassGraph) (o : ClassId) (f : ClassSymbol → ClassSymbol) :
    (g.modifyClass o f).methods = g.methods := rfl

/-- A class that is added gets the next number. -/
theorem classAt_push (g : ClassGraph) (c : ClassSymbol) (id : ClassId) :
    ({ g with classes := g.classes.push c } : ClassGraph).classAt id =
      if id = g.size then c else g.classAt id := by
  simp only [classAt, Array.getElem?_push, size]
  by_cases h : id = g.classes.size <;> simp [h]

/-- Changing every class in one way that keeps the empty class changes what is looked up. -/
theorem classAt_map (classes : Array ClassSymbol) (methods : Array MethodSymbol)
    (f : ClassSymbol → ClassSymbol) (id : ClassId) (h : id < classes.size) :
    (ClassGraph.mk (classes.map f) methods).classAt id =
      f ((ClassGraph.mk classes methods).classAt id) := by
  simp [classAt, Array.getElem?_map, Array.getElem?_eq_getElem h]

/-! ## Classes by name -/

/-- Whether no two classes have one name. -/
def DistinctNames (g : ClassGraph) : Prop :=
  ∀ ⦃i j : ClassId⦄, i < g.size → j < g.size → g.nameAt i = g.nameAt j → i = j

/-- The number of a name is that of a class with the name. -/
theorem of_idOf? {name : String} {id : ClassId} (h : g.idOf? name = some id) :
    id < g.size ∧ g.nameAt id = name := by
  obtain ⟨c, hc, hname⟩ := getElem?_of_lastIndex? h
  rw [Array.getElem?_toList] at hc
  have hlt : id < g.size := (Array.getElem?_eq_some_iff.1 hc).1
  refine ⟨hlt, ?_⟩
  rw [nameAt, classAt, hc, Option.getD_some]
  exact of_decide_eq_true hname

/-- A name has no number exactly when no class has the name. -/
theorem idOf?_eq_none_iff {name : String} :
    g.idOf? name = none ↔ ∀ id < g.size, g.nameAt id ≠ name := by
  rw [idOf?, lastIndex?_eq_none_iff]
  constructor
  · intro h id hid heq
    have := h (g.classAt id) (mem_classes_iff.2 ⟨id, hid, rfl⟩)
    exact of_decide_eq_false this heq
  · intro h c hc
    obtain ⟨id, hid, rfl⟩ := mem_classes_iff.1 hc
    exact decide_eq_false (h id hid)

/-- Under distinct names the number of a class's name is the number of the class. -/
theorem DistinctNames.idOf?_nameAt (h : g.DistinctNames) {id : ClassId} (hid : id < g.size) :
    g.idOf? (g.nameAt id) = some id := by
  cases hfound : g.idOf? (g.nameAt id) with
  | none => exact absurd rfl (idOf?_eq_none_iff.1 hfound id hid)
  | some j =>
    obtain ⟨hj, hname⟩ := of_idOf? hfound
    rw [h hj hid hname]

theorem DistinctNames.idOf?_eq_some_iff (h : g.DistinctNames) {name : String} {id : ClassId} :
    g.idOf? name = some id ↔ id < g.size ∧ g.nameAt id = name := by
  constructor
  · exact of_idOf?
  · rintro ⟨hid, rfl⟩
    exact h.idOf?_nameAt hid

/-- Names, and so numbers of names, are those of another graph with the same names. -/
theorem idOf?_congr {g g' : ClassGraph} (hsize : g'.size = g.size)
    (hname : ∀ id, g'.nameAt id = g.nameAt id) (h : g.DistinctNames) : g'.idOf? = g.idOf? := by
  have h' : g'.DistinctNames := by
    intro i j hi hj heq
    rw [hname, hname] at heq
    exact h (hsize ▸ hi) (hsize ▸ hj) heq
  funext name
  refine Option.ext fun id => ?_
  rw [h.idOf?_eq_some_iff, h'.idOf?_eq_some_iff, hsize, hname]

end ClassGraph

end StableNaming
