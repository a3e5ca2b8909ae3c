import StableNaming.Proofs.Graph.Forest

/-!
# Moving classes in the forest

A class may be put under any class that is not nested in it: the containers form
a forest again. Adding a class under a container and moving one that a class file
claims for another container are both of this kind. Nesting changes nothing but
the links between classes and their containers.
-/

namespace StableNaming.ClassGraph

open Relation

variable {g g' : ClassGraph}

namespace Forest

/-- A graph whose classes have the same containers is a forest too. -/
theorem congr (h : g.Forest) (hsize : g.size ≤ g'.size)
    (houter : ∀ id, (g'.classAt id).outer = (g.classAt id).outer)
    (hinner : ∀ id, (g'.classAt id).inner = (g.classAt id).inner) : g'.Forest := by
  have hiff : g'.ContainedIn = g.ContainedIn := by
    funext id outer
    rw [ContainedIn, ContainedIn, houter]
  exact
    { outer_lt := fun hcontained => Nat.lt_of_lt_of_le (h.outer_lt (hiff ▸ hcontained)) hsize
      mem_inner_iff := fun {id outer} => by rw [hinner, hiff]; exact h.mem_inner_iff
      nodup_inner := fun outer => by rw [hinner]; exact h.nodup_inner outer
      ends := fun id => by rw [hiff]; exact h.ends id }

/-- A class that is listed under a class that is not nested in it, and nowhere else, leaves
the other classes where they are. -/
theorem move (h : g.Forest) (hsize : g.size ≤ g'.size) (id target : ClassId)
    (htarget : target < g'.size) (hnot : ¬ ReflTransGen g.ContainedIn target id)
    (houter : ∀ x, (g'.classAt x).outer = if x = id then some target else (g.classAt x).outer)
    (hinner : ∀ x, (g'.classAt x).inner =
      (g.classAt x).inner.filter (· ≠ id) ++ if x = target then [id] else []) : g'.Forest := by
  have hcontained : ∀ {x y}, g'.ContainedIn x y ↔
      if x = id then target = y else g.ContainedIn x y := by
    intro x y
    rw [ContainedIn, houter]
    split
    · exact Option.some_inj
    · rfl
  -- away from the class the way up is the old one, and it never comes to the class
  have hends_away : ∀ x, ¬ ReflTransGen g.ContainedIn x id →
      Acc (fun outer inner => g'.ContainedIn inner outer) x := by
    intro x hx
    induction h.ends x with
    | intro x _ ih =>
      refine .intro x fun y hy => ?_
      have hne : x ≠ id := fun heq => hx (heq ▸ .refl)
      rw [hcontained, if_neg hne] at hy
      exact ih y hy fun hyid => hx (.head hy hyid)
  have hends_id : Acc (fun outer inner => g'.ContainedIn inner outer) id := by
    refine .intro id fun y hy => ?_
    rw [hcontained, if_pos rfl] at hy
    exact hy ▸ hends_away target hnot
  refine ⟨fun {x y} hxy => ?_, fun {x y} => ?_, fun x => ?_, fun x => ?_⟩
  · rw [hcontained] at hxy
    split at hxy
    · exact hxy ▸ htarget
    · exact Nat.lt_of_lt_of_le (h.outer_lt hxy) hsize
  · rw [hinner, hcontained, List.mem_append, List.mem_filter, h.mem_inner_iff]
    by_cases hx : x = id
    · subst hx
      by_cases hy : y = target
      · simp [hy]
      · simp [hy, Ne.symm hy]
    · by_cases hy : y = target <;> simp [hx, hy]
  · rw [hinner]
    refine List.nodup_append.2 ⟨(h.nodup_inner x).filter _, ?_, fun a ha b hb hab => ?_⟩
    · split <;> simp
    · have hne : a ≠ id := by simpa using (List.mem_filter.1 ha).2
      split at hb
      · exact hne (hab.trans (List.mem_singleton.1 hb))
      · simp at hb
  · induction h.ends x with
    | intro x _ ih =>
      by_cases hx : x = id
      · exact hx ▸ hends_id
      · refine .intro x fun y hy => ih y ?_
        rwa [hcontained, if_neg hx] at hy

end Forest

/-! ## What nesting leaves alone -/

/-- Whether two graphs differ at most in the links between classes and containers. -/
structure SameButNested (g g' : ClassGraph) : Prop where
  /-- There are as many classes. -/
  size_eq : g'.size = g.size
  /-- The methods are the same. -/
  methods_eq : g'.methods = g.methods
  /-- Each class is the same, but for its container and its inner classes. -/
  classAt_eq : ∀ id, g'.classAt id =
    { g.classAt id with outer := (g'.classAt id).outer, inner := (g'.classAt id).inner }

namespace SameButNested

theorem refl (g : ClassGraph) : SameButNested g g := ⟨rfl, rfl, fun _ => rfl⟩

theorem trans {g₁ g₂ g₃ : ClassGraph} (h : SameButNested g₁ g₂) (h' : SameButNested g₂ g₃) :
    SameButNested g₁ g₃ where
  size_eq := h'.size_eq.trans h.size_eq
  methods_eq := h'.methods_eq.trans h.methods_eq
  classAt_eq id := by
    have hlast := h'.classAt_eq id
    rw [h.classAt_eq id] at hlast
    exact hlast

/-- Changing the links of one class changes nothing else. -/
theorem modifyClass (g : ClassGraph) (o : ClassId) {f : ClassSymbol → ClassSymbol}
    (hf : ∀ c, f c = { c with outer := (f c).outer, inner := (f c).inner }) :
    SameButNested g (g.modifyClass o f) where
  size_eq := size_modifyClass g o f
  methods_eq := methods_modifyClass g o f
  classAt_eq id := by
    rw [classAt_modifyClass]
    split
    · exact hf _
    · rfl

theorem moveUnder (g : ClassGraph) (id outer : ClassId) :
    SameButNested g (g.moveUnder id outer) := by
  by_cases hcurrent : (g.classAt id).outer = some outer
  · rw [ClassGraph.moveUnder, if_pos hcurrent]
    exact refl g
  · rw [ClassGraph.moveUnder, if_neg hcurrent]
    refine trans (trans ?_ (modifyClass _ _ fun _ => rfl)) (modifyClass _ _ fun _ => rfl)
    split
    · exact modifyClass _ _ fun _ => rfl
    · exact refl g

theorem nest (g : ClassGraph) (id : ClassId) : SameButNested g (g.nest id) := by
  unfold ClassGraph.nest
  split
  · exact refl g
  · split
    · exact refl g
    · exact moveUnder g _ _

/-- Nesting classes one after the other changes nothing but links to containers. -/
theorem foldl_nest (ids : List ClassId) (g : ClassGraph) :
    SameButNested g (ids.foldl ClassGraph.nest g) := by
  induction ids generalizing g with
  | nil => exact refl g
  | cons id ids ih => exact (nest g id).trans (ih _)

theorem nestAll (g : ClassGraph) : SameButNested g g.nestAll := foldl_nest g.ids g

theorem nameAt_eq (h : SameButNested g g') (id : ClassId) : g'.nameAt id = g.nameAt id := by
  rw [nameAt, h.classAt_eq id]
  rfl

theorem distinctNames (h : SameButNested g g') (hnames : g.DistinctNames) :
    g'.DistinctNames := by
  intro i j hi hj heq
  rw [h.size_eq] at hi hj
  rw [h.nameAt_eq, h.nameAt_eq] at heq
  exact hnames hi hj heq

end SameButNested

/-! ## Nesting keeps the forest -/

/-- The class that releases a class drops it from its inner classes, and the new container
lists it last. -/
theorem classAt_moveUnder (h : g.Forest) {id outer : ClassId} (hid : id < g.size)
    (houter : outer < g.size) (hne : (g.classAt id).outer ≠ some outer) (x : ClassId) :
    ((g.moveUnder id outer).classAt x).outer =
        (if x = id then some outer else (g.classAt x).outer) ∧
      ((g.moveUnder id outer).classAt x).inner =
        (g.classAt x).inner.filter (· ≠ id) ++ if x = outer then [id] else [] := by
  have hkept : (g.classAt id).outer ≠ some x → (g.classAt x).inner.filter (· ≠ id) =
      (g.classAt x).inner := by
    intro hx
    refine List.filter_eq_self.2 fun y hy => decide_eq_true ?_
    rintro rfl
    exact hx (h.mem_inner_iff.1 hy)
  rw [moveUnder, if_neg hne]
  simp only [classAt_modifyClass, size_modifyClass]
  cases hcurrent : (g.classAt id).outer with
  | none =>
    have hx := hkept (by simp [hcurrent])
    simp only [hx]
    by_cases hxid : x = id <;> by_cases hxo : x = outer <;> simp_all
  | some old =>
    simp only [classAt_modifyClass, size_modifyClass]
    by_cases hold : x = old
    · have hlt : old < g.size := h.outer_lt hcurrent
      by_cases hxid : x = id <;> by_cases hxo : x = outer <;> simp_all
    · have hx := hkept (by simp [hcurrent, Ne.symm hold])
      simp only [hx]
      by_cases hxid : x = id <;> by_cases hxo : x = outer <;> simp_all

theorem Forest.moveUnder (h : g.Forest) {id outer : ClassId} (hid : id < g.size)
    (houter : outer < g.size) (hnot : g.isNestedIn outer id = false) :
    (g.moveUnder id outer).Forest := by
  by_cases hcurrent : (g.classAt id).outer = some outer
  · rwa [ClassGraph.moveUnder, if_pos hcurrent]
  · have hsize := (SameButNested.moveUnder g id outer).size_eq
    have hclass := classAt_moveUnder h hid houter hcurrent
    refine h.move (Nat.le_of_eq hsize.symm) id outer (hsize.symm ▸ houter) ?_
      (fun x => (hclass x).1) (fun x => (hclass x).2)
    rw [← h.isNestedIn_iff, hnot]
    exact Bool.false_ne_true

theorem Forest.nest (h : g.Forest) {id : ClassId} (hid : id < g.size) : (g.nest id).Forest := by
  unfold ClassGraph.nest
  split
  · exact h
  · rename_i outer hclaimed
    split
    · exact h
    · rename_i hnot
      obtain ⟨name, -, hname⟩ := Option.bind_eq_some_iff.1 hclaimed
      exact h.moveUnder hid (of_idOf? hname).1 (by simpa using hnot)

/-- After nesting, containers still form a forest. -/
theorem Forest.nestAll (h : g.Forest) : g.nestAll.Forest := by
  have hfold : ∀ (ids : List ClassId) (g₁ : ClassGraph), (∀ id ∈ ids, id < g₁.size) →
      g₁.Forest → (ids.foldl ClassGraph.nest g₁).Forest := by
    intro ids
    induction ids with
    | nil => exact fun g₁ _ h₁ => h₁
    | cons id ids ih =>
      intro g₁ hids h₁
      obtain ⟨hid, hids⟩ := List.forall_mem_cons.1 hids
      refine ih _ (fun x hx => ?_) (h₁.nest hid)
      rw [(SameButNested.nest g₁ id).size_eq]
      exact hids x hx
  exact hfold g.ids g (fun id hid => List.mem_range.1 hid) h

end StableNaming.ClassGraph
