/-!
# Stable sorting

Lists are sorted by merging: single elements are runs, and neighbouring runs are
merged until one is left. The sort is stable: elements that compare equal both
ways keep their order.
-/

namespace StableNaming.Collection

variable {α : Type}

/-- Merge two runs. Of elements that compare equal those of the first run come first. -/
def merge (le : α → α → Bool) : List α → List α → List α
  | [], ys => ys
  | x :: xs, ys =>
    ys.takeWhile (fun y => !le x y) ++ x :: merge le xs (ys.dropWhile fun y => !le x y)

/-- Merge neighbouring runs. -/
def mergePairs (le : α → α → Bool) : List (List α) → List (List α)
  | xs :: ys :: runs => merge le xs ys :: mergePairs le runs
  | runs => runs

/-- Merging never adds runs. -/
theorem length_mergePairs_le (le : α → α → Bool) (runs : List (List α)) :
    (mergePairs le runs).length ≤ runs.length := by
  fun_induction mergePairs le runs with
  | case1 xs ys runs ih => exact Nat.succ_le_succ (Nat.le_succ_of_le ih)
  | case2 => exact Nat.le_refl _

/-- Merge neighbouring runs until one is left. -/
def mergeRuns (le : α → α → Bool) : List (List α) → List α
  | [] => []
  | [run] => run
  | xs :: ys :: runs => mergeRuns le (merge le xs ys :: mergePairs le runs)
termination_by runs => runs.length
decreasing_by exact Nat.succ_lt_succ (Nat.lt_succ_of_le (length_mergePairs_le le runs))

/-- Sort by `le`, keeping the order of equal elements. -/
def sortBy (le : α → α → Bool) (xs : List α) : List α := mergeRuns le (xs.map fun x => [x])

/-- Sort by the text that `key` gives, in code point order. -/
def sortOn (key : α → String) (xs : List α) : List α :=
  sortBy (fun a b => decide (key a ≤ key b)) xs

/-! ## Sorting only reorders -/

theorem merge_perm (le : α → α → Bool) (xs ys : List α) :
    (merge le xs ys).Perm (xs ++ ys) := by
  induction xs generalizing ys with
  | nil => exact List.Perm.refl _
  | cons x xs ih =>
    refine List.perm_middle.trans (.cons x ?_)
    refine ((ih _).append_left _).trans ?_
    rw [← List.append_assoc]
    refine (List.perm_append_comm.append_right _).trans ?_
    rw [List.append_assoc, List.takeWhile_append_dropWhile]
    exact List.Perm.refl _

theorem flatten_mergePairs_perm (le : α → α → Bool) (runs : List (List α)) :
    (mergePairs le runs).flatten.Perm runs.flatten := by
  fun_induction mergePairs le runs with
  | case1 xs ys runs ih =>
    simp only [List.flatten_cons, ← List.append_assoc]
    exact (merge_perm le xs ys).append ih
  | case2 => exact List.Perm.refl _

theorem mergeRuns_perm (le : α → α → Bool) (runs : List (List α)) :
    (mergeRuns le runs).Perm runs.flatten := by
  fun_induction mergeRuns le runs with
  | case1 => exact List.Perm.refl _
  | case2 run => simp
  | case3 xs ys runs ih => exact ih.trans (flatten_mergePairs_perm le (xs :: ys :: runs))

/-- Sorting only reorders. -/
theorem sortBy_perm (le : α → α → Bool) (xs : List α) : (sortBy le xs).Perm xs := by
  have h : (xs.map fun x => [x]).flatten = xs := by
    induction xs with
    | nil => rfl
    | cons x xs ih => simp [ih]
  exact (mergeRuns_perm le _).trans (List.Perm.of_eq h)

/-! ## Sorting puts in order -/

section Order

variable {le : α → α → Bool} (trans : ∀ a b c, le a b = true → le b c = true → le a c = true)
  (total : ∀ a b, le a b = true ∨ le b a = true)

include trans total

omit total in
/-- In a run, what comes after everything below `x` is not below `x`. -/
theorem le_of_mem_dropWhile {x y : α} {ys : List α} (hys : ys.Pairwise (le · · = true))
    (hy : y ∈ ys.dropWhile fun z => !le x z) : le x y = true := by
  induction ys with
  | nil => simp at hy
  | cons z ys ih =>
    obtain ⟨hz, hys⟩ := List.pairwise_cons.1 hys
    rw [List.dropWhile_cons] at hy
    split at hy
    · exact ih hys hy
    · rename_i hxz
      have hxz : le x z = true := by simpa using hxz
      rcases List.mem_cons.1 hy with rfl | hy
      · exact hxz
      · exact trans x z y hxz (hz y hy)

theorem pairwise_merge {xs ys : List α} (hxs : xs.Pairwise (le · · = true))
    (hys : ys.Pairwise (le · · = true)) : (merge le xs ys).Pairwise (le · · = true) := by
  induction xs generalizing ys with
  | nil => exact hys
  | cons x xs ih =>
    obtain ⟨hx, hxs⟩ := List.pairwise_cons.1 hxs
    have hrest := hys.sublist (List.dropWhile_sublist fun y => !le x y)
    have hge : ∀ y ∈ merge le xs (ys.dropWhile fun y => !le x y), le x y = true := by
      intro y hy
      rcases List.mem_append.1 ((merge_perm le _ _).mem_iff.1 hy) with hy | hy
      · exact hx y hy
      · exact le_of_mem_dropWhile trans hys hy
    have hlt : ∀ y ∈ ys.takeWhile (fun y => !le x y), le y x = true := by
      intro y hy
      have : le x y = false := by simpa using List.all_eq_true.1 List.all_takeWhile y hy
      exact (total y x).resolve_right (by simp [this])
    refine List.pairwise_append.2 ⟨hys.sublist (List.takeWhile_sublist _),
      List.pairwise_cons.2 ⟨hge, ih hxs hrest⟩, fun y hy z hz => ?_⟩
    rcases List.mem_cons.1 hz with rfl | hz
    · exact hlt y hy
    · exact trans y x z (hlt y hy) (hge z hz)

theorem pairwise_mergePairs {runs : List (List α)}
    (h : ∀ run ∈ runs, run.Pairwise (le · · = true)) :
    ∀ run ∈ mergePairs le runs, run.Pairwise (le · · = true) := by
  fun_induction mergePairs le runs with
  | case1 xs ys runs ih =>
    simp only [List.mem_cons, forall_eq_or_imp] at h ⊢
    exact ⟨pairwise_merge trans total h.1 h.2.1, ih h.2.2⟩
  | case2 => exact h

theorem pairwise_mergeRuns {runs : List (List α)}
    (h : ∀ run ∈ runs, run.Pairwise (le · · = true)) :
    (mergeRuns le runs).Pairwise (le · · = true) := by
  fun_induction mergeRuns le runs with
  | case1 => exact List.Pairwise.nil
  | case2 run => exact h run List.mem_cons_self
  | case3 xs ys runs ih =>
    exact ih (pairwise_mergePairs trans total h)

/-- For a total preorder the result is in order. -/
theorem pairwise_sortBy (xs : List α) : (sortBy le xs).Pairwise (le · · = true) := by
  refine pairwise_mergeRuns trans total fun run hrun => ?_
  obtain ⟨x, -, rfl⟩ := List.mem_map.1 hrun
  exact List.pairwise_singleton _ x

end Order

theorem mem_sortOn {key : α → String} {xs : List α} {x : α} : x ∈ sortOn key xs ↔ x ∈ xs :=
  (sortBy_perm _ xs).mem_iff

/-- Keys ascend in the result. -/
theorem pairwise_sortOn (key : α → String) (xs : List α) :
    (sortOn key xs).Pairwise (key · ≤ key ·) := by
  have h : (sortOn key xs).Pairwise (fun a b => decide (key a ≤ key b) = true) :=
    pairwise_sortBy (by intro a b c; simpa using String.le_trans)
      (by intro a b; simpa using String.le_total (key a) (key b)) xs
  simpa using h

end StableNaming.Collection
