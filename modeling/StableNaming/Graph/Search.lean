import StableNaming.Collection.NumberSet

/-!
# Breadth-first search

Everything that can be reached from given numbers, in the order of a
breadth-first walk. A walk goes level by level; a number that has been met is
marked and does not come again, so the walk ends. It finds exactly what is
reachable (`mem_spread_iff`), and each number once (`nodup_spread`).
-/

namespace StableNaming.Search

/-- Those of the given numbers that are below `bound` and have not been met, each once; and
all that have been met then. -/
def discover (bound : Nat) : List Nat → NumberSet → List Nat × NumberSet
  | [], met => ([], met)
  | x :: xs, met =>
    if x < bound ∧ met.contains x = false then
      let rest := discover bound xs (met.insert x)
      (x :: rest.1, rest.2)
    else discover bound xs met

/-- What is discovered is missing no longer. -/
theorem missing_discover (bound : Nat) (xs : List Nat) (met : NumberSet) :
    (discover bound xs met).2.missing bound + (discover bound xs met).1.length =
      met.missing bound := by
  induction xs generalizing met with
  | nil => rfl
  | cons x xs ih =>
    simp only [discover]
    split
    · rename_i h
      rw [List.length_cons, ← Nat.add_assoc, ih, NumberSet.missing_insert h.1 h.2]
    · exact ih met

/-- Visit a level, and then what has not been met of the next one, until nothing is left. -/
def walk (next : List Nat → List Nat) (bound : Nat) (met : NumberSet) : List Nat → List Nat
  | [] => []
  | x :: level =>
    let step := discover bound (next (x :: level)) met
    x :: level ++ walk next bound step.2 step.1
termination_by level => met.missing bound + level.length
decreasing_by
  have := missing_discover bound (next (x :: level)) met
  simp only [List.length_cons]
  omega

/-- What can be reached from the seeds among the numbers below `bound`, where a level leads
to the next one. -/
def spread (next : List Nat → List Nat) (bound : Nat) (seeds : List Nat) : List Nat :=
  let start := discover bound seeds .empty
  walk next bound start.2 start.1

/-- What can be reached from the seeds among the numbers below `bound`, where each number
leads to its neighbours. -/
def reach (next : Nat → List Nat) (bound : Nat) (seeds : List Nat) : List Nat :=
  spread (·.flatMap next) bound seeds

/-! ## What the walk meets -/

theorem mem_discover_iff {bound x : Nat} {xs : List Nat} {met : NumberSet} :
    x ∈ (discover bound xs met).1 ↔ x ∈ xs ∧ x < bound ∧ met.contains x = false := by
  induction xs generalizing met with
  | nil => simp [discover]
  | cons y ys ih =>
    simp only [discover]
    split <;> rename_i hy
    · simp only [List.mem_cons, ih, NumberSet.contains_insert]
      by_cases hxy : x = y
      · simp [hxy, hy]
      · simp [hxy, Ne.symm hxy]
    · rw [ih, List.mem_cons]
      by_cases hxy : x = y
      · subst hxy
        exact ⟨fun h => absurd h.2 hy, fun h => absurd h.2 hy⟩
      · simp [hxy]

theorem contains_discover_iff {bound x : Nat} {xs : List Nat} {met : NumberSet} :
    (discover bound xs met).2.contains x = true ↔
      met.contains x = true ∨ x ∈ xs ∧ x < bound := by
  induction xs generalizing met with
  | nil => simp [discover]
  | cons y ys ih =>
    simp only [discover]
    split <;> rename_i hy
    · rw [ih, NumberSet.contains_insert, List.mem_cons]
      by_cases hxy : x = y
      · simp [hxy, hy.1]
      · simp [hxy, Ne.symm hxy]
    · rw [ih, List.mem_cons]
      by_cases hxy : x = y
      · subst hxy
        by_cases hb : x < bound
        · have : met.contains x = true := by simpa [hb] using hy
          simp [this]
        · simp [hb]
      · simp [hxy]

theorem nodup_discover {bound : Nat} {xs : List Nat} {met : NumberSet} :
    (discover bound xs met).1.Nodup := by
  induction xs generalizing met with
  | nil => exact List.nodup_nil
  | cons y ys ih =>
    simp only [discover]
    split
    · exact List.nodup_cons.2 ⟨fun h => by simpa using (mem_discover_iff.1 h).2.2, ih⟩
    · exact ih

theorem mem_walk_of_mem_level {next : List Nat → List Nat} {bound x : Nat} {met : NumberSet}
    {level : List Nat} (h : x ∈ level) : x ∈ walk next bound met level := by
  cases level with
  | nil => simp at h
  | cons y level => rw [walk]; exact List.mem_append_left _ h

/-- The walk goes on from everything that it meets. -/
theorem mem_walk_of_mem_next {next : List Nat → List Nat} {bound x y : Nat} {met : NumberSet}
    {level : List Nat} (hnext : ∀ xs z, (∃ w ∈ xs, z ∈ next [w]) → z ∈ next xs)
    (hx : x ∈ walk next bound met level) (hy : y ∈ next [x]) (hyb : y < bound)
    (hym : met.contains y = false) : y ∈ walk next bound met level := by
  fun_induction walk next bound met level with
  | case1 => simp at hx
  | case2 met z level step ih =>
    by_cases hz : y ∈ next (z :: level)
    · exact List.mem_append_right _ (mem_walk_of_mem_level (mem_discover_iff.2 ⟨hz, hyb, hym⟩))
    · refine List.mem_append_right _ (ih ?_ ?_)
      · exact (List.mem_append.1 hx).resolve_left fun h => hz (hnext _ _ ⟨x, h, hy⟩)
      · rw [← Bool.not_eq_true, contains_discover_iff]
        simp [hym, hz]

/-- Everything after the level was not met before. -/
theorem mem_level_or_of_mem_walk {next : List Nat → List Nat} {bound x : Nat} {met : NumberSet}
    {level : List Nat} (h : x ∈ walk next bound met level) :
    x ∈ level ∨ met.contains x = false := by
  fun_induction walk next bound met level with
  | case1 => simp at h
  | case2 met y level step ih =>
    refine (List.mem_append.1 h).imp id fun h => ?_
    rcases ih h with h | h
    · exact (mem_discover_iff.1 h).2.2
    · rw [← Bool.not_eq_true, contains_discover_iff, not_or, Bool.not_eq_true] at h
      exact h.1

/-- The walk meets each number once. -/
theorem nodup_walk {next : List Nat → List Nat} {bound : Nat} {met : NumberSet}
    {level : List Nat} (hlevel : level.Nodup) (hmet : ∀ x ∈ level, met.contains x = true) :
    (walk next bound met level).Nodup := by
  fun_induction walk next bound met level with
  | case1 => exact List.nodup_nil
  | case2 met y level step ih =>
    have hstep : ∀ x ∈ step.1, step.2.contains x = true := fun x hx =>
      contains_discover_iff.2 (.inr ⟨(mem_discover_iff.1 hx).1, (mem_discover_iff.1 hx).2.1⟩)
    refine List.nodup_append.2 ⟨hlevel, ih nodup_discover hstep, fun a ha b hb hab => ?_⟩
    subst hab
    have hmeta := hmet a ha
    rcases mem_level_or_of_mem_walk hb with h | h
    · simp [(mem_discover_iff.1 h).2.2] at hmeta
    · have : step.2.contains a = true := contains_discover_iff.2 (.inl hmeta)
      exact Bool.false_ne_true (h.symm.trans this)

/-- A number that some chain of steps below `bound` leads to from a seed. -/
inductive Reachable (next : Nat → List Nat) (bound : Nat) (seeds : List Nat) : Nat → Prop where
  /-- The seeds are reachable. -/
  | seed {x : Nat} : x ∈ seeds → x < bound → Reachable next bound seeds x
  /-- So are the neighbours of what is reachable. -/
  | step {x y : Nat} :
    Reachable next bound seeds x → y ∈ next x → y < bound → Reachable next bound seeds y

/-- If everything on the level is reachable, so is everything met. -/
theorem reachable_of_mem_walk {next : List Nat → List Nat} {bound x : Nat} {seeds : List Nat}
    {met : NumberSet} {level : List Nat}
    (hnext : ∀ xs z, z ∈ next xs → ∃ w ∈ xs, z ∈ next [w])
    (hlevel : ∀ y ∈ level, Reachable (fun w => next [w]) bound seeds y)
    (h : x ∈ walk next bound met level) : Reachable (fun w => next [w]) bound seeds x := by
  fun_induction walk next bound met level with
  | case1 => simp at h
  | case2 met y level step ih =>
    rcases List.mem_append.1 h with h | h
    · exact hlevel x h
    · refine ih (fun z hz => ?_) h
      obtain ⟨hz, hzb, -⟩ := mem_discover_iff.1 hz
      obtain ⟨w, hw, hz⟩ := hnext _ _ hz
      exact .step (hlevel w hw) hz hzb

/-- If a level leads where its numbers lead, one by one, then the search finds exactly what is
reachable. -/
theorem mem_spread_iff {next : List Nat → List Nat} {bound x : Nat} {seeds : List Nat}
    (hnext : ∀ xs z, z ∈ next xs ↔ ∃ w ∈ xs, z ∈ next [w]) :
    x ∈ spread next bound seeds ↔ Reachable (fun w => next [w]) bound seeds x := by
  constructor
  · refine reachable_of_mem_walk (fun xs z => (hnext xs z).1) fun y hy => ?_
    exact .seed (mem_discover_iff.1 hy).1 (mem_discover_iff.1 hy).2.1
  · intro h
    induction h with
    | seed hx hb => exact mem_walk_of_mem_level (mem_discover_iff.2 ⟨hx, hb, by simp⟩)
    | @step x y _ hy hb ih =>
      by_cases hys : y ∈ seeds
      · exact mem_walk_of_mem_level (mem_discover_iff.2 ⟨hys, hb, by simp⟩)
      · refine mem_walk_of_mem_next (fun xs z => (hnext xs z).2) ih hy hb ?_
        rw [← Bool.not_eq_true, contains_discover_iff]
        simp [hys]

/-- The search finds each number once. -/
theorem nodup_spread (next : List Nat → List Nat) (bound : Nat) (seeds : List Nat) :
    (spread next bound seeds).Nodup :=
  nodup_walk nodup_discover fun _ hx =>
    contains_discover_iff.2 (.inr ⟨(mem_discover_iff.1 hx).1, (mem_discover_iff.1 hx).2.1⟩)

/-- The search along neighbours finds exactly what is reachable. -/
theorem mem_reach_iff {next : Nat → List Nat} {bound x : Nat} {seeds : List Nat} :
    x ∈ reach next bound seeds ↔ Reachable next bound seeds x := by
  have h := @mem_spread_iff (·.flatMap next) bound x seeds (by simp)
  simpa [reach] using h

/-- What several seeds lead to is what they lead to one by one. -/
theorem mem_reach_iff_exists {next : Nat → List Nat} {bound x : Nat} {seeds : List Nat} :
    x ∈ reach next bound seeds ↔ ∃ seed ∈ seeds, x ∈ reach next bound [seed] := by
  simp only [mem_reach_iff]
  constructor
  · intro h
    induction h with
    | @seed x hx hb => exact ⟨x, hx, .seed List.mem_cons_self hb⟩
    | step _ hy hb ih =>
      obtain ⟨seed, hs, h⟩ := ih
      exact ⟨seed, hs, .step h hy hb⟩
  · rintro ⟨seed, hs, h⟩
    induction h with
    | seed hx hb => exact .seed (List.mem_singleton.1 hx ▸ hs) hb
    | step _ hy hb ih => exact .step ih hy hb

/-- The search along neighbours finds each number once. -/
theorem nodup_reach (next : Nat → List Nat) (bound : Nat) (seeds : List Nat) :
    (reach next bound seeds).Nodup :=
  nodup_spread _ bound seeds

end StableNaming.Search
