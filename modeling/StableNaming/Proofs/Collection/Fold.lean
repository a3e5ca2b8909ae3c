/-!
# Steps that may fail

A row of steps ends at the first fault, or goes through all of them. What every step keeps holds at
the end, and steps that agree lead to one outcome.
-/

namespace StableNaming

variable {σ α β ε : Type} {f f' : σ → α → Except ε σ} {xs : List α} {s s' : σ}

/-- Two steps go through exactly if the second one does after the first. -/
theorem bind_eq_ok_iff {x : Except ε α} {g : α → Except ε β} {b : β} :
    x >>= g = .ok b ↔ ∃ a, x = .ok a ∧ g a = .ok b := by
  cases x with
  | error fault =>
    constructor
    · exact fun h => by cases h
    · rintro ⟨_, h, _⟩
      cases h
  | ok a =>
    constructor
    · exact fun h => ⟨a, rfl, h⟩
    · rintro ⟨_, h, hg⟩
      obtain rfl := Except.ok.inj h
      exact hg

/-- What goes through has a result. -/
theorem exists_of_isOk {x : Except ε α} (h : x.isOk = true) : ∃ a, x = .ok a := by
  cases x with
  | error fault => cases h
  | ok a => exact ⟨a, rfl⟩

/-- What goes through with a known part of its result has a result with that part. -/
theorem exists_of_map_toOption {x : Except ε α} {part : α → β} {b : β}
    (h : x.toOption.map part = some b) : ∃ a, x = .ok a ∧ part a = b := by
  cases x with
  | error fault => cases h
  | ok a => exact ⟨a, rfl, Option.some.inj h⟩

/-- Steps that agree on all states that steps lead to lead to one outcome. -/
theorem foldlM_eq_of_keeps {I : σ → Prop} (hkeep : ∀ s x s', I s → f s x = .ok s' → I s')
    (heq : ∀ s, I s → ∀ x ∈ xs, f s x = f' s x) (hs : I s) : xs.foldlM f s = xs.foldlM f' s := by
  induction xs generalizing s with
  | nil => rfl
  | cons x xs ih =>
    obtain ⟨hx, hxs⟩ := And.intro (heq s hs x List.mem_cons_self)
      fun s hs y hy => heq s hs y (List.mem_cons_of_mem x hy)
    rw [List.foldlM_cons, List.foldlM_cons, ← hx]
    cases hstep : f s x with
    | error fault => rfl
    | ok s₁ => exact ih hxs (hkeep s x s₁ hs hstep)

/-- What steps keep holds at the end. -/
theorem of_foldlM_eq_ok {I : σ → Prop} (hkeep : ∀ s, I s → ∀ x ∈ xs, ∀ s', f s x = .ok s' → I s')
    (hs : I s) (h : xs.foldlM f s = .ok s') : I s' := by
  induction xs generalizing s with
  | nil =>
    obtain rfl : s = s' := Except.ok.inj h
    exact hs
  | cons x xs ih =>
    rw [List.foldlM_cons] at h
    cases hstep : f s x with
    | error fault =>
      rw [hstep] at h
      cases h
    | ok s₁ =>
      rw [hstep] at h
      exact ih (fun s hs y hy => hkeep s hs y (List.mem_cons_of_mem x hy))
        (hkeep s hs x List.mem_cons_self s₁ hstep) h

/-- A fault at the end is the fault of a step. -/
theorem exists_of_foldlM_eq_error {fault : ε} (h : xs.foldlM f s = .error fault) :
    ∃ s₁, ∃ x ∈ xs, f s₁ x = .error fault := by
  induction xs generalizing s with
  | nil => cases h
  | cons x xs ih =>
    rw [List.foldlM_cons] at h
    cases hstep : f s x with
    | error fault' =>
      rw [hstep] at h
      obtain rfl : fault' = fault := Except.error.inj h
      exact ⟨s, x, List.mem_cons_self, hstep⟩
    | ok s₁ =>
      rw [hstep] at h
      obtain ⟨s₂, y, hy, hfault⟩ := ih h
      exact ⟨s₂, y, List.mem_cons_of_mem x hy, hfault⟩

/-- A map of states that steps do not notice can be made at the end. -/
theorem foldlM_map_state (xs : List α) {g : σ → σ} (hg : ∀ s x, f (g s) x = (f s x).map g) :
    xs.foldlM f (g s) = (xs.foldlM f s).map g := by
  induction xs generalizing s with
  | nil => rfl
  | cons x xs ih =>
    rw [List.foldlM_cons, List.foldlM_cons, hg]
    cases f s x with
    | error fault => rfl
    | ok s₁ => exact ih

end StableNaming
