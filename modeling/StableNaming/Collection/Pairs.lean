/-!
# Lists of pairs

A list of keys and values answers a key with the value of the first pair that
has the key.
-/

namespace StableNaming.Pairs

variable {κ α : Type} [DecidableEq κ]

/-- The value of the first pair with this key. -/
def lookup (k : κ) : List (κ × α) → Option α
  | [] => none
  | (k', a) :: rest => if k' = k then some a else lookup k rest

/-- Replace the value of the key where it stands, or append the pair. -/
def assign (k : κ) (a : α) : List (κ × α) → List (κ × α)
  | [] => [(k, a)]
  | (k', a') :: rest => if k' = k then (k, a) :: rest else (k', a') :: assign k a rest

theorem lookup_assign (k k' : κ) (a : α) (pairs : List (κ × α)) :
    lookup k' (assign k a pairs) = if k = k' then some a else lookup k' pairs := by
  induction pairs with
  | nil => simp [assign, lookup]
  | cons e rest ih =>
    simp only [assign]
    split <;> rename_i h
    · subst h
      simp only [lookup]
      split <;> simp
    · simp only [lookup, ih]
      by_cases hk : e.1 = k'
      · subst hk
        simp [Ne.symm h]
      · simp [hk]

/-- A key has no value exactly when no pair has the key. -/
theorem lookup_eq_none_iff {k : κ} {pairs : List (κ × α)} :
    lookup k pairs = none ↔ k ∉ pairs.map Prod.fst := by
  induction pairs with
  | nil => simp [lookup]
  | cons e rest ih =>
    simp only [lookup, List.map_cons, List.mem_cons, not_or]
    split <;> rename_i h
    · simp [h]
    · rw [ih]
      exact ⟨fun hr => ⟨Ne.symm h, hr⟩, And.right⟩

/-- A new key comes last; a known key keeps its place. -/
theorem keys_assign (k : κ) (a : α) (pairs : List (κ × α)) :
    (assign k a pairs).map Prod.fst =
      if k ∈ pairs.map Prod.fst then pairs.map Prod.fst
      else pairs.map Prod.fst ++ [k] := by
  induction pairs with
  | nil => simp [assign]
  | cons e rest ih =>
    simp only [assign]
    split <;> rename_i h
    · subst h
      simp
    · simp only [List.map_cons, ih, List.mem_cons, Ne.symm h, false_or]
      split <;> simp

theorem mem_of_lookup {k : κ} {a : α} {pairs : List (κ × α)} (h : lookup k pairs = some a) :
    (k, a) ∈ pairs := by
  induction pairs with
  | nil => simp [lookup] at h
  | cons e rest ih =>
    simp only [lookup] at h
    split at h <;> rename_i he
    · subst he
      simp only [Option.some.injEq] at h
      exact h ▸ List.mem_cons_self
    · exact List.mem_cons_of_mem _ (ih h)

/-- Under distinct keys, looking up finds exactly the pairs. -/
theorem lookup_eq_some_iff {k : κ} {a : α} {pairs : List (κ × α)}
    (h : (pairs.map Prod.fst).Nodup) : lookup k pairs = some a ↔ (k, a) ∈ pairs := by
  refine ⟨mem_of_lookup, fun hmem => ?_⟩
  induction pairs with
  | nil => simp at hmem
  | cons e rest ih =>
    obtain ⟨hhead, htail⟩ := List.nodup_cons.1 h
    simp only [lookup]
    rcases List.mem_cons.1 hmem with rfl | hmem
    · simp
    · have hne : e.1 ≠ k := fun he => hhead (he ▸ List.mem_map_of_mem hmem)
      rw [if_neg hne, ih htail hmem]

end StableNaming.Pairs
