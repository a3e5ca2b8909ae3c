import StableNaming.Text.Blank

/-!
# Splitting text at separators

One splitter for all formats, over lists: pieces between separators, and the
two parts around the first or the last occurrence of a pattern. A text is the
pieces joined by the separators again, so nothing is lost in splitting.
-/

namespace StableNaming.Text

/-- The pieces between the elements that satisfy `p`; at least one piece. -/
def splitWhere {α : Type} (p : α → Bool) : List α → List (List α)
  | [] => [[]]
  | x :: xs =>
    if p x then [] :: splitWhere p xs
    else
      match splitWhere p xs with
      | [] => [[x]]
      | piece :: pieces => (x :: piece) :: pieces

theorem splitWhere_ne_nil {α : Type} (p : α → Bool) (xs : List α) : splitWhere p xs ≠ [] := by
  cases xs with
  | nil => simp [splitWhere]
  | cons x xs =>
    simp only [splitWhere]
    split
    · simp
    · split <;> simp

/-- No piece holds a separator. -/
theorem not_of_mem_splitWhere {α : Type} {p : α → Bool} {xs piece : List α} {x : α}
    (hpiece : piece ∈ splitWhere p xs) (hx : x ∈ piece) : p x = false := by
  induction xs generalizing piece with
  | nil => simp [splitWhere] at hpiece; simp [hpiece] at hx
  | cons y ys ih =>
    simp only [splitWhere] at hpiece
    split at hpiece
    · rcases List.mem_cons.1 hpiece with rfl | h
      · simp at hx
      · exact ih h hx
    · rename_i hy
      split at hpiece
      · rename_i h
        exact absurd h (splitWhere_ne_nil p ys)
      · rename_i first rest h
        rcases List.mem_cons.1 hpiece with rfl | hp
        · rcases List.mem_cons.1 hx with rfl | hx
          · simpa using hy
          · exact ih (by rw [h]; exact List.mem_cons_self) hx
        · exact ih (by rw [h]; exact List.mem_cons_of_mem _ hp) hx

/-- The pieces joined by the separator again are the sequence. -/
theorem intercalate_splitWhere {α : Type} [DecidableEq α] (separator : α) (xs : List α) :
    [separator].intercalate (splitWhere (· == separator) xs) = xs := by
  induction xs with
  | nil => rfl
  | cons x xs ih =>
    have hne := splitWhere_ne_nil (· == separator) xs
    simp only [splitWhere]
    split <;> rename_i h
    · cases hs : splitWhere (· == separator) xs with
      | nil => exact absurd hs hne
      | cons piece pieces =>
        rw [hs] at ih
        simp [List.intercalate_cons_cons, ih, (beq_iff_eq.1 h)]
    · cases hs : splitWhere (· == separator) xs with
      | nil => exact absurd hs hne
      | cons piece pieces =>
        rw [hs] at ih
        cases pieces with
        | nil => simp_all [List.intercalate]
        | cons next rest => simp_all [List.intercalate_cons_cons]

/-- The columns of a line: the pieces between occurrences of `separator`. -/
def columns (separator : Char) (s : String) : List String :=
  (splitWhere (· == separator) s.toList).map String.ofList

/-- The maximal runs of characters that are not blank. -/
def words (s : String) : List String :=
  ((splitWhere isBlank s.toList).filter (· ≠ [])).map String.ofList

/-- The parts before and after the first occurrence of `pattern`. -/
def cutFirst? (pattern : List Char) : List Char → Option (List Char × List Char)
  | [] => if pattern = [] then some ([], []) else none
  | c :: cs =>
    if pattern.isPrefixOf (c :: cs) then some ([], (c :: cs).drop pattern.length)
    else (cutFirst? pattern cs).map fun parts => (c :: parts.1, parts.2)

/-- The parts before and after the last occurrence of `pattern`. -/
def cutLast? (pattern : List Char) : List Char → Option (List Char × List Char)
  | [] => if pattern = [] then some ([], []) else none
  | c :: cs =>
    match cutLast? pattern cs with
    | some parts => some (c :: parts.1, parts.2)
    | none =>
      if pattern.isPrefixOf (c :: cs) then some ([], (c :: cs).drop pattern.length) else none

/-- The parts around the first occurrence make up the text. -/
theorem append_of_cutFirst? {pattern s head tail : List Char}
    (h : cutFirst? pattern s = some (head, tail)) : head ++ pattern ++ tail = s := by
  induction s generalizing head tail with
  | nil =>
    simp only [cutFirst?] at h
    split at h <;> simp_all
  | cons c cs ih =>
    simp only [cutFirst?] at h
    split at h
    · rename_i hp
      obtain ⟨rest, hrest⟩ := List.isPrefixOf_iff_prefix.1 hp
      simp only [Option.some.injEq, Prod.mk.injEq] at h
      rw [← h.1, ← h.2, ← hrest]
      simp
    · obtain ⟨parts, hparts, heq⟩ := Option.map_eq_some_iff.1 h
      simp only [Prod.mk.injEq] at heq
      rw [← heq.1, ← heq.2, List.cons_append, List.cons_append, ih hparts]

/-- The parts around the last occurrence make up the text. -/
theorem append_of_cutLast? {pattern s head tail : List Char}
    (h : cutLast? pattern s = some (head, tail)) : head ++ pattern ++ tail = s := by
  induction s generalizing head tail with
  | nil =>
    simp only [cutLast?] at h
    split at h <;> simp_all
  | cons c cs ih =>
    simp only [cutLast?] at h
    split at h
    · rename_i parts hparts
      simp only [Option.some.injEq, Prod.mk.injEq] at h
      rw [← h.1, ← h.2, List.cons_append, List.cons_append, ih hparts]
    · split at h
      · rename_i hp
        obtain ⟨rest, hrest⟩ := List.isPrefixOf_iff_prefix.1 hp
        simp only [Option.some.injEq, Prod.mk.injEq] at h
        rw [← h.1, ← h.2, ← hrest]
        simp
      · simp at h

/-- Whether `pattern` occurs in the text. -/
def occursIn (pattern s : String) : Bool :=
  (cutFirst? pattern.toList s.toList).isSome

/-- The text after the last `separator`, or the whole text if there is none. -/
def afterLast (separator : Char) (s : String) : String :=
  match cutLast? [separator] s.toList with
  | some parts => String.ofList parts.2
  | none => s

end StableNaming.Text
