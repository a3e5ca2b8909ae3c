import StableNaming.Proofs.Text.Line

/-!
# Lines of encoded texts

No byte of a character other than a line feed looks like one, and the same goes for
carriage returns, so a file that holds the encoding of a text has the lines of the text.
-/

namespace StableNaming.Text

variable {α β : Type}

/-- What has no separator becomes part of the first piece. -/
theorem exists_splitWhere_append {p : α → Bool} {front : List α} (hfront : ∀ x ∈ front, p x = false)
    (rest : List α) :
    ∃ piece pieces, splitWhere p rest = piece :: pieces ∧
      splitWhere p (front ++ rest) = (front ++ piece) :: pieces := by
  induction front with
  | nil =>
    obtain ⟨piece, pieces, hrest⟩ := List.exists_cons_of_ne_nil (splitWhere_ne_nil p rest)
    exact ⟨piece, pieces, hrest, hrest⟩
  | cons x front ih =>
    obtain ⟨hx, hfront⟩ := List.forall_mem_cons.1 hfront
    obtain ⟨piece, pieces, hrest, hsplit⟩ := ih hfront
    refine ⟨piece, pieces, hrest, ?_⟩
    rw [List.cons_append, splitWhere, if_neg (Bool.not_eq_true _ ▸ hx), hsplit]
    rfl

/-- One `last` at the end is dropped. -/
theorem dropOne_concat [DecidableEq α] (last : α) (xs : List α) (x : α) :
    dropOne last (xs ++ [x]) = if x = last then xs else xs ++ [x] := by
  simp only [dropOne, List.getLast?_concat, List.dropLast_concat, Option.some_inj]

/-- Whether a code writes an element as one letter that occurs in no other code word. -/
structure Marks (code : α → List β) (x : α) (letter : β) : Prop where
  /-- The letter is the code of the element. -/
  code_eq : code x = [letter]
  /-- Other code words do without the letter. -/
  not_mem : ∀ y ≠ x, letter ∉ code y

section Code

variable [DecidableEq α] [DecidableEq β] {code : α → List β}

/-- Encoding keeps the pieces between marked elements. -/
theorem Marks.splitWhere_flatMap {feed : α} {feed' : β} (h : Marks code feed feed')
    (xs : List α) :
    splitWhere (· == feed') (xs.flatMap code) =
      (splitWhere (· == feed) xs).map (·.flatMap code) := by
  induction xs with
  | nil => rfl
  | cons x xs ih =>
    rw [List.flatMap_cons, splitWhere]
    by_cases hx : x = feed
    · rw [if_pos (beq_iff_eq.2 hx), hx, h.code_eq, List.singleton_append, splitWhere,
        if_pos (beq_self_eq_true feed'), ih]
      rfl
    · have hword : ∀ letter ∈ code x, (letter == feed') = false := fun letter hletter =>
        beq_eq_false_iff_ne.2 fun heq => h.not_mem x hx (heq ▸ hletter)
      obtain ⟨piece', pieces', hrest, hsplit⟩ := exists_splitWhere_append hword (xs.flatMap code)
      rw [if_neg (by simpa using hx), hsplit]
      rw [hrest] at ih
      cases hpieces : splitWhere (· == feed) xs with
      | nil => exact absurd hpieces (splitWhere_ne_nil _ _)
      | cons piece pieces =>
        rw [hpieces, List.map_cons] at ih
        obtain ⟨hpiece, hpieces⟩ := List.cons.inj ih
        rw [hpiece, hpieces, List.map_cons, List.flatMap_cons]

/-- Encoding keeps the marked element at the end. -/
theorem Marks.dropOne_flatMap {last : α} {last' : β} (h : Marks code last last')
    (hne : ∀ x, code x ≠ []) (xs : List α) :
    dropOne last' (xs.flatMap code) = (dropOne last xs).flatMap code := by
  rcases List.eq_nil_or_concat xs with rfl | ⟨front, x, rfl⟩
  · rfl
  · rw [List.concat_eq_append, dropOne_concat, List.flatMap_append, List.flatMap_singleton]
    by_cases hx : x = last
    · rw [if_pos hx, hx, h.code_eq, dropOne_concat, if_pos rfl]
    · rw [if_neg hx, List.flatMap_append, List.flatMap_singleton]
      have hend := List.getLast?_eq_some_getLast (hne x)
      refine if_neg fun hlast => h.not_mem x hx ?_
      rw [List.getLast?_append, hend, Option.some_or, ← hend] at hlast
      exact List.mem_of_getLast? hlast

/-- Encoding keeps the lines. -/
theorem linesWith_flatMap_code {feed carriage : α} {feed' carriage' : β}
    (hfeed : Marks code feed feed') (hcarriage : Marks code carriage carriage')
    (hne : ∀ x, code x ≠ []) (xs : List α) :
    linesWith feed' carriage' (xs.flatMap code) =
      (linesWith feed carriage xs).map (·.flatMap code) := by
  have hempty : ∀ piece : List α, piece.flatMap code ≠ [] ↔ piece ≠ [] := by
    intro piece
    rw [ne_eq, ne_eq, List.flatMap_eq_nil_iff, List.eq_nil_iff_forall_not_mem]
    exact not_congr (forall_congr' fun x => forall_congr' fun _ => iff_false_intro (hne x))
  have hdrop : dropOne carriage' ∘ (·.flatMap code) = (·.flatMap code) ∘ dropOne carriage :=
    funext fun piece => hcarriage.dropOne_flatMap hne piece
  have hrest : ∀ piece? : Option (List α),
      (piece?.map (·.flatMap code)).filter (· ≠ []) =
        (piece?.filter (· ≠ [])).map (·.flatMap code) := by
    rintro (_ | piece)
    · rfl
    · rw [Option.map_some, Option.filter_some, Option.filter_some]
      simp only [hempty, decide_eq_true_eq]
      split <;> rfl
  rw [linesWith, linesWith, hfeed.splitWhere_flatMap, List.getLast?_map, hrest,
    ← List.map_dropLast, List.map_map, hdrop, List.map_append, List.map_map, Option.toList_map]

end Code

/-- A text is encoded character by character. -/
theorem encodeUtf8_eq_flatMap (s : String) :
    encodeUtf8 s = s.toList.flatMap String.utf8EncodeChar := by
  rw [encodeUtf8, String.toUTF8_eq_toByteArray, ← String.utf8Encode_toList, List.utf8Encode]
  simp

/-- A byte of the ASCII range stands for itself only. -/
theorem utf8EncodeChar_of_mem {c : Char} {b : UInt8} (hb : b ∈ String.utf8EncodeChar c)
    (hascii : b.toNat < 128) : c.toNat = b.toNat := by
  rw [String.utf8EncodeChar] at hb
  have hc : c.toNat = c.val.toNat := rfl
  split at hb
  · rw [List.mem_singleton] at hb
    rw [hb, UInt8.toNat_ofNat', hc]
    omega
  · -- all bytes of longer sequences are above the ASCII range
    split at hb
    · simp only [List.mem_cons, List.not_mem_nil, or_false] at hb
      rcases hb with rfl | rfl <;> rw [UInt8.toNat_ofNat'] at hascii <;> omega
    · split at hb
      · simp only [List.mem_cons, List.not_mem_nil, or_false] at hb
        rcases hb with rfl | rfl | rfl <;> rw [UInt8.toNat_ofNat'] at hascii <;> omega
      · simp only [List.mem_cons, List.not_mem_nil, or_false] at hb
        rcases hb with rfl | rfl | rfl | rfl <;> rw [UInt8.toNat_ofNat'] at hascii <;> omega

/-- A character of the ASCII range is one byte, -/
theorem utf8EncodeChar_of_ascii {c : Char} (hc : c.toNat < 128) :
    String.utf8EncodeChar c = [UInt8.ofNat c.toNat] :=
  if_pos (Nat.le_of_lt_succ hc)

/-- and the bytes of any other character are outside that range. -/
theorem not_ascii_of_mem {c : Char} {b : UInt8} (hc : 128 ≤ c.toNat)
    (hb : b ∈ String.utf8EncodeChar c) : 128 ≤ b.toNat := by
  refine Nat.le_of_not_lt fun hascii => ?_
  have hself := utf8EncodeChar_of_mem hb hascii
  omega

/-- The character of a number has this number, if it is that of a character. -/
theorem toNat_ofNat {n : Nat} (h : n.isValidChar) : (Char.ofNat n).toNat = n := by
  rw [Char.ofNat, dif_pos h]
  rfl

/-- UTF-8 marks the characters of the ASCII range. -/
theorem marks_utf8 {c : Char} {b : UInt8} (hcode : String.utf8EncodeChar c = [b])
    (hascii : b.toNat < 128) : Marks String.utf8EncodeChar c b where
  code_eq := hcode
  not_mem d hd hb := by
    have hself := utf8EncodeChar_of_mem (hcode ▸ List.mem_singleton_self b) hascii
    exact hd (Char.toNat_inj.1 ((utf8EncodeChar_of_mem hb hascii).trans hself.symm))

/-- A file that holds the encoding of a text has the lines of the text. -/
theorem fileLines_encodeUtf8 (s : String) : fileLines (encodeUtf8 s) = (lines s).map some := by
  have hfeed : Marks String.utf8EncodeChar '\n' 10 := marks_utf8 (by decide) (by decide)
  have hcarriage : Marks String.utf8EncodeChar '\r' 13 := marks_utf8 (by decide) (by decide)
  have hlines := linesWith_flatMap_code hfeed hcarriage (fun _ => String.utf8EncodeChar_ne_nil)
    s.toList
  rw [fileLines, encodeUtf8_eq_flatMap, hlines, lines, List.map_map, List.map_map]
  refine List.map_congr_left fun piece _ => decodeUtf8?_eq_some_iff.2 ?_
  rw [encodeUtf8_eq_flatMap, String.toList_ofList]

end StableNaming.Text
