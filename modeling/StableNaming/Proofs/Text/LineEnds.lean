import Mathlib.Data.List.Induction
import StableNaming.Proofs.Text.Split
import StableNaming.Proofs.Text.Utf8

/-!
# Lines with their ends

A file falls into lines that keep their line feeds, so that it is the row of these lines. What is
handed out for a line is its text without the end, if the line is a text at all; and since a line
end is blank, a trimmed line does not show whether it had one.
-/

namespace StableNaming.Text

variable {line rest : List UInt8} {s t : String}

/-- The lines of a file as they stand there. A line goes up to a line feed and ends with it; what
follows the last line feed is a line of its own unless it is empty. -/
def rawLines (bytes : List UInt8) : List (List UInt8) :=
  let pieces := splitWhere (· == 10) bytes
  pieces.dropLast.map (· ++ [10]) ++ (pieces.getLast?.filter (· ≠ [])).toList

/-- A line without its line feed and the carriage return before that. -/
def withoutEnd (line : List UInt8) : List UInt8 :=
  if line.getLast? = some 10 then dropOne 13 line.dropLast else line

/-- What is handed out for a line. -/
def lineText? (line : List UInt8) : Option String := decodeUtf8? (withoutEnd line)

/-! ## Line by line -/

theorem splitWhere_feed_of_not_mem (h : 10 ∉ line) : splitWhere (· == 10) line = [line] := by
  have hpiece : ∀ b ∈ line, (b == 10) = false := fun b hb =>
    beq_eq_false_iff_ne.2 fun heq => h (heq ▸ hb)
  exact splitWhere_of_forall hpiece

theorem splitWhere_feed_append (h : 10 ∉ line) (rest : List UInt8) :
    splitWhere (· == 10) (line ++ 10 :: rest) = line :: splitWhere (· == 10) rest := by
  have hpiece : ∀ b ∈ line, (b == 10) = false := fun b hb =>
    beq_eq_false_iff_ne.2 fun heq => h (heq ▸ hb)
  exact splitWhere_append hpiece rfl rest

theorem filter_getLast?_singleton (hne : line ≠ []) :
    ([line].getLast?.filter (· ≠ [])).toList = [line] := by
  rw [List.getLast?_singleton, Option.filter_some, if_pos (decide_eq_true hne),
    Option.toList_some]

theorem rawLines_of_not_mem (hne : line ≠ []) (h : 10 ∉ line) : rawLines line = [line] := by
  rw [rawLines, splitWhere_feed_of_not_mem h]
  exact filter_getLast?_singleton hne

theorem fileLines_of_not_mem (hne : line ≠ []) (h : 10 ∉ line) :
    fileLines line = [decodeUtf8? line] := by
  rw [fileLines, linesWith, splitWhere_feed_of_not_mem h]
  exact congrArg (List.map decodeUtf8?) (filter_getLast?_singleton hne)

theorem rawLines_append (h : 10 ∉ line) (rest : List UInt8) :
    rawLines (line ++ 10 :: rest) = (line ++ [10]) :: rawLines rest := by
  obtain ⟨piece, pieces, hrest⟩ := List.exists_cons_of_ne_nil (splitWhere_ne_nil (· == 10) rest)
  rw [rawLines, rawLines, splitWhere_feed_append h, hrest]
  rfl

theorem fileLines_append (h : 10 ∉ line) (rest : List UInt8) :
    fileLines (line ++ 10 :: rest) = decodeUtf8? (dropOne 13 line) :: fileLines rest := by
  obtain ⟨piece, pieces, hrest⟩ := List.exists_cons_of_ne_nil (splitWhere_ne_nil (· == 10) rest)
  rw [fileLines, fileLines, linesWith, linesWith, splitWhere_feed_append h, hrest]
  rfl

/-- A file is empty, or one line without a line feed, or starts with a line that has one. -/
@[elab_as_elim]
theorem file_induction {motive : List UInt8 → Prop} (empty : motive [])
    (last : ∀ line, line ≠ [] → 10 ∉ line → motive line)
    (next : ∀ line rest, 10 ∉ line → motive rest → motive (line ++ 10 :: rest))
    (bytes : List UInt8) : motive bytes := by
  induction hlength : bytes.length using Nat.strongRecOn generalizing bytes with
  | ind length ih =>
    by_cases hfeed : 10 ∈ bytes
    · obtain ⟨line, rest, rfl, hline⟩ := List.eq_append_cons_of_mem hfeed
      refine next line rest hline (ih rest.length ?_ rest rfl)
      rw [← hlength, List.length_append, List.length_cons]
      omega
    · by_cases hempty : bytes = []
      · exact hempty ▸ empty
      · exact last bytes hempty hfeed

/-- A file is the row of its lines. -/
theorem flatten_rawLines (bytes : List UInt8) : (rawLines bytes).flatten = bytes := by
  induction bytes using file_induction with
  | empty => rfl
  | last line hne hline => rw [rawLines_of_not_mem hne hline, List.flatten_singleton]
  | next line rest hline ih =>
    rw [rawLines_append hline, List.flatten_cons, ih, List.append_assoc, List.singleton_append]

/-- Lines at the end of a file are the lines of what they make up. -/
theorem rawLines_flatten_of_append {bytes : List UInt8} {front rear : List (List UInt8)}
    (h : rawLines bytes = front ++ rear) : rawLines rear.flatten = rear := by
  induction bytes using file_induction generalizing front with
  | empty =>
    obtain ⟨-, rfl⟩ := List.append_eq_nil_iff.1 h.symm
    rfl
  | last line hne hline =>
    cases front with
    | nil => rw [← List.nil_append rear, ← h, flatten_rawLines]
    | cons first front =>
      rw [rawLines_of_not_mem hne hline, List.cons_append] at h
      obtain ⟨-, rfl⟩ := List.append_eq_nil_iff.1 (List.cons.inj h).2.symm
      rfl
  | next line rest hline ih =>
    cases front with
    | nil => rw [← List.nil_append rear, ← h, flatten_rawLines]
    | cons first front =>
      rw [rawLines_append hline, List.cons_append] at h
      exact ih (List.cons.inj h).2

/-- The texts of the lines are handed out. -/
theorem fileLines_eq (bytes : List UInt8) : fileLines bytes = (rawLines bytes).map lineText? := by
  induction bytes using file_induction with
  | empty => rfl
  | last line hne hline =>
    have hend : line.getLast? ≠ some 10 := fun hlast => hline (List.mem_of_getLast? hlast)
    rw [fileLines_of_not_mem hne hline, rawLines_of_not_mem hne hline, List.map_singleton,
      lineText?, withoutEnd, if_neg hend]
  | next line rest hline ih =>
    rw [fileLines_append hline, rawLines_append hline, List.map_cons, ← ih, lineText?, withoutEnd,
      if_pos List.getLast?_concat, List.dropLast_concat]

/-! ## Texts of lines -/

theorem encodeUtf8_append (s t : String) : encodeUtf8 (s ++ t) = encodeUtf8 s ++ encodeUtf8 t := by
  rw [encodeUtf8_eq_flatMap, encodeUtf8_eq_flatMap, encodeUtf8_eq_flatMap, String.toList_append,
    List.flatMap_append]

/-- Characters of the ASCII range can be read off the end of an encoding. -/
theorem exists_eq_append_of_flatMap {chars stop : List Char} {front : List UInt8}
    (hascii : ∀ c ∈ stop, c.toNat < 128)
    (h : chars.flatMap String.utf8EncodeChar = front ++ stop.flatMap String.utf8EncodeChar) :
    ∃ cs, chars = cs ++ stop ∧ cs.flatMap String.utf8EncodeChar = front := by
  induction stop using List.reverseRecOn generalizing chars with
  | nil => exact ⟨chars, (List.append_nil _).symm, by rw [h, List.flatMap_nil, List.append_nil]⟩
  | append_singleton stop c ih =>
    have hc : c.toNat < 128 := hascii c (by simp)
    have hbyte : (UInt8.ofNat c.toNat).toNat = c.toNat := by
      rw [UInt8.toNat_ofNat']
      omega
    have hmarks := marks_utf8 (utf8EncodeChar_of_ascii hc) (by omega)
    rw [List.flatMap_append, List.flatMap_singleton, hmarks.code_eq, ← List.append_assoc] at h
    -- the last byte is that of the last character, since it stands in no other one
    rcases List.eq_nil_or_concat chars with rfl | ⟨cs, last, rfl⟩
    · simp at h
    · rw [List.concat_eq_append, List.flatMap_append, List.flatMap_singleton] at h
      have hend := congrArg List.getLast? h
      have hlast : UInt8.ofNat c.toNat ∈ String.utf8EncodeChar last := by
        rw [List.getLast?_append, List.getLast?_concat,
          List.getLast?_eq_some_getLast String.utf8EncodeChar_ne_nil, Option.some_or] at hend
        exact Option.some.inj hend ▸ List.getLast_mem _
      obtain rfl : last = c :=
        Decidable.byContradiction fun hne => hmarks.not_mem last hne hlast
      rw [hmarks.code_eq] at h
      obtain ⟨cs', rfl, hfront⟩ :=
        ih (fun d hd => hascii d (by simp [hd])) (List.append_cancel_right h)
      exact ⟨cs', by rw [List.concat_eq_append, List.append_assoc], hfront⟩

/-- A file that ends with the bytes of characters of the ASCII range ends with these characters, if
it is a text. -/
theorem exists_eq_append_of_encodeUtf8 {front : List UInt8} {stop : String}
    (hascii : ∀ c ∈ stop.toList, c.toNat < 128) (h : encodeUtf8 s = front ++ encodeUtf8 stop) :
    ∃ s', s = s' ++ stop ∧ encodeUtf8 s' = front := by
  rw [encodeUtf8_eq_flatMap, encodeUtf8_eq_flatMap] at h
  obtain ⟨cs, hs, hcs⟩ := exists_eq_append_of_flatMap hascii h
  refine ⟨String.ofList cs, ?_, ?_⟩
  · rw [← String.toList_inj, hs, String.toList_append, String.toList_ofList]
  · rw [encodeUtf8_eq_flatMap, String.toList_ofList, hcs]

/-- A line is what is handed out for it with an end. -/
theorem exists_lineEnd (line : List UInt8) :
    ∃ stop ∈ ["", "\n", "\r\n"], line = withoutEnd line ++ encodeUtf8 stop := by
  rw [withoutEnd]
  split
  · rename_i hfeed
    obtain ⟨front, rfl⟩ := List.getLast?_eq_some_iff.1 hfeed
    rw [List.dropLast_concat, dropOne]
    split
    · rename_i hcarriage
      obtain ⟨front, rfl⟩ := List.getLast?_eq_some_iff.1 hcarriage
      refine ⟨"\r\n", by simp, ?_⟩
      rw [List.dropLast_concat, List.append_assoc]
      rfl
    · exact ⟨"\n", by simp, rfl⟩
  · exact ⟨"", by simp, (List.append_nil line).symm⟩

theorem lineEnd_blank {stop : String} (h : stop ∈ ["", "\n", "\r\n"]) :
    ∀ c ∈ stop.toList, isBlank c = true ∧ c.toNat < 128 := by
  simp only [List.mem_cons, List.not_mem_nil, or_false] at h
  rcases h with rfl | rfl | rfl <;> simp <;> decide

/-- What is handed out for a line that is a text is that text, trimmed or not trimmed. -/
theorem exists_lineText?_encodeUtf8 (s : String) :
    ∃ t, lineText? (encodeUtf8 s) = some t ∧ trim t = trim s := by
  obtain ⟨stop, hstop, hline⟩ := exists_lineEnd (encodeUtf8 s)
  obtain ⟨t, rfl, ht⟩ :=
    exists_eq_append_of_encodeUtf8 (fun c hc => (lineEnd_blank hstop c hc).2) hline
  exact ⟨t, decodeUtf8?_eq_some_iff.2 ht.symm,
    (trim_append fun c hc => (lineEnd_blank hstop c hc).1).symm⟩

/-- Nothing is handed out for a line exactly if it is no text. -/
theorem lineText?_eq_none_iff : lineText? line = none ↔ ∀ s, line ≠ encodeUtf8 s := by
  constructor
  · rintro hnone s rfl
    obtain ⟨t, ht, -⟩ := exists_lineText?_encodeUtf8 s
    rw [hnone] at ht
    cases ht
  · intro hline
    refine Option.eq_none_iff_forall_ne_some.2 fun t ht => ?_
    obtain ⟨stop, -, hend⟩ := exists_lineEnd line
    rw [decodeUtf8?_eq_some_iff.1 ht, ← encodeUtf8_append] at hend
    exact hline _ hend

end StableNaming.Text
