import StableNaming.Mapping.Counters
import StableNaming.Proofs.Text.Decimal
import StableNaming.Proofs.Text.Split

/-!
# Reading written counters

A line holds a counter if a kind and a number that fits in a word follow the mark. A counter file
that was written is read back.
-/

namespace StableNaming

/-- The words of kinds denote them. -/
theorem SymbolKind.ofWord?_eq_some_iff {word : String} {kind : SymbolKind} :
    ofWord? word = some kind ↔ word = kind.word := by
  constructor
  · intro h
    simp only [ofWord?] at h
    split at h
    · exact Option.some.inj h ▸ ‹_›
    · split at h
      · exact Option.some.inj h ▸ ‹_›
      · split at h
        · exact Option.some.inj h ▸ ‹_›
        · cases h
  · rintro rfl
    exact ofWord?_word kind

namespace Counters

/-! ## The mark -/

section Mark

open Text

variable {line : String} {kind kind' : SymbolKind} {n n' : UInt64}

/-- Whether a line starts with the mark of a counter. -/
def IsMarked (line : String) : Prop := ∃ rest, line = mark ++ rest

/-- Whether a line has the mark, with a kind and a number after it. -/
inductive CounterLine (line : String) (kind : SymbolKind) (n : UInt64) : Prop
  | intro {rest number : String} (line_eq : line = mark ++ rest)
      (words_eq : words rest = [kind.word, number]) (denotes : Denotes number n.toNat)

theorem CounterLine.isMarked (h : CounterLine line kind n) : IsMarked line := by
  obtain ⟨hline, -, -⟩ := h
  exact ⟨_, hline⟩

theorem mark_append_inj {rest rest' : String} (h : mark ++ rest = mark ++ rest') :
    rest = rest' := by
  rw [← String.toList_inj, String.toList_append, String.toList_append] at h
  exact String.toList_inj.1 (List.append_cancel_left h)

/-- The mark does not end in a blank, so that blanks at the end of a line neither make nor hide
it. -/
theorem isMarked_iff_trimEnd : IsMarked line ↔ mark.toList <+: (trimEnd line).toList := by
  have hlast : ∀ c ∈ mark.toList.getLast?, isBlank c = false := by
    intro c hc
    obtain rfl : 'R' = c := Option.some.inj hc
    decide
  rw [prefix_trimEnd_iff hlast]
  constructor
  · rintro ⟨rest, rfl⟩
    exact ⟨rest.toList, String.toList_append.symm⟩
  · rintro ⟨cs, hcs⟩
    refine ⟨String.ofList cs, String.toList_inj.1 ?_⟩
    rw [String.toList_append, String.toList_ofList, hcs]

/-- After the mark, blanks at the end do not matter. -/
theorem words_drop_mark {rest : String} (h : line = mark ++ rest) :
    words (String.ofList ((trimEnd line).toList.drop mark.toList.length)) = words rest := by
  obtain ⟨cs, hcore⟩ := isMarked_iff_trimEnd.1 ⟨rest, h⟩
  obtain ⟨-, rear, hrear, hline⟩ := trimEnd_eq_iff.1 (Eq.refl (trimEnd line))
  have hrest : rest = String.ofList cs ++ rear := by
    refine mark_append_inj (h.symm.trans (hline.trans (String.toList_inj.1 ?_)))
    simp only [String.toList_append, String.toList_ofList, ← hcore, List.append_assoc]
  rw [← hcore, List.drop_left, hrest, words_append_of_forall_blank hrear]

/-- Exactly the lines without the mark hold no counter. -/
theorem parseLine_eq_ok_none_iff : parseLine line = .ok none ↔ ¬ IsMarked line := by
  rw [isMarked_iff_trimEnd, ← List.isPrefixOf_iff_prefix, parseLine]
  split
  · rename_i hmarked
    refine ⟨fun h => ?_, fun h => absurd hmarked h⟩
    split at h
    · split at h <;> cases h
    · cases h
  · rename_i hmarked
    exact ⟨fun _ => hmarked, fun _ => rfl⟩

/-- A counter is what a kind and a number after the mark make up. -/
theorem parseLine_eq_ok_some_iff :
    parseLine line = .ok (some (kind, n)) ↔ CounterLine line kind n := by
  constructor
  · intro h
    have hmarked : IsMarked line := Classical.byContradiction fun hmarked => by
      rw [parseLine_eq_ok_none_iff.2 hmarked] at h
      cases h
    obtain ⟨rest, hline⟩ := hmarked
    rw [parseLine, words_drop_mark hline,
      if_pos (List.isPrefixOf_iff_prefix.2 (isMarked_iff_trimEnd.1 ⟨rest, hline⟩))] at h
    split at h
    · rename_i word number hwords
      split at h
      · rename_i kind' n' hkind hnumber
        obtain ⟨rfl, rfl⟩ := Prod.mk.inj (Option.some.inj (Except.ok.inj h))
        have hdenotes := (readNumber?_eq_some_iff.1 (readWord?_eq_some_iff.1 hnumber)).1
        exact ⟨hline, SymbolKind.ofWord?_eq_some_iff.1 hkind ▸ hwords, hdenotes⟩
      · cases h
    · cases h
  · rintro ⟨hline, hwords, hdenotes⟩
    have hnumber := readNumber?_eq_some_iff.2 ⟨hdenotes, toNat_lt_wordLimit n⟩
    rw [parseLine, words_drop_mark hline,
      if_pos (List.isPrefixOf_iff_prefix.2 (isMarked_iff_trimEnd.1 ⟨_, hline⟩)), hwords]
    dsimp only
    rw [SymbolKind.ofWord?_word, readWord?_eq_some_iff.2 hnumber]

/-- A line holds at most one counter. -/
theorem CounterLine.unique (h : CounterLine line kind n) (h' : CounterLine line kind' n') :
    kind = kind' ∧ n = n' := by
  have hparsed := parseLine_eq_ok_some_iff.2 h
  rw [parseLine_eq_ok_some_iff.2 h'] at hparsed
  obtain ⟨hkind, hn⟩ := Prod.mk.inj (Option.some.inj (Except.ok.inj hparsed))
  exact ⟨hkind.symm, hn.symm⟩

end Mark

/-! ## Written counters -/

theorem not_isBlank_of_mem_toString {n : Nat} {c : Char} (h : c ∈ (toString n).toList) :
    Text.isBlank c = false := by
  have hdigit := Text.isDigit_of_mem_toString h
  rw [Char.isDigit, Bool.and_eq_true, decide_eq_true_eq, decide_eq_true_eq] at hdigit
  have hlow : 48 ≤ c.toNat := UInt32.le_iff_toNat_le.1 hdigit.1
  have hhigh : c.toNat ≤ 57 := UInt32.le_iff_toNat_le.1 hdigit.2
  simp only [Text.isBlank, Bool.or_eq_false_iff, Bool.and_eq_false_iff, beq_eq_false_iff_ne,
    decide_eq_false_iff_not]
  omega

/-- The line of a counter is one. -/
theorem counterLine_line (c : Counters) (kind : SymbolKind) :
    CounterLine (c.line kind) kind (c.word kind) := by
  have hline : c.line kind = mark ++ (" " ++ kind.word ++ " " ++ toString (c.get kind)) := by
    simp [line, String.append_assoc]
  have hwords : Text.words (" " ++ kind.word ++ " " ++ toString (c.get kind)) =
      [kind.word, toString (c.get kind)] := by
    have hall : kind.word.toList.all (!Text.isBlank ·) = true := by cases kind <;> decide
    have hword : ∀ ch ∈ kind.word.toList, Text.isBlank ch = false := by
      intro ch hch
      exact (Bool.not_eq_true' _).mp (List.all_eq_true.1 hall ch hch)
    have hne : kind.word.toList ≠ [] := by cases kind <;> decide
    exact Text.words_pair hword (fun ch => not_isBlank_of_mem_toString) hne
      (Text.toList_toString_ne_nil _)
  exact ⟨hline, hwords, Text.number?_eq_some_iff.1 (Text.number?_toString _)⟩

/-- The line of a counter is read back. -/
theorem parseLine_line (c : Counters) (kind : SymbolKind) :
    parseLine (c.line kind) = .ok (some (kind, c.word kind)) :=
  parseLine_eq_ok_some_iff.2 (c.counterLine_line kind)

/-- No line of a counter holds a line end. -/
theorem not_mem_line (c : Counters) (kind : SymbolKind) :
    '\n' ∉ (c.line kind).toList ∧ '\r' ∉ (c.line kind).toList := by
  have hnumber : ∀ ch ∈ (toString (c.get kind)).toList, ch ≠ '\n' ∧ ch ≠ '\r' := by
    intro ch hch
    have hblank := not_isBlank_of_mem_toString hch
    constructor <;>
    · rintro rfl
      exact absurd hblank (by decide)
  have hall : (mark ++ " " ++ kind.word ++ " ").toList.all (fun ch => ch ≠ '\n' ∧ ch ≠ '\r') =
      true := by cases kind <;> decide
  have hfront : ∀ ch ∈ (mark ++ " " ++ kind.word ++ " ").toList, ch ≠ '\n' ∧ ch ≠ '\r' := by
    intro ch hch
    exact of_decide_eq_true (List.all_eq_true.1 hall ch hch)
  rw [line, String.toList_append, List.mem_append, List.mem_append]
  exact ⟨fun h => h.elim (fun h => (hfront _ h).1 rfl) fun h => (hnumber _ h).1 rfl,
    fun h => h.elim (fun h => (hfront _ h).2 rfl) fun h => (hnumber _ h).2 rfl⟩

/-- A counter file that was written is read back. -/
theorem ofFile_fileText (c : Counters) :
    ofFile (some (Text.encodeUtf8 c.fileText)) = .ok (merge {} c) := by
  have hlines : Text.lines c.fileText = c.lines := by
    refine Text.lines_join fun l hl => ?_
    obtain ⟨kind, -, rfl⟩ := List.mem_map.1 hl
    obtain ⟨hfeed, hcarriage⟩ := c.not_mem_line kind
    exact ⟨hfeed, fun hlast => hcarriage (List.mem_of_getLast? hlast)⟩
  have hobserve : ∀ (counters : Counters) (kind : SymbolKind),
      observeLine counters (c.line kind) = .ok (counters.observe kind (c.word kind)) := by
    intro counters kind
    rw [observeLine, c.parseLine_line kind]
    rfl
  have hparse : parse c.fileText = .ok (merge {} c) := by
    rw [parse, hlines, lines, SymbolKind.all, List.map_cons, List.map_cons, List.map_cons,
      List.map_nil]
    simp only [List.foldlM_cons, List.foldlM_nil, hobserve]
    rfl
  have hdecode : Text.decodeUtf8? (Text.encodeUtf8 c.fileText) = some c.fileText :=
    Text.decodeUtf8?_eq_some_iff.2 rfl
  rw [ofFile, File.readWith, hdecode]
  dsimp only
  rw [hparse]

/-! ## Counters that go forward -/

/-- Counters with the same next numbers are the same. -/
theorem ext_get {c c' : Counters} (h : ∀ kind, c.get kind = c'.get kind) : c = c' := by
  have htype : c.classNext = c'.classNext := UInt64.toNat_inj.1 (h .type)
  have hfield : c.fieldNext = c'.fieldNext := UInt64.toNat_inj.1 (h .field)
  have hmethod : c.methodNext = c'.methodNext := UInt64.toNat_inj.1 (h .method)
  cases c
  cases c'
  simp_all

/-- The order in which numbers raise counters does not matter. -/
theorem observe_comm (c : Counters) (kind kind' : SymbolKind) (n n' : UInt64) :
    (c.observe kind n).observe kind' n' = (c.observe kind' n').observe kind n := by
  refine ext_get fun kind₁ => ?_
  have hmax : max (max (c.get kind₁) n.toNat) n'.toNat =
      max (max (c.get kind₁) n'.toNat) n.toNat := by omega
  simp only [get_observe]
  by_cases hkind : kind = kind₁ <;> by_cases hkind' : kind' = kind₁ <;> simp_all

/-- Merging with counters that are not ahead changes nothing. -/
theorem merge_eq_self {c other : Counters} (h : ∀ kind, other.get kind ≤ c.get kind) :
    c.merge other = c :=
  ext_get fun kind => by rw [get_merge, Nat.max_eq_left (h kind)]

/-- Reading on in a counter file takes no counter back. -/
theorem get_le_of_foldlM_observeLine {c c' : Counters} {lines : List String}
    (h : lines.foldlM observeLine c = .ok c') (kind : SymbolKind) : c.get kind ≤ c'.get kind := by
  induction lines generalizing c with
  | nil =>
    cases h
    exact Nat.le_refl _
  | cons line lines ih =>
    rw [List.foldlM_cons] at h
    cases hline : observeLine c line with
    | error fault =>
      rw [hline] at h
      cases h
    | ok next =>
      rw [hline] at h
      refine Nat.le_trans ?_ (ih h)
      rw [observeLine] at hline
      cases hparsed : parseLine line with
      | error fault =>
        rw [hparsed] at hline
        cases hline
      | ok found =>
        rw [hparsed] at hline
        cases found with
        | none =>
          cases hline
          exact Nat.le_refl _
        | some counter =>
          cases hline
          rw [get_observe]
          split
          · rename_i heq
            exact heq ▸ Nat.le_max_left _ _
          · exact Nat.le_refl _

/-- The counters in a counter file count from one. -/
theorem one_le_get_of_ofFile {file : File} {c : Counters} (h : ofFile file = .ok c)
    (kind : SymbolKind) : 1 ≤ c.get kind := by
  have hone : ({} : Counters).get kind = 1 := by cases kind <;> rfl
  cases file with
  | none => cases h
  | some bytes =>
    rw [ofFile, File.readWith] at h
    cases htext : Text.decodeUtf8? bytes with
    | none =>
      rw [htext] at h
      cases h
    | some text =>
      rw [htext] at h
      dsimp only at h
      split at h
      · cases h
      · rw [← hone]
        exact get_le_of_foldlM_observeLine h kind

end Counters

end StableNaming
