import StableNaming.Proofs.Text.Decimal
import StableNaming.Symbol.Kind

/-!
# Parts of generated names

A generated name may stand after a package, after the name of a container, or
after the digits of a local class. In all these places it is still recognised as
generated, its number is found again, and it can be told from what stands in
front of it.
-/

namespace StableNaming

namespace Text

/-- A text is not cut at a pattern whose first character does not occur. -/
theorem cutLast?_eq_none_of_not_mem {c : Char} {pattern s : List Char} (h : c ∉ s) :
    cutLast? (c :: pattern) s = none := by
  induction s with
  | nil => rfl
  | cons x xs ih =>
    rw [List.mem_cons, not_or] at h
    rw [cutLast?, ih h.2]
    simp [List.isPrefixOf, h.1]

/-- A text is cut where a pattern stands whose first character does not occur later. -/
theorem cutLast?_append {c : Char} {pattern tail : List Char} (hpattern : c ∉ pattern)
    (htail : c ∉ tail) (head : List Char) :
    cutLast? (c :: pattern) (head ++ (c :: pattern ++ tail)) = some (head, tail) := by
  induction head with
  | nil =>
    have hnone : cutLast? (c :: pattern) (pattern ++ tail) = none :=
      cutLast?_eq_none_of_not_mem (by simp [hpattern, htail])
    have hstarts : (c :: pattern).isPrefixOf (c :: (pattern ++ tail)) = true :=
      List.isPrefixOf_iff_prefix.2 ⟨tail, rfl⟩
    rw [List.nil_append, List.cons_append, cutLast?, hnone]
    simp only [hstarts, if_true, List.length_cons, List.drop_succ_cons, List.drop_left']
  | cons x xs ih => rw [List.cons_append, cutLast?, ih]

/-- What follows the last separator grows with the text. -/
theorem cutLast?_singleton_append {c : Char} {s : List Char} (h : c ∉ s) (p : List Char) :
    cutLast? [c] (p ++ s) = (cutLast? [c] p).map fun parts => (parts.1, parts.2 ++ s) := by
  induction p with
  | nil => exact cutLast?_eq_none_of_not_mem h
  | cons x xs ih =>
    rw [List.cons_append, cutLast?, ih, cutLast?]
    cases cutLast? [c] xs with
    | some parts => rfl
    | none => by_cases hx : c = x <;> simp [List.isPrefixOf, hx]

/-- A text that is cut somewhere is cut there as well when another one stands in front of it. -/
theorem cutLast?_append_of_some {pattern s : List Char} {parts : List Char × List Char}
    (h : cutLast? pattern s = some parts) (p : List Char) :
    cutLast? pattern (p ++ s) = some (p ++ parts.1, parts.2) := by
  induction p with
  | nil => exact h
  | cons x xs ih => rw [List.cons_append, cutLast?, ih, List.cons_append]

/-- A text without the first character of a pattern in front of another one moves the cut only. -/
theorem cutLast?_append_of_not_mem {c : Char} {pattern p : List Char} (h : c ∉ p)
    (s : List Char) :
    cutLast? (c :: pattern) (p ++ s) =
      (cutLast? (c :: pattern) s).map fun parts => (p ++ parts.1, parts.2) := by
  cases hcut : cutLast? (c :: pattern) s with
  | some parts => exact cutLast?_append_of_some hcut p
  | none =>
    induction p with
    | nil => exact hcut
    | cons x xs ih =>
      rw [List.mem_cons, not_or] at h
      rw [List.cons_append, cutLast?, ih h.2]
      simp [List.isPrefixOf, h.1]

/-- The last separator is followed by none. -/
theorem not_mem_of_cutLast? {c : Char} {s : List Char} :
    match cutLast? [c] s with
    | some parts => c ∉ parts.2
    | none => c ∉ s := by
  induction s with
  | nil => exact List.not_mem_nil
  | cons x xs ih =>
    rw [cutLast?]
    cases hcut : cutLast? [c] xs with
    | some parts =>
      rw [hcut] at ih
      exact ih
    | none =>
      rw [hcut] at ih
      dsimp only at ih ⊢
      by_cases hx : c = x
      · simpa [List.isPrefixOf, hx] using hx ▸ ih
      · simpa [List.isPrefixOf, hx] using ih

/-- What follows the last separator does not hold it. -/
theorem not_mem_afterLast (c : Char) (s : String) : c ∉ (afterLast c s).toList := by
  have hnot := @not_mem_of_cutLast? c s.toList
  rw [afterLast]
  cases hcut : cutLast? [c] s.toList with
  | some parts =>
    rw [hcut] at hnot
    rw [String.toList_ofList]
    exact hnot
  | none =>
    rw [hcut] at hnot
    exact hnot

/-- What follows the last separator is the end of the text. -/
theorem afterLast_suffix (c : Char) (s : String) : (afterLast c s).toList <:+ s.toList := by
  rw [afterLast]
  cases hcut : cutLast? [c] s.toList with
  | none => exact List.suffix_rfl
  | some parts =>
    have happend := append_of_cutLast? hcut
    rw [String.toList_ofList]
    exact ⟨parts.1 ++ [c], happend⟩

/-- What stands in front of a text with the separator does not matter. -/
theorem afterLast_append_of_mem {c : Char} {s : String} (h : c ∈ s.toList) (p : String) :
    afterLast c (p ++ s) = afterLast c s := by
  have hnot := @not_mem_of_cutLast? c s.toList
  rw [afterLast, afterLast, String.toList_append]
  cases hcut : cutLast? [c] s.toList with
  | some parts => rw [cutLast?_append_of_some hcut]
  | none =>
    rw [hcut] at hnot
    exact absurd h hnot

theorem afterLast_append {c : Char} {s : String} (h : c ∉ s.toList) (p : String) :
    afterLast c (p ++ s) = afterLast c p ++ s := by
  rw [afterLast, afterLast, String.toList_append, cutLast?_singleton_append h]
  cases cutLast? [c] p.toList with
  | none => rfl
  | some parts =>
    dsimp only [Option.map_some]
    rw [String.ofList_append, String.ofList_toList]

/-- Nothing follows a separator at the end. -/
theorem afterLast_append_singleton (c : Char) (p : String) :
    afterLast c (p ++ String.singleton c) = "" := by
  have hcut := cutLast?_append (List.not_mem_nil (a := c)) (List.not_mem_nil (a := c)) p.toList
  rw [List.append_nil] at hcut
  rw [afterLast, String.toList_append, String.toList_singleton, hcut]

/-- What is cut off is a text around the pattern. -/
theorem isInfix_of_occursIn {pattern s : String} (h : occursIn pattern s = true) :
    pattern.toList <:+: s.toList := by
  obtain ⟨parts, hparts⟩ := Option.isSome_iff_exists.1 h
  exact ⟨parts.1, parts.2, append_of_cutFirst? hparts⟩

/-- A pattern occurs in a text that it stands in. -/
theorem isSome_cutFirst?_append (pattern head tail : List Char) :
    (cutFirst? pattern (head ++ (pattern ++ tail))).isSome = true := by
  induction head with
  | nil =>
    cases htext : pattern ++ tail with
    | nil =>
      rw [List.append_eq_nil_iff] at htext
      rw [htext.1]
      rfl
    | cons c cs =>
      have hstarts : pattern.isPrefixOf (c :: cs) = true :=
        List.isPrefixOf_iff_prefix.2 ⟨tail, htext⟩
      rw [List.nil_append, cutFirst?, if_pos hstarts]
      rfl
  | cons x xs ih =>
    rw [List.cons_append, cutFirst?]
    split
    · rfl
    · rw [Option.isSome_map]
      exact ih

theorem occursIn_of_isInfix {pattern s : String} (h : pattern.toList <:+: s.toList) :
    occursIn pattern s = true := by
  obtain ⟨head, tail, htext⟩ := h
  rw [occursIn, ← htext, List.append_assoc]
  exact isSome_cutFirst?_append _ _ _

end Text

/-! ## Places -/

/-- A text after which a new segment starts: nothing, or something with a slash or a dollar
sign at the end. -/
def EndsSegment (place : String) : Prop := innermostName place = ""

theorem endsSegment_empty : EndsSegment "" := rfl

/-- A new segment starts after a slash. -/
theorem endsSegment_slash (path : String) : EndsSegment (path ++ "/") := by
  have hslash : ("/" : String) = String.singleton packageMark := rfl
  rw [EndsSegment, innermostName, hslash, Text.afterLast_append_singleton]
  rfl

/-- A new segment starts after a dollar sign. -/
theorem endsSegment_dollar (container : String) : EndsSegment (container ++ "$") := by
  have hdollar : ("$" : String) = String.singleton nestingMark := rfl
  have hmem : packageMark ∉ (String.singleton nestingMark).toList := by decide
  rw [EndsSegment, innermostName, simpleSegment, hdollar, Text.afterLast_append hmem,
    Text.afterLast_append_singleton]

/-- Whether a text is a single segment: neither a slash nor a dollar sign occurs in it. -/
def IsSegment (s : String) : Prop := packageMark ∉ s.toList ∧ nestingMark ∉ s.toList

/-- The segment after a place is the innermost name. -/
theorem innermostName_append {place s : String} (hplace : EndsSegment place) (hs : IsSegment s) :
    innermostName (place ++ s) = s := by
  rw [EndsSegment, innermostName, simpleSegment] at hplace
  rw [innermostName, simpleSegment, Text.afterLast_append hs.1, Text.afterLast_append hs.2,
    hplace, String.empty_append]

/-- The innermost name is a single segment. -/
theorem isSegment_innermostName (name : String) : IsSegment (innermostName name) := by
  have hpath := Text.not_mem_afterLast packageMark name
  have hend := Text.afterLast_suffix nestingMark (Text.afterLast packageMark name)
  refine ⟨fun hmem => hpath (hend.subset hmem), ?_⟩
  exact Text.not_mem_afterLast nestingMark (Text.afterLast packageMark name)

/-- Whatever stands after a place, the innermost name is its end. -/
theorem innermostName_append_suffix {place : String} (hplace : EndsSegment place) (s : String) :
    (innermostName (place ++ s)).toList <:+ s.toList := by
  by_cases hpath : packageMark ∈ s.toList
  · rw [innermostName, simpleSegment, Text.afterLast_append_of_mem hpath]
    exact (Text.afterLast_suffix nestingMark _).trans (Text.afterLast_suffix packageMark s)
  · by_cases hnested : nestingMark ∈ s.toList
    · rw [innermostName, simpleSegment, Text.afterLast_append hpath,
        Text.afterLast_append_of_mem hnested]
      exact Text.afterLast_suffix nestingMark s
    · simp only [innermostName_append hplace ⟨hpath, hnested⟩, List.suffix_rfl]

theorem IsSegment.append {s t : String} (hs : IsSegment s) (ht : IsSegment t) :
    IsSegment (s ++ t) := by
  rw [IsSegment, String.toList_append]
  simp [hs.1, hs.2, ht.1, ht.2]

/-- Digits are no marks. -/
theorem isSegment_of_isDigit {s : String} (h : ∀ c ∈ s.toList, c.isDigit = true) :
    IsSegment s :=
  ⟨fun hmem => absurd (h _ hmem) (by decide), fun hmem => absurd (h _ hmem) (by decide)⟩

theorem isDigit_of_mem_leadingDigits {segment : String} {c : Char}
    (h : c ∈ (leadingDigits segment).toList) : c.isDigit = true := by
  rw [leadingDigits, String.toList_ofList] at h
  exact List.all_eq_true.1 List.all_takeWhile c h

/-- The digits in front of a text without leading digits are told from it. -/
theorem dropLeadingDigits_append {digits s : String}
    (hdigits : ∀ c ∈ digits.toList, c.isDigit = true)
    (hs : ∀ c ∈ s.toList.head?, c.isDigit = false) : dropLeadingDigits (digits ++ s) = s := by
  rw [dropLeadingDigits, String.toList_append, List.dropWhile_append_of_pos hdigits]
  cases hlist : s.toList with
  | nil => rw [List.dropWhile_nil, ← hlist, String.ofList_toList]
  | cons c cs =>
    rw [hlist] at hs
    rw [List.dropWhile_cons, hs c rfl, if_neg Bool.false_ne_true, ← hlist, String.ofList_toList]

/-! ## Generated names -/

namespace SymbolKind

/-- The first letter of a stem does not come again in it, and is no digit. -/
theorem exists_stem_eq (kind : SymbolKind) :
    ∃ c rest, kind.stem.toList = c :: rest ∧ c ∉ rest ∧ c.isDigit = false := by
  cases kind
  · exact ⟨'c', "lass_".toList, by decide, by decide, by decide⟩
  · exact ⟨'f', "ield_".toList, by decide, by decide, by decide⟩
  · exact ⟨'m', "ethod_".toList, by decide, by decide, by decide⟩

theorem toList_generatedName (kind : SymbolKind) (n : Nat) :
    (kind.generatedName n).toList = kind.stem.toList ++ (toString n).toList :=
  String.toList_append

/-- Generated names with different numbers differ. -/
theorem generatedName_inj {kind : SymbolKind} {n m : Nat} :
    kind.generatedName n = kind.generatedName m ↔ n = m := by
  rw [generatedName, generatedName, String.append_right_inj, Text.toString_inj]

theorem isSegment_generatedName (kind : SymbolKind) (n : Nat) :
    IsSegment (kind.generatedName n) := by
  have hstem : IsSegment kind.stem := by cases kind <;> exact ⟨by decide, by decide⟩
  exact hstem.append (isSegment_of_isDigit fun c => Text.isDigit_of_mem_toString)

/-- A generated name does not begin with a digit. -/
theorem head?_generatedName (kind : SymbolKind) (n : Nat) :
    ∀ c ∈ (kind.generatedName n).toList.head?, c.isDigit = false := by
  obtain ⟨first, rest, hstem, -, hdigit⟩ := kind.exists_stem_eq
  intro c hc
  rw [toList_generatedName, hstem, List.cons_append, List.head?_cons] at hc
  rw [← Option.some.inj hc]
  exact hdigit

variable {place digits : String}

/-- After a place, the digits of a local class and the generated name are the innermost
name. -/
theorem innermostName_generatedName (hplace : EndsSegment place)
    (hdigits : ∀ c ∈ digits.toList, c.isDigit = true) (kind : SymbolKind) (n : Nat) :
    innermostName (place ++ digits ++ kind.generatedName n) = digits ++ kind.generatedName n := by
  rw [String.append_assoc]
  exact innermostName_append hplace
    ((isSegment_of_isDigit hdigits).append (kind.isSegment_generatedName n))

/-- A generated name is recognised after a place and digits. -/
theorem isGenerated_innermostName (hplace : EndsSegment place)
    (hdigits : ∀ c ∈ digits.toList, c.isDigit = true) (kind : SymbolKind) (n : Nat) :
    kind.isGenerated (innermostName (place ++ digits ++ kind.generatedName n)) = true := by
  rw [innermostName_generatedName hplace hdigits, isGenerated, Text.occursIn,
    String.toList_append, toList_generatedName]
  exact Text.isSome_cutFirst?_append _ _ _

/-- The digits in front of a generated name are dropped. -/
theorem dropLeadingDigits_innermostName (hplace : EndsSegment place)
    (hdigits : ∀ c ∈ digits.toList, c.isDigit = true) (kind : SymbolKind) (n : Nat) :
    dropLeadingDigits (innermostName (place ++ digits ++ kind.generatedName n)) =
      kind.generatedName n := by
  rw [innermostName_generatedName hplace hdigits]
  exact dropLeadingDigits_append hdigits (kind.head?_generatedName n)

/-- The number in a name, whether it fits in a word or not. -/
def number? (kind : SymbolKind) (name : String) : Option Nat :=
  (Text.cutLast? kind.stem.toList (innermostName name).toList).bind fun parts =>
    Text.number? (String.ofList parts.2)

/-- A name with a number looks generated. -/
theorem isGenerated_of_number? {kind : SymbolKind} {name : String} {n : Nat}
    (h : kind.number? name = some n) : kind.isGenerated (innermostName name) = true := by
  obtain ⟨parts, hcut, -⟩ := Option.bind_eq_some_iff.1 h
  exact Text.occursIn_of_isInfix ⟨parts.1, parts.2, Text.append_of_cutLast? hcut⟩

/-- A suffix is a number that fits in a word. -/
theorem suffix?_eq_filter (kind : SymbolKind) (name : String) :
    kind.suffix? name = (kind.number? name).filter (· < Text.wordLimit) := by
  rw [suffix?, number?]
  cases Text.cutLast? kind.stem.toList (innermostName name).toList <;> rfl

theorem suffix?_eq_some_iff {kind : SymbolKind} {name : String} {n : Nat} :
    kind.suffix? name = some n ↔ kind.number? name = some n ∧ n < Text.wordLimit := by
  rw [suffix?_eq_filter, Option.filter_eq_some_iff, decide_eq_true_eq]

/-- The number of a generated name is found again. -/
theorem number?_generatedName (hplace : EndsSegment place)
    (hdigits : ∀ c ∈ digits.toList, c.isDigit = true) (kind : SymbolKind) (n : Nat) :
    kind.number? (place ++ digits ++ kind.generatedName n) = some n := by
  obtain ⟨c, rest, hstem, hrest, hdigit⟩ := kind.exists_stem_eq
  have htail : c ∉ (toString n).toList := fun hmem => by
    rw [Text.isDigit_of_mem_toString hmem] at hdigit
    exact absurd hdigit (by decide)
  rw [number?, innermostName_generatedName hplace hdigits, String.toList_append,
    toList_generatedName, hstem, Text.cutLast?_append hrest htail, Option.bind_some,
    String.ofList_toList, Text.number?_toString]

/-- It is a suffix if it fits in a word. -/
theorem suffix?_generatedName (hplace : EndsSegment place)
    (hdigits : ∀ c ∈ digits.toList, c.isDigit = true) (kind : SymbolKind) (n : Nat) :
    kind.suffix? (place ++ digits ++ kind.generatedName n) =
      if n < Text.wordLimit then some n else none := by
  rw [suffix?_eq_filter, number?_generatedName hplace hdigits, Option.filter_some]
  simp only [decide_eq_true_eq]

/-! ## Numbers of other names -/

/-- Only the innermost name has a number. -/
theorem number?_innermostName (kind : SymbolKind) (name : String) :
    kind.number? (innermostName name) = kind.number? name := by
  have hsegment := isSegment_innermostName name
  have hsame := innermostName_append endsSegment_empty hsegment
  rw [String.empty_append] at hsame
  rw [number?, number?, hsame]

/-- A place in front of a segment does not change its number. -/
theorem number?_append (kind : SymbolKind) {s : String} (hplace : EndsSegment place)
    (hs : IsSegment s) : kind.number? (place ++ s) = kind.number? s := by
  rw [← number?_innermostName, innermostName_append hplace hs]

/-- Digits in front of a segment do not change its number. -/
theorem number?_digits_append (kind : SymbolKind) {s : String}
    (hdigits : ∀ c ∈ digits.toList, c.isDigit = true) (hs : IsSegment s) :
    kind.number? (digits ++ s) = kind.number? s := by
  have hwhole := innermostName_append endsSegment_empty
    ((isSegment_of_isDigit hdigits).append hs)
  have hend := innermostName_append endsSegment_empty hs
  rw [String.empty_append] at hwhole hend
  obtain ⟨c, rest, hstem, -, hdigit⟩ := kind.exists_stem_eq
  have hnot : c ∉ digits.toList := by
    intro hmem
    rw [hdigits c hmem] at hdigit
    cases hdigit
  rw [number?, number?, hwhole, hend, String.toList_append, hstem,
    Text.cutLast?_append_of_not_mem hnot, Option.bind_map]
  rfl

/-- A name that moves to another place, with other digits in front, keeps its number. -/
theorem number?_moved (kind : SymbolKind) (hplace : EndsSegment place)
    (hdigits : ∀ c ∈ digits.toList, c.isDigit = true) (name : String) :
    kind.number? (place ++ digits ++ dropLeadingDigits (innermostName name)) =
      kind.number? name := by
  have hinner := isSegment_innermostName name
  have happend := leadingDigits_append (innermostName name)
  have hdrop : IsSegment (dropLeadingDigits (innermostName name)) := by
    have hend : (dropLeadingDigits (innermostName name)).toList <:+
        (innermostName name).toList := by
      rw [dropLeadingDigits, String.toList_ofList]
      exact List.dropWhile_suffix _
    exact ⟨fun hmem => hinner.1 (hend.subset hmem), fun hmem => hinner.2 (hend.subset hmem)⟩
  have hown : kind.number? (dropLeadingDigits (innermostName name)) = kind.number? name := by
    rw [← number?_digits_append kind (fun c => isDigit_of_mem_leadingDigits) hdrop, happend,
      number?_innermostName]
  rw [String.append_assoc, number?_append kind hplace ((isSegment_of_isDigit hdigits).append hdrop),
    number?_digits_append kind hdigits hdrop, hown]

end SymbolKind

end StableNaming
