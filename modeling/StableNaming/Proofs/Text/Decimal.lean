import StableNaming.Text.Decimal

/-!
# Reading written numbers

A number that is written in decimal digits is read back, as long as it fits in a
word. A text is read exactly if it is a row of digits, with or without a plus sign.
-/

namespace StableNaming.Text

theorem digit?_of_isDigit {c : Char} (h : c.isDigit = true) :
    digit? c = some (c.toNat - '0'.toNat) := by
  rw [Char.isDigit, Bool.and_eq_true, decide_eq_true_eq, decide_eq_true_eq] at h
  exact if_pos h

/-- A row of digits continues a number as the digits say. -/
theorem digitsFrom?_eq {cs : List Char} (h : ∀ c ∈ cs, c.isDigit = true) (value : Nat) :
    digitsFrom? value cs = some (Nat.ofDigitChars 10 cs value) := by
  induction cs generalizing value with
  | nil => rw [digitsFrom?, Nat.ofDigitChars_nil]
  | cons c cs ih =>
    obtain ⟨hc, hcs⟩ := List.forall_mem_cons.1 h
    rw [digitsFrom?, digit?_of_isDigit hc, Option.bind_some, ih hcs, Nat.ofDigitChars_cons]

theorem isDigit_of_mem_toString {n : Nat} {c : Char} (h : c ∈ (toString n).toList) :
    c.isDigit = true := by
  rw [Nat.toString_eq_repr, Nat.toList_repr] at h
  exact Nat.isDigit_of_mem_toDigits (by omega) (by omega) h

theorem toList_toString_ne_nil (n : Nat) : (toString n).toList ≠ [] := by
  rw [Nat.toString_eq_repr, Nat.toList_repr]
  exact Nat.toDigits_ne_nil

/-- The digits of a number denote it. -/
theorem digits?_toString (n : Nat) : digits? (toString n).toList = some n := by
  have hdigits : ∀ c ∈ (toString n).toList, c.isDigit = true := fun c => isDigit_of_mem_toString
  have hread := digitsFrom?_eq hdigits 0
  rw [Nat.toString_eq_repr, Nat.toList_repr, Nat.ofDigitChars_ten_toDigits] at hread
  rw [Nat.toString_eq_repr, Nat.toList_repr]
  cases hcs : Nat.toDigits 10 n with
  | nil => exact absurd hcs Nat.toDigits_ne_nil
  | cons c cs =>
    rw [hcs] at hread
    exact hread

/-- Different numbers are written differently. -/
theorem toString_inj {n m : Nat} : toString n = toString m ↔ n = m := by
  constructor
  · intro h
    have hread := digits?_toString n
    rw [h, digits?_toString] at hread
    exact (Option.some.inj hread).symm
  · exact congrArg toString

/-- A written number is read back. -/
theorem number?_toString (n : Nat) : number? (toString n) = some n := by
  have hplus : '+' ∉ (toString n).toList := fun hmem => by
    have := isDigit_of_mem_toString hmem
    exact absurd this (by decide)
  rw [number?]
  split
  · rename_i cs hcs
    rw [hcs] at hplus
    exact absurd List.mem_cons_self hplus
  · exact digits?_toString n

/-! ## Texts that are read -/

theorem isDigit_of_digit? {c : Char} {d : Nat} (h : digit? c = some d) : c.isDigit = true := by
  rw [digit?] at h
  split at h
  · rename_i hrange
    rw [Char.isDigit, Bool.and_eq_true, decide_eq_true_eq, decide_eq_true_eq]
    exact hrange
  · cases h

/-- A row that continues a number holds digits only. -/
theorem isDigit_of_digitsFrom? {cs : List Char} {value n : Nat}
    (h : digitsFrom? value cs = some n) : ∀ c ∈ cs, c.isDigit = true := by
  induction cs generalizing value with
  | nil => simp
  | cons c cs ih =>
    rw [digitsFrom?, Option.bind_eq_some_iff] at h
    obtain ⟨d, hd, hcs⟩ := h
    exact List.forall_mem_cons.2 ⟨isDigit_of_digit? hd, ih hcs⟩

theorem digits?_eq_some_iff {cs : List Char} {n : Nat} :
    digits? cs = some n ↔
      cs ≠ [] ∧ (∀ c ∈ cs, c.isDigit = true) ∧ Nat.ofDigitChars 10 cs 0 = n := by
  cases cs with
  | nil => simp [digits?]
  | cons c cs =>
    rw [digits?, and_iff_right (List.cons_ne_nil c cs)]
    · constructor
      · intro h
        have hdigits := isDigit_of_digitsFrom? h
        rw [digitsFrom?_eq hdigits, Option.some_inj] at h
        exact ⟨hdigits, h⟩
      · rintro ⟨hdigits, hn⟩
        rw [digitsFrom?_eq hdigits, hn]
    · exact List.cons_ne_nil c cs

/-- Whether a text is a number in decimal digits, with or without a plus sign. -/
def Denotes (s : String) (n : Nat) : Prop :=
  ∃ digits : List Char, (s.toList = digits ∨ s.toList = '+' :: digits) ∧ digits ≠ [] ∧
    (∀ c ∈ digits, c.isDigit = true) ∧ Nat.ofDigitChars 10 digits 0 = n

/-- A text is read as the number that it denotes. -/
theorem number?_eq_some_iff {s : String} {n : Nat} : number? s = some n ↔ Denotes s n := by
  have hplus : ¬ Char.isDigit '+' = true := by decide
  rw [number?, digits?_eq_some_iff, Denotes]
  split
  · rename_i cs hs
    rw [hs]
    constructor
    · exact fun hcs => ⟨cs, .inr rfl, hcs⟩
    · rintro ⟨digits, heq | heq, hdigits⟩
      · exact absurd (hdigits.2.1 '+' (heq ▸ List.mem_cons_self)) hplus
      · obtain rfl := (List.cons.inj heq).2
        exact hdigits
  · rename_i hs
    constructor
    · exact fun hcs => ⟨s.toList, .inl rfl, hcs⟩
    · rintro ⟨digits, heq | heq, hdigits⟩
      · rw [heq]
        exact hdigits
      · exact absurd heq (hs digits)

/-- A number that fits in a word is read as it is. -/
theorem readNumber?_eq_some_iff {s : String} {n : Nat} :
    readNumber? s = some n ↔ Denotes s n ∧ n < wordLimit := by
  rw [readNumber?, Option.filter_eq_some_iff, number?_eq_some_iff, decide_eq_true_eq]

end StableNaming.Text
