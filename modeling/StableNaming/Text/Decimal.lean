/-!
# Unsigned decimal numbers

Counters, suffixes and operator choices are unsigned numbers that fit in 64
bits. One optional plus sign may stand in front; only ASCII digits count.
-/

namespace StableNaming.Text

/-- The value of a digit, if the character is one. -/
def digit? (c : Char) : Option Nat :=
  if '0' ≤ c ∧ c ≤ '9' then some (c.toNat - '0'.toNat) else none

/-- Continue the number `value` with more digits. -/
def digitsFrom? (value : Nat) : List Char → Option Nat
  | [] => some value
  | c :: cs => (digit? c).bind fun d => digitsFrom? (10 * value + d) cs

/-- The number that a non-empty row of digits denotes. -/
def digits? : List Char → Option Nat
  | [] => none
  | cs => digitsFrom? 0 cs

/-- Two to the power of 64: numbers from this one on do not fit in a word. -/
def wordLimit : Nat := 18446744073709551616

/-- The word with a value, if the value fits. -/
def word? (n : Nat) : Option UInt64 := if n < wordLimit then some (UInt64.ofNat n) else none

/-- The number that a text denotes, with an optional plus sign. -/
def number? (s : String) : Option Nat :=
  digits? <|
    match s.toList with
    | '+' :: cs => cs
    | cs => cs

/-- Read a number below `wordLimit`. -/
def readNumber? (s : String) : Option Nat := (number? s).filter (· < wordLimit)

/-- Read a number as a word. -/
def readWord? (s : String) : Option UInt64 := (number? s).bind word?

theorem toNat_lt_wordLimit (w : UInt64) : w.toNat < wordLimit := w.toNat_lt

/-- Words and the values that fit in them correspond. -/
theorem word?_eq_some_iff {n : Nat} {w : UInt64} : word? n = some w ↔ w.toNat = n := by
  rw [word?]
  constructor
  · intro h
    split at h
    · rename_i hn
      rw [← Option.some.inj h]
      exact UInt64.toNat_ofNat_of_lt' hn
    · cases h
  · rintro rfl
    rw [if_pos (toNat_lt_wordLimit w), UInt64.ofNat_toNat]

theorem word?_toNat (w : UInt64) : word? w.toNat = some w := word?_eq_some_iff.2 rfl

/-- A value that fits has a word. -/
theorem exists_word? {n : Nat} (h : n < wordLimit) : ∃ w, word? n = some w := ⟨_, if_pos h⟩

/-- A word is read where the number that it stands for is. -/
theorem readWord?_eq_some_iff {s : String} {w : UInt64} :
    readWord? s = some w ↔ readNumber? s = some w.toNat := by
  rw [readWord?, readNumber?, Option.bind_eq_some_iff, Option.filter_eq_some_iff]
  constructor
  · rintro ⟨n, hn, hw⟩
    rw [word?_eq_some_iff.1 hw]
    exact ⟨hn, decide_eq_true (word?_eq_some_iff.1 hw ▸ toNat_lt_wordLimit w)⟩
  · rintro ⟨hn, -⟩
    exact ⟨w.toNat, hn, word?_toNat w⟩

end StableNaming.Text
