/-!
# Showing bytes that are not UTF-8

To show a file that nobody promised to be text, every well-formed UTF-8
sequence becomes its character and every maximal ill-formed piece becomes one
replacement character U+FFFD. A piece is as long as it is the beginning of some
well-formed sequence, and at least one byte.
-/

namespace StableNaming.Text

/-- The bytes that may come second after a lead byte, and how many follow the lead. -/
structure Lead where
  /-- The least second byte. -/
  low : Nat
  /-- The greatest second byte. -/
  high : Nat
  /-- How many bytes follow the lead byte. -/
  tail : Nat
  /-- The bits that the lead byte contributes. -/
  bits : Nat

/-- What a lead byte above the ASCII range announces. -/
def lead? (b : Nat) : Option Lead :=
  if 0xC2 ≤ b ∧ b ≤ 0xDF then some ⟨0x80, 0xBF, 1, b - 0xC0⟩
  else if b = 0xE0 then some ⟨0xA0, 0xBF, 2, 0⟩
  else if b = 0xED then some ⟨0x80, 0x9F, 2, 0xD⟩
  else if 0xE1 ≤ b ∧ b ≤ 0xEF then some ⟨0x80, 0xBF, 2, b - 0xE0⟩
  else if b = 0xF0 then some ⟨0x90, 0xBF, 3, 0⟩
  else if b = 0xF4 then some ⟨0x80, 0x8F, 3, 4⟩
  else if 0xF1 ≤ b ∧ b ≤ 0xF3 then some ⟨0x80, 0xBF, 3, b - 0xF0⟩
  else none

/-- Take `count` more bytes of a sequence, the next one between `low` and `high` and
the others any continuation byte: the value if all are there, and what is left. -/
def continueFrom (low high : Nat) : Nat → Nat → List UInt8 → Option Nat × List UInt8
  | 0, value, rest => (some value, rest)
  | _ + 1, _, [] => (none, [])
  | count + 1, value, b :: rest =>
    if low ≤ b.toNat ∧ b.toNat ≤ high then
      continueFrom 0x80 0xBF count (value * 64 + (b.toNat - 0x80)) rest
    else (none, b :: rest)

theorem length_continueFrom_le (low high count value : Nat) (rest : List UInt8) :
    (continueFrom low high count value rest).2.length ≤ rest.length := by
  induction count generalizing low high value rest with
  | zero => simp [continueFrom]
  | succ count ih =>
    cases rest with
    | nil => simp [continueFrom]
    | cons b rest =>
      simp only [continueFrom]
      split
      · exact Nat.le_succ_of_le (ih _ _ _ _)
      · exact Nat.le_refl _

/-- The characters shown for a row of bytes. -/
def lossyChars : List UInt8 → List Char
  | [] => []
  | b :: rest =>
    if b.toNat < 0x80 then Char.ofNat b.toNat :: lossyChars rest
    else
      match lead? b.toNat with
      | none => '\uFFFD' :: lossyChars rest
      | some l =>
        let taken := continueFrom l.low l.high l.tail l.bits rest
        (taken.1.elim '\uFFFD' Char.ofNat) :: lossyChars taken.2
termination_by bytes => bytes.length
decreasing_by
  · exact Nat.lt_succ_self _
  · exact Nat.lt_succ_self _
  · exact Nat.lt_succ_of_le (length_continueFrom_le _ _ _ _ _)

/-- The text shown for a row of bytes. -/
def decodeLossy (bytes : List UInt8) : String :=
  String.ofList (lossyChars bytes)

end StableNaming.Text
