import StableNaming.Text.Line

/-!
# Text constants

A text constant holds UTF-8, or else the modified encoding of class files: code
units of 16 bits, each in one to three bytes, so that NUL takes two bytes and a
character beyond the sixteen-bit range takes two surrogates of three bytes.
-/

namespace StableNaming.ModifiedUtf8

/-- The 16-bit code units that bytes encode in groups of one, two or three. Only the
first byte of a group tells its length; of the others the low six bits count. -/
def codeUnits? : List UInt8 → Option (List Nat)
  | [] => some []
  | b :: rest =>
    if b.toNat < 0x80 then (codeUnits? rest).map (b.toNat :: ·)
    else if b.toNat / 32 = 6 then
      match rest with
      | [] => none
      | c :: rest => (codeUnits? rest).map ((b.toNat % 32 * 64 + c.toNat % 64) :: ·)
    else if b.toNat / 16 = 14 then
      match rest with
      | c :: d :: rest =>
        (codeUnits? rest).map ((b.toNat % 16 * 4096 + c.toNat % 64 * 64 + d.toNat % 64) :: ·)
      | _ => none
    else none

/-- The characters that code units stand for; surrogates must come in pairs. -/
def charsOfUnits? : List Nat → Option (List Char)
  | [] => some []
  | u :: rest =>
    if u < 0xD800 ∨ 0xE000 ≤ u then (charsOfUnits? rest).map (Char.ofNat u :: ·)
    else if u < 0xDC00 then
      match rest with
      | [] => none
      | v :: rest =>
        if 0xDC00 ≤ v ∧ v < 0xE000 then
          (charsOfUnits? rest).map
            (Char.ofNat (0x10000 + (u - 0xD800) * 0x400 + (v - 0xDC00)) :: ·)
        else none
    else none

/-- Decode a text constant. -/
def decode? (bytes : List UInt8) : Option String :=
  (Text.decodeUtf8? bytes).or
    (((codeUnits? bytes).bind charsOfUnits?).map String.ofList)

end StableNaming.ModifiedUtf8
