/-!
# Access flags

The sixteen flag bits that a class file gives to a class or a member. Only
four of them matter for naming.
-/

namespace StableNaming

/-- The flag bits of a class or member. -/
structure Access where
  /-- All sixteen bits. -/
  bits : UInt16 := 0
  deriving Repr, DecidableEq, Inhabited

namespace Access

/-- Bits of private members. -/
def privateBit : UInt16 := 0x0002

/-- Bits of static members. -/
def staticBit : UInt16 := 0x0008

/-- Bits of interfaces. -/
def interfaceBit : UInt16 := 0x0200

/-- Bits of symbols that the compiler made up. -/
def syntheticBit : UInt16 := 0x1000

/-- Whether one of the given bits is set. -/
def has (a : Access) (mask : UInt16) : Bool := a.bits &&& mask != 0

/-- Visible in the declaring class only. -/
def isPrivate (a : Access) : Bool := a.has privateBit

/-- Belongs to the class and not to its objects. -/
def isStatic (a : Access) : Bool := a.has staticBit

/-- Takes no part in dynamic dispatch. -/
def isPrivateOrStatic (a : Access) : Bool := a.has (privateBit ||| staticBit)

/-- The class is an interface. -/
def isInterface (a : Access) : Bool := a.has interfaceBit

/-- Made up by the compiler. -/
def isSynthetic (a : Access) : Bool := a.has syntheticBit

/-- One lower-case hexadecimal digit. -/
def hexDigit (n : Nat) : Char :=
  if n < 10 then Char.ofNat (48 + n) else Char.ofNat (87 + n)

/-- The lowest `width` hexadecimal digits of a number. -/
def hexDigits : Nat → Nat → List Char
  | 0, _ => []
  | width + 1, n => hexDigits width (n / 16) ++ [hexDigit (n % 16)]

/-- The flags as they appear in reports: four hexadecimal digits. -/
def describe (a : Access) : String :=
  "AccessFlags(0x" ++ String.ofList (hexDigits 4 a.bits.toNat) ++ ")"

end Access

end StableNaming
