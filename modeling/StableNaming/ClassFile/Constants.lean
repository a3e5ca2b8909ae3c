import StableNaming.Symbol.Member
import StableNaming.ClassFile.ByteReader
import StableNaming.ClassFile.ModifiedUtf8

/-!
# Constants

Names, descriptors and references in a class file are indices into its list of
constants. Index 0 stands for nothing, and a wide constant takes two indices, of
which the second stands for nothing.
-/

namespace StableNaming

/-- A constant, as far as names depend on it. -/
inductive Constant where
  /-- A text. -/
  | text (value : String)
  /-- A class, by the index of its name. -/
  | classRef (nameIndex : Nat)
  /-- A member, by the indices of its name and its descriptor. -/
  | memberRef (nameIndex descIndex : Nat)
  /-- Anything else, and indices that stand for nothing. -/
  | other
  deriving Repr, DecidableEq

/-- The constants of a class file, by index. -/
abbrev Constants := List Constant

namespace Constants

open ByteReader

/-- Read the constant for an index; the flag says whether it is wide. -/
def readConstant (index : Nat) : ByteReader (Constant × Bool) := do
  match ← u1 with
  | 1 =>
    let bytes ← take (← u2)
    match ModifiedUtf8.decode? bytes with
    | some s => pure (.text s, false)
    | none => throw (.invalidText index)
  | 7 =>
    let nameIndex ← u2
    pure (.classRef nameIndex, false)
  | 12 =>
    let nameIndex ← u2
    let descIndex ← u2
    pure (.memberRef nameIndex descIndex, false)
  | 5 | 6 => skip 8 true
  | 3 | 4 | 9 | 10 | 11 | 17 | 18 => skip 4 false
  | 8 | 16 | 19 | 20 => skip 2 false
  | 15 => skip 3 false
  | tag => throw (.unsupportedConstant tag)
where
  /-- Pass over a constant that no name depends on. -/
  skip (length : Nat) (wide : Bool) : ByteReader (Constant × Bool) := do
    let _ ← take length
    pure (.other, wide)

/-- Read the constants for `count` indices from `index` on. After a wide constant the
next index stands for nothing. -/
def readFrom (afterWide : Bool) (index : Nat) : Nat → ByteReader Constants
  | 0 => pure []
  | count + 1 => do
    if afterWide then
      let rest ← readFrom false (index + 1) count
      pure (.other :: rest)
    else
      let (constant, wide) ← readConstant index
      let rest ← readFrom wide (index + 1) count
      pure (constant :: rest)

/-- Read the list of constants with its length in front. The length counts index 0. -/
def read : ByteReader Constants := do
  let count ← u2
  let rest ← readFrom false 1 (count - 1)
  pure (.other :: rest)

/-- The text at an index. -/
def text (constants : Constants) (index : Nat) : Except ClassFileFault String :=
  match constants[index]? with
  | some (.text s) => .ok s
  | _ => .error (.invalidConstantIndex index)

/-- The name of the class at an index. -/
def className (constants : Constants) (index : Nat) : Except ClassFileFault String :=
  match constants[index]? with
  | some (.classRef nameIndex) => constants.text nameIndex
  | _ => .error (.invalidConstantIndex index)

/-- The name and descriptor of the member at an index. -/
def memberKey (constants : Constants) (index : Nat) : Except ClassFileFault MemberKey :=
  match constants[index]? with
  | some (.memberRef nameIndex descIndex) => do
    let name ← constants.text nameIndex
    let desc ← constants.text descIndex
    pure ⟨name, desc⟩
  | _ => .error (.invalidConstantIndex index)

/-- Index 0 stands for nothing; any other index is looked up. -/
def optional {α : Type} (look : Nat → Except ClassFileFault α) (index : Nat) :
    Except ClassFileFault (Option α) :=
  if index = 0 then .ok none else (look index).map some

end Constants

end StableNaming
