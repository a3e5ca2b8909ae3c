/-!
# Descriptors

A field descriptor is one type: a primitive letter, a class reference
`L…;` or `[` before a type. A method descriptor is a bracketed row of types
followed by a result type or `V`. Both are regular, so a descriptor is checked
by a machine that reads one character at a time and knows what is due next. The
first character with no place in any descriptor is the one reported.
-/

namespace StableNaming.Descriptor

/-- Where a type stands in a descriptor. -/
inductive Place where
  /-- Among the arguments of a method. -/
  | argument
  /-- At the end of the descriptor. -/
  | last
  deriving Repr, DecidableEq

/-- What is due next. -/
inductive Due where
  /-- The opening bracket of a method descriptor. -/
  | opening
  /-- One more argument type, or the closing bracket. -/
  | arguments
  /-- The result type, or `V`. -/
  | result
  /-- A type. -/
  | type (place : Place)
  /-- More of a class name; the flag says whether it has a character yet. -/
  | className (place : Place) (named : Bool)
  /-- Nothing. -/
  | nothing
  deriving Repr, DecidableEq

/-- Why a text is no descriptor. -/
inductive Fault where
  /-- The text stops in the middle of a descriptor. -/
  | unexpectedEnd
  /-- The character cannot stand where it does. -/
  | unexpectedTag (tag : Char)
  /-- A complete descriptor is followed by more text. -/
  | trailingData
  deriving Repr, DecidableEq

/-- What is due after a type. -/
def Place.next : Place → Due
  | .argument => .arguments
  | .last => .nothing

/-- The letters of the primitive types. -/
def primitives : List Char := ['B', 'C', 'D', 'F', 'I', 'J', 'S', 'Z']

/-- Read the first character of a type. -/
def stepType (place : Place) (c : Char) : Option Due :=
  if c ∈ primitives then some place.next
  else if c = 'L' then some (.className place false)
  else if c = '[' then some (.type place)
  else none

/-- Read one character. -/
def step : Due → Char → Option Due
  | .opening, c => if c = '(' then some .arguments else none
  | .arguments, c => if c = ')' then some .result else stepType .argument c
  | .result, c => if c = 'V' then some .nothing else stepType .last c
  | .type place, c => stepType place c
  | .className place named, c =>
    if c = ';' then (if named then some place.next else none) else some (.className place true)
  | .nothing, _ => none

/-- Read the rest of a descriptor. -/
def check : Due → List Char → Except Fault Unit
  | .nothing, [] => .ok ()
  | .nothing, _ :: _ => .error .trailingData
  | _, [] => .error .unexpectedEnd
  | due, c :: cs =>
    match step due c with
    | some due => check due cs
    | none => .error (.unexpectedTag c)

/-- Check a field descriptor. -/
def checkField (desc : String) : Except Fault Unit := check (.type .last) desc.toList

/-- Check a method descriptor. -/
def checkMethod (desc : String) : Except Fault Unit := check .opening desc.toList

/-- Whether the text is a field descriptor. -/
def isField (desc : String) : Bool := (checkField desc).isOk

/-- Whether the text is a method descriptor. -/
def isMethod (desc : String) : Bool := (checkMethod desc).isOk

/-- A character as reports show it: the first byte of its encoding, as a character. -/
def shownTag (c : Char) : Char :=
  Char.ofNat ((String.utf8EncodeChar c).head?.elim 0 UInt8.toNat)

/-- The report of a fault in a descriptor. -/
def Fault.message (desc : String) : Fault → String
  | .unexpectedEnd => "unexpected end of descriptor '" ++ desc ++ "'"
  | .unexpectedTag tag =>
    "unexpected tag '" ++ (shownTag tag).toString ++ "' in descriptor '" ++ desc ++ "'"
  | .trailingData => "trailing data in descriptor '" ++ desc ++ "'"

end StableNaming.Descriptor
