import StableNaming.Symbol.Kind
import StableNaming.Symbol.MemberKey

/-!
# References to members

A field or method of a particular class. Fields and methods are kept apart
everywhere, so a reference does not say which of the two it is.
-/

namespace StableNaming

/-- The two kinds of members. -/
inductive MemberKind where
  /-- Fields. -/
  | field
  /-- Methods. -/
  | method
  deriving Repr, DecidableEq, Inhabited

/-- Members are symbols. -/
def MemberKind.symbol : MemberKind → SymbolKind
  | .field => .field
  | .method => .method

/-- A member of a class. -/
structure MemberRef where
  /-- Name of the class. -/
  owner : String
  /-- Name and descriptor. -/
  key : MemberKey
  deriving Repr, DecidableEq, Inhabited

/-- The member as it appears in reports. -/
def MemberRef.text (ref : MemberRef) : String := ref.owner ++ "." ++ ref.key.text

end StableNaming
