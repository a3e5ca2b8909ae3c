import StableNaming.Symbol.Access
import StableNaming.Symbol.MemberKey

/-!
# Declared members

What a class file says about one of its fields or methods.
-/

namespace StableNaming

/-- A declared field or method. -/
structure Member where
  /-- Name and descriptor. -/
  key : MemberKey
  /-- Access flags. -/
  access : Access := {}
  /-- The generic signature, where there is one. -/
  signature : Option String := none
  deriving Repr, DecidableEq, Inhabited

/-- The class, and where known the method, whose body holds a local or anonymous class. -/
structure Enclosure where
  /-- Name of the enclosing class. -/
  className : String
  /-- The enclosing method. -/
  method : Option MemberKey := none
  deriving Repr, DecidableEq, Inhabited

end StableNaming
