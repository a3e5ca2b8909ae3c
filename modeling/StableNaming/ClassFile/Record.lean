import StableNaming.Symbol.Member

/-!
# Class files

The part of a class file that naming depends on: what the class is called, what
it inherits from, where it is nested and which members it declares.
-/

namespace StableNaming

/-- The contents of one class file. -/
structure ClassFile where
  /-- Name of the class. -/
  name : String
  /-- Access flags of the class. -/
  access : Access := {}
  /-- The generic signature, where there is one. -/
  signature : Option String := none
  /-- Name of the super class. -/
  superName : Option String := none
  /-- Names of the interfaces, as listed. -/
  interfaces : List String := []
  /-- The class that declares this one as a member. -/
  declaring : Option String := none
  /-- The name that the class has inside its container; anonymous classes have none. -/
  innerName : Option String := none
  /-- Where a local or anonymous class is defined. -/
  enclosure : Option Enclosure := none
  /-- Declared fields, as listed. -/
  fields : List Member := []
  /-- Declared methods, as listed. -/
  methods : List Member := []
  deriving Repr, DecidableEq, Inhabited

end StableNaming
