import StableNaming.Policy.Basic

/-!
# Configuration

The choices that a caller has.
-/

namespace StableNaming

/-- What a caller can choose. -/
structure NamingConfig where
  /-- The namespace of the symbols. -/
  sourceNamespace : String := "official"
  /-- The namespace of the generated names. -/
  targetNamespace : String := "intermediary"
  /-- The package of generated class names, with a slash at the end. -/
  defaultPackage : String := "net/minecraft/"
  /-- Which names need to be replaced. -/
  patterns : PatternTexts := .usual
  /-- Whether symbols that keep their names get entries too. -/
  writeAll : Bool := false
  deriving Repr, DecidableEq

end StableNaming
