import StableNaming.Graph.Symbol

/-!
# Naming policies

A policy votes on which symbols need a generated name: a positive number is a
vote for it, a negative one against, and zero no opinion. The greater the
number, the stronger the vote. The default policy votes by name patterns. Which
texts are patterns and what they match is up to a pattern engine.
-/

namespace StableNaming

/-- A policy. -/
structure NamingPolicy where
  /-- The name of the policy in reports. -/
  name : String
  /-- The vote on a class. -/
  classVote : ClassSymbol → Int32 := fun _ => 0
  /-- The vote on a field of a class. -/
  fieldVote : ClassSymbol → Member → Int32 := fun _ _ => 0
  /-- The vote on a method of a class. -/
  methodVote : ClassSymbol → MethodSymbol → Int32 := fun _ _ => 0
  /-- The package for the generated name of a top-level class. -/
  package? : ClassSymbol → Option String := fun _ => none

/-- The texts of name patterns, for each kind of symbol. -/
structure PatternTexts where
  /-- Patterns for classes. -/
  classes : List String
  /-- Patterns for fields. -/
  fields : List String
  /-- Patterns for methods. -/
  methods : List String
  deriving Repr, DecidableEq

/-- Classes outside any package, and members with names of one or two characters or of
two characters and an underscore. -/
def PatternTexts.usual : PatternTexts where
  classes := ["^[^/]*$"]
  fields := ["^(.\x7b1,2\x7d|.\x7b2\x7d_)$"]
  methods := ["^(.\x7b1,2\x7d|.\x7b2\x7d_)$"]

/-- A notation for patterns. -/
class PatternEngine where
  /-- The test on names that a text denotes, if the text is a pattern. -/
  test? : String → Option (String → Bool)

/-- Name patterns, for each kind of symbol, by the tests that they are. -/
structure NamePatterns where
  /-- Patterns for classes. -/
  classes : List (String → Bool)
  /-- Patterns for fields. -/
  fields : List (String → Bool)
  /-- Patterns for methods. -/
  methods : List (String → Bool)

/-- The patterns that texts denote, if all of them are patterns. -/
def PatternTexts.compile? [PatternEngine] (texts : PatternTexts) : Option NamePatterns := do
  let classes ← texts.classes.mapM PatternEngine.test?
  let fields ← texts.fields.mapM PatternEngine.test?
  let methods ← texts.methods.mapM PatternEngine.test?
  pure { classes, fields, methods }

namespace NamePatterns

/-- Whether one of the patterns matches the name. -/
def anyMatch (patterns : List (String → Bool)) (name : String) : Bool :=
  patterns.any fun test => test name

/-- A weak vote. -/
def weakVote (inFavour : Bool) : Int32 := if inFavour then 1 else -1

/-- The policy that votes for the symbols whose names match. Initializers keep their
names. -/
def policy (p : NamePatterns) : NamingPolicy where
  name := "default"
  classVote c := weakVote (anyMatch p.classes c.name)
  fieldVote _ f := weakVote (anyMatch p.fields f.key.name)
  methodVote _ m := weakVote (anyMatch p.methods m.key.name && !m.key.isInitializer)

end NamePatterns

end StableNaming
