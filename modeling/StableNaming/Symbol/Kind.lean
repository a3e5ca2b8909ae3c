import StableNaming.Symbol.Name
import StableNaming.Text.Decimal

/-!
# Kinds of symbols and generated names

There are three kinds of symbols. A generated name carries the infix of its
kind, followed by the number that made it unique.
-/

namespace StableNaming

/-- What a name can belong to. -/
inductive SymbolKind where
  /-- A class or interface. -/
  | type
  /-- A field. -/
  | field
  /-- A method. -/
  | method
  deriving Repr, DecidableEq, Inhabited

namespace SymbolKind

/-- All kinds, in their fixed order. -/
def all : List SymbolKind := [.type, .field, .method]

/-- The word for a kind. -/
def word : SymbolKind → String
  | .type => "class"
  | .field => "field"
  | .method => "method"

/-- The kind that a word denotes. -/
def ofWord? (s : String) : Option SymbolKind :=
  if s = "class" then some .type
  else if s = "field" then some .field
  else if s = "method" then some .method
  else none

/-- Words and kinds determine each other. -/
theorem ofWord?_word (kind : SymbolKind) : ofWord? kind.word = some kind := by
  cases kind <;> rfl

/-- What stands in front of the number in a generated name. -/
def stem (kind : SymbolKind) : String := kind.word ++ "_"

/-- Whether a name looks generated: the stem of its kind occurs in it. -/
def isGenerated (kind : SymbolKind) (name : String) : Bool := Text.occursIn kind.stem name

/-- The generated name with a number. -/
def generatedName (kind : SymbolKind) (number : Nat) : String := kind.stem ++ toString number

/-- The number at the end of a generated name: what follows the last stem in its
innermost part, if that is a number. -/
def suffix? (kind : SymbolKind) (name : String) : Option Nat :=
  (Text.cutLast? kind.stem.toList (innermostName name).toList).bind fun parts =>
    Text.readNumber? (String.ofList parts.2)

end SymbolKind

end StableNaming
