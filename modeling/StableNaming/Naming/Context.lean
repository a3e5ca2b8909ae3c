import StableNaming.Graph.Symbol
import StableNaming.Mapping.Counters
import StableNaming.Symbol.MemberRef
import StableNaming.Collection.Dictionary

/-!
# Decided names

What a generator remembers: the counters and the names decided so far. The name
of a method belongs to its number, so all classes that share it agree.
-/

namespace StableNaming

/-- Counters and decided names. -/
structure NamingContext where
  /-- The next numbers. -/
  counters : Counters := {}
  /-- Names of classes. -/
  classNames : Dictionary String String := .empty
  /-- Names of fields. -/
  fieldNames : Dictionary MemberRef String := .empty
  /-- Names of methods. -/
  methodNames : Dictionary MethodId String := .empty
  deriving Repr, DecidableEq, Inhabited

namespace NamingContext

/-- Decide the name of a class. -/
def setClass (c : NamingContext) (className name : String) : NamingContext :=
  { c with classNames := c.classNames.insert className name }

/-- Decide the name of a field. -/
def setField (c : NamingContext) (field : MemberRef) (name : String) : NamingContext :=
  { c with fieldNames := c.fieldNames.insert field name }

/-- Decide the name of a method. -/
def setMethod (c : NamingContext) (method : MethodId) (name : String) : NamingContext :=
  { c with methodNames := c.methodNames.insert method name }

/-- Decide one name for several methods. -/
def setMethods (c : NamingContext) (methods : List MethodId) (name : String) : NamingContext :=
  methods.foldl (·.setMethod · name) c

/-- Take the counters of a mapping into account. -/
def mergeCounters (c : NamingContext) (counters : Counters) : NamingContext :=
  { c with counters := c.counters.merge counters }

/-- Keep the counter of a kind past the number in a generated name, if any word is past it. -/
def pass? (c : NamingContext) (kind : SymbolKind) (name : String) : Option NamingContext :=
  match kind.suffix? name with
  | some n =>
    (Text.word? (n + 1)).map fun next => { c with counters := c.counters.observe kind next }
  | none => some c

/-- Make a new name, if the counter can move on. -/
def mint? (c : NamingContext) (kind : SymbolKind) : Option (String × NamingContext) :=
  (c.counters.next? kind).map fun (n, counters) => (kind.generatedName n, { c with counters })

end NamingContext

end StableNaming
