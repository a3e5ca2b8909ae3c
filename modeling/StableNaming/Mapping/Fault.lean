import StableNaming.Descriptor.Grammar
import StableNaming.Symbol.Kind

/-!
# Faults in mappings

Why a mapping, match or counter file cannot be used, and why two entries or two
tables do not go together.
-/

namespace StableNaming

/-- Why the first line of a mapping file is not accepted. -/
inductive HeaderFault where
  /-- There is no line that is not blank. -/
  | emptyFile
  /-- The line does not start with the version of the format. -/
  | wrongVersion (header : String)
  /-- A mapping needs two namespaces. -/
  | tooFewNamespaces (found : Nat)
  deriving Repr, DecidableEq

/-- Why a line is not accepted. -/
inductive LineFault where
  /-- The first column is no known kind of entry. -/
  | unknownEntry (tag : String)
  /-- The descriptor is none. -/
  | descriptor (desc : String) (fault : Descriptor.Fault)
  /-- A member is matched before any class is. -/
  | memberWithoutClass
  /-- The text is no quoted class name. -/
  | invalidClassName (text : String)
  /-- The text is no member. -/
  | invalidMember (text : String)
  deriving Repr, DecidableEq

/-- Why a mapping cannot be used. -/
inductive MappingFault where
  /-- The file is missing, or is no text. -/
  | unreadable
  /-- The text is not UTF-8. -/
  | invalidText
  /-- The header is not accepted. -/
  | header (fault : HeaderFault)
  /-- The header does not list the namespace. -/
  | unknownNamespace (name : String) (available : List String)
  /-- A line is not accepted. -/
  | malformed (line : Nat) (fault : LineFault)
  /-- The symbol has an entry already. -/
  | duplicateEntry (kind : SymbolKind) (symbol : String)
  /-- The tables do not map between the same namespaces. -/
  | namespaceMismatch (left right : String)
  /-- A line has too few columns. -/
  | missingColumn (line expected found : Nat)
  /-- The line has the mark of a counter but is none. -/
  | invalidCounter (line : String)
  deriving Repr, DecidableEq

/-- The report of a header fault. -/
def HeaderFault.message : HeaderFault → String
  | .emptyFile => "empty mapping file"
  | .wrongVersion header => "expected `v1` header, found `" ++ header ++ "`"
  | .tooFewNamespaces found => "at least two namespaces required, found " ++ toString found

/-- The report of a line fault. -/
def LineFault.message : LineFault → String
  | .unknownEntry tag => "unknown entry `" ++ tag ++ "`"
  | .descriptor desc fault => fault.message desc
  | .memberWithoutClass => "member line before any class line"
  | .invalidClassName text => "invalid class name `" ++ text ++ "`"
  | .invalidMember text => "invalid member `" ++ text ++ "`"

/-- The report of a fault. -/
def MappingFault.message : MappingFault → String
  | .unreadable => "unreadable file"
  | .invalidText => "IO error: stream did not contain valid UTF-8"
  | .header fault => "invalid mapping header: " ++ fault.message
  | .unknownNamespace name available =>
    "namespace `" ++ name ++ "` not in header (available: " ++ ", ".intercalate available ++ ")"
  | .malformed line fault => "line " ++ toString line ++ ": " ++ fault.message
  | .duplicateEntry kind symbol => "duplicate " ++ kind.word ++ " mapping for " ++ symbol
  | .namespaceMismatch left right => "cannot merge " ++ left ++ " with " ++ right
  | .missingColumn line expected found =>
    "line " ++ toString line ++ ": expected " ++ toString expected ++ " columns, found " ++
      toString found
  | .invalidCounter line => "invalid counter line `" ++ line ++ "`"

end StableNaming
