import StableNaming.Mapping.Set

/-!
# The tiny format

A mapping file has a header with the version and the namespaces, and a line per
symbol with its name in every namespace. Owners and descriptors of members are
given in the first namespace. Lines that start with `#` are comments; some of
them carry counters. Columns are separated by tabs.
-/

namespace StableNaming.Tiny

/-- The version of the format. -/
def version : String := "v1"

/-- The first column of a line for a symbol. -/
def tag : SymbolKind → String
  | .type => "CLASS"
  | .field => "FIELD"
  | .method => "METHOD"

/-! ## Writing -/

/-- A line of columns. -/
def row (columns : List String) : String := "\t".intercalate columns ++ "\n"

/-- The line for a member. -/
def memberRow (kind : MemberKind) (owner : String) (m : MemberEntry) : String :=
  row [tag kind.symbol, owner, m.key.desc, m.key.name, m.target]

/-- The lines for a class and its members. -/
def classRows (entry : ClassEntry) : List String :=
  row [tag .type, entry.name, entry.target] ::
    (entry.fields.map (memberRow .field entry.name) ++
      entry.methods.map (memberRow .method entry.name))

/-- The file of a set: header, counters, then each class followed by its members. -/
def write (s : MappingSet) : String :=
  String.join
    (row [version, s.source, s.target] :: s.counters.lines.map (· ++ "\n") ++
      s.classes.flatMap classRows)

/-! ## Reading -/

/-- The name of a symbol in the first namespace stands in for an empty column. -/
def orBase (name base : String) : String := if name = "" then base else name

/-- A line for a symbol, with its names in the namespaces that are asked for. -/
inductive Entry where
  /-- A class; `base` is its name in the first namespace. -/
  | classLine (base source target : String)
  /-- A member, with owner and descriptor in the first namespace. -/
  | memberLine (kind : MemberKind) (owner desc source target : String)
  deriving Repr, DecidableEq

/-- What a line contributes. -/
inductive Item where
  /-- Nothing: a blank line or a comment. -/
  | nothing
  /-- A counter. -/
  | counter (kind : SymbolKind) (number : UInt64)
  /-- A symbol. -/
  | entry (entry : Entry)
  deriving Repr, DecidableEq

/-- The namespaces that a header lists. -/
def parseHeader (header : String) : Except MappingFault (List String) :=
  match Text.columns '\t' (Text.trimEnd header) with
  | first :: namespaces =>
    if first ≠ version then .error (.header (.wrongVersion header))
    else if namespaces.length < 2 then .error (.header (.tooFewNamespaces namespaces.length))
    else .ok namespaces
  | [] => .error (.header (.wrongVersion header))

/-- The header, which is the first line that is not blank, with the numbered lines
after it. -/
def splitHeader : List (Option String × Nat) →
    Except MappingFault (String × List (Option String × Nat))
  | [] => .error (.header .emptyFile)
  | (none, _) :: _ => .error .invalidText
  | (some line, _) :: rest =>
    if Text.isBlankLine line then splitHeader rest else .ok (line, rest)

/-- The column of a namespace. -/
def namespaceIndex (namespaces : List String) (name : String) : Except MappingFault Nat :=
  match namespaces.idxOf? name with
  | some i => .ok i
  | none => .error (.unknownNamespace name namespaces)

/-- Which columns of a file are asked for. -/
structure Selection where
  /-- How many namespaces the file has. -/
  width : Nat
  /-- The column of the source namespace. -/
  source : Nat
  /-- The column of the target namespace. -/
  target : Nat
  deriving Repr, DecidableEq

/-- The line for a symbol of which the columns after the tag are given. -/
def parseEntry (sel : Selection) (number : Nat) (kind : SymbolKind) (columns : List String) :
    Except MappingFault Entry :=
  let place : Nat := if kind = .type then 0 else 2
  let names := columns.drop place
  let name (i : Nat) : String := names[i]?.getD ""
  if columns.length < place + sel.width then
    .error (.missingColumn number (place + sel.width + 1) (columns.length + 1))
  else
    let base := name 0
    let source := orBase (name sel.source) base
    let target := name sel.target
    let owner := columns[0]?.getD ""
    let desc := columns[1]?.getD ""
    let checked (outcome : Except Descriptor.Fault Unit) (kind : MemberKind) :
        Except MappingFault Entry :=
      match outcome with
      | .ok () => .ok (.memberLine kind owner desc source target)
      | .error fault => .error (.malformed number (.descriptor desc fault))
    match kind with
    | .type => .ok (.classLine base source target)
    | .field => checked (Descriptor.checkField desc) .field
    | .method => checked (Descriptor.checkMethod desc) .method

/-- The kind of symbol that a first column announces. -/
def kindOfTag? (s : String) : Option SymbolKind :=
  SymbolKind.all.find? fun kind => tag kind == s

/-- Read a line after the header. -/
def parseLine (sel : Selection) (numbered : Option String × Nat) : Except MappingFault Item := do
  match numbered with
  | (none, _) => throw .invalidText
  | (some line, number) =>
    if Text.isBlankLine line then pure .nothing
    else if line.toList.head? = some '#' then
      match ← Counters.parseLine line with
      | some (kind, n) => pure (.counter kind n)
      | none => pure .nothing
    else
      match Text.columns '\t' line with
      | [] => pure .nothing
      | first :: columns =>
        match kindOfTag? first with
        | none => throw (.malformed number (.unknownEntry first))
        | some kind => .entry <$> parseEntry sel number kind columns

/-- The symbols among the contributions of lines. -/
def entriesOf (items : List Item) : List Entry :=
  items.filterMap fun item =>
    match item with
    | .entry e => some e
    | _ => none

/-- The counters among the contributions of lines. -/
def countersOf (items : List Item) : Counters :=
  items.foldl
    (fun counters item =>
      match item with
      | .counter kind n => counters.observe kind n
      | _ => counters)
    {}

/-- The classes of the first namespace in terms of another one. -/
def classNames (pick : (base source target : String) → String) (entries : List Entry) :
    Dictionary String String :=
  .ofList (entries.filterMap fun e =>
    match e with
    | .classLine base source target => some (base, pick base source target)
    | _ => none)

/-- Add the entry of a class. A class without a target name has none. -/
def insertClass (t : MappingTable) : Entry → Except MappingFault MappingTable
  | .classLine _ source target => if target = "" then .ok t else t.insertClass source target
  | .memberLine .. => .ok t

/-- Add the entry of a member, with owner and descriptor in the source and in the target
namespace. -/
def insertMember (toSource toTarget : Dictionary String String) (t : MappingTable) :
    Entry → Except MappingFault MappingTable
  | .classLine .. => .ok t
  | .memberLine kind owner desc source target =>
    if target = "" then .ok t
    else
      let member (names : Dictionary String String) (name : String) : MemberRef :=
        ⟨(names.find? owner).getD owner, ⟨name, Descriptor.rename names.find? desc⟩⟩
      t.insertMember kind (member toSource source) (member toTarget target)

/-- The table of the symbols of a file. -/
def tableOf (source target : String) (counters : Counters) (entries : List Entry) :
    Except MappingFault MappingTable := do
  let toSource := classNames (fun _ source _ => source) entries
  let toTarget := classNames (fun base _ target => orBase target base) entries
  let t ← entries.foldlM insertClass { source, target, counters }
  entries.foldlM (insertMember toSource toTarget) t

/-- Read the lines of a file as a table from one of its namespaces to another. -/
def readLines (lines : List (Option String)) (source target : String) :
    Except MappingFault MappingTable := do
  let (header, rest) ← splitHeader (lines.zipIdx 1)
  let namespaces ← parseHeader header
  let sourceIndex ← namespaceIndex namespaces source
  let targetIndex ← namespaceIndex namespaces target
  let sel : Selection := ⟨namespaces.length, sourceIndex, targetIndex⟩
  let items ← rest.mapM (parseLine sel)
  tableOf source target (countersOf items) (entriesOf items)

/-- Read a text. -/
def readText (text : String) (source target : String) : Except MappingFault MappingTable :=
  readLines ((Text.lines text).map some) source target

/-- Read bytes. -/
def read (source target : String) (bytes : List UInt8) : Except MappingFault MappingTable :=
  readLines (Text.fileLines bytes) source target

/-- Read a file. -/
def ofFile (source target : String) : File → Except MappingFault MappingTable :=
  File.readWith (read source target)

end StableNaming.Tiny
