import StableNaming.Mapping.Table

/-!
# Match files

A match file says which class of an old version a class of the new version
corresponds to, and likewise for members. A line for a member belongs to the
class line above it. All other lines are passed over.
-/

namespace StableNaming.Matches

/-- The namespace of the new version. -/
def newNamespace : String := "new"

/-- The namespace of the old version. -/
def oldNamespace : String := "old"

/-- A class name without the character that quotes it on either side. -/
def unquote? (s : String) : Option String :=
  let inner := s.toList.tail.dropLast
  if inner = [] then none else some (String.ofList inner)

/-- A field: name and descriptor with two semicolons between. -/
def splitField? (s : String) : Option MemberKey :=
  (Text.cutFirst? [';', ';'] s.toList).bind fun parts =>
    let key : MemberKey := ⟨String.ofList parts.1, String.ofList parts.2⟩
    if parts.1 ≠ [] ∧ Descriptor.isField key.desc then some key else none

/-- A method: name and descriptor, which starts at the first bracket. -/
def splitMethod? (s : String) : Option MemberKey :=
  let name := s.toList.takeWhile (· ≠ '(')
  let key : MemberKey := ⟨String.ofList name, String.ofList (s.toList.drop name.length)⟩
  if name ≠ [] ∧ Descriptor.isMethod key.desc then some key else none

/-- A member as a match file writes it. -/
def split? : MemberKind → String → Option MemberKey
  | .field => splitField?
  | .method => splitMethod?

/-- What a line is about. -/
inductive Row where
  /-- A class, by its old and its new quoted name. -/
  | classLine (old new : String)
  /-- A member, by its old and its new text. -/
  | memberLine (kind : MemberKind) (old new : String)
  /-- Anything else. -/
  | other
  deriving Repr, DecidableEq

/-- What a line is about. Carriage returns at its end do not count. -/
def rowOf (line : String) : Row :=
  let trimmed := Text.dropTailWhile (· == '\r') line.toList
  match Text.columns '\t' (String.ofList trimmed) with
  | ["c", old, new] => .classLine old new
  | ["", "f", old, new] => .memberLine .field old new
  | ["", "m", old, new] => .memberLine .method old new
  | _ => .other

/-- A class of the old version and its counterpart of the new version. -/
structure ClassMatch where
  /-- The name in the old version. -/
  old : String
  /-- The name in the new version. -/
  new : String
  deriving Repr, DecidableEq

/-- What has been read: the table so far and the class that members belong to. -/
structure Progress where
  /-- The entries so far. -/
  table : MappingTable
  /-- The class of the last class line. -/
  current : Option ClassMatch := none

/-- What `o` holds, or else a fault of the line. -/
def require {α : Type} (number : Nat) (fault : LineFault) (o : Option α) :
    Except MappingFault α :=
  match o with
  | some a => .ok a
  | none => .error (.malformed number fault)

/-- Take a line into account. -/
def addLine (p : Progress) (numbered : Option String × Nat) : Except MappingFault Progress := do
  match numbered with
  | (none, _) => throw .invalidText
  | (some line, number) =>
    match rowOf line with
    | .classLine quotedOld quotedNew =>
      let old ← require number (.invalidClassName quotedOld) (unquote? quotedOld)
      let new ← require number (.invalidClassName quotedNew) (unquote? quotedNew)
      let table ← p.table.insertClass new old
      pure { table, current := some ⟨old, new⟩ }
    | .memberLine kind oldText newText =>
      let current ← require number .memberWithoutClass p.current
      let old ← require number (.invalidMember oldText) (split? kind oldText)
      let new ← require number (.invalidMember newText) (split? kind newText)
      let table ← p.table.insertMember kind ⟨current.new, new⟩ ⟨current.old, old⟩
      pure { p with table }
    | .other => pure p

/-- Read the lines of a match file as a table from new names to old names. -/
def readLines (lines : List (Option String)) : Except MappingFault MappingTable := do
  let start : Progress := { table := { source := newNamespace, target := oldNamespace } }
  let p ← (lines.zipIdx 1).foldlM addLine start
  pure p.table

/-- Read bytes. -/
def read (bytes : List UInt8) : Except MappingFault MappingTable :=
  readLines (Text.fileLines bytes)

/-- Read a file. -/
def ofFile : File → Except MappingFault MappingTable := File.readWith read

end StableNaming.Matches
