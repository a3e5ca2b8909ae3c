import StableNaming.Collection.Dictionary
import StableNaming.Descriptor.Renaming
import StableNaming.Mapping.Counters
import StableNaming.Symbol.MemberRef

/-!
# Mapping tables

A table answers, for the classes and members of one namespace, what they are
called in another. A table has at most one entry per symbol, and a table whose
entries contradict those of another cannot be merged with it. The identity
answers every question with the question.
-/

namespace StableNaming

/-- Names of one namespace in terms of another. -/
structure MappingTable where
  /-- The namespace of the questions. -/
  source : String
  /-- The namespace of the answers. -/
  target : String
  /-- Whether every answer is the question. -/
  identity : Bool := false
  /-- Classes. -/
  classes : Dictionary String String := .empty
  /-- Fields. -/
  fields : Dictionary MemberRef MemberRef := .empty
  /-- Methods. -/
  methods : Dictionary MemberRef MemberRef := .empty
  /-- The counters that belong to the names. -/
  counters : Counters := {}
  deriving Repr, DecidableEq, Inhabited

namespace MappingTable

/-- The table that answers every question with the question. -/
def theIdentity : MappingTable := { source := "", target := "", identity := true }

/-- The entries for one kind of members. -/
def members (t : MappingTable) : MemberKind → Dictionary MemberRef MemberRef
  | .field => t.fields
  | .method => t.methods

/-- Replace the entries for one kind of members. -/
def withMembers (t : MappingTable) (kind : MemberKind)
    (entries : Dictionary MemberRef MemberRef) : MappingTable :=
  match kind with
  | .field => { t with fields := entries }
  | .method => { t with methods := entries }

/-! ## Lookup -/

/-- What a class is called. -/
def classTarget? (t : MappingTable) (name : String) : Option String :=
  if t.identity then some name else t.classes.find? name

/-- What a member is called. -/
def memberTarget? (t : MappingTable) (kind : MemberKind) (ref : MemberRef) : Option MemberRef :=
  if t.identity then some ref else (t.members kind).find? ref

/-- What a class is called; the name itself if the table does not know it. -/
def renameClass (t : MappingTable) (name : String) : String := (t.classTarget? name).getD name

/-- A descriptor in terms of the target namespace. -/
def mapDescriptor (t : MappingTable) (desc : String) : String :=
  if t.identity then desc else Descriptor.rename t.classes.find? desc

/-! ## Insertion -/

/-- Add an entry for a class that has none. -/
def insertClass (t : MappingTable) (name target : String) : Except MappingFault MappingTable :=
  match t.classes.insertNew? name target with
  | some classes => .ok { t with classes }
  | none => .error (.duplicateEntry .type name)

/-- Add an entry for a member that has none. -/
def insertMember (t : MappingTable) (kind : MemberKind) (ref target : MemberRef) :
    Except MappingFault MappingTable :=
  match (t.members kind).insertNew? ref target with
  | some entries => .ok (t.withMembers kind entries)
  | none => .error (.duplicateEntry kind.symbol ref.text)

/-! ## Merging -/

/-- Add entries to a dictionary; an entry that contradicts a known one is a fault. -/
def mergeEntries {κ α : Type} [DecidableEq κ] [DecidableEq α] (fault : κ → MappingFault)
    (known : Dictionary κ α) : List (κ × α) → Except MappingFault (Dictionary κ α)
  | [] => .ok known
  | (k, a) :: rest =>
    match known.find? k with
    | some b => if b = a then mergeEntries fault known rest else .error (fault k)
    | none => mergeEntries fault (known.insert k a) rest

/-- The table as it appears in reports. -/
def describe (t : MappingTable) : String :=
  if t.identity then "identity" else t.source ++ " -> " ++ t.target

/-- Add the entries of another table between the same namespaces. -/
def merge (t other : MappingTable) : Except MappingFault MappingTable := do
  if t.identity || other.identity || t.source != other.source || t.target != other.target then
    throw (.namespaceMismatch t.describe other.describe)
  let contradiction (kind : SymbolKind) (symbol : String) : MappingFault :=
    .duplicateEntry kind symbol
  let classes ← mergeEntries (contradiction .type) t.classes other.classes.entries
  let fields ←
    mergeEntries (fun ref => contradiction .field ref.text) t.fields other.fields.entries
  let methods ←
    mergeEntries (fun ref => contradiction .method ref.text) t.methods other.methods.entries
  pure { t with classes, fields, methods, counters := t.counters.merge other.counters }

end MappingTable

end StableNaming
