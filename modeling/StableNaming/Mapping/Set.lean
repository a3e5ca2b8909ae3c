import StableNaming.Mapping.Table

/-!
# Mapping sets

The names given to the classes of a graph, class by class with the members of
each. A set is written to a file; its table answers questions.
-/

namespace StableNaming

/-- The name given to a member. -/
structure MemberEntry where
  /-- The member. -/
  key : MemberKey
  /-- Its name in the target namespace. -/
  target : String
  deriving Repr, DecidableEq, Inhabited

/-- The name given to a class, and those given to its members. -/
structure ClassEntry where
  /-- The class. -/
  name : String
  /-- Its name in the target namespace. -/
  target : String
  /-- Its fields. -/
  fields : List MemberEntry := []
  /-- Its methods. -/
  methods : List MemberEntry := []
  deriving Repr, DecidableEq, Inhabited

/-- Names from one namespace to another. -/
structure MappingSet where
  /-- The namespace of the symbols. -/
  source : String
  /-- The namespace of the given names. -/
  target : String
  /-- The counters after the last name was given. -/
  counters : Counters := {}
  /-- The classes in the order in which they were named. -/
  classes : List ClassEntry := []
  deriving Repr, DecidableEq, Inhabited

namespace MappingSet

/-- The first entry of a class. -/
def find? (s : MappingSet) (name : String) : Option ClassEntry :=
  s.classes.find? fun entry => entry.name == name

/-- How many members have entries. -/
def memberCount (s : MappingSet) : Nat :=
  s.classes.foldl (fun n entry => n + entry.fields.length + entry.methods.length) 0

/-- Add the entry of a member to a table that knows the classes. -/
def insertMember (entry : ClassEntry) (kind : MemberKind) (t : MappingTable)
    (m : MemberEntry) : Except MappingFault MappingTable :=
  t.insertMember kind ⟨entry.name, m.key⟩
    ⟨entry.target, ⟨m.target, t.mapDescriptor m.key.desc⟩⟩

/-- Add the entries of the members of a class. -/
def insertMembers (t : MappingTable) (entry : ClassEntry) : Except MappingFault MappingTable := do
  let t ← entry.fields.foldlM (insertMember entry .field) t
  entry.methods.foldlM (insertMember entry .method) t

/-- The table of a set. The classes come first, so that the descriptors of members can be
given in the target namespace. -/
def toTable (s : MappingSet) : Except MappingFault MappingTable := do
  let fresh : MappingTable := { source := s.source, target := s.target }
  let t ← s.classes.foldlM (fun (t : MappingTable) entry => t.insertClass entry.name entry.target)
    fresh
  let t ← s.classes.foldlM insertMembers t
  pure { t with counters := t.counters.merge s.counters }

end MappingSet

end StableNaming
