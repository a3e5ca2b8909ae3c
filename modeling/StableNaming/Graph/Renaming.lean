import StableNaming.Graph.Basic
import StableNaming.Mapping.Table

/-!
# Renaming a graph

A table renames all classes, members, descriptors and edges of a graph. What the
table does not know keeps its name. A shared method is looked up at the class
that declares it first, and then at the other classes of its family. Numbers,
nesting and sharing stay.
-/

namespace StableNaming.ClassGraph

/-- The name that the table gives to a member, by its key. -/
def renamedKey (t : MappingTable) (kind : MemberKind) (owners : List String)
    (key : MemberKey) : MemberKey :=
  let found := owners.findSome? fun owner => t.memberTarget? kind ⟨owner, key⟩
  ⟨found.elim key.name (·.key.name), t.mapDescriptor key.desc⟩

/-- Rename a method. -/
def renameMethod (t : MappingTable) (m : MethodSymbol) : MethodSymbol :=
  { m with
    key := renamedKey t .method (m.owner :: m.related) m.key
    owner := t.renameClass m.owner
    related := m.related.map t.renameClass }

/-- Rename a field of a class. -/
def renameField (t : MappingTable) (owner : String) (m : Member) : Member :=
  { m with key := renamedKey t .field [owner] m.key }

/-- Rename the place where a class is defined. -/
def renameEnclosure (t : MappingTable) (e : Enclosure) : Enclosure where
  className := t.renameClass e.className
  method := e.method.map (renamedKey t .method [e.className])

/-- Rename a class, given the renamed methods. -/
def renameClass (t : MappingTable) (methods : Array MethodSymbol) (c : ClassSymbol) :
    ClassSymbol :=
  let fields := c.fields.values.map (renameField t c.name)
  { c with
    name := t.renameClass c.name
    superName := c.superName.map t.renameClass
    interfaces := c.interfaces.map t.renameClass
    subclasses := c.subclasses.map t.renameClass
    implementers := c.implementers.map t.renameClass
    declaring := c.declaring.map t.renameClass
    enclosure := c.enclosure.map (renameEnclosure t)
    fields := .ofList (fields.map fun m => (m.key, m))
    methods := .ofList (c.methods.entries.map fun (key, id) =>
      ((methods[id]?.map (·.key)).getD key, id)) }

/-- Rename everything in the graph. -/
def rename (g : ClassGraph) (t : MappingTable) : ClassGraph :=
  let methods := g.methods.map (renameMethod t)
  { classes := g.classes.map (renameClass t methods), methods }

end StableNaming.ClassGraph
