import StableNaming.Graph.Builder
import StableNaming.Graph.Renaming
import Std.Data.TreeMap

/-!
# Graphs with tables

The lookups of a class by its name and of the classes without a container read tables, which are
kept beside the graph and changed with it: a class enters them when it is created, it leaves the
table of the top level when it is moved under a container, and both tables are filled anew when the
graph is renamed. Apart from its tables a graph with tables grows as the graph does.
-/

namespace StableNaming

/-- A class graph and its tables. -/
structure IndexedGraph where
  /-- The graph. -/
  graph : ClassGraph := {}
  /-- The numbers of the classes, by name. -/
  byName : Std.TreeMap String ClassId := ∅
  /-- The numbers of the classes without a container, by name. -/
  topLevel : Std.TreeMap String ClassId := ∅
  deriving Inhabited

/-- A call on a graph that is being built. -/
inductive BuilderCall where
  /-- Add a class file. -/
  | file (file : ClassFile)
  /-- Find a class, or create it. -/
  | name (name : String)
  deriving Repr, DecidableEq, Inhabited

namespace IndexedGraph

variable (ix : IndexedGraph)

/-- The number of the class with a name. -/
def idOf? (name : String) : Option ClassId := ix.byName[name]?

/-- The classes without a container, ordered by name. -/
def topLevelIds : List ClassId := ix.topLevel.toList.map (·.2)

/-- Add a class that is not known yet, as the last inner class of its container. -/
def addSymbol (name : String) (outer : Option ClassId) : ClassId × IndexedGraph :=
  let (id, graph) := ix.graph.addSymbol name outer
  (id,
    { graph
      byName := ix.byName.insert name id
      topLevel := if outer.isNone then ix.topLevel.insert name id else ix.topLevel })

/-- The number of a class. A class that is not known yet is created, after the container
that its name announces. -/
def ensureClass (ix : IndexedGraph) (name : String) : ClassId × IndexedGraph :=
  match ix.idOf? name with
  | some id => (id, ix)
  | none =>
    match h : containerName? name with
    | none => ix.addSymbol name none
    | some container =>
      have := length_containerName_lt h
      let (outer, grown) := ix.ensureClass container
      grown.addSymbol name (some outer)
termination_by name.toList.length

/-- Add a class file. A second class file for one class is ignored. -/
def addClass (file : ClassFile) : ClassId × IndexedGraph :=
  let (id, grown) := ix.ensureClass file.name
  if (grown.graph.classAt id).loaded then (id, grown)
  else
    let declared := file.methods.map fun m => { toMember := m, owner := file.name : MethodSymbol }
    let loaded := grown.graph.modifyClass id fun c => c.load file grown.graph.methods.size
    (id, { grown with graph := { loaded with methods := loaded.methods ++ declared.toArray } })

/-- Answer a call. -/
def call : BuilderCall → ClassId × IndexedGraph
  | .file file => ix.addClass file
  | .name name => ix.ensureClass name

/-- Move a class under a container, as the last of its inner classes. A class without a container
leaves the top level. -/
def moveUnder (id outer : ClassId) : IndexedGraph :=
  { ix with
    graph := ix.graph.moveUnder id outer
    topLevel :=
      if (ix.graph.classAt id).outer.isNone then ix.topLevel.erase (ix.graph.nameAt id)
      else ix.topLevel }

/-- Move a class under the container that it claims, where that is possible. -/
def nest (id : ClassId) : IndexedGraph :=
  match (ClassGraph.claimedContainer? (ix.graph.classAt id)).bind ix.idOf? with
  | none => ix
  | some outer => if ix.graph.isNestedIn outer id then ix else ix.moveUnder id outer

/-- Enter the edges of a class and nest it. -/
def relateClass (id : ClassId) : IndexedGraph :=
  { ix with graph := ix.graph.enterEdges ix.idOf? id }.nest id

/-- Enter the edges of all classes and nest them, in order of discovery. -/
def relationPass : IndexedGraph := ix.graph.ids.foldl relateClass ix

/-- The finished graph. -/
def finish : IndexedGraph :=
  { ix.relationPass with graph := ix.relationPass.graph.joinPass }

/-- The graph that a sequence of calls builds. -/
def build (calls : List BuilderCall) : IndexedGraph :=
  (calls.foldl (fun (ix : IndexedGraph) c => (ix.call c).2) {}).finish

/-- Enter a class into the tables. -/
def enter (id : ClassId) : IndexedGraph :=
  { ix with
    byName := ix.byName.insert (ix.graph.nameAt id) id
    topLevel :=
      if (ix.graph.classAt id).outer.isNone then ix.topLevel.insert (ix.graph.nameAt id) id
      else ix.topLevel }

/-- Fill both tables anew, in order of discovery. -/
def reindex : IndexedGraph :=
  ix.graph.ids.foldl enter { graph := ix.graph }

/-- Rename everything in the graph. -/
def rename (t : MappingTable) : IndexedGraph :=
  { ix with graph := ix.graph.rename t }.reindex

end IndexedGraph

namespace GraphBuilder

/-- Answer a call. -/
def call (b : GraphBuilder) : BuilderCall → ClassId × GraphBuilder
  | .file file => b.addClass file
  | .name name => b.ensureClass name

/-- Answer a sequence of calls. -/
def calls (cs : List BuilderCall) : GraphBuilder :=
  cs.foldl (fun (b : GraphBuilder) c => (b.call c).2) {}

end GraphBuilder

end StableNaming
