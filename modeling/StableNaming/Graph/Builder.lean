import StableNaming.Graph.JoinPass
import StableNaming.Graph.RelationPass

/-!
# Building class graphs

A graph grows class file by class file. A class whose name announces a container
is created together with that container. When all class files are in, the edges
of the hierarchy are entered at both ends while classes are nested where their class
files say so, and then the methods of each override family are joined.
-/

namespace StableNaming

/-- A class graph that still grows. -/
structure GraphBuilder where
  /-- What has been added so far. -/
  draft : ClassGraph := {}
  deriving Inhabited

namespace ClassGraph

/-- Add a class that is not known yet, as the last inner class of its container. -/
def addSymbol (g : ClassGraph) (name : String) (outer : Option ClassId) : ClassId × ClassGraph :=
  let id := g.size
  let grown : ClassGraph := { g with classes := g.classes.push { name, outer } }
  match outer with
  | none => (id, grown)
  | some o => (id, grown.modifyClass o fun c => { c with inner := c.inner ++ [id] })

/-- The number of a class. A class that is not known yet is created, after the container
that its name announces. -/
def ensureClass (g : ClassGraph) (name : String) : ClassId × ClassGraph :=
  match g.idOf? name with
  | some id => (id, g)
  | none =>
    match h : containerName? name with
    | none => g.addSymbol name none
    | some container =>
      have := length_containerName_lt h
      let (outer, grown) := g.ensureClass container
      grown.addSymbol name (some outer)
termination_by name.toList.length

/-- Add a class file. A second class file for one class is ignored. -/
def addClass (g : ClassGraph) (file : ClassFile) : ClassId × ClassGraph :=
  let (id, grown) := g.ensureClass file.name
  if (grown.classAt id).loaded then (id, grown)
  else
    let declared := file.methods.map fun m => { toMember := m, owner := file.name : MethodSymbol }
    let loaded := grown.modifyClass id fun c => c.load file grown.methods.size
    (id, { loaded with methods := loaded.methods ++ declared.toArray })

end ClassGraph

namespace GraphBuilder

/-- The number of a class, which is created if need be. -/
def ensureClass (b : GraphBuilder) (name : String) : ClassId × GraphBuilder :=
  let (id, draft) := b.draft.ensureClass name
  (id, { draft })

/-- Add a class file. -/
def addClass (b : GraphBuilder) (file : ClassFile) : ClassId × GraphBuilder :=
  let (id, draft) := b.draft.addClass file
  (id, { draft })

/-- The finished graph. -/
def finish (b : GraphBuilder) : ClassGraph := b.draft.relationPass.joinPass

/-- The graph of a list of class files. -/
def build (files : List ClassFile) : ClassGraph :=
  (files.foldl (fun (b : GraphBuilder) file => (b.addClass file).2) {}).finish

end GraphBuilder

end StableNaming
