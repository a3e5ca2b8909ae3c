import StableNaming.Graph.Nesting

/-!
# The relation pass

Class after class, in order of discovery, the relation pass enters the edges that lead up from the
class at their upper ends, and moves the class under the container that it claims. References to
names that are not in the graph are dropped. What the edges come to, told of all classes at once,
is `relate`.
-/

namespace StableNaming

/-- Put a name at the end of a list, unless the list has it. -/
def addName (names : List String) (name : String) : List String :=
  if names.contains name then names else names ++ [name]

namespace ClassGraph

/-- List a name with the subclasses of a class. -/
def addSubclass (g : ClassGraph) (name : String) (upper : ClassId) : ClassGraph :=
  g.modifyClass upper fun c => { c with subclasses := addName c.subclasses name }

/-- List a name with the implementers of a class. -/
def addImplementer (g : ClassGraph) (name : String) (upper : ClassId) : ClassGraph :=
  g.modifyClass upper fun c => { c with implementers := addName c.implementers name }

/-- Enter the edges that lead up from a class, where `find` answers for the names of classes. -/
def enterEdges (g : ClassGraph) (find : String → Option ClassId) (id : ClassId) : ClassGraph :=
  let c := g.classAt id
  let extended :=
    match c.superName.bind find with
    | none => g
    | some upper => g.addSubclass c.name upper
  (c.interfaces.filterMap find).foldl (·.addImplementer c.name) extended

/-- Enter the edges of a class and nest it. -/
def relateClass (g : ClassGraph) (id : ClassId) : ClassGraph := (g.enterEdges g.idOf? id).nest id

/-- Enter the edges of all classes and nest them, in order of discovery. -/
def relationPass (g : ClassGraph) : ClassGraph := g.ids.foldl relateClass g

/-- Enter the edges of the hierarchy at their upper ends, in order of discovery. -/
def relate (g : ClassGraph) : ClassGraph :=
  let namesOf (p : ClassSymbol → Bool) : List String :=
    (g.classes.toList.filter p).map ClassSymbol.name
  { g with
    classes := g.classes.map fun c =>
      { c with
        subclasses := namesOf fun d => d.superName == some c.name
        implementers := namesOf fun d => d.interfaces.contains c.name } }

end ClassGraph

end StableNaming
