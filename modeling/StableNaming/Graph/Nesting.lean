import StableNaming.Graph.Basic

/-!
# Nesting

Every class has at most one container. A class is moved under the class that
declares or encloses it, unless that class is nested in it already; so following
containers never leads back.
-/

namespace StableNaming.ClassGraph

/-- The containers of a class from the inside out, at most `fuel` of them. -/
def containersFrom (g : ClassGraph) : Nat → ClassId → List ClassId
  | 0, _ => []
  | fuel + 1, id =>
    match (g.classAt id).outer with
    | none => []
    | some outer => outer :: g.containersFrom fuel outer

/-- The containers of a class, from the inside out. -/
def containers (g : ClassGraph) (id : ClassId) : List ClassId := g.containersFrom g.size id

/-- Whether `id` is `ancestor` or nested in it at any depth. -/
def isNestedIn (g : ClassGraph) (id ancestor : ClassId) : Bool :=
  id == ancestor || (g.containers id).contains ancestor

/-- Change one class. -/
def modifyClass (g : ClassGraph) (id : ClassId) (f : ClassSymbol → ClassSymbol) : ClassGraph :=
  { g with classes := g.classes.modify id f }

/-- Move a class under a container, as the last of its inner classes. -/
def moveUnder (g : ClassGraph) (id outer : ClassId) : ClassGraph :=
  let current := (g.classAt id).outer
  if current = some outer then g
  else
    let released :=
      match current with
      | some old => g.modifyClass old fun c => { c with inner := c.inner.filter (· ≠ id) }
      | none => g
    let moved := released.modifyClass id fun c => { c with outer := some outer }
    moved.modifyClass outer fun c => { c with inner := c.inner ++ [id] }

/-- The container that a class claims: the class that declares it, or else the one that
encloses it. -/
def claimedContainer? (c : ClassSymbol) : Option String :=
  c.declaring.or (c.enclosure.map Enclosure.className)

/-- Move a class under the container that it claims, where that is possible. -/
def nest (g : ClassGraph) (id : ClassId) : ClassGraph :=
  match (claimedContainer? (g.classAt id)).bind g.idOf? with
  | none => g
  | some outer => if g.isNestedIn outer id then g else g.moveUnder id outer

/-- Move all classes under the containers that they claim, in order of discovery. -/
def nestAll (g : ClassGraph) : ClassGraph := g.ids.foldl nest g

end StableNaming.ClassGraph
