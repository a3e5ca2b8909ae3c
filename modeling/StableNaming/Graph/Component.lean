import StableNaming.Graph.Hierarchy

/-!
# Components of the hierarchy

The component of a class holds every class that is connected to it by edges of
the hierarchy, taken in any direction.
-/

namespace StableNaming

/-- A connected part of the hierarchy. -/
structure Component where
  /-- Its classes in the order of a breadth-first walk. -/
  classes : List ClassId
  /-- Those without a supertype in the graph. -/
  topmost : List ClassId
  /-- Those without a subtype in the graph. -/
  leaves : List ClassId
  deriving Repr, DecidableEq

/-- The component of a class. -/
def Hierarchy.component {g : ClassGraph} (h : Hierarchy g) (seed : ClassId) : Component :=
  let classes := Search.reach (fun x => h.supertypes x ++ h.subtypes x) g.size [seed]
  { classes
    topmost := classes.filter fun x => (h.supertypes x).isEmpty
    leaves := classes.filter fun x => (h.subtypes x).isEmpty }

/-- Whether a class belongs to the component. -/
def Component.contains (c : Component) (id : ClassId) : Bool := c.classes.contains id

end StableNaming
