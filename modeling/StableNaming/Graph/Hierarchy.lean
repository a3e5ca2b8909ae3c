import StableNaming.Graph.Numbering
import StableNaming.Graph.Search

/-!
# The hierarchy of a graph

The edges between classes, with all names resolved to numbers once, so that
walks need not look names up. What is kept agrees with the graph, so nothing
depends on where a hierarchy comes from.
-/

namespace StableNaming

/-- The edges of a graph, by class number. -/
structure Hierarchy (g : ClassGraph) where
  /-- The numbers of classes by name. -/
  numbers : Std.TreeMap String ClassId
  /-- The supertypes of each class. -/
  up : Array (List ClassId)
  /-- The subtypes of each class. -/
  down : Array (List ClassId)
  /-- The numbers are those of the graph. -/
  numbers_eq : ∀ name, numbers[name]? = g.idOf? name
  /-- The supertypes are those of the graph. -/
  up_eq : ∀ id, up[id]?.getD [] = g.supertypes id
  /-- The subtypes are those of the graph. -/
  down_eq : ∀ id, down[id]?.getD [] = g.subtypes id

namespace ClassGraph

variable (g : ClassGraph)

/-- The classes with the given names, for each class; a number without a class has none. -/
theorem getD_filterMap_numbering (names : ClassSymbol → List String)
    (hnames : names default = []) (id : ClassId) :
    (g.classes.map fun c => (names c).filterMap (g.numbering[·]?))[id]?.getD [] =
      (names (g.classAt id)).filterMap g.idOf? := by
  simp only [getElem?_numbering, Array.getElem?_map, classAt]
  cases g.classes[id]? <;> simp [hnames]

/-- The hierarchy of the graph. -/
def hierarchy : Hierarchy g :=
  let numbers := g.numbering
  { numbers
    up := g.classes.map fun c => c.supertypeNames.filterMap (numbers[·]?)
    down := g.classes.map fun c => c.subtypeNames.filterMap (numbers[·]?)
    numbers_eq := g.getElem?_numbering
    up_eq := g.getD_filterMap_numbering ClassSymbol.supertypeNames rfl
    down_eq := g.getD_filterMap_numbering ClassSymbol.subtypeNames rfl }

end ClassGraph

namespace Hierarchy

variable {g : ClassGraph} (h : Hierarchy g)

/-- The number of the class with a name; of several the last. -/
def idOf? (name : String) : Option ClassId := h.numbers[name]?

@[simp] theorem idOf?_eq : h.idOf? = g.idOf? := funext h.numbers_eq

/-- The super class followed by the interfaces. -/
def supertypes (id : ClassId) : List ClassId := h.up[id]?.getD []

/-- The subclasses followed by the implementers. -/
def subtypes (id : ClassId) : List ClassId := h.down[id]?.getD []

@[simp] theorem supertypes_eq : h.supertypes = g.supertypes := funext h.up_eq

@[simp] theorem subtypes_eq : h.subtypes = g.subtypes := funext h.down_eq

/-- The given classes and everything that they inherit from. -/
def ancestors (ids : List ClassId) : List ClassId := Search.reach h.supertypes g.size ids

/-- The given classes and everything that inherits from them. -/
def descendants (ids : List ClassId) : List ClassId := Search.reach h.subtypes g.size ids

end Hierarchy

end StableNaming
