import StableNaming.Graph.Symbol
import StableNaming.Collection.Sorting

/-!
# Class graphs

Lookup by number and by name, and the edges of the hierarchy resolved to
numbers. Names that are not in the graph resolve to nothing.
-/

namespace StableNaming

/-- Classes and methods by number. -/
structure ClassGraph where
  /-- The classes, in the order of their discovery. -/
  classes : Array ClassSymbol := #[]
  /-- The methods, in the order in which class files declare them. -/
  methods : Array MethodSymbol := #[]
  deriving Repr, DecidableEq, Inhabited

/-- The index of the last element that satisfies `p`. -/
def lastIndex? {α : Type} (p : α → Bool) : List α → Option Nat
  | [] => none
  | x :: xs =>
    match lastIndex? p xs with
    | some i => some (i + 1)
    | none => if p x then some 0 else none

/-- The last index depends only on where the condition holds. -/
theorem lastIndex?_congr {α : Type} {p : α → Bool} {xs ys : List α} (h : xs.map p = ys.map p) :
    lastIndex? p xs = lastIndex? p ys := by
  induction xs generalizing ys with
  | nil =>
    rw [List.map_nil, eq_comm, List.map_eq_nil_iff] at h
    rw [h]
  | cons x xs ih =>
    cases ys with
    | nil => cases h
    | cons y ys =>
      obtain ⟨hhead, htail⟩ := List.cons.inj h
      rw [lastIndex?, lastIndex?, ih htail, hhead]

namespace ClassGraph

variable (g : ClassGraph)

/-- How many classes there are. -/
def size : Nat := g.classes.size

/-- The numbers of all classes. -/
def ids : List ClassId := List.range g.size

/-- The class with a number; numbers out of range give a nameless empty class. -/
def classAt (id : ClassId) : ClassSymbol := g.classes[id]?.getD default

/-- The name of a class. -/
def nameAt (id : ClassId) : String := (g.classAt id).name

/-- The number of the class with a name; of several the last. -/
def idOf? (name : String) : Option ClassId :=
  lastIndex? (fun c => c.name = name) g.classes.toList

/-- The class with a name. -/
def find? (name : String) : Option ClassSymbol := (g.idOf? name).map g.classAt

/-- The method with a number. -/
def methodAt? (id : MethodId) : Option MethodSymbol := g.methods[id]?

/-- The number of the method that a class holds under a key. -/
def slot? (id : ClassId) (key : MemberKey) : Option MethodId :=
  (g.classAt id).methods.find? key

/-- The method that a class holds under a key. -/
def methodIn? (id : ClassId) (key : MemberKey) : Option MethodSymbol :=
  (g.slot? id key).bind g.methodAt?

/-- Whether a class holds a method under a key. -/
def declares (id : ClassId) (key : MemberKey) : Bool := (g.slot? id key).isSome

/-- Classes ordered by name. -/
def sortByName (ids : List ClassId) : List ClassId := Collection.sortOn g.nameAt ids

/-- The super class, if it is in the graph. -/
def superId? (id : ClassId) : Option ClassId := (g.classAt id).superName.bind g.idOf?

/-- The interfaces that are in the graph. -/
def interfaceIds (id : ClassId) : List ClassId := (g.classAt id).interfaces.filterMap g.idOf?

/-- The super class followed by the interfaces. -/
def supertypes (id : ClassId) : List ClassId := (g.classAt id).supertypeNames.filterMap g.idOf?

/-- The subclasses followed by the implementers. -/
def subtypes (id : ClassId) : List ClassId := (g.classAt id).subtypeNames.filterMap g.idOf?

/-- The contained classes, ordered by name. -/
def innerClasses (id : ClassId) : List ClassId := g.sortByName (g.classAt id).inner

/-- The classes without a container, ordered by name; of several with one name the last. -/
def topLevel : List ClassId :=
  let isTop (id : ClassId) : Bool :=
    let name := g.nameAt id
    (g.classAt id).outer.isNone &&
      lastIndex? (fun c => c.outer.isNone && c.name = name) g.classes.toList == some id
  g.sortByName (g.ids.filter isTop)

end ClassGraph

end StableNaming
