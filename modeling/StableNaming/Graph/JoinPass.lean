import StableNaming.Graph.Component
import StableNaming.Graph.Family
import StableNaming.Graph.Nesting

/-!
# The join pass

Methods are joined class by class: component after component, and by name inside a
component. The first class that comes up with a method of a family gives its own to
all classes of the family. While this goes on the graph is joined in part, and
families are read off that graph.
-/

namespace StableNaming

namespace ClassGraph

/-- Let a class hold a method under a key. -/
def setSlot (g : ClassGraph) (id : ClassId) (key : MemberKey) (method : MethodId) : ClassGraph :=
  g.modifyClass id fun c => { c with methods := c.methods.insert key method }

/-- List names with a method. -/
def setRelated (g : ClassGraph) (method : MethodId) (names : List String) : ClassGraph :=
  { g with methods := g.methods.modify method fun m => { m with related := names } }

section SetSlot

variable (g : ClassGraph) (id : ClassId) (key : MemberKey) (method : MethodId)

/-- What does not depend on methods is read off the classes as before. -/
theorem map_setSlot {α : Type} (read : ClassSymbol → α)
    (hread : ∀ c methods, read { c with methods } = read c) :
    (g.setSlot id key method).classes.map read = g.classes.map read := by
  refine Array.ext_getElem? fun i => ?_
  rw [setSlot, modifyClass, Array.getElem?_map, Array.getElem?_map, Array.getElem?_modify]
  split
  · cases g.classes[i]? with
    | none => rfl
    | some c => exact congrArg some (hread c _)
  · rfl

theorem read_classAt_setSlot {α : Type} (read : ClassSymbol → α)
    (hread : ∀ c methods, read { c with methods } = read c) (x : ClassId) :
    read ((g.setSlot id key method).classAt x) = read (g.classAt x) := by
  have hreads := congrArg (·[x]?) (g.map_setSlot id key method read hread)
  simp only [Array.getElem?_map] at hreads
  rw [classAt, classAt]
  cases hnew : (g.setSlot id key method).classes[x]? with
  | none =>
    rw [hnew, Option.map_none, eq_comm, Option.map_eq_none_iff] at hreads
    rw [hreads]
  | some c =>
    rw [hnew, Option.map_some, eq_comm, Option.map_eq_some_iff] at hreads
    obtain ⟨old, hold, hsame⟩ := hreads
    rw [hold]
    exact hsame.symm

theorem idOf?_setSlot : (g.setSlot id key method).idOf? = g.idOf? := by
  funext name
  have hnames := congrArg Array.toList (g.map_setSlot id key method
    (fun c => decide (c.name = name)) fun _ _ => rfl)
  rw [Array.toList_map, Array.toList_map] at hnames
  exact lastIndex?_congr hnames

theorem supertypes_setSlot : (g.setSlot id key method).supertypes = g.supertypes := by
  funext x
  rw [supertypes, supertypes, idOf?_setSlot,
    g.read_classAt_setSlot id key method ClassSymbol.supertypeNames fun _ _ => rfl]

theorem subtypes_setSlot : (g.setSlot id key method).subtypes = g.subtypes := by
  funext x
  rw [subtypes, subtypes, idOf?_setSlot,
    g.read_classAt_setSlot id key method ClassSymbol.subtypeNames fun _ _ => rfl]

end SetSlot

end ClassGraph

namespace Hierarchy

variable {g : ClassGraph} (h : Hierarchy g)

/-- The hierarchy after a class has been given another method. -/
def setSlot (id : ClassId) (key : MemberKey) (method : MethodId) :
    Hierarchy (g.setSlot id key method) where
  numbers := h.numbers
  up := h.up
  down := h.down
  numbers_eq name := by rw [h.numbers_eq, ClassGraph.idOf?_setSlot]
  up_eq x := by rw [h.up_eq, ClassGraph.supertypes_setSlot]
  down_eq x := by rw [h.down_eq, ClassGraph.subtypes_setSlot]

/-- The hierarchy after names have been listed with a method. -/
def setRelated (method : MethodId) (names : List String) :
    Hierarchy (g.setRelated method names) where
  numbers := h.numbers
  up := h.up
  down := h.down
  numbers_eq := h.numbers_eq
  up_eq := h.up_eq
  down_eq := h.down_eq

end Hierarchy

/-- What the join pass works on. -/
structure JoinState where
  /-- The graph, joined as far as the pass has come. -/
  graph : ClassGraph
  /-- Its hierarchy. -/
  hierarchy : Hierarchy graph
  /-- The methods that have been dealt with. -/
  visited : NumberSet := .empty

namespace JoinState

/-- Let a class that holds some method under a key hold the given one. -/
def share (s : JoinState) (key : MemberKey) (method : MethodId) (id : ClassId) : JoinState :=
  match s.graph.slot? id key with
  | none => s
  | some slot =>
    if slot = method then s
    else
      { graph := s.graph.setSlot id key method
        hierarchy := s.hierarchy.setSlot id key method
        visited := s.visited.insert slot }

/-- Deal with a method of a class: if its family has several classes, let all of them hold it, and
list their names with it. -/
def joinMethod (s : JoinState) (id : ClassId) (slot : MemberKey × MethodId) : JoinState :=
  if s.visited.contains slot.2 then s
  else
    let family := s.hierarchy.family id slot.1
    let names := family.map s.graph.nameAt
    let marked := { s with visited := s.visited.insert slot.2 }
    if family.length < 2 then marked
    else
      let shared := family.foldl (·.share slot.1 slot.2) marked
      { shared with
        graph := shared.graph.setRelated slot.2 names
        hierarchy := shared.hierarchy.setRelated slot.2 names }

/-- Deal with all methods that a class holds. -/
def joinClass (s : JoinState) (id : ClassId) : JoinState :=
  (s.graph.classAt id).methods.entries.foldl (·.joinMethod id) s

/-- Deal with the component of a class, unless it has been traversed before. A class without
relatives needs no joining. -/
def joinFrom (p : JoinState × NumberSet) (seed : ClassId) : JoinState × NumberSet :=
  if p.2.contains seed then p
  else
    let tree := (p.1.hierarchy.component seed).classes
    let traversed := tree.foldl NumberSet.insert p.2
    if tree.length = 1 then (p.1, traversed)
    else ((p.1.graph.sortByName tree).foldl joinClass p.1, traversed)

end JoinState

/-- Let all classes of a family share one method, family after family. -/
def ClassGraph.joinPass (g : ClassGraph) : ClassGraph :=
  (g.ids.foldl JoinState.joinFrom ({ graph := g, hierarchy := g.hierarchy }, .empty)).1.graph

end StableNaming
