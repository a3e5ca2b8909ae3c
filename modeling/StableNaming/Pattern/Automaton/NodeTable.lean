import Std.Data.TreeMap

/-!
# Tables of nodes

While a set of characters is laid down, a node that is like an earlier one is not
laid down again. The nodes are kept in a table with a fixed number of places. The
place of a node follows from its description alone, and a node that comes to an
occupied place drives the other one out. A node that was driven out is not found
again.
-/

namespace StableNaming.Automaton

/-- A table of nodes. -/
structure NodeTable where
  /-- The number of places. -/
  size : Nat
  /-- The nodes at their places: descriptions and numbers. -/
  places : Std.TreeMap Nat (List Nat × Nat) := ∅

namespace NodeTable

/-- Mix a description into a word: the numbers are taken in one by one, each followed by a
multiplication. -/
def mix (word : UInt64) : List Nat → UInt64
  | [] => word
  | n :: ns => mix ((word ^^^ n.toUInt64) * 0x100000001b3) ns

/-- The place of a node. -/
def place (t : NodeTable) (description : List Nat) : Nat :=
  (mix 0xcbf29ce484222325 description).toNat % t.size

/-- The number of a node, if it is in the table. -/
def find? (t : NodeTable) (description : List Nat) : Option Nat :=
  match t.places[t.place description]? with
  | some (d, number) => if d = description then some number else none
  | none => none

/-- Put a node at its place. -/
def insert (t : NodeTable) (description : List Nat) (number : Nat) : NodeTable :=
  { t with places := t.places.insert (t.place description) (description, number) }

end NodeTable

end StableNaming.Automaton
