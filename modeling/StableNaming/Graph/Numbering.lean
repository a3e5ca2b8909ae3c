import StableNaming.Graph.Basic
import Std.Data.TreeMap

/-!
# Numbers of classes by name

A table that answers each name with the number of the last class that has it,
as looking through the classes does.
-/

namespace StableNaming.ClassGraph

/-- Enter classes into a table, with numbers from `first` on. -/
def numberFrom (first : ClassId) (table : Std.TreeMap String ClassId) :
    List ClassSymbol → Std.TreeMap String ClassId
  | [] => table
  | c :: cs => numberFrom (first + 1) (table.insert c.name first) cs

/-- Of classes with one name the last one counts. -/
theorem getElem?_numberFrom (first : ClassId) (table : Std.TreeMap String ClassId)
    (cs : List ClassSymbol) (name : String) :
    (numberFrom first table cs)[name]? =
      ((lastIndex? (fun c => c.name = name) cs).map (· + first)).or table[name]? := by
  induction cs generalizing first table with
  | nil => rfl
  | cons c cs ih =>
    rw [numberFrom, ih, Std.TreeMap.getElem?_insert, lastIndex?]
    cases lastIndex? (fun c => decide (c.name = name)) cs with
    | some i => simp [Nat.add_assoc, Nat.add_comm 1]
    | none => by_cases h : c.name = name <;> simp [h]

/-- The numbers of all classes by name. -/
def numbering (g : ClassGraph) : Std.TreeMap String ClassId :=
  numberFrom 0 ∅ g.classes.toList

/-- The table answers as looking through the classes does. -/
theorem getElem?_numbering (g : ClassGraph) (name : String) :
    g.numbering[name]? = g.idOf? name := by
  simp [numbering, getElem?_numberFrom, idOf?]

end StableNaming.ClassGraph
