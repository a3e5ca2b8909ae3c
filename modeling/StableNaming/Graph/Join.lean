import StableNaming.Graph.Family

/-!
# Joined methods

What joining comes to, told of all families at once: the classes of an override
family hold one and the same method, the one that the first of them by name
declares, and that method lists the names of the family.
-/

namespace StableNaming.ClassGraph

/-- The families of all methods that each class holds, by class number. -/
def families (g : ClassGraph) : Array (KeyMap (List ClassId)) :=
  let h := g.hierarchy
  g.classes.mapIdx fun id c => c.methods.mapValues fun key _ => h.family id key

/-- The family under a key of a class in a table of families. -/
def familyIn (table : Array (KeyMap (List ClassId))) (id : ClassId) (key : MemberKey) :
    List ClassId :=
  (table[id]?.bind (·.find? key)).getD []

/-- The method that a class holds under a key after joining, where it holds `own` now. -/
def joinedSlot (g : ClassGraph) (key : MemberKey) (own : MethodId) (family : List ClassId) :
    MethodId :=
  match family with
  | first :: _ :: _ => (g.slot? first key).getD own
  | _ => own

/-- The names to list with a method: those of its family, if it is the method that the
first class of a family of several holds. -/
def joinedNames (g : ClassGraph) (table : Array (KeyMap (List ClassId))) (id : MethodId)
    (m : MethodSymbol) : List String :=
  match g.idOf? m.owner with
  | none => []
  | some owner =>
    match familyIn table owner m.key with
    | first :: second :: rest =>
      if first = owner ∧ g.slot? owner m.key = some id then
        (first :: second :: rest).map g.nameAt
      else []
    | _ => []

/-- Let all classes of a family share one method. -/
def join (g : ClassGraph) : ClassGraph :=
  let table := g.families
  let joinClass (id : ClassId) (c : ClassSymbol) : ClassSymbol :=
    { c with
      methods := c.methods.mapValues fun key own => g.joinedSlot key own (familyIn table id key) }
  let joinMethod (id : MethodId) (m : MethodSymbol) : MethodSymbol :=
    { m with related := g.joinedNames table id m }
  { classes := g.classes.mapIdx joinClass, methods := g.methods.mapIdx joinMethod }

end StableNaming.ClassGraph
