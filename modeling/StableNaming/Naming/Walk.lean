import StableNaming.Graph.Nesting
import StableNaming.Mapping.Set
import StableNaming.Naming.Config
import StableNaming.Naming.Context
import StableNaming.Naming.Heritage
import StableNaming.Naming.Resolver

/-!
# The naming walk

A run visits the classes of a graph, containers before the classes they contain
and otherwise by name. It decides the name of each class, then those of its
fields, then those of the override families that start at it. A name that has
been decided before stays; else a name is carried over if there is one, and made
up if not.
-/

namespace StableNaming

namespace ClassGraph

/-- A class followed by the classes that it contains, at most `fuel` levels deep. -/
def subtreeFrom (g : ClassGraph) : Nat → ClassId → List ClassId
  | 0, _ => []
  | fuel + 1, id => id :: (g.innerClasses id).flatMap (g.subtreeFrom fuel)

/-- All classes: top-level classes by name, each followed by the classes it contains. -/
def walk (g : ClassGraph) : List ClassId := g.topLevel.flatMap (g.subtreeFrom g.size)

end ClassGraph

/-- What a run works on. -/
structure NamingTask where
  /-- The classes to name. -/
  graph : ClassGraph
  /-- Their hierarchy. -/
  hierarchy : Hierarchy graph := graph.hierarchy
  /-- The caller's choices. -/
  config : NamingConfig
  /-- Who decides which symbols need names. -/
  chain : PolicyChain
  /-- Where names are carried over from. -/
  heritage : Heritage

/-- What a run changes. -/
structure NamingState (ρ : Type) where
  /-- Counters and decided names. -/
  context : NamingContext
  /-- The state of the resolver. -/
  resolver : ρ

/-- A step of a run. What it has changed stays also if it fails. -/
abbrev NamingM (ρ : Type) := ExceptT NamingFault (StateM (NamingState ρ))

namespace NamingM

variable {ρ : Type}

/-- The context. -/
def context : NamingM ρ NamingContext := do
  let s ← get
  pure s.context

/-- Change the context. -/
def modifyContext (f : NamingContext → NamingContext) : NamingM ρ Unit :=
  modify fun s => { s with context := f s.context }

/-- Make a new name. -/
def mint (kind : SymbolKind) : NamingM ρ String := do
  match (← context).mint? kind with
  | some (name, context) =>
    modifyContext fun _ => context
    pure name
  | none => throw .overflow

/-- Keep the counter of a kind past the number in a name. -/
def observe (kind : SymbolKind) (name : String) : NamingM ρ Unit := do
  match (← context).pass? kind name with
  | some context => modifyContext fun _ => context
  | none => throw .overflow

/-- Ask the policies. -/
def ask {α : Type} : Except PolicyFault α → NamingM ρ α
  | .ok a => pure a
  | .error fault => throw (.policy fault)

/-- Ask the resolver. -/
def resolve [ConflictResolver ρ] (c : NamingConflict) : NamingM ρ Nat := do
  let s ← get
  let (outcome, resolver) := ConflictResolver.resolve c s.resolver
  set { s with resolver }
  match outcome with
  | .ok index => pure index
  | .error fault => throw fault

end NamingM

namespace NamingTask

open NamingM

variable {ρ : Type} (task : NamingTask)

/-! ## Classes -/

/-- The name of a class that keeps its own, inside its container if it has one. -/
def keptClassName (c : ClassSymbol) (parent : Option String) : String :=
  match parent with
  | some parent => parent ++ "$" ++ c.simpleName
  | none => c.name

/-- What stands in front of the generated name of a class: its container, or else a
package; then the leading digits of the name of a local class. -/
def classNameStart (c : ClassSymbol) (parent : Option String) : String :=
  let place := parent.elim (task.chain.packageFor c) (· ++ "$")
  place ++ if c.isLocal then leadingDigits c.simpleName else ""

/-- The name that is carried over to a class. At the top level it is taken as it is,
unless it is that of a nested class; else only its last segment is, without the digits
of a local class. -/
def carriedClassName (c : ClassSymbol) (parent : Option String) (found : String) : String :=
  if parent.isNone && !found.toList.contains nestingMark then found
  else task.classNameStart c parent ++ dropLeadingDigits (innermostName found)

/-- Decide the name of a class. Anonymous classes keep theirs without asking. -/
def newClassName (c : ClassSymbol) (parent : Option String) : NamingM ρ String := do
  let asked := !(parent.isSome && c.isAnonymous)
  let needed ← if asked then ask (task.chain.needsClassName c) else pure false
  if needed then
    match task.heritage.className? c.name with
    | some found =>
      observe .type found
      pure (task.carriedClassName c parent found)
    | none =>
      let minted ← mint .type
      pure (task.classNameStart c parent ++ minted)
  else
    pure (keptClassName c parent)

/-- The name of a class. The name of its container has been decided before. -/
def classNameFor (c : ClassSymbol) : NamingM ρ String := do
  let context ← context
  match context.classNames.find? c.name with
  | some known => pure known
  | none =>
    let parent := c.outer.bind fun outer => context.classNames.find? (task.graph.nameAt outer)
    let name ← task.newClassName c parent
    modifyContext (·.setClass c.name name)
    pure name

/-! ## Fields -/

/-- The entry of a symbol that keeps its name, if such symbols get entries. -/
def keptEntry (key : MemberKey) : Option MemberEntry :=
  if task.config.writeAll then some ⟨key, key.name⟩ else none

/-- Decide the name of a field. -/
def newFieldName (ref : MemberRef) : NamingM ρ String := do
  match task.heritage.fieldName? ref with
  | some found =>
    observe .field found
    pure found
  | none => mint .field

/-- The name of a field that needs one. -/
def fieldNameFor (ref : MemberRef) : NamingM ρ String := do
  match (← context).fieldNames.find? ref with
  | some known => pure known
  | none =>
    let name ← task.newFieldName ref
    modifyContext (·.setField ref name)
    pure name

/-- The entry of a field. -/
def fieldEntry (c : ClassSymbol) (f : Member) : NamingM ρ (Option MemberEntry) := do
  if ← ask (task.chain.needsFieldName c f) then
    let name ← task.fieldNameFor ⟨c.name, f.key⟩
    pure (some ⟨f.key, name⟩)
  else
    pure (task.keptEntry f.key)

/-! ## Methods -/

/-- The names carried over into a family, class by class. -/
def candidates (family : List ClassId) (key : MemberKey) : Candidates :=
  family.foldl
    (fun found id =>
      let c := task.graph.classAt id
      match task.heritage.methodName? ⟨c.name, key⟩ with
      | some (name, ref) => Candidates.add found name ⟨c.name, c.heading, ref.text⟩
      | none => found)
    .empty

/-- Choose among the candidates for a family; without candidates make up a name. -/
def chooseName [ConflictResolver ρ] (member : MemberRef) (candidates : Candidates) :
    NamingM ρ String := do
  match candidates.keys with
  | [] => mint .method
  | [only] => pure only
  | names =>
    let index ← resolve ⟨member, candidates⟩
    match names[index]? with
    | some name => pure name
    | none => throw (.invalidChoice index names.length)

/-- Decide the name of the family of a method. -/
def newMethodName [ConflictResolver ρ] (member : MemberRef) (family : List ClassId) :
    NamingM ρ String := do
  let candidates := task.candidates family member.key
  candidates.keys.forM (observe .method)
  chooseName member candidates

/-- The name of the family of a method. All classes of the family share it. -/
def methodNameFor [ConflictResolver ρ] (id : ClassId) (key : MemberKey) (method : MethodId) :
    NamingM ρ String := do
  match (← context).methodNames.find? method with
  | some known => pure known
  | none =>
    let family := task.hierarchy.family id key
    let name ← task.newMethodName ⟨task.graph.nameAt id, key⟩ family
    let shared := family.filterMap (task.graph.slot? · key)
    modifyContext (·.setMethods (method :: shared) name)
    pure name

/-- The entry of a method that a family starts with. -/
def sourceEntry [ConflictResolver ρ] (id : ClassId) (key : MemberKey) (method : MethodId)
    (symbol : MethodSymbol) : NamingM ρ (Option MemberEntry) := do
  if ← ask (task.chain.needsMethodName (task.graph.classAt id) symbol) then
    let name ← task.methodNameFor id key method
    pure (some ⟨key, name⟩)
  else
    pure (task.keptEntry key)

/-- The entry of a method. Only the classes at which a family starts have entries, and
initializers have none. -/
def methodEntry [ConflictResolver ρ] (id : ClassId) (slot : MemberKey × MethodId) :
    NamingM ρ (Option MemberEntry) :=
  if slot.1.isInitializer || !task.hierarchy.isSource id slot.1 then pure none
  else
    match task.graph.methodAt? slot.2 with
    | none => pure none
    | some symbol => task.sourceEntry id slot.1 slot.2 symbol

/-! ## Runs -/

/-- Visit a class. A class without a class file gets a name but no entry. -/
def visit [ConflictResolver ρ] (id : ClassId) : NamingM ρ (Option ClassEntry) := do
  let c := task.graph.classAt id
  let target ← task.classNameFor c
  if c.loaded then
    let fields ← c.fields.values.filterMapM (task.fieldEntry c)
    let methods ← c.methods.entries.filterMapM (task.methodEntry id)
    pure (some { name := c.name, target, fields, methods })
  else
    pure none

/-- Name all symbols. -/
def run [ConflictResolver ρ] : NamingM ρ MappingSet := do
  let classes ← task.graph.walk.filterMapM task.visit
  let context ← context
  pure
    { source := task.config.sourceNamespace
      target := task.config.targetNamespace
      counters := context.counters
      classes }

end NamingTask

end StableNaming
