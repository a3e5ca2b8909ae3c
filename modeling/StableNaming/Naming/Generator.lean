import StableNaming.Mapping.Tiny
import StableNaming.Naming.Walk

/-!
# Generators

A generator holds a naming task together with everything that outlives a run:
the counters, the decided names, the resolver, and the counter file, if one is
configured. Names and counters that a run has decided stay, also if it fails.
The counter file is read before a run and written after a successful one.
-/

namespace StableNaming

/-- A generator with a resolver of type `ρ`. -/
structure Generator (ρ : Type) where
  /-- What to name. -/
  task : NamingTask
  /-- Who settles conflicts. -/
  resolver : ρ
  /-- Counters and decided names. -/
  context : NamingContext := {}
  /-- The counter file, if one is configured. -/
  counterFile : Option File := none

namespace Generator

variable {ρ : Type}

/-- A generator that names everything afresh. -/
def create [PatternEngine] (graph : ClassGraph) (config : NamingConfig) (resolver : ρ)
    (counterFile : Option File := none) : Except NamingFault (Generator ρ) :=
  match config.patterns.compile? with
  | none => .error .invalidPattern
  | some patterns =>
    let chain : PolicyChain :=
      { default := patterns.policy, defaultPackage := config.defaultPackage }
    .ok { task := { graph, config, chain, heritage := { oldGraph := graph } }
          resolver, counterFile }

/-! ## Options -/

/-- Carry names over from an earlier mapping of the same classes. -/
def withPrior (gen : Generator ρ) (table : MappingTable) : Except NamingFault (Generator ρ) :=
  let config := gen.task.config
  if table.source = config.sourceNamespace ∧ table.target = config.targetNamespace then
    .ok { gen with
      task := { gen.task with heritage := { gen.task.heritage with prior := table } }
      context := gen.context.mergeCounters table.counters }
  else
    .error (.mapping (.namespaceMismatch
      (config.sourceNamespace ++ " -> " ++ config.targetNamespace)
      (table.source ++ " -> " ++ table.target)))

/-- Carry names over from the mapping of an old version. -/
def withUpdate (gen : Generator ρ) (oldGraph : ClassGraph) (matched old : MappingTable) :
    Generator ρ :=
  let heritage :=
    { gen.task.heritage with oldGraph, oldHierarchy := oldGraph.hierarchy, matched, old }
  { gen with
    task := { gen.task with heritage }
    context := gen.context.mergeCounters old.counters }

/-- Add a policy. -/
def withPolicy (gen : Generator ρ) (policy : NamingPolicy) : Generator ρ :=
  { gen with task := { gen.task with chain := gen.task.chain.push policy } }

/-- Start counting at least at the given counters. -/
def withCounters (gen : Generator ρ) (counters : Counters) : Generator ρ :=
  { gen with context := gen.context.mergeCounters counters }

/-- Let somebody else settle conflicts. -/
def withResolver {σ : Type} (gen : Generator ρ) (resolver : σ) : Generator σ :=
  { task := gen.task, resolver, context := gen.context, counterFile := gen.counterFile }

/-! ## Runs -/

/-- The counters in the counter file; a file that does not exist yet has none. -/
def storedCounters (gen : Generator ρ) : Except MappingFault Counters :=
  match gen.counterFile with
  | some (some bytes) => Counters.ofFile (some bytes)
  | _ => .ok {}

/-- The generator after a successful run has written its counter file. -/
def storeCounters (gen : Generator ρ) : Generator ρ :=
  { gen with
    counterFile := gen.counterFile.map fun _ =>
      some (Text.encodeUtf8 gen.context.counters.fileText) }

/-- Name every symbol of the graph. -/
def generate [ConflictResolver ρ] (gen : Generator ρ) :
    Except NamingFault MappingSet × Generator ρ :=
  match gen.storedCounters with
  | .error fault => (.error (.mapping fault), gen)
  | .ok counters =>
    let start : NamingState ρ := ⟨gen.context.mergeCounters counters, gen.resolver⟩
    let (outcome, state) := (gen.task.run (ρ := ρ)).run start
    let after := { gen with context := state.context, resolver := state.resolver }
    match outcome with
    | .ok set => (.ok set, after.storeCounters)
    | .error fault => (.error fault, after)

/-- Name every symbol of the graph and write the result to a new file. Nothing is
written when naming fails. -/
def generateFile [ConflictResolver ρ] (gen : Generator ρ) :
    Except NamingFault MappingSet × File × Generator ρ :=
  let (outcome, after) := gen.generate
  match outcome with
  | .ok set => (.ok set, some (Text.encodeUtf8 (Tiny.write set)), after)
  | .error fault => (.error fault, none, after)

/-! ## Questions -/

/-- The name decided for a class. -/
def className? (gen : Generator ρ) (name : String) : Option String :=
  gen.context.classNames.find? name

/-- The name decided for a field. -/
def fieldName? (gen : Generator ρ) (ref : MemberRef) : Option String :=
  gen.context.fieldNames.find? ref

/-- The name decided for a method; every class of a family answers the same. -/
def methodName? (gen : Generator ρ) (ref : MemberRef) : Option String := do
  let id ← gen.task.graph.idOf? ref.owner
  let method ← gen.task.graph.slot? id ref.key
  gen.context.methodNames.find? method

end Generator

end StableNaming
