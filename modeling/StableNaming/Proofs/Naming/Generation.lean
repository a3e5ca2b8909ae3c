import StableNaming.Proofs.Mapping.CounterFile
import StableNaming.Proofs.Naming.FreshRun

/-!
# Generators before and after a run

How generators that start afresh are set up, and what a successful call says
about the run behind it.
-/

namespace StableNaming.Generator

open NamingM

variable {ρ : Type}

/-- A generator that knows no earlier names, with policies and with counters to start from. -/
def fresh [PatternEngine] (graph : ClassGraph) (config : NamingConfig)
    (policies : List NamingPolicy) (counters : Counters) (resolver : ρ)
    (counterFile : Option File := none) : Except NamingFault (Generator ρ) :=
  match create graph config resolver counterFile with
  | .ok gen => .ok ((policies.foldl withPolicy gen).withCounters counters)
  | .error fault => .error fault

/-- The counters with which a run starts. -/
def startCounters (gen : Generator ρ) : Counters :=
  match gen.storedCounters with
  | .ok stored => gen.context.counters.merge stored
  | .error _ => gen.context.counters

/-- Adding policies changes nothing but who votes. -/
theorem foldl_withPolicy (policies : List NamingPolicy) (gen : Generator ρ) :
    policies.foldl withPolicy gen =
      { gen with
        task :=
          { gen.task with
            chain :=
              { gen.task.chain with policies := gen.task.chain.policies ++ policies } } } := by
  induction policies generalizing gen with
  | nil => rw [List.foldl_nil, List.append_nil]
  | cons policy policies ih =>
    rw [List.foldl_cons, ih, withPolicy, PolicyChain.push]
    dsimp only
    rw [List.append_assoc, List.singleton_append]

/-- The generator that knows no earlier names, given the compiled patterns. -/
def freshWith (graph : ClassGraph) (config : NamingConfig) (patterns : NamePatterns)
    (policies : List NamingPolicy) (counters : Counters) (resolver : ρ)
    (counterFile : Option File) : Generator ρ where
  task :=
    { graph
      config
      chain := { default := patterns.policy, policies, defaultPackage := config.defaultPackage }
      heritage := { oldGraph := graph } }
  resolver
  context := { counters := Counters.merge {} counters }
  counterFile

variable {graph : ClassGraph} {config : NamingConfig} {policies : List NamingPolicy}
  {counters : Counters} {resolver : ρ} {counterFile : Option File} {gen : Generator ρ}

/-- A generator can be set up if the patterns are patterns. -/
theorem fresh_eq_ok_iff [PatternEngine] :
    fresh graph config policies counters resolver counterFile = .ok gen ↔
      ∃ patterns, config.patterns.compile? = some patterns ∧
        freshWith graph config patterns policies counters resolver counterFile = gen := by
  rw [fresh, create]
  cases config.patterns.compile? with
  | none =>
    constructor
    · intro h
      cases h
    · rintro ⟨patterns, hpatterns, -⟩
      cases hpatterns
  | some patterns =>
    dsimp only
    rw [foldl_withPolicy, withCounters, Except.ok.injEq]
    constructor
    · intro h
      exact ⟨patterns, rfl, h⟩
    · rintro ⟨patterns', hpatterns, h⟩
      obtain rfl := Option.some.inj hpatterns
      exact h

/-- A generator that knows no earlier names names the graph that it is given. -/
theorem graph_of_fresh [PatternEngine]
    (h : fresh graph config policies counters resolver counterFile = .ok gen) :
    gen.task.graph = graph := by
  obtain ⟨patterns, -, rfl⟩ := fresh_eq_ok_iff.1 h
  rfl

/-- No name is offered to a generator that knows no earlier names. -/
theorem silent_of_fresh [PatternEngine]
    (h : fresh graph config policies counters resolver counterFile = .ok gen) :
    gen.task.heritage.Silent := by
  obtain ⟨patterns, -, rfl⟩ := fresh_eq_ok_iff.1 h
  exact Heritage.PriorOnly.silent ⟨rfl, rfl⟩ rfl

/-- The name decided for a method that a class holds. -/
theorem methodName?_nameAt {gen : Generator ρ} (hgraph : gen.task.graph = graph)
    (hnames : graph.DistinctNames) {id : ClassId} (hid : id < graph.size) (key : MemberKey) :
    gen.methodName? ⟨graph.nameAt id, key⟩ =
      (graph.slot? id key).bind gen.context.methodNames.find? := by
  subst hgraph
  rw [methodName?]
  dsimp only
  rw [hnames.idOf?_nameAt hid]
  rfl

/-- The table of an earlier mapping is read if it is about the same namespaces. -/
theorem withPrior_eq_ok_iff {t : MappingTable} {gen' : Generator ρ} :
    gen.withPrior t = .ok gen' ↔
      (t.source = gen.task.config.sourceNamespace ∧
        t.target = gen.task.config.targetNamespace) ∧
      { gen with
        task := { gen.task with heritage := { gen.task.heritage with prior := t } }
        context := gen.context.mergeCounters t.counters } = gen' := by
  rw [withPrior]
  dsimp only
  split
  · rename_i hsame
    rw [Except.ok.injEq, and_iff_right hsame]
  · rename_i hdiffer
    constructor
    · intro h
      cases h
    · intro h
      exact absurd h.1 hdiffer

/-- A successful call is a successful run from the counters to start with, after which the
counter file is written. -/
theorem exists_succeeds_of_generate [ConflictResolver ρ] {gen after : Generator ρ}
    {set : MappingSet} (h : gen.generate = (.ok set, after)) :
    ∃ t, Succeeds gen.task.run
        ⟨{ gen.context with counters := gen.startCounters }, gen.resolver⟩ set t ∧
      after = { gen with context := t.context, resolver := t.resolver }.storeCounters := by
  rw [generate] at h
  rw [startCounters]
  cases hstored : gen.storedCounters with
  | error fault =>
    rw [hstored] at h
    cases (Prod.mk.inj h).1
  | ok stored =>
    rw [hstored] at h
    dsimp only at h ⊢
    cases hrun : (gen.task.run (ρ := ρ)).run ⟨gen.context.mergeCounters stored, gen.resolver⟩ with
    | mk outcome t =>
      rw [hrun] at h
      cases outcome with
      | error fault => cases (Prod.mk.inj h).1
      | ok set' =>
        obtain ⟨hset, hafter⟩ := Prod.mk.inj h
        rw [Except.ok.injEq] at hset
        exact ⟨t, hset ▸ hrun, hafter.symm⟩

/-- After a successful call everything is settled, and the mapping set says what has been
decided. -/
theorem settled_of_generate [ConflictResolver ρ] {gen after : Generator ρ} {set : MappingSet}
    (hgraph : gen.task.graph.Finished) (h : gen.generate = (.ok set, after)) :
    after.task = gen.task ∧
      (∀ id < after.task.graph.size, after.task.ClassSettled after.context id) ∧
      set = after.task.setIn after.context := by
  obtain ⟨t, hsucceeds, rfl⟩ := exists_succeeds_of_generate h
  obtain ⟨-, hsettled, hset⟩ := NamingTask.of_succeeds_run hgraph hsucceeds
  exact ⟨rfl, hsettled, hset⟩

/-- A successful run from the counters to start with is a successful call. -/
theorem generate_of_succeeds [ConflictResolver ρ] {gen : Generator ρ} {stored : Counters}
    {set : MappingSet} {t : NamingState ρ} (hstored : gen.storedCounters = .ok stored)
    (h : Succeeds gen.task.run
      ⟨{ gen.context with counters := gen.startCounters }, gen.resolver⟩ set t) :
    gen.generate =
      (.ok set, { gen with context := t.context, resolver := t.resolver }.storeCounters) := by
  rw [startCounters, hstored] at h
  have hrun : (gen.task.run (ρ := ρ)).run ⟨gen.context.mergeCounters stored, gen.resolver⟩ =
      (.ok set, t) := h
  rw [generate, hstored]
  dsimp only
  rw [hrun]

/-- The state in which the run of a call starts. -/
def startState (gen : Generator ρ) : NamingState ρ :=
  ⟨{ gen.context with counters := gen.startCounters }, gen.resolver⟩

/-- A call whose counter file can be read ends as its run does. -/
theorem generate_of_stored [ConflictResolver ρ] {gen : Generator ρ} {stored : Counters}
    (hstored : gen.storedCounters = .ok stored) :
    gen.generate.1 = (gen.task.run.run gen.startState).1 ∧ gen.generate.2.task = gen.task ∧
      gen.generate.2.context = (gen.task.run.run gen.startState).2.context := by
  have hstart : gen.startState = ⟨gen.context.mergeCounters stored, gen.resolver⟩ := by
    rw [startState, startCounters, hstored]
    rfl
  rw [hstart, generate, hstored]
  dsimp only
  cases (gen.task.run (ρ := ρ)).run ⟨gen.context.mergeCounters stored, gen.resolver⟩ with
  | mk outcome t => cases outcome <;> exact ⟨rfl, rfl, rfl⟩

/-- A call that does not fail gives a mapping set. -/
theorem exists_generate_eq_of_isOk [ConflictResolver ρ] (h : gen.generate.1.isOk = true) :
    ∃ set, gen.generate = (.ok set, gen.generate.2) := by
  cases hrun : gen.generate with
  | mk outcome after =>
    rw [hrun] at h
    cases outcome with
    | error fault => exact absurd h Bool.false_ne_true
    | ok set => exact ⟨set, rfl⟩

/-- A run of a generator that knows no earlier names decides only names that are kept or made
up. -/
theorem onlyMinted_of_fresh [PatternEngine] [ConflictResolver ρ]
    (h : fresh graph config policies counters resolver counterFile = .ok gen)
    (hgraph : gen.task.graph.Finished) {set : MappingSet} {t : NamingState ρ}
    (hrun : Succeeds gen.task.run
      ⟨{ gen.context with counters := gen.startCounters }, gen.resolver⟩ set t) :
    gen.task.OnlyMinted gen.startCounters t.context := by
  obtain ⟨hleads, -, -⟩ := NamingTask.of_succeeds_run hgraph hrun
  refine NamingTask.OnlyMinted.leads ?_ hgraph (silent_of_fresh h) hleads
  have hempty := @NamingTask.onlyMinted_of_empty gen.task
    { gen.context with counters := gen.startCounters }
  obtain ⟨patterns, -, rfl⟩ := fresh_eq_ok_iff.1 h
  exact hempty rfl rfl rfl

/-- A run of a generator that knows no earlier names gives names only to members that need them. -/
theorem grounded_of_fresh [PatternEngine] [ConflictResolver ρ]
    (h : fresh graph config policies counters resolver counterFile = .ok gen)
    (hgraph : gen.task.graph.Finished) {set : MappingSet} {t : NamingState ρ}
    (hrun : Succeeds gen.task.run
      ⟨{ gen.context with counters := gen.startCounters }, gen.resolver⟩ set t) :
    gen.task.Grounded t.context := by
  obtain ⟨hleads, -, -⟩ := NamingTask.of_succeeds_run hgraph hrun
  obtain ⟨patterns, -, rfl⟩ := fresh_eq_ok_iff.1 h
  exact hleads.grounded rfl rfl

/-- Counters start at one or later. -/
theorem le_startCounters_of_fresh [PatternEngine]
    (h : fresh graph config policies counters resolver counterFile = .ok gen)
    (kind : SymbolKind) : 1 ≤ gen.startCounters.get kind := by
  obtain ⟨patterns, -, rfl⟩ := fresh_eq_ok_iff.1 h
  have hone : 1 ≤ ({} : Counters).get kind := by cases kind <;> exact Nat.le_refl 1
  have hfirst : 1 ≤ (Counters.merge {} counters).get kind := by
    rw [Counters.get_merge]
    exact hone.trans (Nat.le_max_left _ _)
  rw [startCounters]
  split
  · rw [Counters.get_merge]
    exact hfirst.trans (Nat.le_max_left _ _)
  · exact hfirst

/-- Merging more counters moves the counters to start with past them. -/
theorem get_startCounters_of_merge {gen gen' : Generator ρ} {stored more : Counters}
    (hstored : gen.storedCounters = .ok stored) (hstored' : gen'.storedCounters = .ok stored)
    (hcounters : gen'.context.counters = gen.context.counters.merge more) (kind : SymbolKind) :
    gen'.startCounters.get kind = max (gen.startCounters.get kind) (more.get kind) := by
  rw [startCounters, startCounters, hstored, hstored', hcounters]
  dsimp only
  rw [Counters.get_merge, Counters.get_merge, Counters.get_merge]
  omega

/-- A generator that is given no counters starts from those in its counter file, or from one. -/
theorem get_startCounters_of_fresh [PatternEngine] {stored : Counters}
    (h : fresh graph config policies {} resolver counterFile = .ok gen)
    (hstored : gen.storedCounters = .ok stored) (kind : SymbolKind) :
    gen.startCounters.get kind = max 1 (stored.get kind) := by
  obtain ⟨patterns, -, rfl⟩ := fresh_eq_ok_iff.1 h
  have hempty : ({} : Counters).get kind = 1 := by cases kind <;> rfl
  rw [startCounters, hstored]
  dsimp only [freshWith]
  rw [Counters.get_merge, Counters.get_merge, hempty, Nat.max_self]

/-- The counters of a run are found again in its counter file. -/
theorem storedCounters_storeCounters (gen : Generator ρ) :
    ∃ stored, (gen.storeCounters).storedCounters = .ok stored ∧
      ∀ kind, stored.get kind ≤ max 1 (gen.context.counters.get kind) := by
  have hone : ∀ kind, ({} : Counters).get kind ≤ 1 := by
    intro kind
    cases kind <;> exact Nat.le_refl 1
  rw [storedCounters, storeCounters]
  cases hfile : gen.counterFile with
  | none => exact ⟨{}, rfl, fun kind => (hone kind).trans (Nat.le_max_left _ _)⟩
  | some file =>
    refine ⟨_, Counters.ofFile_fileText _, fun kind => ?_⟩
    rw [Counters.get_merge]
    have hle := hone kind
    omega

/-- The counters to start with count from one. -/
theorem one_le_startCounters {gen : Generator ρ} {stored : Counters}
    (hstored : gen.storedCounters = .ok stored) (kind : SymbolKind) :
    1 ≤ gen.startCounters.get kind := by
  have hone : 1 ≤ stored.get kind := by
    rw [storedCounters] at hstored
    split at hstored
    · exact Counters.one_le_get_of_ofFile hstored kind
    · cases hstored
      cases kind <;> exact Nat.le_refl 1
  rw [startCounters, hstored]
  dsimp only
  rw [Counters.get_merge]
  exact hone.trans (Nat.le_max_right _ _)

end StableNaming.Generator
