import StableNaming.Proofs.Naming.FamilyCarry
import StableNaming.Proofs.Policy.Usual

/-!
# What a generator goes through

A generator may be given tables, counters and other resolvers at any time, and it may be
called again and again, whether the calls succeed or fail. Whatever it goes through, it
gives names only to members that need them, and without policies it is the patterns that
decide which ones do.
-/

namespace StableNaming

open NamingM

namespace NamingTask

variable {ρ : Type} {task : NamingTask} {id : ClassId}

/-! ## However a run ends -/

/-- What is no name of a member does not matter. -/
theorem Grounded.congr {c c' : NamingContext} (h : task.Grounded c)
    (hfields : c'.fieldNames = c.fieldNames) (hmethods : c'.methodNames = c.methodNames) :
    task.Grounded c' where
  field hname := h.field (hfields ▸ hname)
  method hname := h.method (hmethods ▸ hname)

/-- Where names are carried over from does not matter. -/
theorem Grounded.of_heritage {c : NamingContext} (h : task.Grounded c) (heritage : Heritage) :
    ({ task with heritage } : NamingTask).Grounded c where
  field hname := h.field hname
  method hname := by
    obtain ⟨id, key, symbol, hstarts, hneed⟩ := h.method hname
    exact ⟨id, key, symbol, ⟨hstarts.loaded, hstarts.slot, hstarts.not_initializer,
      hstarts.source, hstarts.declared⟩, hneed⟩

/-- Whether all members that have names in a state need them. -/
def GroundedIn (task : NamingTask) (s : NamingState ρ) : Prop := task.Grounded s.context

theorem keeps_of_counts [ConflictResolver ρ] {s t : NamingState ρ} (h : Counts s t) :
    Keeps task.GroundedIn s t := by
  intro hs
  refine Grounded.congr hs ?_ ?_ <;> rw [h.context_eq]

/-- Naming a class names no member. -/
theorem grounded_classNameFor [ConflictResolver ρ] (c : ClassSymbol) :
    Moves (Keeps task.GroundedIn) (task.classNameFor c : NamingM ρ String) := by
  intro s
  rw [classNameFor, run_context_bind]
  cases hknown : s.context.classNames.find? c.name with
  | some known => exact id
  | none =>
    refine moves_stored (moves_newClassName _ _) keeps_of_counts fun {name t} ht _ hs => ?_
    have hcounted : task.Grounded t.context := keeps_of_counts ht hs
    exact hcounted.congr rfl rfl

/-- A field that needs a name may be given one. -/
theorem grounded_fieldNameFor [ConflictResolver ρ] {f : Member}
    (hf : f ∈ (task.graph.classAt id).fields.values)
    (hneed : task.chain.needsFieldName (task.graph.classAt id) f = .ok true) :
    Moves (Keeps task.GroundedIn)
      (task.fieldNameFor ⟨task.graph.nameAt id, f.key⟩ : NamingM ρ String) := by
  intro s
  rw [fieldNameFor, run_context_bind]
  cases hknown : s.context.fieldNames.find? ⟨task.graph.nameAt id, f.key⟩ with
  | some known => exact fun hs => hs
  | none =>
    refine moves_stored (moves_newFieldName _) keeps_of_counts fun {name t} ht _ hs => ?_
    have hcounted : task.Grounded t.context := keeps_of_counts ht hs
    refine ⟨fun {ref found} hfound => ?_, hcounted.method⟩
    dsimp only [NamingContext.setField] at hfound
    rw [Dictionary.find?_insert] at hfound
    split at hfound
    · rename_i heq
      exact ⟨id, f, hf, heq.symm, hneed⟩
    · exact hcounted.field hfound

/-- A method that needs a name where its family starts may be given one. -/
theorem grounded_methodNameFor [ConflictResolver ρ] (hgraph : task.graph.Finished)
    {key : MemberKey} {method : MethodId} {symbol : MethodSymbol}
    (hstarts : task.Starts id key method symbol)
    (hneed : task.chain.needsMethodName (task.graph.classAt id) symbol = .ok true) :
    Moves (Keeps task.GroundedIn) (task.methodNameFor id key method : NamingM ρ String) := by
  intro s
  rw [methodNameFor, run_context_bind]
  cases hknown : s.context.methodNames.find? method with
  | some known => exact fun hs => hs
  | none =>
    refine moves_stored (moves_newMethodName _ _) keeps_of_counts fun {name t} ht _ hs => ?_
    have hcounted : task.Grounded t.context := keeps_of_counts ht hs
    rw [NamingContext.setMethods_eq_setMethod name fun m hm =>
      eq_of_mem_shared hgraph hstarts.slot hm]
    refine ⟨hcounted.field, fun {other found} hfound => ?_⟩
    dsimp only [NamingContext.setMethod] at hfound
    rw [Dictionary.find?_insert] at hfound
    split at hfound
    · rename_i heq
      exact ⟨id, key, symbol, heq ▸ hstarts, hneed⟩
    · exact hcounted.method hfound

/-- Whatever is done after asking the policies, it is enough to look at their answers. -/
theorem moves_ask_bind {α β : Type} {R : NamingState ρ → NamingState ρ → Prop}
    [IsPreorder (NamingState ρ) R] {answer : Except PolicyFault α} {f : α → NamingM ρ β}
    (hf : ∀ a, answer = .ok a → Moves R (f a)) : Moves R (ask answer >>= f) := by
  intro s
  cases answer with
  | error fault =>
    rw [run_bind_of_error (show (ask (Except.error fault)).run s =
      (Except.error (NamingFault.policy fault), s) from rfl)]
    exact refl_of R s
  | ok a =>
    rw [run_bind_of_succeeds (show Succeeds (ask (Except.ok a)) s a s from rfl)]
    exact hf a rfl s

theorem grounded_fieldEntry [ConflictResolver ρ] {f : Member}
    (hf : f ∈ (task.graph.classAt id).fields.values) :
    Moves (Keeps task.GroundedIn)
      (task.fieldEntry (task.graph.classAt id) f : NamingM ρ (Option MemberEntry)) := by
  rw [fieldEntry]
  refine moves_ask_bind fun need hneed => ?_
  split
  · rename_i hneeded
    exact (grounded_fieldNameFor hf (hneeded ▸ hneed)).bind fun _ => moves_pure _
  · exact moves_pure _

theorem grounded_methodEntry [ConflictResolver ρ] (hgraph : task.graph.Finished)
    (hloaded : (task.graph.classAt id).loaded = true) {slot : MemberKey × MethodId}
    (hslot : slot ∈ (task.graph.classAt id).methods.entries) :
    Moves (Keeps task.GroundedIn)
      (task.methodEntry id slot : NamingM ρ (Option MemberEntry)) := by
  rw [methodEntry]
  split
  · exact moves_pure _
  · rename_i hsource
    rw [Bool.or_eq_true, not_or, Bool.not_eq_true, Bool.not_eq_true, Bool.not_eq_false']
      at hsource
    split
    · exact moves_pure _
    · rename_i symbol hsymbol
      rw [sourceEntry]
      refine moves_ask_bind fun need hneed => ?_
      split
      · rename_i hneeded
        have hstarts : task.Starts id slot.1 slot.2 symbol :=
          ⟨hloaded, KeyMap.find?_eq_some_iff.2 hslot, hsource.1, hsource.2, hsymbol⟩
        exact (grounded_methodNameFor hgraph hstarts (hneeded ▸ hneed)).bind
          fun _ => moves_pure _
      · exact moves_pure _

/-- However a run ends, it has given names only to members that need them. -/
theorem grounded_run [ConflictResolver ρ] (hgraph : task.graph.Finished) :
    Moves (Keeps task.GroundedIn) (task.run : NamingM ρ MappingSet) := by
  rw [run]
  refine (moves_filterMapM fun id _ => ?_).bind fun _ => moves_context.bind fun _ => moves_pure _
  rw [visit]
  refine (grounded_classNameFor _).bind fun _ => ?_
  split
  · rename_i hloaded
    refine Moves.bind (moves_filterMapM fun f hf => grounded_fieldEntry hf) fun _ => ?_
    refine Moves.bind (moves_filterMapM fun slot hslot => ?_) fun _ => moves_pure _
    exact grounded_methodEntry hgraph hloaded hslot
  · exact moves_pure _

end NamingTask

/-! ## Lifetimes -/

namespace Generator

variable {ρ : Type}

/-- What a generator without policies may have gone through: it is set up for a graph and a
configuration, it is given options and tables that satisfy a condition, and it is called. -/
inductive Arises [PatternEngine] (graph : ClassGraph) (config : NamingConfig)
    (allowed : MappingTable → Prop) : {ρ : Type} → Generator ρ → Prop where
  /-- It is new. -/
  | create {ρ : Type} {resolver : ρ} {counterFile : Option File} {gen : Generator ρ} :
    create graph config resolver counterFile = .ok gen → Arises graph config allowed gen
  /-- It is given the table of an earlier mapping of the same classes. -/
  | prior {ρ : Type} {gen gen' : Generator ρ} {t : MappingTable} :
    Arises graph config allowed gen → allowed t → gen.withPrior t = .ok gen' →
      Arises graph config allowed gen'
  /-- It is given the mapping of an old version. -/
  | update {ρ : Type} {gen : Generator ρ} (oldGraph : ClassGraph) {matched old : MappingTable} :
    Arises graph config allowed gen → allowed matched → allowed old →
      Arises graph config allowed (gen.withUpdate oldGraph matched old)
  /-- Counters are moved on. -/
  | counters {ρ : Type} {gen : Generator ρ} (counters : Counters) :
    Arises graph config allowed gen → Arises graph config allowed (gen.withCounters counters)
  /-- Somebody else settles conflicts. -/
  | resolver {ρ σ : Type} {gen : Generator ρ} (resolver : σ) :
    Arises graph config allowed gen → Arises graph config allowed (gen.withResolver resolver)
  /-- The counter file is replaced. -/
  | file {ρ : Type} {gen : Generator ρ} (counterFile : Option File) :
    Arises graph config allowed gen → Arises graph config allowed { gen with counterFile }
  /-- It is called. -/
  | generate {ρ : Type} [ConflictResolver ρ] {gen : Generator ρ} :
    Arises graph config allowed gen → Arises graph config allowed gen.generate.2

/-- A new generator knows no earlier names. -/
theorem exists_freshWith_of_create [PatternEngine] {graph : ClassGraph} {config : NamingConfig}
    {resolver : ρ} {counterFile : Option File} {gen : Generator ρ}
    (h : create graph config resolver counterFile = .ok gen) :
    ∃ patterns, config.patterns.compile? = some patterns ∧
      freshWith graph config patterns [] {} resolver counterFile = gen := by
  rw [create] at h
  split at h
  · cases h
  · rename_i patterns hpatterns
    exact ⟨patterns, hpatterns, Except.ok.inj h⟩

/-- A new generator with the usual patterns. -/
theorem create_of_usual [PatternEngine] [PatternEngine.ReadsUsual] (graph : ClassGraph)
    {config : NamingConfig} (hpatterns : config.patterns = .usual) (resolver : ρ)
    (counterFile : Option File) :
    create graph config resolver counterFile =
      .ok (freshWith graph config .usual [] {} resolver counterFile) := by
  rw [create, hpatterns, NamePatterns.compile?_usual]
  rfl

/-- A new generator with the usual configuration, and what it gives if it does not fail. -/
theorem exists_create_generate [PatternEngine] [PatternEngine.ReadsUsual] [ConflictResolver ρ]
    (graph : ClassGraph) (resolver : ρ)
    (hok : (freshWith graph {} .usual [] {} resolver none).generate.1.isOk = true) :
    ∃ gen set, freshWith graph {} .usual [] {} resolver none = gen ∧
      create graph {} resolver = .ok gen ∧ gen.generate = (.ok set, gen.generate.2) := by
  obtain ⟨set, hrun⟩ := exists_generate_eq_of_isOk hok
  exact ⟨_, set, rfl, create_of_usual graph rfl resolver none, hrun⟩

/-- A call changes nothing about what to name, and leaves the names as they are or as its run
has left them. -/
theorem context_generate [ConflictResolver ρ] (gen : Generator ρ) :
    gen.generate.2.task = gen.task ∧ (gen.generate.2.context = gen.context ∨
      gen.generate.2.context = (gen.task.run.run gen.startState).2.context) := by
  cases hstored : gen.storedCounters with
  | error fault =>
    rw [generate, hstored]
    exact ⟨rfl, .inl rfl⟩
  | ok stored =>
    obtain ⟨-, htask, hcontext⟩ := generate_of_stored hstored
    exact ⟨htask, .inr hcontext⟩

namespace Arises

variable {graph : ClassGraph} {config : NamingConfig} {allowed : MappingTable → Prop}
  {gen : Generator ρ}

/-- The graph, the configuration and the default policy stay as they are set up. -/
theorem task_eq [PatternEngine] (h : Arises graph config allowed gen) :
    gen.task.graph = graph ∧ gen.task.config = config ∧ gen.task.chain.policies = [] ∧
      gen.task.chain.defaultPackage = config.defaultPackage ∧
      ∃ patterns, config.patterns.compile? = some patterns ∧
        gen.task.chain.default = patterns.policy := by
  induction h with
  | create hcreate =>
    obtain ⟨patterns, hpatterns, rfl⟩ := exists_freshWith_of_create hcreate
    exact ⟨rfl, rfl, rfl, rfl, patterns, hpatterns, rfl⟩
  | prior _ _ hprior ih =>
    obtain ⟨-, rfl⟩ := withPrior_eq_ok_iff.1 hprior
    exact ih
  | update _ _ _ _ ih => exact ih
  | counters _ _ ih => exact ih
  | resolver _ _ ih => exact ih
  | file _ _ ih => exact ih
  | generate _ ih => rwa [(context_generate _).1]

/-- Names are given only to members that need them. -/
theorem grounded [PatternEngine] (h : Arises graph config allowed gen) (hgraph : graph.Finished) :
    gen.task.Grounded gen.context := by
  induction h with
  | create hcreate =>
    obtain ⟨patterns, -, rfl⟩ := exists_freshWith_of_create hcreate
    exact (NamingTask.Leads.refl _).grounded rfl rfl
  | prior _ _ hprior ih =>
    obtain ⟨-, rfl⟩ := withPrior_eq_ok_iff.1 hprior
    exact (ih.of_heritage _).congr rfl rfl
  | update _ _ _ _ ih => exact (ih.of_heritage _).congr rfl rfl
  | counters _ _ ih => exact ih.congr rfl rfl
  | resolver _ _ ih => exact ih
  | file _ _ ih => exact ih
  | @generate _ _ gen harises ih =>
    obtain ⟨htask, hcontext⟩ := gen.context_generate
    rw [htask]
    rcases hcontext with hcontext | hcontext
    · rw [hcontext]
      exact ih
    · have hfinished : gen.task.graph.Finished := harises.task_eq.1 ▸ hgraph
      have hstart : gen.task.GroundedIn gen.startState := ih.congr rfl rfl
      rw [hcontext]
      exact NamingTask.grounded_run hfinished gen.startState hstart

end Arises

end Generator

end StableNaming
