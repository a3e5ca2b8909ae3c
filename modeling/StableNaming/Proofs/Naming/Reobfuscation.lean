import StableNaming.Mapping.Matches
import StableNaming.Proofs.Naming.RoundTrip
import StableNaming.Proofs.Naming.Update

/-!
# Names survive another obfuscation

When a program has been obfuscated once more, its symbols have other names and are
otherwise the same. A generator that knows the match file and the table of the old
version succeeds, gives every symbol the name of the old one and makes up no name.
-/

namespace StableNaming

namespace Generator

variable {ρ σ : Type}

/-- Carrying names over from an old version moves the counters to start with past the old ones. -/
theorem get_startCounters_withUpdate {gen : Generator σ} {stored : Counters}
    (hstored : gen.storedCounters = .ok stored) (oldGraph : ClassGraph) (matched old : MappingTable)
    (kind : SymbolKind) : (gen.withUpdate oldGraph matched old).startCounters.get kind =
      max (gen.startCounters.get kind) (old.counters.get kind) :=
  @get_startCounters_of_merge _ gen (gen.withUpdate oldGraph matched old) _ _ hstored hstored rfl
    kind

/-- A generator that carries names over from an old version gives every symbol the name of the one
that it corresponds to and moves no counter. -/
theorem exists_generate_of_updates [ConflictResolver σ] {gen : Generator σ} {old : NamingTask}
    {start stored : Counters} {c : NamingContext} {t : MappingTable}
    {corr : Correspondence gen.task.graph old.graph} (hup : gen.task.Updates old t corr)
    (h : old.Recorded start c t) (hstored : gen.storedCounters = .ok stored)
    (hclass : gen.context.classNames = .empty) (hfield : gen.context.fieldNames = .empty)
    (hmethod : gen.context.methodNames = .empty)
    (hcounters : ∀ kind, c.counters.get kind ≤ gen.startCounters.get kind) :
    ∃ set' last', gen.generate = (.ok set', last') ∧
      set' = last'.task.setIn last'.context ∧ last'.context.counters = gen.startCounters ∧
      (∀ x < gen.task.graph.size, last'.className? (gen.task.graph.nameAt x) =
        c.classNames.find? (old.graph.nameAt (corr.classOf x))) ∧
      (∀ x < gen.task.graph.size, ∀ f ∈ (gen.task.graph.classAt x).fields.values,
        last'.fieldName? ⟨gen.task.graph.nameAt x, f.key⟩ =
          c.fieldNames.find? ⟨old.graph.nameAt (corr.classOf x), corr.fieldKey x f.key⟩) ∧
      ∀ x k, gen.task.graph.declares x k = true →
        last'.methodName? ⟨gen.task.graph.nameAt x, k⟩ =
          (old.graph.slot? (corr.classOf x) (corr.methodKey x k)).bind c.methodNames.find? := by
  obtain ⟨methodOf, hmethodOf⟩ := corr.exists_methodOf hup.graph h.graph
  have hoffers := hup.offers h hmethodOf hcounters
  obtain ⟨s, hgenerate, hfollows, hleads, hsettled⟩ :=
    exists_generate_of_offers hup.graph hstored hclass hfield hmethod rfl hoffers
  have hgrounded := hleads.grounded hfield hmethod
  obtain ⟨last', hlast'⟩ : ∃ last', { gen with
      context := s.context, resolver := s.resolver }.storeCounters = last' := ⟨_, rfl⟩
  have htask : last'.task = gen.task := by rw [← hlast']; rfl
  have hcontext : last'.context = s.context := by rw [← hlast']; rfl
  rw [hlast'] at hgenerate
  refine ⟨_, last', hgenerate, by rw [htask, hcontext], hcontext ▸ hfollows.counters_eq,
    fun x hx => ?_, fun x hx f hf => ?_, fun x k hk => ?_⟩
  · rw [className?, hcontext]
    exact NamingTask.Updates.classNames_eq h hfollows hsettled hx
  · rw [fieldName?, hcontext]
    exact hup.fieldNames_eq h hfollows hgrounded hsettled hx hf
  · obtain ⟨m, hslot⟩ := ClassGraph.declares_iff.1 hk
    have hx := ClassGraph.lt_size_of_slot? hslot
    have hgraph : last'.task.graph = gen.task.graph := by rw [htask]
    rw [methodName?_nameAt hgraph hup.graph.names hx, hcontext, hslot, hmethodOf hslot,
      Option.bind_some, Option.bind_some]
    exact hup.methodNames_eq h hmethodOf hfollows hgrounded hsettled hslot

/-- When the classes and members of a graph correspond to those of an old one, and a match table
lists the correspondence, then a generator that knows the match table and the table of a run on the
old graph succeeds, whoever settles conflicts. It gives every symbol the name of the one that it
corresponds to, and makes up no name: its counters are only moved past the old ones. The mapping
set is what the names say. -/
theorem exists_generate_of_match [PatternEngine] [ConflictResolver ρ] [ConflictResolver σ]
    (oldFiles newFiles : List ClassFile) (config config' : NamingConfig)
    (policies policies' : List NamingPolicy) (counters counters' : Counters) (resolver : ρ)
    (resolver' : σ) (counterFile counterFile' : Option File) (matched : MappingTable)
    (corr : Correspondence (GraphBuilder.build newFiles) (GraphBuilder.build oldFiles))
    {first last : Generator ρ} {next : Generator σ} {set : MappingSet} {stored : Counters}
    (hfirst : fresh (GraphBuilder.build oldFiles) config policies counters resolver counterFile =
      .ok first)
    (hrun : first.generate = (.ok set, last))
    (hnext : fresh (GraphBuilder.build newFiles) config' policies' counters' resolver'
      counterFile' = .ok next)
    (hstored : next.storedCounters = .ok stored)
    (hloaded : ∀ id < (GraphBuilder.build oldFiles).size,
      ((GraphBuilder.build oldFiles).classAt id).loaded = true)
    (hloaded' : ∀ id < (GraphBuilder.build newFiles).size,
      ((GraphBuilder.build newFiles).classAt id).loaded = true)
    (hpackages : ∀ id < (GraphBuilder.build oldFiles).size, NamingTask.IsPackage
      (first.task.chain.packageFor ((GraphBuilder.build oldFiles).classAt id)))
    (hrenames : last.Renames) (hagrees : corr.Agrees next.task.chain first.task.chain)
    (hlists : corr.Lists matched) :
    ∃ table set' last', set.toTable = .ok table ∧
      (next.withUpdate (GraphBuilder.build oldFiles) matched table).generate = (.ok set', last') ∧
      set' = last'.task.setIn last'.context ∧
      (∀ kind, last'.context.counters.get kind =
        max (next.startCounters.get kind) (last.context.counters.get kind)) ∧
      (∀ x < (GraphBuilder.build newFiles).size,
        last'.className? ((GraphBuilder.build newFiles).nameAt x) =
          last.className? ((GraphBuilder.build oldFiles).nameAt (corr.classOf x))) ∧
      (∀ x < (GraphBuilder.build newFiles).size,
        ∀ f ∈ ((GraphBuilder.build newFiles).classAt x).fields.values,
          last'.fieldName? ⟨(GraphBuilder.build newFiles).nameAt x, f.key⟩ =
            last.fieldName? ⟨(GraphBuilder.build oldFiles).nameAt (corr.classOf x),
              corr.fieldKey x f.key⟩) ∧
      ∀ x k, (GraphBuilder.build newFiles).declares x k = true →
        last'.methodName? ⟨(GraphBuilder.build newFiles).nameAt x, k⟩ =
          last.methodName? ⟨(GraphBuilder.build oldFiles).nameAt (corr.classOf x),
            corr.methodKey x k⟩ := by
  obtain ⟨c, table, -, htable, hlast, hrecorded⟩ :=
    exists_recorded hfirst hrun hloaded hpackages hrenames
  have hfinished := GraphBuilder.finished_build newFiles
  -- from here on the graphs are any finished ones
  generalize GraphBuilder.build oldFiles = oldGraph at *
  generalize GraphBuilder.build newFiles = newGraph at *
  have hone := le_startCounters_of_fresh hfirst
  have hcontext : last.context = c := by rw [hlast]; rfl
  have hlastGraph : last.task.graph = oldGraph :=
    (congrArg (·.task.graph) hlast).trans (graph_of_fresh hfirst)
  have hstart := get_startCounters_withUpdate hstored oldGraph matched table
  simp only [hrecorded.get_counters_eq hone] at hstart
  obtain ⟨patterns, -, rfl⟩ := fresh_eq_ok_iff.1 hfirst
  obtain ⟨patterns', -, rfl⟩ := fresh_eq_ok_iff.1 hnext
  obtain ⟨set', last', hgenerate, hset', hcounters, hclass, hfield, hmethod⟩ :=
    @exists_generate_of_updates σ _
      ((freshWith newGraph config' patterns' policies' counters' resolver'
        counterFile').withUpdate oldGraph matched table)
      (freshWith oldGraph config patterns policies counters resolver
        counterFile).task _ stored c table corr
      ⟨rfl, rfl, rfl, hlists, hagrees, hfinished, hloaded'⟩ hrecorded
      hstored rfl rfl rfl fun kind => by rw [hstart]; exact Nat.le_max_right _ _
  refine ⟨table, set', last', htable, hgenerate, hset', fun kind => ?_, fun x hx => ?_,
    fun x hx f hf => ?_, fun x k hk => ?_⟩
  · rw [hcounters, hstart, hcontext]
  · refine (hclass x hx).trans ?_
    rw [className?, hcontext]
    rfl
  · refine (hfield x hx f hf).trans ?_
    rw [fieldName?, hcontext]
    rfl
  · have hx := corr.lt_size (ClassGraph.lt_size_of_declares hk)
    rw [methodName?_nameAt hlastGraph hrecorded.graph.names hx, hcontext]
    exact hmethod x k hk

/-- The classes of all shapes under other names, in another order. -/
def renamedFiles : List ClassFile :=
  [{ name := "c", superName := some "p", methods := [{ key := ⟨"g", "()V"⟩ }] },
    { name := "p", fields := [{ key := ⟨"u", "I"⟩ }],
      methods := [{ key := ⟨"g", "()V"⟩ }, { key := ⟨"<init>", "()V"⟩ }] },
    { name := "p$1", enclosure := some { className := "p" } },
    { name := "p$2x", enclosure := some { className := "p" }, innerName := some "x" },
    { name := "p$a", declaring := some "p", innerName := some "a" },
    { name := "k" }]

/-- The old name of a member. -/
def oldKey (k : MemberKey) : MemberKey :=
  ⟨if k.name = "g" then "f" else if k.name = "u" then "x" else k.name, k.desc⟩

/-- Every renamed class corresponds to the one that it was. -/
def renamedCorrespondence :
    Correspondence (GraphBuilder.build renamedFiles) (GraphBuilder.build shapeFiles) :=
  .ofChecked (fun x => [4, 0, 1, 2, 3, 5].getD x x) (fun _ => oldKey) (fun _ => oldKey)
    (by decide +kernel) (by decide +kernel) (by decide +kernel) (by decide +kernel)
    (by decide +kernel)

/-- The old classes and members of the renamed ones. -/
def renamedMatches : MappingTable where
  source := Matches.newNamespace
  target := Matches.oldNamespace
  classes := .ofList
    [("c", "d"), ("p", "a"), ("p$1", "a$1"), ("p$2x", "a$2c"), ("p$a", "a$b"), ("k", "k")]
  fields := .ofList [(⟨"p", ⟨"u", "I"⟩⟩, ⟨"a", ⟨"x", "I"⟩⟩)]
  methods := .ofList
    [(⟨"c", ⟨"g", "()V"⟩⟩, ⟨"d", ⟨"f", "()V"⟩⟩), (⟨"p", ⟨"g", "()V"⟩⟩, ⟨"a", ⟨"f", "()V"⟩⟩),
      (⟨"p", ⟨"<init>", "()V"⟩⟩, ⟨"a", ⟨"<init>", "()V"⟩⟩)]

theorem lists_renamedMatches : renamedCorrespondence.Lists renamedMatches where
  type := by decide +kernel
  field := by decide +kernel
  method x k hk := (by decide +kernel : ∀ x < (GraphBuilder.build renamedFiles).size,
    ∀ k ∈ ((GraphBuilder.build renamedFiles).classAt x).methods.keys,
      renamedMatches.memberTarget? .method ⟨(GraphBuilder.build renamedFiles).nameAt x, k⟩ =
        some ⟨(GraphBuilder.build shapeFiles).nameAt (renamedCorrespondence.classOf x),
          renamedCorrespondence.methodKey x k⟩)
    x (ClassGraph.lt_size_of_declares hk) k (ClassGraph.declares_iff_mem_keys.1 hk)

/-- A renamed class that overrides a method finds the name of the method again, although the old
table has no line for it. -/
theorem methodName?_renamed :
    ∃ (first last next last' : Generator Resolver) (set set' : MappingSet) (table : MappingTable),
      fresh (GraphBuilder.build shapeFiles) { patterns := ⟨[], [], []⟩ } [allBut "k"] {}
        .refuse (some none) = .ok first ∧
      first.generate = (.ok set, last) ∧ set.toTable = .ok table ∧
      fresh (GraphBuilder.build renamedFiles) { patterns := ⟨[], [], []⟩ } [allBut "k"] {}
        .refuse none = .ok next ∧
      (next.withUpdate (GraphBuilder.build shapeFiles) renamedMatches table).generate =
        (.ok set', last') ∧
      last'.methodName? ⟨"c", ⟨"g", "()V"⟩⟩ = some "method_1" ∧
      last'.context.counters.get .method = 2 := by
  obtain ⟨first, hfirst⟩ : ∃ first, fresh (GraphBuilder.build shapeFiles)
      { patterns := ⟨[], [], []⟩ } [allBut "k"] {} Resolver.refuse (some none) = .ok first :=
    ⟨_, rfl⟩
  obtain ⟨next, hnext⟩ : ∃ next, fresh (GraphBuilder.build renamedFiles)
      { patterns := ⟨[], [], []⟩ } [allBut "k"] {} Resolver.refuse none = .ok next := ⟨_, rfl⟩
  obtain ⟨set, hrun⟩ : ∃ set, first.generate = (.ok set, first.generate.2) := by
    refine exists_generate_eq_of_isOk ?_
    cases hfirst
    decide +kernel
  have hpackages : ∀ id < (GraphBuilder.build shapeFiles).size, NamingTask.IsPackage
      (first.task.chain.packageFor ((GraphBuilder.build shapeFiles).classAt id)) := by
    cases hfirst
    decide +kernel
  have hrenames : first.generate.2.Renames := by
    cases hfirst
    decide +kernel
  have hold : first.generate.2.methodName? ⟨"d", ⟨"f", "()V"⟩⟩ = some "method_1" ∧
      first.generate.2.context.counters.get .method = 2 := by
    cases hfirst
    decide +kernel
  have hstart : next.storedCounters = .ok {} ∧ next.startCounters.get .method = 1 := by
    cases hnext
    decide +kernel
  have hmethods : ∀ x < (GraphBuilder.build renamedFiles).size,
      ∀ k ∈ ((GraphBuilder.build renamedFiles).classAt x).methods.keys,
      ∀ symbol ∈ (GraphBuilder.build renamedFiles).methodIn? x k,
      ∀ symbol' ∈ (GraphBuilder.build shapeFiles).methodIn? (renamedCorrespondence.classOf x)
        (renamedCorrespondence.methodKey x k), ∀ need,
      first.task.chain.needsMethodName
          ((GraphBuilder.build shapeFiles).classAt (renamedCorrespondence.classOf x)) symbol' =
        .ok need →
      next.task.chain.needsMethodName ((GraphBuilder.build renamedFiles).classAt x) symbol =
        .ok need := by
    cases hfirst
    cases hnext
    decide +kernel
  have hagrees : renamedCorrespondence.Agrees next.task.chain first.task.chain := by
    refine ⟨by decide +kernel, by decide +kernel, ?_, ?_, ?_, ?_,
      fun x k symbol symbol' hsymbol => ?_⟩
    case refine_5 =>
      obtain ⟨m, hslot, -⟩ := Option.bind_eq_some_iff.1 hsymbol
      have hk := ClassGraph.declares_iff.2 ⟨m, hslot⟩
      exact hmethods x (ClassGraph.lt_size_of_declares hk) k
        (ClassGraph.declares_iff_mem_keys.1 hk) symbol hsymbol symbol'
    all_goals
      cases hfirst
      cases hnext
      decide +kernel
  obtain ⟨table, set', last', htable, hgenerate, -, hcounters, -, -, hmethod⟩ :=
    exists_generate_of_match shapeFiles renamedFiles _ _ _ _ _ _ _ _ _ _ renamedMatches
      renamedCorrespondence hfirst hrun hnext hstart.1 (by decide +kernel) (by decide +kernel)
      hpackages hrenames hagrees lists_renamedMatches
  have hname := hmethod 0 ⟨"g", "()V"⟩ (by decide +kernel)
  have hnew : (GraphBuilder.build renamedFiles).nameAt 0 = "c" := by decide +kernel
  have hkey : (⟨(GraphBuilder.build shapeFiles).nameAt (renamedCorrespondence.classOf 0),
      renamedCorrespondence.methodKey 0 ⟨"g", "()V"⟩⟩ : MemberRef) = ⟨"d", ⟨"f", "()V"⟩⟩ := by
    decide +kernel
  rw [hnew, hkey, hold.1] at hname
  refine ⟨first, _, next, last', set, set', table, hfirst, hrun, htable, hnext, hgenerate,
    hname, ?_⟩
  rw [hcounters, hstart.2, hold.2]
  rfl

end Generator

end StableNaming
