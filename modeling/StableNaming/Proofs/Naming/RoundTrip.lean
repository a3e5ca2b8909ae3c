import StableNaming.Pattern.Engine
import StableNaming.Proofs.Naming.Generation
import StableNaming.Proofs.Naming.Planned
import StableNaming.Proofs.Naming.Recorded

/-!
# Generating again

A generator that knows the table of an earlier run on the same graph, with the
same configuration and the same policies, gives the mapping set of that run again.
Every symbol finds its own name in the table, so no conflict comes up and no
counter moves.
-/

namespace StableNaming

open NamingM

/-! ## What an earlier mapping of the same classes offers -/

namespace NamingTask

variable {task : NamingTask} {start : Counters} {c : NamingContext} {t : MappingTable}

/-- A heritage with the table of a run, and with nothing else, offers a family its name and no
other one. -/
theorem Remembered.keys_candidates_of_prior (h : task.Remembered start c t) {heritage : Heritage}
    (honly : heritage.PriorOnly) (hprior : heritage.prior = t) {id : ClassId} {key : MemberKey}
    {method : MethodId} {symbol : MethodSymbol} (hstarts : task.Starts id key method symbol)
    (hneed : task.chain.needsMethodName (task.graph.classAt id) symbol = .ok true) {name : String}
    (hname : c.methodNames.find? method = some name) :
    (({ task with heritage } : NamingTask).candidates (task.hierarchy.family id key) key).keys =
      [name] := by
  have hmem := fun x => @ClassGraph.Finished.mem_family_iff_holds _ h.graph task.hierarchy id x
    key method hstarts.slot
  refine keys_candidates_of_agree ?_ fun x hx found ref hoffer => ?_
  · refine ⟨id, (hmem id).2 hstarts.slot, ⟨task.graph.nameAt id, key⟩, ?_⟩
    change heritage.methodName? ⟨task.graph.nameAt id, key⟩ = _
    rw [honly.methodName?_eq, hprior, h.judge_method hstarts hneed hname]
    rfl
  · have hslot := (hmem x).1 hx
    change heritage.methodName? ⟨task.graph.nameAt x, key⟩ = _ at hoffer
    rw [honly.methodName?_eq, hprior] at hoffer
    rcases h.judge_method_eq_or hslot hname with hjudge | hjudge
    · rw [hjudge] at hoffer
      cases hoffer
    · rw [hjudge, Carried.name?, Option.map_some, Option.some_inj, Prod.mk.injEq] at hoffer
      exact hoffer.1.symm

namespace Recorded

/-- A heritage with the table of a run, and with nothing else, offers every symbol its name. -/
theorem offers_of_prior (h : task.Recorded start c t) {heritage : Heritage}
    (honly : heritage.PriorOnly) (hprior : heritage.prior = t) :
    ({ task with heritage } : NamingTask).Offers (.ofContext task.graph c) where
  type id hid := by
    obtain ⟨name, hname⟩ := (h.settled id hid).name
    have hminted := h.minted.type hid hname
    have hparent := (task.follows_ofContext c).parentName_eq h.graph hminted.outer
    obtain ⟨need, hneed⟩ := hminted.decided
    refine ⟨need, hneed, fun hkept => ?_, fun hcarried => ?_⟩
    · rw [hkept] at hneed
      rw [NamePlan.type_ofContext hname, hminted.kept hneed, hparent]
      rfl
    · rw [hcarried] at hneed
      obtain ⟨found, n, hfound, heq, hjudge, hpassed⟩ := h.judge_type hid (h.loaded id hid) hneed
      refine ⟨found, ?_, ?_, hpassed⟩
      · change heritage.className? (task.graph.nameAt id) = some found
        rw [honly.className?_eq, hprior, hjudge]
        rfl
      · rw [NamePlan.type_ofContext hfound]
        rw [hparent] at heq
        exact carriedClassName_eq_self (h.packages id hid) heq
  field id hloaded f hf := by
    have hid : id < task.graph.size := ClassGraph.lt_size_of_mem_fields hf
    obtain ⟨need, hneed, -⟩ := (h.settled id hid).fields hloaded f hf
    refine ⟨need, hneed, fun hcarried => ?_⟩
    rw [hcarried] at hneed
    obtain ⟨name, hname, hjudge, hpassed⟩ := h.judge_field hid hloaded hf hneed
    change heritage.fieldName? ⟨task.graph.nameAt id, f.key⟩ =
        some ((NamePlan.ofContext task.graph c).field ⟨task.graph.nameAt id, f.key⟩) ∧
      (NamePlan.ofContext task.graph c).Passed .field
        ((NamePlan.ofContext task.graph c).field ⟨task.graph.nameAt id, f.key⟩)
    rw [NamePlan.field_ofContext hname, honly.fieldName?_eq, hprior, hjudge]
    exact ⟨rfl, hpassed⟩
  method id key method symbol hstarts := by
    have hstarts : task.Starts id key method symbol :=
      ⟨hstarts.loaded, hstarts.slot, hstarts.not_initializer, hstarts.source, hstarts.declared⟩
    have hid := ClassGraph.lt_size_of_slot? hstarts.slot
    obtain ⟨need, hneed, hnamed⟩ := (h.settled id hid).of_starts hstarts
    refine ⟨need, hneed, fun hcarried => ?_⟩
    rw [hcarried] at hneed
    obtain ⟨name, hname⟩ := hnamed hcarried
    rw [NamePlan.method_ofContext hname]
    exact ⟨h.keys_candidates_of_prior honly hprior hstarts hneed hname,
      fun m hm => h.lt_of_suffix?_method hname hm⟩

/-- A run that follows the plan of the recorded one gives the same mapping set. -/
theorem setIn_eq_of_follows (h : task.Recorded start c t) {heritage : Heritage} {c' : NamingContext}
    (hfollows : ({ task with heritage } : NamingTask).Follows (.ofContext task.graph c) c')
    (hsettled : ∀ id < task.graph.size, ({ task with heritage } : NamingTask).ClassSettled c' id) :
    ({ task with heritage } : NamingTask).setIn c' = task.setIn c := by
  have hown := ({ task with heritage } : NamingTask).follows_ofContext c
  exact setIn_congr hown hfollows h.graph
    (fun id hid => ⟨(h.settled id hid).name, (h.settled id hid).fields, (h.settled id hid).methods⟩)
    hsettled

end Recorded

end NamingTask

namespace Generator

variable {ρ σ : Type}

/-- Whether a generator starts without names where a run ended, and knows the table of the run and
nothing else. -/
structure Resumes (gen : Generator σ) (task : NamingTask) (c : NamingContext) (t : MappingTable) :
    Prop where
  /-- The counter file can be read. -/
  stored : ∃ stored, gen.storedCounters = .ok stored
  /-- The counters start where those of the run ended. -/
  start : gen.startCounters = c.counters
  /-- Only what is known of earlier names is another. -/
  task_eq : ∃ heritage : Heritage, gen.task = { task with heritage } ∧ heritage.PriorOnly ∧
    heritage.prior = t
  /-- No class has a name. -/
  classNames : gen.context.classNames = .empty
  /-- No field has a name. -/
  fieldNames : gen.context.fieldNames = .empty
  /-- No method has a name. -/
  methodNames : gen.context.methodNames = .empty

/-- A generator that starts without names where a recorded run ended, and that knows the table of
the run and nothing else, gives the mapping set of the run again. -/
theorem exists_generate_of_recorded [ConflictResolver σ] {gen : Generator σ} {task : NamingTask}
    {start : Counters} {c : NamingContext} {t : MappingTable}
    (h : task.Recorded start c t) (hresumes : gen.Resumes task c t) :
    ∃ last', gen.generate = (.ok (task.setIn c), last') ∧
      last'.context.counters = c.counters := by
  obtain ⟨stored, hstored⟩ := hresumes.stored
  obtain ⟨heritage, htask, honly, hprior⟩ := hresumes.task_eq
  have hoffers := h.offers_of_prior honly hprior
  rw [← htask] at hoffers
  have hgraph : gen.task.graph.Finished := by rw [htask]; exact h.graph
  obtain ⟨s, hgenerate, hfollows, -, hsettled⟩ :=
    exists_generate_of_offers hgraph hstored hresumes.classNames hresumes.fieldNames
      hresumes.methodNames hresumes.start hoffers
  rw [htask] at hgenerate hsettled hfollows
  rw [h.setIn_eq_of_follows hfollows hsettled] at hgenerate
  exact ⟨_, hgenerate, hfollows.counters_eq⟩

/-- A generator with the same graph, configuration, policies and counter file as that of a run
resumes the run when it reads its table. -/
theorem exists_resumes [PatternEngine] {graph : ClassGraph} {config : NamingConfig}
    {policies : List NamingPolicy} {counters : Counters} {resolver : ρ}
    {counterFile : Option File} {first last : Generator ρ} {c : NamingContext}
    {table : MappingTable} (resolver' : σ)
    (hfirst : fresh graph config policies counters resolver counterFile = .ok first)
    (hlast : last = { first with context := c, resolver := last.resolver }.storeCounters)
    (h : first.task.Remembered first.startCounters c table) :
    ∃ again second : Generator σ,
      fresh graph config policies {} resolver' last.counterFile = .ok again ∧
      again.withPrior table = .ok second ∧ second.Resumes first.task c table := by
  have hone := le_startCounters_of_fresh hfirst
  obtain ⟨stored, hstored, hstoredLe⟩ :=
    storedCounters_storeCounters { first with context := c, resolver := last.resolver }
  rw [← hlast] at hstored
  obtain ⟨patterns, hpatterns, rfl⟩ := fresh_eq_ok_iff.1 hfirst
  obtain ⟨again, hagain⟩ : ∃ again, freshWith graph config patterns policies {} resolver'
      last.counterFile = again := ⟨_, rfl⟩
  have hfresh : fresh graph config policies {} resolver' last.counterFile = .ok again :=
    fresh_eq_ok_iff.2 ⟨patterns, hpatterns, hagain⟩
  have hagainStored : again.storedCounters = .ok stored := by rw [← hagain]; exact hstored
  obtain ⟨heritage, hheritage⟩ : ∃ heritage : Heritage,
      heritage = { oldGraph := graph, prior := table } := ⟨_, rfl⟩
  obtain ⟨second, hsecond⟩ : ∃ second : Generator σ, second =
      { again with
        task := { again.task with heritage }
        context := again.context.mergeCounters table.counters } := ⟨_, rfl⟩
  have hprior : again.withPrior table = .ok second := by
    have hsource : table.source = config.sourceNamespace := h.answers.source_eq
    have htarget : table.target = config.targetNamespace := h.answers.target_eq
    rw [hsecond, hheritage, ← hagain]
    exact withPrior_eq_ok_iff.2 ⟨⟨hsource, htarget⟩, rfl⟩
  have hsecondStored : second.storedCounters = .ok stored := by rw [hsecond]; exact hagainStored
  refine ⟨again, second, hfresh, hprior, ⟨stored, hsecondStored⟩,
    Counters.ext_get fun kind => ?_, ⟨heritage, ?_, ?_, ?_⟩, ?_, ?_, ?_⟩
  · have hmerge := get_startCounters_of_merge hagainStored hsecondStored (by rw [hsecond]; rfl) kind
    have hle := (hone kind).trans (h.minted.start_le kind)
    have hstoredKind : stored.get kind ≤ max 1 (c.counters.get kind) := hstoredLe kind
    rw [get_startCounters_of_fresh hfresh hagainStored, h.get_counters_eq hone] at hmerge
    omega
  · rw [hsecond, ← hagain]
    rfl
  · rw [hheritage]
    exact ⟨rfl, rfl⟩
  · rw [hheritage]
  · rw [hsecond, ← hagain]
    rfl
  · rw [hsecond, ← hagain]
    rfl
  · rw [hsecond, ← hagain]
    rfl

/-- A generator that knows the table of an earlier run on the same graph, with the same
configuration, policies and counter file, succeeds, whoever settles conflicts, and gives the
mapping set of that run again. -/
theorem exists_generate_eq_of_prior [PatternEngine] [ConflictResolver ρ] [ConflictResolver σ]
    (files : List ClassFile) (config : NamingConfig) (policies : List NamingPolicy)
    (counters : Counters) (resolver : ρ) (resolver' : σ) (counterFile : Option File)
    {first last : Generator ρ} {set : MappingSet}
    (hfirst : fresh (GraphBuilder.build files) config policies counters resolver counterFile =
      .ok first)
    (hrun : first.generate = (.ok set, last))
    (hloaded : ∀ id < (GraphBuilder.build files).size,
      ((GraphBuilder.build files).classAt id).loaded = true)
    (hpackages : ∀ id < (GraphBuilder.build files).size,
      NamingTask.IsPackage (first.task.chain.packageFor ((GraphBuilder.build files).classAt id)))
    (hrenames : last.Renames) :
    ∃ table again second last', set.toTable = .ok table ∧
      fresh (GraphBuilder.build files) config policies {} resolver' last.counterFile = .ok again ∧
      again.withPrior table = .ok second ∧ second.generate = (.ok set, last') ∧
      last'.context.counters = last.context.counters := by
  obtain ⟨c, table, hset, htable, hlast, hrecorded⟩ :=
    exists_recorded hfirst hrun hloaded hpackages hrenames
  have hcounters : last.context.counters = c.counters := by rw [hlast]; rfl
  obtain ⟨again, second, hfresh, hprior, hresumes⟩ :=
    exists_resumes resolver' hfirst hlast hrecorded.toRemembered
  obtain ⟨last', hgenerate, hsame⟩ := exists_generate_of_recorded hrecorded hresumes
  rw [← hset] at hgenerate
  exact ⟨table, again, second, last', htable, hfresh, hprior, hgenerate, hsame.trans hcounters.symm⟩

/-- Classes of all shapes: a top-level class with members, one that is anonymous, a local one and a
member class inside it, a subclass that overrides a method, and one more class. -/
def shapeFiles : List ClassFile :=
  [{ name := "a", fields := [{ key := ⟨"x", "I"⟩ }],
      methods := [{ key := ⟨"f", "()V"⟩ }, { key := ⟨"<init>", "()V"⟩ }] },
    { name := "a$1", enclosure := some { className := "a" } },
    { name := "a$2c", enclosure := some { className := "a" }, innerName := some "c" },
    { name := "a$b", declaring := some "a", innerName := some "b" },
    { name := "d", superName := some "a", methods := [{ key := ⟨"f", "()V"⟩ }] },
    { name := "k" }]

/-- A policy that wants names for all symbols but one class. -/
def allBut (kept : String) : NamingPolicy where
  name := "all but one class"
  classVote c := if c.name = kept then -2 else 2
  fieldVote _ _ := 2
  methodVote _ _ := 2

/-- Classes of all shapes are named again as before. -/
theorem exists_generate_eq_of_prior_shapes :
    ∃ (first last again second last' : Generator Resolver) (set : MappingSet)
      (table : MappingTable),
      fresh (GraphBuilder.build shapeFiles) { patterns := ⟨[], [], []⟩ } [allBut "k"] {}
        .refuse (some none) = .ok first ∧
      first.generate = (.ok set, last) ∧ set.toTable = .ok table ∧
      fresh (GraphBuilder.build shapeFiles) { patterns := ⟨[], [], []⟩ } [allBut "k"] {}
        .refuse last.counterFile = .ok again ∧
      again.withPrior table = .ok second ∧ second.generate = (.ok set, last') := by
  obtain ⟨first, hfirst⟩ : ∃ first, fresh (GraphBuilder.build shapeFiles)
      { patterns := ⟨[], [], []⟩ } [allBut "k"] {} Resolver.refuse (some none) = .ok first :=
    ⟨_, rfl⟩
  obtain ⟨set, hrun⟩ : ∃ set, first.generate = (.ok set, first.generate.2) := by
    refine exists_generate_eq_of_isOk ?_
    cases hfirst
    decide +kernel
  have hpackages : ∀ id < (GraphBuilder.build shapeFiles).size, NamingTask.IsPackage
      (first.task.chain.packageFor ((GraphBuilder.build shapeFiles).classAt id)) := by
    cases hfirst
    decide +kernel
  have hrenames : first.generate.2.Renames := by
    cases hfirst
    decide +kernel
  obtain ⟨table, again, second, last', htable, hagain, hprior, hsecond, -⟩ :=
    exists_generate_eq_of_prior shapeFiles _ _ _ _ Resolver.refuse _ hfirst hrun
      (by decide +kernel) hpackages hrenames
  exact ⟨first, _, again, second, last', set, table, hfirst, hrun, htable, hagain, hprior, hsecond⟩

end Generator

end StableNaming
