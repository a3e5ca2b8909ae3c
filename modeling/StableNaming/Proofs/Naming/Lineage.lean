import StableNaming.Proofs.Naming.Generation
import StableNaming.Proofs.Naming.Passing
import StableNaming.Proofs.Policy.Engine

/-!
# Chains of runs

A run hands its table on to the next one, as an earlier mapping of the same classes
or as the mapping of an old version. Along a chain of such runs no counter goes back,
and no number is handed out that has been met before, whatever graphs the runs are
about and whatever symbols come and go. This is about numbers that fit in a word: a
carried name can have a greater one, which no counter can pass, and then the numbers
that later runs hand out are smaller.
-/

namespace StableNaming

namespace Generator

variable {ρ σ : Type} {t : MappingTable}

/-- Whether a generator knows no earlier names and has decided none. -/
structure Blank (gen : Generator ρ) : Prop where
  /-- No earlier mapping of the same classes is known. -/
  prior : gen.task.heritage.prior = .theIdentity
  /-- No mapping of an old version is known. -/
  old : gen.task.heritage.old = .theIdentity
  /-- No class has a name. -/
  classNames : gen.context.classNames = .empty
  /-- No field has a name. -/
  fieldNames : gen.context.fieldNames = .empty
  /-- No method has a name. -/
  methodNames : gen.context.methodNames = .empty

/-- Whether a generator knows one table, as an earlier mapping of the same classes or as the mapping
of an old version, and has decided no name. -/
inductive Reads (t : MappingTable) : {ρ : Type} → Generator ρ → Prop where
  /-- The table is that of an earlier mapping of the same classes. -/
  | prior {ρ : Type} {gen gen' : Generator ρ} :
    gen.Blank → gen.withPrior t = .ok gen' → Reads t gen'
  /-- The table is that of an old version, with any matches. -/
  | update {ρ : Type} {gen : Generator ρ} (oldGraph : ClassGraph) (matched : MappingTable) :
    gen.Blank → Reads t (gen.withUpdate oldGraph matched t)
  /-- Policies may be added. -/
  | policy {ρ : Type} {gen : Generator ρ} (policy : NamingPolicy) :
    Reads t gen → Reads t (gen.withPolicy policy)
  /-- Counters may be moved on. -/
  | counters {ρ : Type} {gen : Generator ρ} (counters : Counters) :
    Reads t gen → Reads t (gen.withCounters counters)
  /-- Anybody may settle conflicts. -/
  | resolver {ρ σ : Type} {gen : Generator ρ} (resolver : σ) :
    Reads t gen → Reads t (gen.withResolver resolver)

/-- What a generator that reads a table starts from. -/
structure Informed (t : MappingTable) (gen : Generator ρ) : Prop where
  /-- The earlier mapping of the same classes is the table or renames nothing. -/
  prior : gen.task.heritage.prior = .theIdentity ∨ gen.task.heritage.prior = t
  /-- The mapping of the old version is the table or renames nothing. -/
  old : gen.task.heritage.old = .theIdentity ∨ gen.task.heritage.old = t
  /-- The counters have been moved past those of the table. -/
  counters_le : ∀ kind, t.counters.get kind ≤ gen.context.counters.get kind
  /-- No class has a name. -/
  classNames : gen.context.classNames = .empty
  /-- No field has a name. -/
  fieldNames : gen.context.fieldNames = .empty
  /-- No method has a name. -/
  methodNames : gen.context.methodNames = .empty

theorem le_get_mergeCounters (c : NamingContext) (counters : Counters) (kind : SymbolKind) :
    c.counters.get kind ≤ (c.mergeCounters counters).counters.get kind ∧
      counters.get kind ≤ (c.mergeCounters counters).counters.get kind := by
  have hmerge : (c.mergeCounters counters).counters.get kind =
      max (c.counters.get kind) (counters.get kind) := Counters.get_merge _ _ _
  omega

/-- Whatever options are set, a generator that reads a table has taken it into account. -/
theorem Reads.informed {gen : Generator ρ} (h : gen.Reads t) : gen.Informed t := by
  induction h with
  | @prior _ gen gen' hblank hprior =>
    obtain ⟨-, rfl⟩ := withPrior_eq_ok_iff.1 hprior
    exact ⟨.inr rfl, .inl hblank.old, fun kind => (le_get_mergeCounters _ _ kind).2,
      hblank.classNames, hblank.fieldNames, hblank.methodNames⟩
  | update oldGraph matched hblank =>
    exact ⟨.inl hblank.prior, .inr rfl, fun kind => (le_get_mergeCounters _ _ kind).2,
      hblank.classNames, hblank.fieldNames, hblank.methodNames⟩
  | policy policy _ ih =>
    exact ⟨ih.prior, ih.old, ih.counters_le, ih.classNames, ih.fieldNames, ih.methodNames⟩
  | counters counters _ ih =>
    exact ⟨ih.prior, ih.old,
      fun kind => (ih.counters_le kind).trans (le_get_mergeCounters _ _ kind).1,
      ih.classNames, ih.fieldNames, ih.methodNames⟩
  | resolver resolver _ ih =>
    exact ⟨ih.prior, ih.old, ih.counters_le, ih.classNames, ih.fieldNames, ih.methodNames⟩

/-- A run starts with counters that are no smaller than those of the generator. -/
theorem le_startCounters (gen : Generator ρ) (kind : SymbolKind) :
    gen.context.counters.get kind ≤ gen.startCounters.get kind := by
  rw [startCounters]
  split
  · rw [Counters.get_merge]
    exact Nat.le_max_left _ _
  · exact Nat.le_refl _

end Generator

/-! ## Runs of a chain -/

/-- A successful run of a generator that has decided no name yet. -/
structure Episode where
  /-- Who settles conflicts. -/
  {ρ : Type}
  /-- How they are settled. -/
  [settles : ConflictResolver ρ]
  /-- The class files. -/
  files : List ClassFile
  /-- The generator before the run. -/
  before : Generator ρ
  /-- The generator after the run. -/
  after : Generator ρ
  /-- What the run gives. -/
  set : MappingSet
  /-- The graph is that of the class files. -/
  graph_eq : before.task.graph = GraphBuilder.build files
  /-- No class has a name. -/
  classNames : before.context.classNames = .empty
  /-- No field has a name. -/
  fieldNames : before.context.fieldNames = .empty
  /-- No method has a name. -/
  methodNames : before.context.methodNames = .empty
  /-- Packages are empty or end in a slash. -/
  packages : ∀ id < before.task.graph.size,
    NamingTask.IsPackage (before.task.chain.packageFor (before.task.graph.classAt id))
  /-- No class looks generated. -/
  plain : ∀ id < before.task.graph.size,
    SymbolKind.type.isGenerated (before.task.graph.nameAt id) = false
  /-- The run succeeds. -/
  generate_eq : before.generate = (.ok set, after)

namespace Episode

open Generator

attribute [instance] Episode.settles

/-- Whether a run hands its table on to another one. -/
def Hands (r r' : Episode) : Prop := ∃ t, r.set.toTable = .ok t ∧ r'.before.Reads t

/-- The context with which a run starts. -/
def start (r : Episode) : NamingContext :=
  { r.before.context with counters := r.before.startCounters }

/-- Whether a run takes a decision. -/
def Takes (r : Episode) (d : Decision) : Prop :=
  ∃ ds, r.before.task.Log r.start ds r.after.context ∧ d ∈ ds

/-- Whether a run meets a number that fits in a word: it hands the number out or is offered a name
with it, chosen or not. -/
def Meets (r : Episode) (kind : SymbolKind) (n : Nat) : Prop :=
  ∃ d, r.Takes d ∧ n ∈ d.numbers kind

/-- Whether a run makes up the name of a kind with a number. -/
def Mints (r : Episode) (kind : SymbolKind) (n : Nat) : Prop :=
  ∃ d, r.Takes d ∧ d.Mints kind n

/-- Whether a run carries over a name of a kind with a number, whether that fits in a word or
not. -/
def Carries (r : Episode) (kind : SymbolKind) (n : Nat) : Prop :=
  ∃ d, r.Takes d ∧ d.Carries kind n

variable (r : Episode)

theorem finished : r.before.task.graph.Finished := by
  rw [r.graph_eq]
  exact GraphBuilder.finished_build r.files

/-- A run takes decisions that settle all classes. -/
theorem outcome : r.before.task.Leads r.start r.after.context ∧
    (∀ id < r.before.task.graph.size, r.before.task.ClassSettled r.after.context id) ∧
    r.set = r.before.task.setIn r.after.context := by
  obtain ⟨s, hsucceeds, hafter⟩ := Generator.exists_succeeds_of_generate r.generate_eq
  have hcontext : r.after.context = s.context := by rw [hafter]; rfl
  rw [hcontext]
  exact NamingTask.of_succeeds_run r.finished hsucceeds

/-- A run passes the numbers in its table, and the table has its counters. -/
theorem passedBy_of_toTable {t : MappingTable} (ht : r.set.toTable = .ok t) :
    t.PassedBy r.after.context.counters ∧
      ∀ kind, r.after.context.counters.get kind ≤ t.counters.get kind := by
  obtain ⟨hleads, hsettled, hset⟩ := r.outcome
  have haccounted := hleads.accounted r.finished.names r.classNames r.fieldNames r.methodNames
  obtain ⟨t', ht', hanswers⟩ :=
    (NamingTask.unambiguous_setIn r.finished r.after.context).toTable
  rw [← hset, ht] at ht'
  obtain rfl := Except.ok.inj ht'
  refine ⟨haccounted.passedBy r.finished hsettled r.packages r.plain hanswers, fun kind => ?_⟩
  rw [hanswers.counters_eq kind]
  exact Nat.le_max_right _ _

variable {r}

/-- Every number that a run meets is passed in the end. -/
theorem Meets.lt {kind : SymbolKind} {n : Nat} (h : r.Meets kind n) :
    n < r.after.context.counters.get kind := by
  obtain ⟨d, ⟨ds, hlog, hd⟩, hn⟩ := h
  rw [hlog.get_counters]
  exact lt_nextAfter (List.mem_flatMap.2 ⟨d, hd, hn⟩) _

/-- A run hands out numbers from its first counter on. -/
theorem Mints.le {kind : SymbolKind} {n : Nat} (h : r.Mints kind n) :
    r.start.counters.get kind ≤ n := by
  obtain ⟨d, ⟨ds, hlog, hd⟩, hmints⟩ := h
  obtain ⟨c₁, c₂, hbefore, hdecides, -⟩ := hlog.exists_decides hd
  rw [hdecides.number_eq hmints]
  exact hbefore.get_counters_le kind

/-- What a run hands out fits in a word. -/
theorem Mints.lt_wordLimit {kind : SymbolKind} {n : Nat} (h : r.Mints kind n) :
    n < Text.wordLimit := by
  obtain ⟨d, ⟨ds, hlog, hd⟩, hmints⟩ := h
  obtain ⟨c₁, c₂, -, hdecides, -⟩ := hlog.exists_decides hd
  exact hdecides.lt_wordLimit hmints

/-- A run meets a number that it hands out or carries over if the number fits in a word. -/
theorem meets_of_mints_or_carries {kind : SymbolKind} {n : Nat}
    (h : r.Mints kind n ∨ r.Carries kind n) (hword : n < Text.wordLimit) : r.Meets kind n := by
  rcases h with ⟨d, hd, hkind, hminted⟩ | ⟨d, hd, hcarries⟩
  · refine ⟨d, hd, ?_⟩
    rw [Decision.numbers, if_pos hkind, hminted]
    exact List.mem_singleton_self n
  · obtain ⟨ds, hlog, hmem⟩ := hd
    obtain ⟨c₁, c₂, -, hdecides, -⟩ := hlog.exists_decides hmem
    exact ⟨d, ⟨ds, hlog, hmem⟩, hdecides.mem_numbers hcarries hword⟩

/-- A counter moves only past numbers that the run meets. -/
theorem get_counters_eq_or (r : Episode) (kind : SymbolKind) :
    r.after.context.counters.get kind = r.start.counters.get kind ∨
      ∃ n, r.Meets kind n ∧ r.after.context.counters.get kind = n + 1 := by
  obtain ⟨⟨ds, hlog⟩, -, -⟩ := r.outcome
  rw [hlog.get_counters]
  refine (nextAfter_eq_or _ _).imp_right ?_
  rintro ⟨n, hn, hnext⟩
  obtain ⟨d, hd, hmet⟩ := List.mem_flatMap.1 hn
  exact ⟨n, ⟨d, ⟨ds, hlog, hd⟩, hmet⟩, hnext⟩

/-- A run that is handed a table starts where the one before ended, and of the numbers that fit in a
word it only carries over those that were passed then. -/
theorem Hands.start_le {r' : Episode} (h : r.Hands r') (kind : SymbolKind) :
    r.after.context.counters.get kind ≤ r'.start.counters.get kind := by
  obtain ⟨t, ht, hreads⟩ := h
  have hlast := (r.passedBy_of_toTable ht).2 kind
  have hknown := hreads.informed.counters_le kind
  exact (hlast.trans hknown).trans (r'.before.le_startCounters kind)

theorem Hands.lt_of_carries {r' : Episode} (h : r.Hands r') {kind : SymbolKind} {n : Nat}
    (hn : r'.Carries kind n) (hword : n < Text.wordLimit) :
    n < r.after.context.counters.get kind := by
  obtain ⟨t, ht, hreads⟩ := h
  have hpassed := (r.passedBy_of_toTable ht).1
  have hidentity := MappingTable.passedBy_theIdentity r.after.context.counters
  have hprior : r'.before.task.heritage.prior.PassedBy r.after.context.counters := by
    rcases hreads.informed.prior with hprior | hprior <;> rw [hprior] <;> assumption
  have hold : r'.before.task.heritage.old.PassedBy r.after.context.counters := by
    rcases hreads.informed.old with hold | hold <;> rw [hold] <;> assumption
  obtain ⟨d, ⟨ds, hlog, hd⟩, hcarries⟩ := hn
  obtain ⟨c₁, c₂, -, hdecides, -⟩ := hlog.exists_decides hd
  have hor := hdecides.lt_or_mints hprior hold (hdecides.mem_numbers hcarries hword)
  refine hor.resolve_right fun hmints => ?_
  have hcarried := hcarries.2
  rw [hmints.2] at hcarried
  exact hcarried.elim

/-- Whether a symbol of the graph has a name after a run. -/
def Names (r : Episode) (subject : Subject) (name : String) : Prop :=
  r.before.task.nameIn? r.after.context subject = some name ∧
    ∀ id, subject = .type id → id < r.before.task.graph.size

/-- Every name goes back to a decision. -/
theorem Names.exists_takes {subject : Subject} {name : String} (h : r.Names subject name) :
    ∃ d, r.Takes d ∧ d.subject = subject := by
  obtain ⟨⟨ds, hlog⟩, -, -⟩ := r.outcome
  obtain ⟨hname, hid⟩ := h
  have hexists : ∃ d ∈ ds, d.subject = subject := by
    cases subject with
    | type id =>
      have hnew : r.before.context.classNames.find? (r.before.task.graph.nameAt id) = none := by
        rw [r.classNames]
        rfl
      exact hlog.exists_mem_of_classNames r.finished.names (hid id rfl) hnew hname
    | field ref => exact hlog.exists_mem_of_fieldNames r.fieldNames hname
    | method method => exact hlog.exists_mem_of_methodNames r.methodNames hname
  obtain ⟨d, hd, hsubject⟩ := hexists
  exact ⟨d, ⟨ds, hlog, hd⟩, hsubject⟩

/-- The number in a name is handed out or carried over. -/
theorem Takes.mints_or_carries {d : Decision} (h : r.Takes d) {name : String}
    (hname : r.Names d.subject name) {n : Nat} (hn : d.subject.kind.number? name = some n) :
    d.Mints d.subject.kind n ∨ d.Carries d.subject.kind n := by
  obtain ⟨ds, hlog, hd⟩ := h
  have hgiven := hlog.nameIn?_eq hd
  rw [hname.1, Option.some_inj] at hgiven
  rw [hgiven] at hn
  have hor : d.provenance = .minted n ∨ d.provenance.Carries d.subject.kind n := by
    obtain ⟨subject, provenance⟩ := d
    cases subject with
    | type id =>
      have hid := hname.2 id rfl
      exact NamingTask.minted_or_carries_of_number?_classNameBy (r.packages id hid) (r.plain id hid)
        hn
    | field ref => exact Provenance.minted_or_carries_of_number?_name hn
    | method method => exact Provenance.minted_or_carries_of_number?_name hn
  exact hor.imp (⟨rfl, ·⟩) (⟨rfl, ·⟩)

/-! ## Chains -/

/-- Whether the counters of one run have been passed when another one starts. -/
def Precedes (r r' : Episode) : Prop :=
  ∀ kind, r.after.context.counters.get kind ≤ r'.start.counters.get kind

theorem start_le_after (r : Episode) (kind : SymbolKind) :
    r.start.counters.get kind ≤ r.after.context.counters.get kind :=
  r.outcome.1.get_counters_le kind

instance : Trans Precedes Precedes Precedes where
  trans {_ r' _} h h' kind := ((h kind).trans (r'.start_le_after kind)).trans (h' kind)

/-- In a chain every run but the first one is handed a table. -/
theorem exists_hands_of_mem_tail {runs : List Episode} (hchain : runs.IsChain Hands) {r' : Episode}
    (hmem : r' ∈ runs.tail) : ∃ r : Episode, r.Hands r' := by
  induction runs with
  | nil => exact absurd hmem List.not_mem_nil
  | cons r runs ih =>
    cases runs with
    | nil => exact absurd hmem List.not_mem_nil
    | cons next runs =>
      obtain ⟨hfirst, hrest⟩ := List.isChain_cons_cons.1 hchain
      rcases List.mem_cons.1 hmem with heq | hmem
      · exact ⟨r, heq ▸ hfirst⟩
      · exact ih hrest hmem

/-- How the counters of a run follow the numbers in its names. -/
structure CountsNumbers (r : Episode) : Prop where
  /-- Every name goes back to a decision, which hands out or carries over the number in it. -/
  exists_takes : ∀ subject name, r.Names subject name → ∃ d, r.Takes d ∧ d.subject = subject ∧
    ∀ n, subject.kind.number? name = some n → d.Mints subject.kind n ∨ d.Carries subject.kind n
  /-- The counter ends past a number that is handed out or carried over exactly if that fits in a
  word. -/
  lt_iff : ∀ kind n, r.Mints kind n ∨ r.Carries kind n →
    (n < r.after.context.counters.get kind ↔ n < Text.wordLimit)
  /-- It ends past the numbers of names that were offered and not chosen, too. -/
  lt_of_meets : ∀ kind n, r.Meets kind n → n < r.after.context.counters.get kind
  /-- It moves for no other reason. -/
  eq_or : ∀ kind, r.after.context.counters.get kind = r.start.counters.get kind ∨
    ∃ n, r.Meets kind n ∧ r.after.context.counters.get kind = n + 1

/-- Whether a run leaves behind the numbers in the names of an earlier one. -/
structure LeavesBehind (r r' : Episode) : Prop where
  /-- No counter goes back. -/
  counters_le : ∀ kind,
    r.after.context.counters.get kind ≤ r'.after.context.counters.get kind
  /-- What the later run hands out is greater than a number that the earlier one handed out or
  carried over exactly if the latter fits in a word. -/
  lt_iff : ∀ kind m n, r.Mints kind m ∨ r.Carries kind m → r'.Mints kind n →
    (m < n ↔ m < Text.wordLimit)
  /-- It is greater than the numbers of names that were offered and not chosen, too. -/
  lt_of_meets : ∀ kind m n, r.Meets kind m → r'.Mints kind n → m < n

theorem countsNumbers (r : Episode) : r.CountsNumbers where
  exists_takes subject name hname := by
    obtain ⟨d, hd, rfl⟩ := hname.exists_takes
    exact ⟨d, hd, rfl, fun n hn => hd.mints_or_carries hname hn⟩
  lt_iff kind n hn :=
    ⟨fun hlt => hlt.trans (r.after.context.counters.get_lt kind),
      fun hword => (meets_of_mints_or_carries hn hword).lt⟩
  lt_of_meets _ _ hn := hn.lt
  eq_or := r.get_counters_eq_or

theorem Precedes.leavesBehind {r' : Episode} (h : r.Precedes r') : r.LeavesBehind r' := by
  have hmet : ∀ kind m n, r.Meets kind m → r'.Mints kind n → m < n := by
    intro kind m n hm hn
    have hstart := h kind
    have hlt := hm.lt
    have hle := hn.le
    omega
  refine ⟨fun kind => (h kind).trans (r'.start_le_after kind), fun kind m n hm hn => ?_, hmet⟩
  exact ⟨fun hlt => hlt.trans hn.lt_wordLimit,
    fun hword => hmet kind m n (meets_of_mints_or_carries hm hword) hn⟩

/-- Along a chain of runs numbers that fit in a word are not recycled. The number in a name is
handed out or carried over by a decision, and the counters end past it exactly if it fits in a
word. From run to run no counter goes back, and what a run hands out is greater than the numbers
in the names of all earlier runs but for those that fit in no word. No run but the first one
carries over a number that it hands out. -/
theorem numbers_not_recycled (runs : List Episode) (hchain : runs.IsChain Hands) :
    (∀ r ∈ runs, r.CountsNumbers) ∧ runs.Pairwise LeavesBehind ∧
      ∀ r ∈ runs.tail, ∀ kind n, r.Mints kind n → ¬ r.Carries kind n := by
  have hprecedes : runs.IsChain Precedes := hchain.imp fun r r' h => h.start_le
  refine ⟨fun r _ => r.countsNumbers,
    (List.isChain_iff_pairwise.1 hprecedes).imp Precedes.leavesBehind,
    fun r' hmem kind n hmints hcarries => ?_⟩
  obtain ⟨r, hhands⟩ := exists_hands_of_mem_tail hchain hmem
  have hstart := hhands.start_le kind
  have hlt := hhands.lt_of_carries hcarries hmints.lt_wordLimit
  have hle := hmints.le
  omega

/-- Two classes. -/
def firstVersion : List ClassFile := [{ name := "a" }, { name := "b" }]

/-- One of them is gone, and there is a new one. -/
def secondVersion : List ClassFile := [{ name := "b" }, { name := "c" }]

/-- What a run on the first version gives. -/
def firstSet : MappingSet where
  source := "official"
  target := "intermediary"
  counters := ⟨3, 1, 1⟩
  classes := [{ name := "a", target := "net/minecraft/class_1" },
    { name := "b", target := "net/minecraft/class_2" }]

/-- Its table. -/
def firstTable : MappingTable where
  source := "official"
  target := "intermediary"
  counters := ⟨3, 1, 1⟩
  classes := .ofList [("a", "net/minecraft/class_1"), ("b", "net/minecraft/class_2")]

/-- The run of a generator that has decided no name yet. -/
def ofGenerator {ρ : Type} [ConflictResolver ρ] (files : List ClassFile) (gen : Generator ρ)
    {set : MappingSet} (hgraph : gen.task.graph = GraphBuilder.build files)
    (hcontext : gen.context = { counters := gen.context.counters })
    (hpackages : ∀ id < gen.task.graph.size,
      NamingTask.IsPackage (gen.task.chain.packageFor (gen.task.graph.classAt id)))
    (hplain : ∀ id < gen.task.graph.size,
      SymbolKind.type.isGenerated (gen.task.graph.nameAt id) = false)
    (hset : gen.generate.1 = .ok set) : Episode where
  files
  before := gen
  after := gen.generate.2
  set
  graph_eq := hgraph
  classNames := by rw [hcontext]
  fieldNames := by rw [hcontext]
  methodNames := by rw [hcontext]
  packages := hpackages
  plain := hplain
  generate_eq := Prod.ext hset rfl

/-- The second version carries over the name of the class that stays, and the new class gets a
greater number than the one that is gone. -/
theorem exists_chain_of_versions :
    ∃ r r' : Episode, r.files = firstVersion ∧ r'.files = secondVersion ∧ [r, r'].IsChain Hands ∧
      r'.after.className? "b" = r.after.className? "b" ∧
      r'.after.className? "c" = some "net/minecraft/class_3" ∧
      ∀ kind m n, r.Meets kind m → r'.Mints kind n → m < n := by
  obtain ⟨first, hfirst⟩ : ∃ first, freshWith (GraphBuilder.build firstVersion) {} .usual [] {}
      Resolver.refuse none = first := ⟨_, rfl⟩
  have hrun : first.generate.1 = .ok firstSet := by
    cases hfirst
    decide +kernel
  obtain ⟨second, hsecond⟩ : ∃ second, (freshWith (GraphBuilder.build secondVersion) {} .usual [] {}
      Resolver.refuse none).withPrior firstTable = .ok second := ⟨_, rfl⟩
  obtain ⟨set, hrun'⟩ := @exists_generate_eq_of_isOk Resolver second _ (by
    cases hsecond
    decide +kernel)
  have htable : firstSet.toTable = .ok firstTable := by decide +kernel
  have hstays : second.generate.2.className? "b" = first.generate.2.className? "b" := by
    cases hfirst
    cases hsecond
    decide +kernel
  have hnew : second.generate.2.className? "c" = some "net/minecraft/class_3" := by
    cases hsecond
    decide +kernel
  have hblank : (freshWith (GraphBuilder.build secondVersion) {} .usual [] {}
      Resolver.refuse none).Blank := ⟨rfl, rfl, rfl, rfl, rfl⟩
  obtain ⟨r, hr⟩ : ∃ r, r = ofGenerator firstVersion first (by cases hfirst; rfl)
    (by cases hfirst; rfl) (by cases hfirst; decide +kernel) (by cases hfirst; decide +kernel)
    hrun := ⟨_, rfl⟩
  obtain ⟨r', hr'⟩ : ∃ r', r' = ofGenerator secondVersion second (by cases hsecond; rfl)
    (by cases hsecond; rfl) (by cases hsecond; decide +kernel) (by cases hsecond; decide +kernel)
    (congrArg Prod.fst hrun') := ⟨_, rfl⟩
  have hhands : r.Hands r' := by
    rw [hr, hr']
    exact ⟨firstTable, htable, .prior hblank hsecond⟩
  have hchain : [r, r'].IsChain Hands := by
    rw [List.isChain_cons_cons]
    exact ⟨hhands, List.IsChain.singleton _⟩
  obtain ⟨-, hpairs, -⟩ := numbers_not_recycled [r, r'] hchain
  refine ⟨r, r', by rw [hr]; rfl, by rw [hr']; rfl, hchain, ?_, ?_, ?_⟩
  · rw [hr, hr']
    exact hstays
  · rw [hr']
    exact hnew
  · exact (List.rel_of_pairwise_cons hpairs List.mem_cons_self).lt_of_meets

/-- A class with a method. -/
def loneVersion : List ClassFile := [{ name := "a", methods := [{ key := ⟨"f", "()V"⟩ }] }]

/-- It gets another method. -/
def nextVersion : List ClassFile :=
  [{ name := "a", methods := [{ key := ⟨"f", "()V"⟩ }, { key := ⟨"g", "()V"⟩ }] }]

/-- A mapping that names the method with a number that fits in no word. -/
def greatTable : MappingTable where
  source := "official"
  target := "intermediary"
  methods := .ofList [(⟨"a", ⟨"f", "()V"⟩⟩, ⟨"a", ⟨"method_18446744073709551616", "()V"⟩⟩)]

/-- What a run gives that carries the name over. -/
def greatSet : MappingSet where
  source := "official"
  target := "intermediary"
  counters := ⟨2, 1, 1⟩
  classes := [{ name := "a", target := "net/minecraft/class_1",
                methods := [{ key := ⟨"f", "()V"⟩, target := "method_18446744073709551616" }] }]

/-- Its table. -/
def greatSetTable : MappingTable where
  source := "official"
  target := "intermediary"
  counters := ⟨2, 1, 1⟩
  classes := .ofList [("a", "net/minecraft/class_1")]
  methods := .ofList [(⟨"a", ⟨"f", "()V"⟩⟩,
    ⟨"net/minecraft/class_1", ⟨"method_18446744073709551616", "()V"⟩⟩)]

/-- A run that carries over the great number leaves the counter at one, and the next run hands out
the one. -/
theorem mints_less_than_carried :
    ∃ r r' : Episode, [r, r'].IsChain Hands ∧ r.Carries .method 18446744073709551616 ∧
      r.after.context.counters.get .method = 1 ∧ r'.Mints .method 1 := by
  obtain ⟨first, hfirst⟩ : ∃ first, (freshWith (GraphBuilder.build loneVersion) {} .usual [] {}
      Resolver.refuse none).withPrior greatTable = .ok first := ⟨_, rfl⟩
  obtain ⟨second, hsecond⟩ : ∃ second, (freshWith (GraphBuilder.build nextVersion) {} .usual [] {}
      Resolver.refuse none).withPrior greatSetTable = .ok second := ⟨_, rfl⟩
  have hrun : first.generate.1 = .ok greatSet := by
    cases hfirst
    decide +kernel
  obtain ⟨set, hrun'⟩ := @exists_generate_eq_of_isOk Resolver second _ (by
    cases hsecond
    decide +kernel)
  have htable : greatSet.toTable = .ok greatSetTable := by decide +kernel
  have hcounter : first.generate.2.context.counters.get .method = 1 := by
    cases hfirst
    decide +kernel
  have hcarried : first.generate.2.context.methodNames.find? 0 =
      some "method_18446744073709551616" := by
    cases hfirst
    decide +kernel
  have hminted : second.generate.2.context.methodNames.find? 1 = some "method_1" := by
    cases hsecond
    decide +kernel
  obtain ⟨r, hr⟩ : ∃ r, r = ofGenerator loneVersion first (by cases hfirst; rfl)
    (by cases hfirst; rfl) (by cases hfirst; decide +kernel) (by cases hfirst; decide +kernel)
    hrun := ⟨_, rfl⟩
  obtain ⟨r', hr'⟩ : ∃ r', r' = ofGenerator nextVersion second (by cases hsecond; rfl)
    (by cases hsecond; rfl) (by cases hsecond; decide +kernel) (by cases hsecond; decide +kernel)
    (congrArg Prod.fst hrun') := ⟨_, rfl⟩
  have hhands : r.Hands r' := by
    rw [hr, hr']
    exact ⟨greatSetTable, htable, .prior ⟨rfl, rfl, rfl, rfl, rfl⟩ hsecond⟩
  have hnames : r.Names (.method 0) "method_18446744073709551616" := by
    rw [hr]
    exact ⟨hcarried, nofun⟩
  have hnames' : r'.Names (.method 1) "method_1" := by
    rw [hr']
    exact ⟨hminted, nofun⟩
  have hstays : r.after.context.counters.get .method = 1 := by
    rw [hr]
    exact hcounter
  obtain ⟨d, hd, hsubject, hnumber⟩ := r.countsNumbers.exists_takes _ _ hnames
  obtain ⟨d', hd', hsubject', hnumber'⟩ := r'.countsNumbers.exists_takes _ _ hnames'
  refine ⟨r, r', ?_, ?_, hstays, ?_⟩
  · rw [List.isChain_cons_cons]
    exact ⟨hhands, List.IsChain.singleton _⟩
  · -- The number is not handed out because it fits in no word.
    refine ⟨d, hd, (hnumber 18446744073709551616 (by decide +kernel)).resolve_left fun hmints => ?_⟩
    have hmints : r.Mints .method 18446744073709551616 := ⟨d, hd, hmints⟩
    exact absurd hmints.lt_wordLimit (by decide)
  · -- The number is not carried over because the first run has not passed it.
    refine ⟨d', hd', (hnumber' 1 (by decide +kernel)).resolve_right fun hcarries => ?_⟩
    have hlt := hhands.lt_of_carries ⟨d', hd', hcarries⟩ (by decide)
    rw [Subject.kind, hstays] at hlt
    exact Nat.lt_irrefl 1 hlt

end Episode

end StableNaming
