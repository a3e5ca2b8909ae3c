import StableNaming.Proofs.Graph.TopLevel
import StableNaming.Proofs.Naming.Containers
import StableNaming.Proofs.Naming.Lifetime
import StableNaming.Proofs.Naming.Lineage

/-!
# Telling classes apart by their targets

When nothing is carried over, a class that needs a name has a number of its own. A class that
does not, keeps the last segment of its name, wherever it stands. So two classes have one target
only if both keep their segments, and if they are called alike inside one container, or if one
of them comes out of a container with an empty segment and happens to be called like a class at
the top level.
-/

namespace StableNaming

namespace NamingTask

variable {task : NamingTask} {start : Counters} {c c' : NamingContext}

/-! ## Numbers of classes -/

/-- What holds of the names of classes when nothing is carried over, whatever happens to the
counters between runs. -/
structure NamesClasses (task : NamingTask) (start : Counters) (c : NamingContext) : Prop where
  /-- No counter has gone back. -/
  start_le : ∀ kind, start.get kind ≤ c.counters.get kind
  /-- Classes keep their names or have made up ones. -/
  type : ∀ {id : ClassId}, id < task.graph.size → ∀ {name : String},
    c.classNames.find? (task.graph.nameAt id) = some name → task.ClassMinted start c id name
  /-- No two classes have one name that is made up. -/
  type_inj : ∀ {x y : ClassId}, x < task.graph.size → y < task.graph.size →
    task.classDecision x = .ok true → task.classDecision y = .ok true → ∀ {name : String},
      c.classNames.find? (task.graph.nameAt x) = some name →
      c.classNames.find? (task.graph.nameAt y) = some name → x = y

namespace NamesClasses

/-- Nothing is decided yet. -/
theorem of_empty (hstart : ∀ kind, start.get kind ≤ c.counters.get kind)
    (hclass : c.classNames = .empty) : task.NamesClasses start c where
  start_le := hstart
  type _ _ hname := by rw [hclass] at hname; cases hname
  type_inj _ _ _ _ _ hname := by rw [hclass] at hname; cases hname

/-- Moving counters on and naming members keeps what holds. -/
theorem congr (h : task.NamesClasses start c) (hclass : c'.classNames = c.classNames)
    (hcounters : ∀ kind, c.counters.get kind ≤ c'.counters.get kind) :
    task.NamesClasses start c' where
  start_le kind := (h.start_le kind).trans (hcounters kind)
  type {id} hid name hname := by
    rw [hclass] at hname
    obtain ⟨houter, hkept, hminted, hdecided⟩ := h.type hid hname
    have hparent : task.parentName c' id = task.parentName c id := by
      rw [parentName, parentName, hclass]
    refine ⟨fun outer ho => hclass ▸ houter outer ho, fun hneed => hparent ▸ hkept hneed,
      fun hneed => ?_, hdecided⟩
    obtain ⟨n, hle, hlt, heq⟩ := hminted hneed
    exact ⟨n, hle, hlt.trans_le (hcounters .type), hparent ▸ heq⟩
  type_inj hx hy hneed hneed' _ hname hname' :=
    h.type_inj hx hy hneed hneed' (hclass ▸ hname) (hclass ▸ hname')

/-- Naming a class that is offered nothing keeps what holds. -/
theorem setClass (h : task.NamesClasses start c) (hgraph : task.graph.Finished)
    (hpackages : ∀ id, IsPackage (task.chain.packageFor (task.graph.classAt id)))
    {id : ClassId} {need : Bool} {provenance : Provenance} (hid : id < task.graph.size)
    (houter : task.OuterNamed c id) (hneed : task.classDecision id = .ok need)
    (hchooses : Chooses .type need [] c provenance c') {last : NamingContext}
    (hlast : last = c'.setClass (task.graph.nameAt id)
      (task.classNameBy id (task.parentName c id) provenance))
    (hnames : Persists c last) (hcounters : ∀ kind, c.counters.get kind ≤ last.counters.get kind) :
    task.NamesClasses start last := by
  have hclasses : c'.classNames = c.classNames := by rw [counters_of_chooses hchooses]
  have hcounted : last.counters = c'.counters := by rw [hlast]; rfl
  have hfind : ∀ x, last.classNames.find? (task.graph.nameAt x) =
      if task.graph.nameAt id = task.graph.nameAt x then
        some (task.classNameBy id (task.parentName c id) provenance)
      else c.classNames.find? (task.graph.nameAt x) := by
    intro x
    rw [hlast, ← hclasses]
    exact Dictionary.find?_insert _ _ _ _
  -- an older name that is made up has a smaller number
  have hfresh : ∀ {x name}, x < task.graph.size → task.classDecision x = .ok true →
      task.classDecision id = .ok true → c.classNames.find? (task.graph.nameAt x) = some name →
        name ≠ task.classNameBy id (task.parentName c id) provenance := by
    intro x name hx hneedx hneedid hname
    obtain rfl : need = true := Except.ok.inj (hneed.symm.trans hneedid)
    obtain ⟨rfl, -⟩ := of_chooses_nil hchooses
    obtain ⟨n, -, hlt, rfl⟩ := (h.type hx hname).minted hneedx
    exact classNameStart_generatedName_ne (hpackages id) (hpackages x) (Nat.ne_of_lt hlt)
  refine ⟨fun kind => (h.start_le kind).trans (hcounters kind), fun {x} hx name hname => ?_,
    fun {x y} hx hy hneedx hneedy name hname hname' => ?_⟩
  · rw [hfind] at hname
    split at hname
    · rename_i heq
      obtain rfl := hgraph.names hid hx heq
      have hminted := OnlyMinted.classMinted_of_chooses h.start_le (houter.mono hnames) hneed
        hchooses hcounted
      rw [parentName_eq hnames houter] at hminted
      exact Option.some.inj hname ▸ hminted
    · exact (h.type hx hname).mono hnames (hcounters .type)
  · rw [hfind] at hname hname'
    split at hname <;> split at hname'
    · rename_i heq heq'
      exact hgraph.names hx hy (heq.symm.trans heq')
    · rename_i heq _
      obtain rfl := hgraph.names hid hx heq
      exact absurd (Option.some.inj hname).symm (hfresh hy hneedy hneedx hname')
    · rename_i _ heq
      obtain rfl := hgraph.names hid hy heq
      exact absurd (Option.some.inj hname').symm (hfresh hx hneedx hneedy hname)
    · exact h.type_inj hx hy hneedx hneedy hname hname'

/-- A decision keeps what holds when nothing is carried over. -/
theorem decides (h : task.NamesClasses start c) (hgraph : task.graph.Finished)
    (hpackages : ∀ id, IsPackage (task.chain.packageFor (task.graph.classAt id)))
    (hsilent : task.heritage.Silent) {d : Decision} (hd : task.Decides c d c') :
    task.NamesClasses start c' := by
  have hnames := hd.persists
  have hcounters := hd.leads.get_counters_le
  cases hd with
  | type hid _ houter hneed hchooses =>
    rw [hsilent.className?, Option.toList_none] at hchooses
    exact h.setClass hgraph hpackages hid houter hneed hchooses rfl hnames hcounters
  | field _ _ _ _ hchooses =>
    refine h.congr ?_ hcounters
    rw [counters_of_chooses hchooses]
    rfl
  | method _ _ _ hchooses =>
    refine h.congr ?_ hcounters
    rw [counters_of_chooses hchooses]
    rfl

/-- A log keeps what holds when nothing is carried over. -/
theorem leads (h : task.NamesClasses start c) (hgraph : task.graph.Finished)
    (hpackages : ∀ id, IsPackage (task.chain.packageFor (task.graph.classAt id)))
    (hsilent : task.heritage.Silent) (hc : task.Leads c c') : task.NamesClasses start c' := by
  obtain ⟨ds, hds⟩ := hc
  induction hds with
  | nil => exact h
  | snoc _ hd ih => exact ih.decides hgraph hpackages hsilent hd

end NamesClasses

/-- A run in which nothing is carried over keeps what holds, however it ends. -/
theorem NamesClasses.run {ρ : Type} [ConflictResolver ρ] {s : NamingState ρ}
    (h : task.NamesClasses start s.context) (hgraph : task.graph.Finished)
    (hpackages : ∀ id, IsPackage (task.chain.packageFor (task.graph.classAt id)))
    (hsilent : task.heritage.Silent) :
    task.NamesClasses start ((task.run : NamingM ρ MappingSet).run s).2.context := by
  rcases NamingM.succeeds_or_fails task.run s with ⟨set, t, hsucceeds⟩ | ⟨fault, t, hfails⟩
  · obtain ⟨hleads, -, -⟩ := of_succeeds_run hgraph hsucceeds
    rw [hsucceeds]
    exact h.leads hgraph hpackages hsilent hleads
  · obtain ⟨u, hleads, hcounts, -⟩ := stopsAfter_of_fails_run hgraph hfails
    have hbefore := h.leads hgraph hpackages hsilent hleads
    rw [hfails]
    exact hbefore.congr (by rw [hcounts.context_eq]) hcounts.get_counters_le

end NamingTask

namespace Generator.Arises

variable {ρ : Type} {graph : ClassGraph} {config : NamingConfig} {gen : Generator ρ}

/-- A generator that is given no tables is offered nothing. -/
theorem silent [PatternEngine] (h : Arises graph config (fun _ => False) gen) :
    gen.task.heritage.Silent := by
  induction h with
  | create hcreate =>
    obtain ⟨patterns, -, rfl⟩ := exists_freshWith_of_create hcreate
    exact Heritage.PriorOnly.silent ⟨rfl, rfl⟩ rfl
  | prior _ hallowed _ _ => exact hallowed.elim
  | update _ _ hallowed _ _ => exact hallowed.elim
  | counters _ _ ih => exact ih
  | resolver _ _ ih => exact ih
  | file _ _ ih => exact ih
  | generate _ ih => rwa [(context_generate _).1]

/-- Without policies all classes have the default package. -/
theorem isPackage [PatternEngine] {allowed : MappingTable → Prop}
    (h : Arises graph config allowed gen)
    (hpackage : NamingTask.IsPackage config.defaultPackage) (c : ClassSymbol) :
    NamingTask.IsPackage (gen.task.chain.packageFor c) := by
  obtain ⟨-, -, hpolicies, hdefault, -⟩ := h.task_eq
  rw [PolicyChain.packageFor, hpolicies, hdefault]
  exact hpackage

/-- All classes whose names are made up have different names, over all calls. -/
theorem namesClasses [PatternEngine] (h : Arises graph config (fun _ => False) gen)
    (hgraph : graph.Finished) (hpackage : NamingTask.IsPackage config.defaultPackage) :
    gen.task.NamesClasses {} gen.context := by
  induction h with
  | create hcreate =>
    obtain ⟨patterns, -, rfl⟩ := exists_freshWith_of_create hcreate
    exact .of_empty (fun _ => Nat.le_refl _) rfl
  | prior _ hallowed _ _ => exact hallowed.elim
  | update _ _ hallowed _ _ => exact hallowed.elim
  | counters counters _ ih =>
    exact ih.congr rfl fun kind => (le_get_mergeCounters _ counters kind).1
  | resolver _ _ ih => exact ih
  | file _ _ ih => exact ih
  | @generate _ _ gen harises ih =>
    obtain ⟨htask, hcontext⟩ := gen.context_generate
    rw [htask]
    rcases hcontext with hcontext | hcontext
    · rw [hcontext]
      exact ih
    · have hfinished : gen.task.graph.Finished := harises.task_eq.1 ▸ hgraph
      have hstart : gen.task.NamesClasses {} gen.startState.context :=
        ih.congr rfl gen.le_startCounters
      rw [hcontext]
      exact hstart.run hfinished (fun _ => harises.isPackage hpackage _) harises.silent

end Generator.Arises

/-! ## Kept segments -/

namespace ClassGraph

variable {g : ClassGraph}

/-- Whether a class and all its containers keep their segments, and the name that comes of it. -/
inductive KeptAs (g : ClassGraph) : ClassId → String → Prop where
  /-- A class at the top level keeps its whole name. -/
  | top {id : ClassId} : (g.classAt id).outer = none → g.KeepsSegment id → KeptAs g id (g.nameAt id)
  /-- A class inside another one adds its segment. -/
  | inside {id outer : ClassId} {path : String} : g.ContainedIn id outer → g.KeepsSegment id →
    KeptAs g outer path → KeptAs g id (path ++ "$" ++ (g.classAt id).simpleName)

/-- A name that comes of kept segments begins in a package. -/
theorem KeptAs.packageMark_mem {id : ClassId} {path : String} (h : g.KeptAs id path) :
    packageMark ∈ path.toList := by
  induction h with
  | top houter hkeeps =>
    rcases hkeeps with ⟨hinside, -⟩ | hmem
    · rw [houter] at hinside
      cases hinside
    · exact hmem
  | inside _ _ _ ih =>
    rw [String.toList_append, String.toList_append]
    exact List.mem_append_left _ (List.mem_append_left _ ih)

/-- Whether the segments that classes keep tell them apart. -/
structure TellsKeptApart (g : ClassGraph) : Prop where
  /-- Classes inside one container keep different segments. -/
  beside : ∀ {x y outer : ClassId}, g.ContainedIn x outer → g.ContainedIn y outer →
    g.KeepsSegment x → g.KeepsSegment y →
    (g.classAt x).simpleName = (g.classAt y).simpleName → x = y
  /-- No class with an empty segment comes to be called like one at the top level. -/
  above : ∀ {x outer y : ClassId}, g.ContainedIn x outer → (g.classAt x).simpleName = "" →
    y < g.size → (g.classAt y).outer = none → ¬ g.KeptAs x (g.nameAt y)

/-- Classes that are inside the containers that their names announce are told apart. -/
theorem tellsKeptApart_of_announced (hnames : g.DistinctNames)
    (hannounced : ∀ {id outer : ClassId}, g.ContainedIn id outer →
      containerName? (g.nameAt id) = some (g.nameAt outer)) : g.TellsKeptApart where
  beside {x y outer} hx hy _ _ hsame := by
    have hname : ∀ {id}, g.ContainedIn id outer →
        g.nameAt id = g.nameAt outer ++ "$" ++ (g.classAt id).simpleName := fun hid =>
      (eq_append_of_containerName? (hannounced hid)).1
    refine hnames hx.lt_size hy.lt_size ?_
    rw [hname hx, hname hy, hsame]
  above hx hempty _ _ _ := (eq_append_of_containerName? (hannounced hx)).2 hempty

end ClassGraph

/-! ## Targets -/

namespace NamingTask

variable {task : NamingTask} {start : Counters} {c : NamingContext}

/-- What holds after a run with the usual choice that carries nothing over, if no class looks
generated. -/
structure GivesTargets (task : NamingTask) (start : Counters) (c : NamingContext) : Prop
    extends NamesClasses task start c where
  /-- The graph is a finished one. -/
  graph : task.graph.Finished
  /-- Only classes are without a container whose names announce none. -/
  heeds : task.graph.HeedsNames
  /-- Packages are empty or end in a slash. -/
  packages : ∀ id, IsPackage (task.chain.packageFor (task.graph.classAt id))
  /-- A class needs a name if it does not keep its segment. -/
  decision : ∀ id, task.classDecision id = .ok (decide (¬ task.graph.KeepsSegment id))
  /-- No class looks generated. -/
  plain : ∀ id < task.graph.size, SymbolKind.type.isGenerated (task.graph.nameAt id) = false
  /-- All classes have names. -/
  named : ∀ id < task.graph.size, ∃ name,
    c.classNames.find? (task.graph.nameAt id) = some name

namespace GivesTargets

variable (h : task.GivesTargets start c) {id : ClassId} {name : String}
include h

/-- A class that keeps no segment needs a name. -/
theorem decision_eq_true (hneeds : ¬ task.graph.KeepsSegment id) :
    task.classDecision id = .ok true := by
  rw [h.decision, decide_eq_true hneeds]

section Class

variable (hid : id < task.graph.size)
  (hname : c.classNames.find? (task.graph.nameAt id) = some name)
include hid hname

/-- A class that keeps its segment stands under the name of its container. -/
theorem kept_eq (hkeeps : task.graph.KeepsSegment id) :
    name = keptClassName (task.graph.classAt id) (task.parentName c id) := by
  refine (h.type hid hname).kept ?_
  rw [h.decision, decide_eq_false (not_not_intro hkeeps)]

/-- A class at the top level that keeps its segment keeps its whole name. -/
theorem kept_eq_nameAt (hkeeps : task.graph.KeepsSegment id)
    (houter : (task.graph.classAt id).outer = none) : name = task.graph.nameAt id := by
  rw [h.kept_eq hid hname hkeeps, parentName, houter]
  rfl

/-- A class inside another one that keeps its segment adds it to the name of that one. -/
theorem exists_kept_eq (hkeeps : task.graph.KeepsSegment id) {outer : ClassId}
    (houter : task.graph.ContainedIn id outer) :
    ∃ parent, c.classNames.find? (task.graph.nameAt outer) = some parent ∧
      name = parent ++ "$" ++ (task.graph.classAt id).simpleName := by
  obtain ⟨parent, hparent⟩ := h.named outer (h.graph.forest.outer_lt houter)
  refine ⟨parent, hparent, ?_⟩
  rw [h.kept_eq hid hname hkeeps, parentName, houter, Option.bind_some, hparent]
  rfl

/-- The innermost part of a name looks generated exactly if it is made up. -/
theorem isGenerated_innermostName_iff :
    SymbolKind.type.isGenerated (innermostName name) = true ↔ ¬ task.graph.KeepsSegment id := by
  constructor
  · intro hgenerated hkeeps
    have hpart : (innermostName name).toList <:+ (task.graph.nameAt id).toList := by
      cases houter : (task.graph.classAt id).outer with
      | none =>
        rw [h.kept_eq_nameAt hid hname hkeeps houter]
        have hend := innermostName_append_suffix endsSegment_empty (task.graph.nameAt id)
        rwa [String.empty_append] at hend
      | some outer =>
        obtain ⟨parent, -, rfl⟩ := h.exists_kept_eq hid hname hkeeps houter
        exact (innermostName_append_suffix (endsSegment_dollar parent) _).trans
          (Text.afterLast_suffix nestingMark _)
    have hbad := h.plain id hid
    rw [SymbolKind.isGenerated_of_isInfix hpart.isInfix hgenerated] at hbad
    cases hbad
  · intro hneeds
    obtain ⟨n, -, -, rfl⟩ := (h.type hid hname).minted (h.decision_eq_true hneeds)
    obtain ⟨place, digits, hplace, hdigits, hstart⟩ :=
      @exists_classNameStart_eq task id (task.parentName c id) (h.packages id)
    rw [hstart]
    exact SymbolKind.isGenerated_innermostName hplace hdigits .type n

end Class

/-- A class that is kept with all its containers has the name that comes of it. -/
theorem eq_of_keptAs {path : String} (hkept : task.graph.KeptAs id path)
    (hid : id < task.graph.size)
    (hname : c.classNames.find? (task.graph.nameAt id) = some name) : name = path := by
  induction hkept generalizing name with
  | top houter hkeeps => exact h.kept_eq_nameAt hid hname hkeeps houter
  | inside houter hkeeps _ ih =>
    obtain ⟨parent, hparent, rfl⟩ := h.exists_kept_eq hid hname hkeeps houter
    rw [ih (h.graph.forest.outer_lt houter) hparent]

/-- A name that does not look generated comes of kept segments only. -/
theorem keptAs_of_not_generated (hid : id < task.graph.size)
    (hname : c.classNames.find? (task.graph.nameAt id) = some name)
    (hplain : SymbolKind.type.isGenerated name = false) : task.graph.KeptAs id name := by
  -- the name of a container stands in those of the classes inside it
  induction h.graph.forest.ends id generalizing name with
  | intro id _ ih =>
    have hkeeps : task.graph.KeepsSegment id := by
      by_contra hneeds
      have hgenerated := (h.isGenerated_innermostName_iff hid hname).2 hneeds
      have hend := innermostName_append_suffix endsSegment_empty name
      rw [String.empty_append] at hend
      rw [SymbolKind.isGenerated_of_isInfix hend.isInfix hgenerated] at hplain
      cases hplain
    cases houter : (task.graph.classAt id).outer with
    | none =>
      rw [h.kept_eq_nameAt hid hname hkeeps houter]
      exact .top houter hkeeps
    | some outer =>
      obtain ⟨parent, hparent, rfl⟩ := h.exists_kept_eq hid hname hkeeps houter
      refine .inside houter hkeeps (ih outer houter (h.graph.forest.outer_lt houter) hparent ?_)
      rw [← Bool.not_eq_true] at hplain ⊢
      refine fun hgenerated => hplain (SymbolKind.isGenerated_of_isInfix ?_ hgenerated)
      rw [String.append_assoc, String.toList_append]
      exact (List.prefix_append _ _).isInfix

/-- A class at the top level and one inside another class have one name only if the latter comes
to be called like the former, with an empty segment. -/
theorem not_tellsKeptApart_of_eq {x outer y : ClassId} (hx : task.graph.ContainedIn x outer)
    (hy : y < task.graph.size) (htop : (task.graph.classAt y).outer = none)
    (hkeepsx : task.graph.KeepsSegment x) (hkeepsy : task.graph.KeepsSegment y)
    (hname : c.classNames.find? (task.graph.nameAt x) = some name)
    (hname' : c.classNames.find? (task.graph.nameAt y) = some name) :
    ¬ task.graph.TellsKeptApart := by
  obtain rfl := h.kept_eq_nameAt hy hname' hkeepsy htop
  have hkept := h.keptAs_of_not_generated hx.lt_size hname (h.plain y hy)
  obtain ⟨parent, hparent, heq⟩ := h.exists_kept_eq hx.lt_size hname hkeepsx hx
  -- the name at the top level announces no container
  have hempty : (task.graph.classAt x).simpleName = "" := by
    by_contra hsegment
    have hcontainer : parent ≠ "" := by
      rintro rfl
      have hplain : SymbolKind.type.isGenerated "" = false := by decide
      have hmem := (h.keptAs_of_not_generated (h.graph.forest.outer_lt hx) hparent
        hplain).packageMark_mem
      exact absurd hmem List.not_mem_nil
    have hnone := h.heeds y hy htop
    rw [heq, containerName?_nested hcontainer hsegment (Text.not_mem_afterLast _ _)] at hnone
    cases hnone
  exact fun hapart => hapart.above hx hempty hy htop hkept

section Pair

variable {x y : ClassId} (hx : x < task.graph.size) (hy : y < task.graph.size)
  (hname : c.classNames.find? (task.graph.nameAt x) = some name)
  (hname' : c.classNames.find? (task.graph.nameAt y) = some name)
include hx hy hname hname'

/-- Of two classes with one name both keep their segments, or none. -/
theorem keepsSegment_iff : task.graph.KeepsSegment x ↔ task.graph.KeepsSegment y :=
  not_iff_not.1 ((h.isGenerated_innermostName_iff hx hname).symm.trans
    (h.isGenerated_innermostName_iff hy hname'))

/-- A name that is made up tells a class from all others. -/
theorem eq_of_not_keepsSegment (hneeds : ¬ task.graph.KeepsSegment x) : x = y := by
  have hneeds' := mt (h.keepsSegment_iff hx hy hname hname').2 hneeds
  exact h.type_inj hx hy (h.decision_eq_true hneeds) (h.decision_eq_true hneeds') hname hname'

end Pair

/-- If the segments that classes keep tell them apart, so do their names. -/
theorem eq_of_tellsKeptApart (hapart : task.graph.TellsKeptApart) {x y : ClassId}
    (hx : x < task.graph.size) (hy : y < task.graph.size)
    (hname : c.classNames.find? (task.graph.nameAt x) = some name)
    (hname' : c.classNames.find? (task.graph.nameAt y) = some name) : x = y := by
  -- classes with one name have containers with one name
  induction h.graph.forest.ends x generalizing y name with
  | intro x _ ih =>
    by_cases hkeeps : task.graph.KeepsSegment x
    · have hkeeps' := (h.keepsSegment_iff hx hy hname hname').1 hkeeps
      cases houter : (task.graph.classAt x).outer with
      | none =>
        cases houter' : (task.graph.classAt y).outer with
        | none =>
          refine h.graph.names hx hy ?_
          rw [← h.kept_eq_nameAt hx hname hkeeps houter,
            ← h.kept_eq_nameAt hy hname' hkeeps' houter']
        | some outer =>
          exact absurd hapart
            (h.not_tellsKeptApart_of_eq houter' hx houter hkeeps' hkeeps hname' hname)
      | some outer =>
        cases houter' : (task.graph.classAt y).outer with
        | none =>
          exact absurd hapart
            (h.not_tellsKeptApart_of_eq houter hy houter' hkeeps hkeeps' hname hname')
        | some outer' =>
          obtain ⟨parent, hparent, rfl⟩ := h.exists_kept_eq hx hname hkeeps houter
          obtain ⟨parent', hparent', heq⟩ := h.exists_kept_eq hy hname' hkeeps' houter'
          obtain ⟨hparents, hsegments⟩ :=
            (nested_inj (Text.not_mem_afterLast _ _) (Text.not_mem_afterLast _ _)).1 heq
          obtain rfl := ih outer houter (h.graph.forest.outer_lt houter)
            (h.graph.forest.outer_lt houter') hparent (hparents ▸ hparent')
          exact hapart.beside houter houter' hkeeps hkeeps' hsegments
    · exact h.eq_of_not_keepsSegment hx hy hname hname' hkeeps

/-- If all names differ, the segments that classes keep tell them apart. -/
theorem tellsKeptApart_of_inj (hinj : ∀ x < task.graph.size, ∀ y < task.graph.size,
      c.classNames.find? (task.graph.nameAt x) = c.classNames.find? (task.graph.nameAt y) →
      x = y) : task.graph.TellsKeptApart where
  beside {x y outer} hx hy hkeeps hkeeps' hsegments := by
    obtain ⟨name, hname⟩ := h.named x hx.lt_size
    obtain ⟨name', hname'⟩ := h.named y hy.lt_size
    obtain ⟨parent, hparent, rfl⟩ := h.exists_kept_eq hx.lt_size hname hkeeps hx
    obtain ⟨parent', hparent', rfl⟩ := h.exists_kept_eq hy.lt_size hname' hkeeps' hy
    refine hinj x hx.lt_size y hy.lt_size ?_
    rw [hname, hname', hsegments, Option.some.inj (hparent.symm.trans hparent')]
  above {x outer y} hx _ hy htop hkept := by
    obtain ⟨name, hname⟩ := h.named x hx.lt_size
    obtain ⟨name', hname'⟩ := h.named y hy
    have hkeeps : task.graph.KeepsSegment y := .inr hkept.packageMark_mem
    have heq := h.eq_of_keptAs hkept hx.lt_size hname
    have heq' := h.kept_eq_nameAt hy hname' hkeeps htop
    obtain rfl := hinj x hx.lt_size y hy (by rw [hname, hname', heq, heq'])
    rw [ClassGraph.ContainedIn, htop] at hx
    cases hx

end GivesTargets

end NamingTask

namespace Generator

variable {ρ : Type}

/-- After a run with the usual configuration, and without policies and tables, all classes have
targets. If no class looked generated, a class that keeps no segment shares its target with no other
class, and the targets of all classes differ exactly if the segments that classes keep tell them
apart, whatever their class files say about containers. They do so if all classes that are inside
others are where their names announce. -/
theorem distinct_className?_iff [PatternEngine] [PatternEngine.ReadsUsual] [ConflictResolver ρ]
    {files : List ClassFile} {gen after : Generator ρ} {set : MappingSet}
    (hplain : ∀ id < (GraphBuilder.build files).size,
      SymbolKind.type.isGenerated ((GraphBuilder.build files).nameAt id) = false)
    (harises : Arises (GraphBuilder.build files) {} (fun _ => False) gen)
    (hrun : gen.generate = (.ok set, after)) :
    (∀ id < (GraphBuilder.build files).size,
      (after.className? ((GraphBuilder.build files).nameAt id)).isSome = true) ∧
    (∀ x < (GraphBuilder.build files).size, ∀ y < (GraphBuilder.build files).size,
      after.className? ((GraphBuilder.build files).nameAt x) =
        after.className? ((GraphBuilder.build files).nameAt y) →
      ¬ (GraphBuilder.build files).KeepsSegment x → x = y) ∧
    ((∀ x < (GraphBuilder.build files).size, ∀ y < (GraphBuilder.build files).size,
        after.className? ((GraphBuilder.build files).nameAt x) =
          after.className? ((GraphBuilder.build files).nameAt y) → x = y) ↔
      (GraphBuilder.build files).TellsKeptApart) ∧
    ((∀ id outer, (GraphBuilder.build files).ContainedIn id outer →
        containerName? ((GraphBuilder.build files).nameAt id) =
          some ((GraphBuilder.build files).nameAt outer)) →
      (GraphBuilder.build files).TellsKeptApart) := by
  have hafter : Arises (GraphBuilder.build files) {} (fun _ => False) after := by
    have hgenerate := harises.generate
    rwa [hrun] at hgenerate
  obtain ⟨hgraph, -, hpolicies, -, patterns, hpatterns, hdefault⟩ := hafter.task_eq
  obtain rfl : NamePatterns.usual = patterns :=
    Option.some.inj (NamePatterns.compile?_usual.symm.trans hpatterns)
  have hfinished := GraphBuilder.finished_build files
  have husual : NamingTask.IsPackage ({} : NamingConfig).defaultPackage := by decide
  obtain ⟨-, hsettled, -⟩ := settled_of_generate (harises.task_eq.1 ▸ hfinished) hrun
  have hnames := hafter.namesClasses hfinished husual
  rw [← hgraph] at hplain hfinished ⊢
  have hgives : after.task.GivesTargets {} after.context :=
    { hnames with
      graph := hfinished
      heeds := hgraph ▸ GraphBuilder.heedsNames_build files
      packages := fun _ => hafter.isPackage husual _
      decision := NamingTask.classDecision_of_usual hpolicies hdefault
      plain := hplain
      named := fun id hid => (hsettled id hid).name }
  refine ⟨fun id hid => ?_, fun x hx y hy hsame hneeds => ?_,
    ⟨hgives.tellsKeptApart_of_inj, fun hapart x hx y hy hsame => ?_⟩,
    fun hannounced => ClassGraph.tellsKeptApart_of_announced hfinished.names fun {_ _} =>
      hannounced _ _⟩
  · obtain ⟨name, hname⟩ := hgives.named id hid
    exact Option.isSome_iff_exists.2 ⟨name, hname⟩
  · obtain ⟨name, hname⟩ := hgives.named x hx
    exact hgives.eq_of_not_keepsSegment hx hy hname (hsame.symm.trans hname) hneeds
  · obtain ⟨name, hname⟩ := hgives.named x hx
    exact hgives.eq_of_tellsKeptApart hapart hx hy hname (hsame.symm.trans hname)

/-- Two anonymous classes that are defined in a third class, whatever containers their names
announce. -/
def strayFiles (segment : String) : List ClassFile :=
  [{ name := "a" }, { name := "b" }, { name := "c" },
    { name := "a$1", enclosure := some ⟨"c", none⟩ },
    { name := "b$" ++ segment, enclosure := some ⟨"c", none⟩ }]

/-- With different segments all targets differ. -/
theorem distinct_className?_strayFiles :
    ∃ (gen after : Generator Resolver) (set : MappingSet),
      create (GraphBuilder.build (strayFiles "2")) {} .refuse = .ok gen ∧
      gen.generate = (.ok set, after) ∧
      after.className? "a$1" = some "net/minecraft/class_3$1" ∧
      ∀ x < (GraphBuilder.build (strayFiles "2")).size,
        ∀ y < (GraphBuilder.build (strayFiles "2")).size,
          after.className? ((GraphBuilder.build (strayFiles "2")).nameAt x) =
            after.className? ((GraphBuilder.build (strayFiles "2")).nameAt y) → x = y := by
  obtain ⟨gen, set, hgen, hcreate, hrun⟩ :=
    exists_create_generate (GraphBuilder.build (strayFiles "2")) Resolver.refuse (by decide +kernel)
  have hname : gen.generate.2.className? "a$1" = some "net/minecraft/class_3$1" := by
    cases hgen
    decide +kernel
  have hplain : ∀ id < (GraphBuilder.build (strayFiles "2")).size,
      SymbolKind.type.isGenerated ((GraphBuilder.build (strayFiles "2")).nameAt id) = false := by
    decide +kernel
  have hsize : (GraphBuilder.build (strayFiles "2")).size = 5 := by decide +kernel
  have hnested : ∀ x < 5, ((GraphBuilder.build (strayFiles "2")).classAt x).outer ≠ none →
      ((GraphBuilder.build (strayFiles "2")).classAt x).simpleName ≠ "" ∧
      ∀ y < 5, ((GraphBuilder.build (strayFiles "2")).classAt x).simpleName =
        ((GraphBuilder.build (strayFiles "2")).classAt y).simpleName → x = y := by decide +kernel
  have hapart : (GraphBuilder.build (strayFiles "2")).TellsKeptApart := by
    refine ⟨fun {x y outer} hx hy _ _ hsame => ?_, fun {x outer y} hx hempty _ _ _ => ?_⟩
    · refine (hnested x (hsize ▸ hx.lt_size) ?_).2 y (hsize ▸ hy.lt_size) hsame
      rw [hx]
      exact Option.some_ne_none _
    · refine (hnested x (hsize ▸ hx.lt_size) ?_).1 hempty
      rw [hx]
      exact Option.some_ne_none _
  have harises : Arises (GraphBuilder.build (strayFiles "2")) {} (fun _ => False) gen :=
    .create hcreate
  exact ⟨gen, _, set, hcreate, hrun, hname,
    (distinct_className?_iff hplain harises hrun).2.2.1.2 hapart⟩

/-- With one segment for both, two classes get one target. -/
theorem className?_a_eq_className?_b :
    ∃ (gen after : Generator Resolver) (set : MappingSet),
      (∀ id < (GraphBuilder.build (strayFiles "1")).size,
        SymbolKind.type.isGenerated ((GraphBuilder.build (strayFiles "1")).nameAt id) = false) ∧
      create (GraphBuilder.build (strayFiles "1")) {} .refuse = .ok gen ∧
      gen.generate = (.ok set, after) ∧
      (GraphBuilder.build (strayFiles "1")).idOf? "a$1" = some 3 ∧
      (GraphBuilder.build (strayFiles "1")).idOf? "b$1" = some 4 ∧
      after.className? "a$1" = some "net/minecraft/class_3$1" ∧
      after.className? "b$1" = some "net/minecraft/class_3$1" := by
  obtain ⟨gen, set, hgen, hcreate, hrun⟩ :=
    exists_create_generate (GraphBuilder.build (strayFiles "1")) Resolver.refuse (by decide +kernel)
  have hnames : gen.generate.2.className? "a$1" = some "net/minecraft/class_3$1" ∧
      gen.generate.2.className? "b$1" = some "net/minecraft/class_3$1" := by
    cases hgen
    decide +kernel
  exact ⟨gen, _, set, by decide +kernel, hcreate, hrun, by decide +kernel, by decide +kernel,
    hnames⟩

end Generator

end StableNaming
