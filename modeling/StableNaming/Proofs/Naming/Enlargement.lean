import StableNaming.Proofs.Graph.Embedding
import StableNaming.Proofs.Naming.FamilyNames
import StableNaming.Proofs.Naming.RoundTrip
import StableNaming.Proofs.Naming.Refusal
import StableNaming.Proofs.Policy.Engine

/-!
# Names in a graph that has grown

A run on more class files that reads the table of a run on some of them gives every
symbol of those its name again. Families may have grown and may start at new classes;
each finds the name that it had at the classes where it used to start, and a family
that has taken in two names is a conflict.
-/

namespace StableNaming

namespace NamingTask

/-- Whether a task names a larger graph than another one, with a table of that one and by patterns
alone. -/
structure Enlarges (task' task : NamingTask) (t : MappingTable)
    (e : ClassGraph.Embedding task.graph task'.graph) : Prop where
  /-- The table is that of an earlier mapping of the same classes. -/
  prior : task'.heritage.prior = t
  /-- No other names are known. -/
  only : task'.heritage.PriorOnly
  /-- The same symbols need names. -/
  chain_eq : task'.chain = task.chain
  /-- No policy has a say. -/
  policies : task.chain.policies = []
  /-- Patterns decide. -/
  default : ∃ patterns : NamePatterns, task.chain.default = patterns.policy
  /-- The larger graph is a finished one. -/
  graph : task'.graph.Finished
  /-- Classes that hold methods have class files. -/
  loaded : ∀ {id : ClassId} {key : MemberKey} {m : MethodId},
    task'.graph.slot? id key = some m → (task'.graph.classAt id).loaded = true
  /-- No class has got another container. -/
  outerName?_eq : ∀ id < task.graph.size,
    task'.graph.outerName? (e.classOf id) = task.graph.outerName? id

namespace Enlarges

variable {task task' : NamingTask} {t : MappingTable}
  {e : ClassGraph.Embedding task.graph task'.graph} (h : task'.Enlarges task t e)
include h

/-! ## The same decisions -/

theorem isSome_outer_eq {id : ClassId} (hid : id < task.graph.size) :
    (task'.graph.classAt (e.classOf id)).outer.isSome = (task.graph.classAt id).outer.isSome := by
  have houter := congrArg Option.isSome (h.outerName?_eq id hid)
  rwa [ClassGraph.outerName?, ClassGraph.outerName?, Option.isSome_map, Option.isSome_map]
    at houter

/-- The same classes need names. -/
theorem classDecision_eq {id : ClassId} (hid : id < task.graph.size) :
    task'.classDecision (e.classOf id) = task.classDecision id := by
  obtain ⟨patterns, hpatterns⟩ := h.default
  have hanonymous := e.apply_eq ClassSymbol.isAnonymous (fun _ => rfl) hid
  have hname := e.apply_eq ClassSymbol.name (fun _ => rfl) hid
  rw [classDecision, classDecision, h.isSome_outer_eq hid, hanonymous, h.chain_eq,
    PolicyChain.needsClassName_eq h.policies hpatterns,
    PolicyChain.needsClassName_eq h.policies hpatterns, hname]

/-- By the same decision a class gets the same name inside the same container. -/
theorem classNameBy_eq {id : ClassId} (hid : id < task.graph.size) (parent : Option String)
    (provenance : Provenance) :
    task'.classNameBy (e.classOf id) parent provenance = task.classNameBy id parent provenance := by
  have hlocal := e.apply_eq ClassSymbol.isLocal (fun _ => rfl) hid
  have hname := e.apply_eq ClassSymbol.name (fun _ => rfl) hid
  have hsimple := e.apply_eq ClassSymbol.simpleName (fun _ => rfl) hid
  have hpackage : task'.chain.packageFor (task'.graph.classAt (e.classOf id)) =
      task.chain.packageFor (task.graph.classAt id) := by
    rw [h.chain_eq, PolicyChain.packageFor, PolicyChain.packageFor, h.policies]
    rfl
  have hstart : task'.classNameStart (task'.graph.classAt (e.classOf id)) parent =
      task.classNameStart (task.graph.classAt id) parent := by
    rw [classNameStart, classNameStart, hlocal, hsimple, hpackage]
  cases provenance with
  | kept =>
    rw [classNameBy, classNameBy]
    cases parent with
    | none => exact hname
    | some parent => rw [keptClassName, keptClassName, hsimple]
  | carried found offered =>
    rw [classNameBy, classNameBy, carriedClassName, carriedClassName, hstart]
  | minted number => rw [classNameBy, classNameBy, hstart]

/-! ## The same names -/

variable {start start' : Counters} {c c' : NamingContext}

/-- A class has the same name again, inside a container with the same name. -/
theorem className_eq (hrecorded : task.Recorded start c t)
    (haccounted : task'.Accounted start' c')
    (hsettled : ∀ id < task'.graph.size, task'.ClassSettled c' id) {id : ClassId}
    (hid : id < task.graph.size) :
    c'.classNames.find? (task.graph.nameAt id) = c.classNames.find? (task.graph.nameAt id) := by
  -- containers come before the classes inside them
  induction hrecorded.graph.forest.ends id with
  | intro id _ ih =>
    have hparent : task'.parentName c' (e.classOf id) = task.parentName c id := by
      have houter := h.outerName?_eq id hid
      rw [ClassGraph.outerName?, ClassGraph.outerName?] at houter
      cases hcontainer : (task.graph.classAt id).outer with
      | none =>
        rw [hcontainer, Option.map_none, Option.map_eq_none_iff] at houter
        rw [parentName, parentName, hcontainer, houter]
        rfl
      | some outer =>
        rw [hcontainer, Option.map_some, Option.map_eq_some_iff] at houter
        obtain ⟨outer', houter', hname⟩ := houter
        rw [parentName, parentName, hcontainer, houter', Option.bind_some, Option.bind_some, hname]
        exact ih outer hcontainer (hrecorded.graph.forest.outer_lt hcontainer)
    obtain ⟨name, hname⟩ := (hrecorded.settled id hid).name
    obtain ⟨name', hname'⟩ := (hsettled (e.classOf id) (e.lt_size hid)).name
    obtain ⟨need, provenance, htraced⟩ := haccounted.type (e.lt_size hid) hname'
    have hneed := (h.classDecision_eq hid).symm.trans htraced.decision
    have heq := htraced.name_eq
    rw [hparent, h.classNameBy_eq hid] at heq
    have hoffered := htraced.traced
    rw [e.nameAt_eq hid] at hname' hoffered
    rw [hname, hname', heq, Option.some_inj]
    cases need with
    | false =>
      rw [hoffered.eq_kept, (hrecorded.minted.type hid hname).kept hneed]
      rfl
    | true =>
      obtain ⟨found, n, hfound, hshape, hjudge, -⟩ :=
        hrecorded.judge_type hid (hrecorded.loaded id hid) hneed
      obtain rfl : name = found := Option.some.inj (hname.symm.trans hfound)
      rw [h.only.className?_eq, h.prior, hjudge] at hoffered
      rw [hoffered.eq_carried]
      exact carriedClassName_eq_self (hrecorded.packages id hid) hshape

/-- A field has the same name again. -/
theorem fieldName_eq (hrecorded : task.Recorded start c t)
    (haccounted : task'.Accounted start' c')
    (hsettled : ∀ id < task'.graph.size, task'.ClassSettled c' id) {ref : MemberRef}
    {name : String} (hname : c.fieldNames.find? ref = some name) :
    c'.fieldNames.find? ref = some name := by
  obtain ⟨patterns, hpatterns⟩ := h.default
  obtain ⟨id, f, hf, rfl, hneed⟩ := hrecorded.grounded.field hname
  have hid := ClassGraph.lt_size_of_mem_fields hf
  have hloaded := e.apply_eq ClassSymbol.loaded (fun _ => rfl) hid
  have hfields := e.apply_eq ClassSymbol.fields (fun _ => rfl) hid
  obtain ⟨need, hneed', hnamed⟩ := (hsettled (e.classOf id) (e.lt_size hid)).fields
    (hloaded.trans (hrecorded.loaded id hid)) f (hfields ▸ hf)
  rw [h.chain_eq, PolicyChain.needsFieldName_eq h.policies hpatterns] at hneed'
  rw [PolicyChain.needsFieldName_eq h.policies hpatterns] at hneed
  obtain ⟨name', hname'⟩ := hnamed (Except.ok.inj (hneed'.symm.trans hneed))
  obtain ⟨provenance, htraced, rfl⟩ := haccounted.field hname'
  rw [e.nameAt_eq hid] at htraced hname'
  obtain ⟨found, hfound, hjudge, -⟩ :=
    hrecorded.judge_field hid (hrecorded.loaded id hid) hf (by
      rw [PolicyChain.needsFieldName_eq h.policies hpatterns]
      exact hneed)
  obtain rfl : name = found := Option.some.inj (hname.symm.trans hfound)
  rw [h.only.fieldName?_eq, h.prior, hjudge] at htraced
  rw [hname', htraced.eq_carried]
  rfl

/-- A family of the larger graph starts at some class that is visited for it. -/
theorem exists_starts {id : ClassId} {key : MemberKey} {method : MethodId}
    (hinit : key.isInitializer = false) (hslot : task'.graph.slot? id key = some method) :
    ∃ x symbol, task'.Starts x key method symbol ∧ symbol.key = key := by
  obtain ⟨x, hx, hsource⟩ := task'.hierarchy.exists_isSource h.graph hslot
  obtain ⟨symbol, hsymbol, hkey⟩ := h.graph.symbol_of_slot hx
  exact ⟨x, symbol, ⟨h.loaded hx, hx, hinit, hsource, hsymbol⟩, hkey⟩

/-- A family that needed a name has one in the end. -/
theorem exists_methodName (hrecorded : task.Recorded start c t)
    (hsettled : ∀ id < task'.graph.size, task'.ClassSettled c' id) {first id : ClassId}
    {key : MemberKey} {method method' : MethodId} {symbol : MethodSymbol}
    (hstarts : task.Starts first key method symbol)
    (hneed : task.chain.needsMethodName (task.graph.classAt first) symbol = .ok true)
    (hslot' : task'.graph.slot? id key = some method') :
    ∃ name, c'.methodNames.find? method' = some name := by
  obtain ⟨patterns, hpatterns⟩ := h.default
  obtain ⟨x, symbol', hstarts', hkey'⟩ := h.exists_starts hstarts.not_initializer hslot'
  obtain ⟨need, hneed', hnamed⟩ :=
    (hsettled x (ClassGraph.lt_size_of_slot? hstarts'.slot)).of_starts hstarts'
  have hkey : symbol.key = key := by
    obtain ⟨own, hown, hkey⟩ := hrecorded.graph.symbol_of_slot hstarts.slot
    rw [hstarts.declared, Option.some_inj] at hown
    rw [hown, hkey]
  -- without policies only the key counts
  rw [PolicyChain.needsMethodName_eq h.policies hpatterns, hkey] at hneed
  rw [h.chain_eq, PolicyChain.needsMethodName_eq h.policies hpatterns, hkey'] at hneed'
  exact hnamed (Except.ok.inj (hneed'.symm.trans hneed))

/-- The family of a method has the same name again, if it is not offered two. -/
theorem methodName_eq (hrecorded : task.Recorded start c t)
    (haccounted : task'.Accounted start' c')
    (hsettled : ∀ id < task'.graph.size, task'.ClassSettled c' id)
    (hagreed : ∀ {method : MethodId} {name : String}, c'.methodNames.find? method = some name →
      task'.Agreed method)
    {id : ClassId} {key : MemberKey} {method method' : MethodId}
    (hslot : task.graph.slot? id key = some method)
    (hslot' : task'.graph.slot? (e.classOf id) key = some method') {name : String}
    (hname : c.methodNames.find? method = some name) :
    c'.methodNames.find? method' = some name := by
  obtain ⟨first, key', symbol, hstarts, hneed⟩ := hrecorded.grounded.method hname
  obtain ⟨rfl, -⟩ := (hrecorded.graph.slot_eq_iff hslot hstarts.slot).1 rfl
  have hfirst := ClassGraph.lt_size_of_slot? hstarts.slot
  -- the class where the family used to start offers its name
  have hholds := e.slot_eq hrecorded.graph h.graph hslot hstarts.slot hslot'
  have hoffer : task'.heritage.methodName? ⟨task'.graph.nameAt (e.classOf first), key⟩ =
      some (name, ⟨task.graph.nameAt first, key⟩) := by
    rw [e.nameAt_eq hfirst, h.only.methodName?_eq, h.prior,
      hrecorded.judge_method hstarts hneed hname]
    rfl
  obtain ⟨name', hname'⟩ := h.exists_methodName hrecorded hsettled hstarts hneed hslot'
  -- wherever it has been named, it has been offered nothing else
  obtain ⟨y, key', symbol', provenance, htraced⟩ := haccounted.method hname'
  obtain ⟨rfl, -⟩ := (h.graph.slot_eq_iff hslot' htraced.starts.slot).1 rfl
  have hfamily := fun z => @ClassGraph.Finished.mem_family_iff_holds _ h.graph task'.hierarchy y z
    key method' htraced.starts.slot
  have hkeys : (task'.candidates (task'.hierarchy.family y key) key).keys = [name] := by
    refine keys_candidates_of_agree ⟨e.classOf first, (hfamily _).2 hholds, _, hoffer⟩ ?_
    intro z hz found ref hfound
    exact hagreed hname' z (e.classOf first) key ((hfamily z).1 hz) hholds found name ref _ hfound
      hoffer
  have hoffered := htraced.traced
  rw [hkeys] at hoffered
  rw [hname', htraced.name_eq, hoffered.eq_carried]
  rfl

end Enlarges

end NamingTask

namespace Generator

open NamingM

variable {ρ σ : Type}

/-- A run on a larger graph that reads the table of a recorded run and refuses all conflicts gives
the names of that run again, if it succeeds. -/
theorem of_generate_of_enlarges {task : NamingTask} {start : Counters} {c : NamingContext}
    {t : MappingTable} (hrecorded : task.Recorded start c t) {gen after : Generator Resolver}
    {set : MappingSet} {e : ClassGraph.Embedding task.graph gen.task.graph}
    (h : gen.task.Enlarges task t e) (hresolver : gen.resolver = .refuse)
    (hclass : gen.context.classNames = .empty) (hfield : gen.context.fieldNames = .empty)
    (hmethod : gen.context.methodNames = .empty) (hrun : gen.generate = (.ok set, after)) :
    (∀ id < task.graph.size, after.className? (task.graph.nameAt id) =
      c.classNames.find? (task.graph.nameAt id)) ∧
    (∀ ref name, c.fieldNames.find? ref = some name → after.fieldName? ref = some name) ∧
    ∀ id key method name, task.graph.slot? id key = some method →
      c.methodNames.find? method = some name →
        after.methodName? ⟨task.graph.nameAt id, key⟩ = some name := by
  obtain ⟨s, hsucceeds, hafter⟩ := exists_succeeds_of_generate hrun
  have hcontext : after.context = s.context := by rw [hafter]; rfl
  have hgraph : after.task.graph = gen.task.graph := by rw [hafter]; rfl
  obtain ⟨hleads, hsettled, -⟩ := NamingTask.of_succeeds_run h.graph hsucceeds
  have haccounted := hleads.accounted h.graph.names hclass hfield hmethod
  refine ⟨fun id hid => ?_, fun ref name hname => ?_, fun id key method name hslot hname => ?_⟩
  · rw [className?, hcontext]
    exact h.className_eq hrecorded haccounted hsettled hid
  · rw [fieldName?, hcontext]
    exact h.fieldName_eq hrecorded haccounted hsettled hname
  · have hid := ClassGraph.lt_size_of_slot? hslot
    obtain ⟨method', hslot'⟩ := e.exists_slot hslot
    rw [← e.nameAt_eq hid, methodName?_nameAt hgraph h.graph.names (e.lt_size hid), hslot',
      Option.bind_some, hcontext]
    exact h.methodName_eq hrecorded haccounted hsettled
      (NamingTask.agreed_of_succeeds_run h.graph hsucceeds hresolver hmethod) hslot hslot' hname

/-- A generator for more class files that reads a table names a larger graph than a generator for
some of them. -/
theorem exists_enlarges_of_fresh [PatternEngine] {files files' : List ClassFile}
    {config : NamingConfig} {counters counters' : Counters} {resolver : ρ} {resolver' : σ}
    {counterFile counterFile' : Option File} {first : Generator ρ} {again second : Generator σ}
    {table : MappingTable}
    (hfirst : fresh (GraphBuilder.build files) config [] counters resolver counterFile = .ok first)
    (hagain : fresh (GraphBuilder.build files') config [] counters' resolver' counterFile' =
      .ok again)
    (hprior : again.withPrior table = .ok second)
    (hloaded : ∀ id < (GraphBuilder.build files).size,
      ((GraphBuilder.build files).classAt id).loaded = true)
    (hextends : ClassFile.Extends files' files)
    (hcontainers : ∀ id < (GraphBuilder.build files).size,
      ∀ id' < (GraphBuilder.build files').size,
        (GraphBuilder.build files').nameAt id' = (GraphBuilder.build files).nameAt id →
          (GraphBuilder.build files').outerName? id' = (GraphBuilder.build files).outerName? id) :
    ∃ e : ClassGraph.Embedding first.task.graph second.task.graph,
      second.task.Enlarges first.task table e := by
  obtain ⟨e⟩ := ClassGraph.Embedding.exists_of_extends hextends hloaded
  obtain ⟨patterns, hpatterns, rfl⟩ := fresh_eq_ok_iff.1 hfirst
  obtain ⟨patterns', hpatterns', rfl⟩ := fresh_eq_ok_iff.1 hagain
  obtain rfl := Option.some.inj (hpatterns.symm.trans hpatterns')
  obtain ⟨-, rfl⟩ := withPrior_eq_ok_iff.1 hprior
  exact ⟨e,
    { prior := rfl
      only := ⟨rfl, rfl⟩
      chain_eq := rfl
      policies := rfl
      default := ⟨patterns, rfl⟩
      graph := GraphBuilder.finished_build files'
      loaded := GraphBuilder.loaded_of_slot?
      outerName?_eq := fun id hid =>
        hcontainers id hid (e.classOf id) (e.lt_size hid) (e.nameAt_eq hid) }⟩

/-- A new generator with the configuration of a run can read the table of the run, whatever graph it
is for. -/
theorem exists_fresh_withPrior [PatternEngine] {graph : ClassGraph} {config : NamingConfig}
    {policies : List NamingPolicy} {counters : Counters} {resolver : ρ} {counterFile : Option File}
    {first : Generator ρ} {c : NamingContext} {table : MappingTable}
    (hfirst : fresh graph config policies counters resolver counterFile = .ok first)
    (hanswers : (first.task.setIn c).Answers table) (graph' : ClassGraph) (counters' : Counters)
    (resolver' : σ) (counterFile' : Option File) :
    ∃ again second : Generator σ,
      fresh graph' config policies counters' resolver' counterFile' = .ok again ∧
      again.withPrior table = .ok second ∧ second.resolver = resolver' ∧
      second.context.classNames = .empty ∧ second.context.fieldNames = .empty ∧
      second.context.methodNames = .empty := by
  obtain ⟨patterns, hpatterns, rfl⟩ := fresh_eq_ok_iff.1 hfirst
  have hsource : table.source = config.sourceNamespace := hanswers.source_eq
  have htarget : table.target = config.targetNamespace := hanswers.target_eq
  exact ⟨_, _, fresh_eq_ok_iff.2 ⟨patterns, hpatterns, rfl⟩,
    withPrior_eq_ok_iff.2 ⟨⟨hsource, htarget⟩, rfl⟩, rfl, rfl, rfl, rfl⟩

/-- A run on more class files that reads the table of a run on some of them and refuses all
conflicts answers every class, field and method of those with its name again, if it succeeds. -/
theorem exists_names_again [PatternEngine] [ConflictResolver ρ] (files files' : List ClassFile)
    (config : NamingConfig) (counters counters' : Counters) (resolver : ρ)
    (counterFile counterFile' : Option File) {first last : Generator ρ} {set : MappingSet}
    (hfirst : fresh (GraphBuilder.build files) config [] counters resolver counterFile = .ok first)
    (hrun : first.generate = (.ok set, last))
    (hloaded : ∀ id < (GraphBuilder.build files).size,
      ((GraphBuilder.build files).classAt id).loaded = true)
    (hpackage : NamingTask.IsPackage config.defaultPackage)
    (hrenames : last.Renames)
    (hextends : ClassFile.Extends files' files)
    (hcontainers : ∀ id < (GraphBuilder.build files).size,
      ∀ id' < (GraphBuilder.build files').size,
        (GraphBuilder.build files').nameAt id' = (GraphBuilder.build files).nameAt id →
          (GraphBuilder.build files').outerName? id' = (GraphBuilder.build files).outerName? id) :
    ∃ (table : MappingTable) (again second : Generator Resolver), set.toTable = .ok table ∧
      fresh (GraphBuilder.build files') config [] counters' .refuse counterFile' = .ok again ∧
      again.withPrior table = .ok second ∧
      ∀ set' last', second.generate = (.ok set', last') →
        (∀ id < (GraphBuilder.build files).size,
          last'.className? ((GraphBuilder.build files).nameAt id) =
            last.className? ((GraphBuilder.build files).nameAt id)) ∧
        (∀ ref name, last.fieldName? ref = some name → last'.fieldName? ref = some name) ∧
        ∀ ref name, last.methodName? ref = some name → last'.methodName? ref = some name := by
  have hpackages : ∀ id < (GraphBuilder.build files).size, NamingTask.IsPackage
      (first.task.chain.packageFor ((GraphBuilder.build files).classAt id)) := by
    obtain ⟨patterns, -, rfl⟩ := fresh_eq_ok_iff.1 hfirst
    exact fun id hid => hpackage
  obtain ⟨c, table, hset, htable, hlast, hrecorded⟩ :=
    exists_recorded hfirst hrun hloaded hpackages hrenames
  have hgraph := graph_of_fresh hfirst
  obtain ⟨again, second, hfresh, hprior, hrefuse, hclass, hfield, hmethod⟩ :=
    exists_fresh_withPrior hfirst hrecorded.answers (GraphBuilder.build files') counters'
      Resolver.refuse counterFile'
  obtain ⟨e, henlarges⟩ :=
    exists_enlarges_of_fresh hfirst hfresh hprior hloaded hextends hcontainers
  refine ⟨table, again, second, htable, hfresh, hprior, fun set' last' hrun' => ?_⟩
  obtain ⟨hclasses, hfields, hmethods⟩ :=
    of_generate_of_enlarges hrecorded henlarges hrefuse hclass hfield hmethod hrun'
  have hcontext : last.context = c := by rw [hlast]; rfl
  have hgraphs : last.task.graph = first.task.graph := by rw [hlast]; rfl
  rw [← hgraph]
  refine ⟨fun id hid => ?_, fun ref name hname => ?_, fun ref name hname => ?_⟩
  · rw [className?, className?, hcontext]
    exact hclasses id hid
  · rw [fieldName?, hcontext] at hname
    exact hfields ref name hname
  · obtain ⟨id, method, howner, hslot, hname⟩ := exists_of_methodName? hname
    rw [hgraphs] at howner hslot
    rw [hcontext] at hname
    obtain ⟨-, howner⟩ := ClassGraph.of_idOf? howner
    have hanswer := hmethods id ref.key method name hslot hname
    rwa [howner] at hanswer

/-- A class with a field and a method, and a subclass that overrides the method. The superclass has
no class file. -/
def lowerFiles : List ClassFile :=
  [{ name := "b", superName := some "a", fields := [{ key := ⟨"x", "I"⟩ }],
      methods := [{ key := ⟨"f", "()V"⟩ }] },
    { name := "c", superName := some "b", methods := [{ key := ⟨"f", "()V"⟩ }] }]

/-- With the superclass, which declares the method, too, and one more subclass. -/
def allFiles : List ClassFile :=
  { name := "a", methods := [{ key := ⟨"f", "()V"⟩ }] } :: lowerFiles ++
    [{ name := "d", superName := some "c", methods := [{ key := ⟨"f", "()V"⟩ }] }]

/-- What a run without the superclass gives. -/
def lowerSet : MappingSet where
  source := "official"
  target := "intermediary"
  counters := ⟨3, 2, 2⟩
  classes :=
    [{ name := "b", target := "net/minecraft/class_1", fields := [⟨⟨"x", "I"⟩, "field_1"⟩],
        methods := [⟨⟨"f", "()V"⟩, "method_1"⟩] },
      { name := "c", target := "net/minecraft/class_2" }]

/-- Its table. -/
def lowerTable : MappingTable where
  source := "official"
  target := "intermediary"
  counters := ⟨3, 2, 2⟩
  classes := .ofList [("b", "net/minecraft/class_1"), ("c", "net/minecraft/class_2")]
  fields := .ofList [(⟨"b", ⟨"x", "I"⟩⟩, ⟨"net/minecraft/class_1", ⟨"field_1", "I"⟩⟩)]
  methods := .ofList [(⟨"b", ⟨"f", "()V"⟩⟩, ⟨"net/minecraft/class_1", ⟨"method_1", "()V"⟩⟩)]

/-- The name of the method is found again, although its family starts at the new superclass. -/
theorem methodName?_below_new_class :
    ∃ (first last again second last' : Generator Resolver) (set set' : MappingSet)
      (table : MappingTable),
      fresh (GraphBuilder.build lowerFiles) {} [] {} .refuse none = .ok first ∧
      first.generate = (.ok set, last) ∧ set.toTable = .ok table ∧
      fresh (GraphBuilder.build allFiles) {} [] {} .refuse none = .ok again ∧
      again.withPrior table = .ok second ∧ second.generate = (.ok set', last') ∧
      (GraphBuilder.build allFiles).hierarchy.isSource 1 ⟨"f", "()V"⟩ = false ∧
      last'.methodName? ⟨"b", ⟨"f", "()V"⟩⟩ = some "method_1" := by
  obtain ⟨first, hgen⟩ : ∃ first, freshWith (GraphBuilder.build lowerFiles) {} .usual [] {}
      Resolver.refuse none = first := ⟨_, rfl⟩
  have hfirst := fresh_eq_ok_iff.2 ⟨.usual, NamePatterns.compile?_usual, hgen⟩
  have hrun : first.generate = (.ok lowerSet, first.generate.2) := by
    refine Prod.ext ?_ rfl
    cases hgen
    decide +kernel
  have hrenames : first.generate.2.Renames := by
    cases hgen
    decide +kernel
  have hname : first.generate.2.methodName? ⟨"b", ⟨"f", "()V"⟩⟩ = some "method_1" := by
    cases hgen
    decide +kernel
  obtain ⟨table, again, second, htable, hagain, hprior, hnames⟩ :=
    exists_names_again lowerFiles allFiles {} {} {} Resolver.refuse none none hfirst hrun
      (by decide +kernel) (by decide +kernel) hrenames
      (ClassFile.extends_of_filter (by decide +kernel)) (by decide +kernel)
  obtain ⟨set', hrun'⟩ : ∃ set', second.generate = (.ok set', second.generate.2) := by
    refine exists_generate_eq_of_isOk ?_
    have hlowerTable : lowerSet.toTable = .ok lowerTable := by decide +kernel
    obtain rfl := Except.ok.inj (hlowerTable.symm.trans htable)
    obtain ⟨patterns, hpatterns, rfl⟩ := fresh_eq_ok_iff.1 hagain
    obtain rfl : NamePatterns.usual = patterns :=
      Option.some.inj (NamePatterns.compile?_usual.symm.trans hpatterns)
    obtain ⟨-, rfl⟩ := withPrior_eq_ok_iff.1 hprior
    decide +kernel
  obtain ⟨-, -, hmethods⟩ := hnames set' _ hrun'
  exact ⟨first, _, again, second, _, lowerSet, set', table, hfirst, hrun, htable, hagain, hprior,
    hrun', by decide +kernel, hmethods _ _ hname⟩

end Generator

end StableNaming
