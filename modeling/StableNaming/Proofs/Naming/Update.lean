import StableNaming.Proofs.Graph.Correspondence
import StableNaming.Proofs.Naming.Planned
import StableNaming.Proofs.Naming.Recorded

/-!
# Names of an old version

A match file says which old symbol each new one corresponds to, and the table of a
run on the old version what the old symbols are called. Together they offer every
symbol the name of the old one, and no other. A method that has no line of its own
in the old table is found by its old family.
-/

namespace StableNaming

/-! ## What corresponds -/

namespace Correspondence

variable {new old : ClassGraph} (corr : Correspondence new old)

/-- Whether a table lists every class and every member with the one that it corresponds to. -/
structure Lists (t : MappingTable) : Prop where
  /-- Classes are listed. -/
  type : ∀ x < new.size, t.classTarget? (new.nameAt x) = some (old.nameAt (corr.classOf x))
  /-- Fields are listed. -/
  field : ∀ x < new.size, ∀ f ∈ (new.classAt x).fields.values,
    t.memberTarget? .field ⟨new.nameAt x, f.key⟩ =
      some ⟨old.nameAt (corr.classOf x), corr.fieldKey x f.key⟩
  /-- Methods are listed. -/
  method : ∀ x k, new.declares x k = true → t.memberTarget? .method ⟨new.nameAt x, k⟩ =
    some ⟨old.nameAt (corr.classOf x), corr.methodKey x k⟩

/-- Whether the policies decide about symbols as the old policies do about those that they
correspond to, and what generated names take over from the names before agrees. -/
structure Agrees (chain oldChain : PolicyChain) : Prop where
  /-- Anonymous classes have the same last segment. -/
  simpleName_eq : ∀ x < new.size, (new.classAt x).isAnonymous = true →
    (new.classAt x).simpleName = (old.classAt (corr.classOf x)).simpleName
  /-- Local classes have the same leading digits. -/
  leadingDigits_eq : ∀ x < new.size, (new.classAt x).isLocal = true →
    leadingDigits (new.classAt x).simpleName =
      leadingDigits (old.classAt (corr.classOf x)).simpleName
  /-- Classes that keep their names have the same ones. -/
  nameAt_eq : ∀ x < new.size, oldChain.needsClassName (old.classAt (corr.classOf x)) = .ok false →
    new.nameAt x = old.nameAt (corr.classOf x)
  /-- Classes are in the same packages. -/
  packageFor_eq : ∀ x < new.size,
    chain.packageFor (new.classAt x) = oldChain.packageFor (old.classAt (corr.classOf x))
  /-- The same classes need names. -/
  type : ∀ x < new.size, ∀ need,
    oldChain.needsClassName (old.classAt (corr.classOf x)) = .ok need →
      chain.needsClassName (new.classAt x) = .ok need
  /-- The same fields need names. -/
  field : ∀ x < new.size, ∀ f ∈ (new.classAt x).fields.values,
    ∀ f' ∈ (old.classAt (corr.classOf x)).fields.values, f'.key = corr.fieldKey x f.key →
      ∀ need, oldChain.needsFieldName (old.classAt (corr.classOf x)) f' = .ok need →
        chain.needsFieldName (new.classAt x) f = .ok need
  /-- The same methods need names. -/
  method : ∀ x k symbol symbol', new.methodIn? x k = some symbol →
    old.methodIn? (corr.classOf x) (corr.methodKey x k) = some symbol' →
      ∀ need, oldChain.needsMethodName (old.classAt (corr.classOf x)) symbol' = .ok need →
        chain.needsMethodName (new.classAt x) symbol = .ok need

end Correspondence

namespace NamingTask

/-- Whether a task carries names over from an old version that its symbols correspond to, and
from nothing else. -/
structure Updates (task old : NamingTask) (t : MappingTable)
    (corr : Correspondence task.graph old.graph) : Prop where
  /-- No earlier mapping of the same classes is known. -/
  prior : task.heritage.prior = .theIdentity
  /-- The old version is that of the old task. -/
  oldGraph : task.heritage.oldGraph = old.graph
  /-- The old mapping is the given table. -/
  oldTable : task.heritage.old = t
  /-- The match table lists the correspondence. -/
  lists : corr.Lists task.heritage.matched
  /-- The policies agree. -/
  agrees : corr.Agrees task.chain old.chain
  /-- The graph is a finished one. -/
  graph : task.graph.Finished
  /-- Every class has a class file. -/
  loaded : ∀ x < task.graph.size, (task.graph.classAt x).loaded = true

/-- Families start where methods are declared that override nothing and are no initializers. -/
theorem exists_starts_iff {task : NamingTask} (hgraph : task.graph.Finished) {id : ClassId}
    {key : MemberKey} {method : MethodId} (hloaded : (task.graph.classAt id).loaded = true)
    (hslot : task.graph.slot? id key = some method) :
    (∃ symbol, task.Starts id key method symbol) ↔
      key.isInitializer = false ∧ task.hierarchy.isSource id key = true := by
  constructor
  · rintro ⟨symbol, hstarts⟩
    exact ⟨hstarts.not_initializer, hstarts.source⟩
  · rintro ⟨hinit, hsource⟩
    obtain ⟨symbol, hsymbol, -⟩ := hgraph.symbol_of_slot hslot
    exact ⟨symbol, hloaded, hslot, hinit, hsource, hsymbol⟩

namespace Updates

variable {task old : NamingTask} {start : Counters} {c : NamingContext} {t : MappingTable}
  {corr : Correspondence task.graph old.graph}

/-! ## Names that are found -/

section Found

variable (hup : task.Updates old t corr) {x : ClassId} {name : String}
include hup

theorem className?_eq (hx : x < task.graph.size)
    (hjudge : Carried.judge .type (old.graph.nameAt (corr.classOf x))
      (t.classTarget? (old.graph.nameAt (corr.classOf x))) = .generated name) :
    task.heritage.className? (task.graph.nameAt x) = some name := by
  rw [Heritage.className?, hup.prior, MappingTable.classTarget?_theIdentity, Carried.judge_self]
  dsimp only
  rw [hup.lists.type x hx, Option.bind_some, hup.oldTable, hjudge]
  rfl

theorem fieldName?_eq (hx : x < task.graph.size) {f : Member}
    (hf : f ∈ (task.graph.classAt x).fields.values)
    (hjudge : Heritage.judgeMember t .field
      ⟨old.graph.nameAt (corr.classOf x), corr.fieldKey x f.key⟩ = .generated name) :
    task.heritage.fieldName? ⟨task.graph.nameAt x, f.key⟩ = some name := by
  rw [Heritage.fieldName?, hup.prior, Heritage.judgeMember_theIdentity]
  dsimp only
  rw [Heritage.oldMember?, hup.lists.field x hx f hf, Option.some_or, Option.bind_some,
    hup.oldTable, hjudge]
  rfl

theorem methodName?_eq {k : MemberKey} (hk : task.graph.declares x k = true)
    (hjudge : task.heritage.judgeOldMethod
      ⟨old.graph.nameAt (corr.classOf x), corr.methodKey x k⟩ = .generated name) :
    task.heritage.methodName? ⟨task.graph.nameAt x, k⟩ =
      some (name, ⟨old.graph.nameAt (corr.classOf x), corr.methodKey x k⟩) := by
  rw [Heritage.methodName?, hup.prior, Heritage.judgeMember_theIdentity]
  dsimp only
  rw [Heritage.oldMember?, hup.lists.method x k hk, Option.some_or, Option.bind_some, hjudge]
  rfl

end Found

/-! ## Choices that agree -/

section Choices

variable (hup : task.Updates old t corr)
include hup

theorem classDecision_eq {x : ClassId} (hx : x < task.graph.size) {need : Bool}
    (h : old.classDecision (corr.classOf x) = .ok need) : task.classDecision x = .ok need := by
  rw [classDecision, corr.outer_eq hx, Option.isSome_map, corr.isAnonymous_eq hx] at h
  rw [classDecision]
  split
  · rename_i hasked
    rw [if_pos hasked] at h
    exact h
  · rename_i hasked
    rw [if_neg hasked] at h
    exact hup.agrees.type x hx need h

/-- Classes that keep their names have the same ones in the same container. -/
theorem keptClassName_eq {x : ClassId} (hx : x < task.graph.size)
    (h : old.classDecision (corr.classOf x) = .ok false) {parent : Option String}
    (hparent : parent.isSome = (task.graph.classAt x).outer.isSome) :
    keptClassName (task.graph.classAt x) parent =
      keptClassName (old.graph.classAt (corr.classOf x)) parent := by
  rw [classDecision, corr.outer_eq hx, Option.isSome_map, corr.isAnonymous_eq hx] at h
  split at h
  · rename_i hasked
    obtain ⟨houter, hanonymous⟩ := (Bool.and_eq_true _ _).mp hasked
    obtain ⟨place, rfl⟩ := Option.isSome_iff_exists.1 (hparent.trans houter)
    dsimp only [keptClassName]
    rw [hup.agrees.simpleName_eq x hx hanonymous]
  · have hname := hup.agrees.nameAt_eq x hx h
    have hsimple : (task.graph.classAt x).simpleName =
        (old.graph.classAt (corr.classOf x)).simpleName := congrArg simpleSegment hname
    cases parent with
    | none => exact hname
    | some place =>
      dsimp only [keptClassName]
      rw [hsimple]

/-- Generated names of classes start with the same place and digits. -/
theorem classNameStart_eq {x : ClassId} (hx : x < task.graph.size) (parent : Option String) :
    task.classNameStart (task.graph.classAt x) parent =
      old.classNameStart (old.graph.classAt (corr.classOf x)) parent := by
  dsimp only [classNameStart]
  rw [hup.agrees.packageFor_eq x hx, corr.isLocal_eq hx]
  cases hlocal : (task.graph.classAt x).isLocal with
  | false => rw [if_neg Bool.false_ne_true, if_neg Bool.false_ne_true]
  | true => rw [hup.agrees.leadingDigits_eq x hx hlocal]

end Choices

/-! ## Methods that correspond -/

section Methods

variable (hup : task.Updates old t corr) (h : old.Recorded start c t)
include hup h

/-- Families start at corresponding classes. -/
theorem exists_starts_iff_old {x : ClassId} {k : MemberKey} {m m' : MethodId}
    (hslot : task.graph.slot? x k = some m)
    (hslot' : old.graph.slot? (corr.classOf x) (corr.methodKey x k) = some m') :
    (∃ symbol, task.Starts x k m symbol) ↔
      ∃ symbol', old.Starts (corr.classOf x) (corr.methodKey x k) m' symbol' := by
  have hk := ClassGraph.declares_iff.2 ⟨m, hslot⟩
  have hx := ClassGraph.lt_size_of_slot? hslot
  rw [exists_starts_iff hup.graph (hup.loaded x hx) hslot,
    exists_starts_iff h.graph (h.loaded _ (corr.lt_size hx)) hslot', corr.isInitializer_eq hk,
    corr.isSource_eq hk task.hierarchy old.hierarchy]

omit h in
/-- The policies decide alike where corresponding families start. -/
theorem needsMethodName_eq {x : ClassId} {k : MemberKey} {m m' : MethodId}
    {symbol symbol' : MethodSymbol} (hstarts : task.Starts x k m symbol)
    (hstarts' : old.Starts (corr.classOf x) (corr.methodKey x k) m' symbol') {need : Bool}
    (hneed : old.chain.needsMethodName (old.graph.classAt (corr.classOf x)) symbol' = .ok need) :
    task.chain.needsMethodName (task.graph.classAt x) symbol = .ok need := by
  refine hup.agrees.method x k symbol symbol' ?_ ?_ need hneed
  · rw [ClassGraph.methodIn?, hstarts.slot]
    exact hstarts.declared
  · rw [ClassGraph.methodIn?, hstarts'.slot]
    exact hstarts'.declared

/-- Where a family starts, it is known whether it needs a name, and if so the old family has
one. -/
theorem exists_need_of_starts {x : ClassId} {k : MemberKey} {m m' : MethodId}
    {symbol : MethodSymbol} (hstarts : task.Starts x k m symbol)
    (hslot' : old.graph.slot? (corr.classOf x) (corr.methodKey x k) = some m') :
    ∃ need, task.chain.needsMethodName (task.graph.classAt x) symbol = .ok need ∧
      (need = true → ∃ name, c.methodNames.find? m' = some name) := by
  obtain ⟨symbol', hstarts'⟩ :=
    (hup.exists_starts_iff_old h hstarts.slot hslot').1 ⟨symbol, hstarts⟩
  have hx := ClassGraph.lt_size_of_slot? hslot'
  obtain ⟨need, hneed, hnamed⟩ := (h.settled _ hx).of_starts hstarts'
  exact ⟨need, hup.needsMethodName_eq hstarts hstarts' hneed, hnamed⟩

/-- An old method with a name corresponds to one whose family starts somewhere and needs a
name. -/
theorem exists_starts_of_old {x : ClassId} {k : MemberKey} {m m' : MethodId} {name : String}
    (hslot : task.graph.slot? x k = some m)
    (hslot' : old.graph.slot? (corr.classOf x) (corr.methodKey x k) = some m')
    (hname : c.methodNames.find? m' = some name) :
    ∃ y l symbol, task.Starts y l m symbol ∧
      task.chain.needsMethodName (task.graph.classAt y) symbol = .ok true := by
  obtain ⟨y', l', symbol', hstarts', hneed⟩ := h.grounded.method hname
  obtain ⟨y, hy, rfl⟩ := corr.surj (ClassGraph.lt_size_of_slot? hstarts'.slot)
  obtain ⟨l, hl, rfl⟩ := corr.method_surj hy (ClassGraph.declares_iff.2 ⟨m', hstarts'.slot⟩)
  obtain ⟨n, hn⟩ := ClassGraph.declares_iff.1 hl
  obtain rfl := (corr.slot_eq_iff hup.graph h.graph hslot hn hslot' hstarts'.slot).2 rfl
  obtain ⟨symbol, hstarts⟩ := (hup.exists_starts_iff_old h hn hstarts'.slot).2 ⟨symbol', hstarts'⟩
  exact ⟨y, l, symbol, hstarts, hup.needsMethodName_eq hstarts hstarts' hneed⟩

end Methods

end Updates

end NamingTask

/-- The plan to give every symbol the name that is decided in a context for the one that it
corresponds to. -/
def NamePlan.along {new old : ClassGraph} (corr : Correspondence new old)
    (methodOf : MethodId → MethodId) (c : NamingContext) (counters : Counters) : NamePlan where
  type x := (c.classNames.find? (old.nameAt (corr.classOf x))).getD ""
  field ref := ((new.idOf? ref.owner).bind fun x =>
    c.fieldNames.find? ⟨old.nameAt (corr.classOf x), corr.fieldKey x ref.key⟩).getD ""
  method m := (c.methodNames.find? (methodOf m)).getD ""
  counters

theorem NamePlan.field_along {new old : ClassGraph} {corr : Correspondence new old}
    {methodOf : MethodId → MethodId} {c : NamingContext} {counters : Counters}
    (hnames : new.DistinctNames) {x : ClassId} (hx : x < new.size) (k : MemberKey) :
    (along corr methodOf c counters).field ⟨new.nameAt x, k⟩ =
      (c.fieldNames.find? ⟨old.nameAt (corr.classOf x), corr.fieldKey x k⟩).getD "" := by
  dsimp only [along]
  rw [hnames.idOf?_nameAt hx, Option.bind_some]

namespace NamingTask.Updates

variable {task old : NamingTask} {start : Counters} {c : NamingContext} {t : MappingTable}
  {corr : Correspondence task.graph old.graph} {methodOf : MethodId → MethodId}
  {counters : Counters} (hup : task.Updates old t corr) (h : old.Recorded start c t)
  (hmethodOf : ∀ {x : ClassId} {k : MemberKey} {m : MethodId}, task.graph.slot? x k = some m →
    old.graph.slot? (corr.classOf x) (corr.methodKey x k) = some (methodOf m))

omit hup h in
/-- The name of the old container is the one that is planned for the container. -/
theorem parentName_eq_plannedParent {x : ClassId} (hx : x < task.graph.size)
    (houter : old.OuterNamed c (corr.classOf x)) :
    old.parentName c (corr.classOf x) =
      task.plannedParent (.along corr methodOf c counters) x := by
  rw [OuterNamed, corr.outer_eq hx] at houter
  rw [parentName, plannedParent, corr.outer_eq hx]
  cases hcontainer : (task.graph.classAt x).outer with
  | none => rfl
  | some outer =>
    rw [hcontainer] at houter
    obtain ⟨place, hplace⟩ := Option.isSome_iff_exists.1 (houter _ rfl)
    dsimp only [NamePlan.along]
    rw [Option.map_some, Option.bind_some, Option.map_some, hplace, Option.getD_some]

include hup h

include hmethodOf in
/-- Every symbol that needs a name is offered that of the old one. -/
theorem offers (hcounters : ∀ kind, c.counters.get kind ≤ counters.get kind) :
    task.Offers (.along corr methodOf c counters) where
  type x hx := by
    have hx' := corr.lt_size hx
    obtain ⟨name, hname⟩ := (h.settled _ hx').name
    have hminted := h.minted.type hx' hname
    have hparent := @parentName_eq_plannedParent _ _ _ corr methodOf counters x hx hminted.outer
    have hsome : (task.plannedParent (.along corr methodOf c counters) x).isSome =
        (task.graph.classAt x).outer.isSome := Option.isSome_map
    have hplan : (NamePlan.along corr methodOf c counters).type x = name := by
      dsimp only [NamePlan.along]
      rw [hname, Option.getD_some]
    obtain ⟨need, hneed⟩ := hminted.decided
    refine ⟨need, hup.classDecision_eq hx hneed, fun hkept => ?_, fun hcarried => ?_⟩
    · rw [hkept] at hneed
      rw [hplan, hminted.kept hneed, hparent, hup.keptClassName_eq hx hneed hsome]
    · rw [hcarried] at hneed
      obtain ⟨found, n, hfound, heq, hjudge, hpassed⟩ := h.judge_type hx' (h.loaded _ hx') hneed
      have hpackage : IsPackage (task.chain.packageFor (task.graph.classAt x)) := by
        rw [hup.agrees.packageFor_eq x hx]
        exact h.packages _ hx'
      rw [hparent, ← hup.classNameStart_eq hx] at heq
      obtain rfl := Option.some.inj (hname.symm.trans hfound)
      refine ⟨name, hup.className?_eq hx hjudge, ?_, fun m hm => ?_⟩
      · rw [hplan]
        exact carriedClassName_eq_self hpackage heq
      · exact Nat.lt_of_lt_of_le (hpassed m hm) (hcounters .type)
  field x _ f hf := by
    have hx : x < task.graph.size := ClassGraph.lt_size_of_mem_fields hf
    have hx' := corr.lt_size hx
    obtain ⟨f', hf', hkey⟩ := corr.field hx f hf
    obtain ⟨need, hneed, -⟩ := (h.settled _ hx').fields (h.loaded _ hx') f' hf'
    refine ⟨need, hup.agrees.field x hx f hf f' hf' hkey need hneed, fun hcarried => ?_⟩
    rw [hcarried] at hneed
    obtain ⟨name, hname, hjudge, hpassed⟩ := h.judge_field hx' (h.loaded _ hx') hf' hneed
    rw [hkey] at hname hjudge
    rw [NamePlan.field_along hup.graph.names hx, hname, Option.getD_some]
    exact ⟨hup.fieldName?_eq hx hf hjudge,
      fun m hm => Nat.lt_of_lt_of_le (hpassed m hm) (hcounters .field)⟩
  method x k m symbol hstarts := by
    obtain ⟨need, hneed, hnamed⟩ := hup.exists_need_of_starts h hstarts (hmethodOf hstarts.slot)
    refine ⟨need, hneed, fun hcarried => ?_⟩
    obtain ⟨name, hname⟩ := hnamed hcarried
    have hplan : (NamePlan.along corr methodOf c counters).method m = name := by
      dsimp only [NamePlan.along]
      rw [hname, Option.getD_some]
    rw [hplan]
    have hoffer : ∀ {y}, task.graph.slot? y k = some m →
        task.heritage.methodName? ⟨task.graph.nameAt y, k⟩ =
          some (name, ⟨old.graph.nameAt (corr.classOf y), corr.methodKey y k⟩) := fun hslot =>
      hup.methodName?_eq (ClassGraph.declares_iff.2 ⟨m, hslot⟩)
        (h.judgeOldMethod_eq hup.oldTable hup.oldGraph (hmethodOf hslot) hname)
    have hmem := fun y => @ClassGraph.Finished.mem_family_iff_holds _ hup.graph task.hierarchy x y
      k m hstarts.slot
    refine ⟨keys_candidates_of_agree ⟨x, (hmem x).2 hstarts.slot, _, hoffer hstarts.slot⟩ ?_,
      fun n hn => Nat.lt_of_lt_of_le (h.lt_of_suffix?_method hname hn) (hcounters .method)⟩
    intro y hy found ref hfound
    rw [hoffer ((hmem y).1 hy), Option.some_inj, Prod.mk.injEq] at hfound
    exact hfound.1.symm

/-! ## Names that survive -/

section Survive

variable {c' : NamingContext} (hfollows : task.Follows (.along corr methodOf c counters) c')
  (hgrounded : task.Grounded c')
  (hsettled : ∀ x < task.graph.size, task.ClassSettled c' x)
include hfollows hsettled

omit hup in
theorem classNames_eq {x : ClassId} (hx : x < task.graph.size) :
    c'.classNames.find? (task.graph.nameAt x) =
      c.classNames.find? (old.graph.nameAt (corr.classOf x)) := by
  obtain ⟨name, hname⟩ := (h.settled _ (corr.lt_size hx)).name
  obtain ⟨name', hname'⟩ := (hsettled x hx).name
  have hplan := hfollows.type hx hname'
  dsimp only [NamePlan.along] at hplan
  rw [hname, Option.getD_some] at hplan
  rw [hname, hname', hplan]

include hgrounded

theorem fieldNames_eq {x : ClassId} (hx : x < task.graph.size) {f : Member}
    (hf : f ∈ (task.graph.classAt x).fields.values) :
    c'.fieldNames.find? ⟨task.graph.nameAt x, f.key⟩ =
      c.fieldNames.find? ⟨old.graph.nameAt (corr.classOf x), corr.fieldKey x f.key⟩ := by
  have hx' := corr.lt_size hx
  obtain ⟨f', hf', hkey⟩ := corr.field hx f hf
  obtain ⟨need, hneed, hnamed⟩ := (h.settled _ hx').fields (h.loaded _ hx') f' hf'
  have hneed' := hup.agrees.field x hx f hf f' hf' hkey need hneed
  obtain ⟨need', hneed'', hnamed'⟩ := (hsettled x hx).fields (hup.loaded x hx) f hf
  obtain rfl : need = need' := Except.ok.inj (hneed'.symm.trans hneed'')
  rw [← hkey]
  cases need with
  | true =>
    obtain ⟨name, hname⟩ := hnamed rfl
    obtain ⟨name', hname'⟩ := hnamed' rfl
    have hplan := hfollows.field hname'
    rw [NamePlan.field_along hup.graph.names hx, ← hkey, hname, Option.getD_some] at hplan
    rw [hname, hname', hplan]
  | false =>
    have hnone : c.fieldNames.find? ⟨old.graph.nameAt (corr.classOf x), f'.key⟩ = none := by
      refine Option.eq_none_iff_forall_ne_some.2 fun name hname => ?_
      have htrue := h.grounded.needsFieldName_eq h.graph hx' hf' hname
      rw [hneed, Except.ok.injEq] at htrue
      cases htrue
    have hnone' : c'.fieldNames.find? ⟨task.graph.nameAt x, f.key⟩ = none := by
      refine Option.eq_none_iff_forall_ne_some.2 fun name hname => ?_
      have htrue := hgrounded.needsFieldName_eq hup.graph hx hf hname
      rw [hneed', Except.ok.injEq] at htrue
      cases htrue
    rw [hnone, hnone']

include hmethodOf

theorem methodNames_eq {x : ClassId} {k : MemberKey} {m : MethodId}
    (hslot : task.graph.slot? x k = some m) :
    c'.methodNames.find? m = c.methodNames.find? (methodOf m) := by
  cases hname' : c'.methodNames.find? m with
  | some name' =>
    obtain ⟨y, l, symbol, hstarts, hneed⟩ := hgrounded.method hname'
    obtain ⟨need, hneed', hnamed⟩ := hup.exists_need_of_starts h hstarts (hmethodOf hstarts.slot)
    rw [hneed, Except.ok.injEq] at hneed'
    obtain ⟨name, hname⟩ := hnamed hneed'.symm
    have hplan := hfollows.method hname'
    dsimp only [NamePlan.along] at hplan
    rw [hname, Option.getD_some] at hplan
    rw [hname, hplan]
  | none =>
    refine (Option.eq_none_iff_forall_ne_some.2 fun name hname => ?_).symm
    obtain ⟨y, l, symbol, hstarts, hneed⟩ :=
      hup.exists_starts_of_old h hslot (hmethodOf hslot) hname
    have hy := ClassGraph.lt_size_of_slot? hstarts.slot
    obtain ⟨need, hneed', hnamed⟩ := (hsettled y hy).of_starts hstarts
    rw [hneed, Except.ok.injEq] at hneed'
    obtain ⟨name', hsome⟩ := hnamed hneed'.symm
    rw [hname'] at hsome
    cases hsome

end Survive

end NamingTask.Updates

end StableNaming
