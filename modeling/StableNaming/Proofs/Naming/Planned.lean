import StableNaming.Proofs.Naming.Generation
import StableNaming.Proofs.Naming.Failure

/-!
# Runs that follow a plan

A plan says which name every symbol is to get. If every symbol that needs a name
is offered the planned one, and the counters are past the numbers of all planned
names, then a run succeeds, gives the planned names and moves no counter, whoever
settles conflicts.
-/

namespace StableNaming

open NamingM

/-- The names that a run is to give, and the counters that it is to leave as they are. -/
structure NamePlan where
  /-- Names of classes. -/
  type : ClassId → String
  /-- Names of fields. -/
  field : MemberRef → String
  /-- Names of methods. -/
  method : MethodId → String
  /-- The counters. -/
  counters : Counters

/-- Whether the counter of a kind is past the number in a name. -/
def NamePlan.Passed (plan : NamePlan) (kind : SymbolKind) (name : String) : Prop :=
  ∀ n, kind.suffix? name = some n → n < plan.counters.get kind

/-- A symbol that is offered a single name, which its counter is past of, gets it and moves no
counter. -/
theorem NamePlan.Passed.of_chooses {plan : NamePlan} {kind : SymbolKind} {found : String}
    {c c' : NamingContext} {provenance : Provenance} (hpassed : plan.Passed kind found)
    (hcounters : c.counters = plan.counters) (h : Chooses kind true [found] c provenance c') :
    provenance = .carried found [found] ∧ c' = c := by
  cases h with
  | carried hmem hpass =>
    obtain rfl := List.mem_singleton.1 hmem
    refine ⟨rfl, ?_⟩
    have hsame : c'.counters = c.counters := Counters.ext_get fun kind' => by
      rw [NamingContext.get_counters_passAll? hpass]
      split
      · rename_i heq
        refine heq ▸ nextAfter_eq_of_forall_lt fun n hn => ?_
        obtain ⟨name, hname, hn⟩ := List.mem_filterMap.1 hn
        rw [List.mem_singleton.1 hname] at hn
        exact hcounters ▸ hpassed n hn
      · rfl
    rw [NamingTask.counters_of_passAll? hpass, hsame]

namespace NamingTask

variable {ρ : Type} {task : NamingTask} {plan : NamePlan}

/-- The name that is planned for the container of a class. -/
def plannedParent (task : NamingTask) (plan : NamePlan) (id : ClassId) : Option String :=
  (task.graph.classAt id).outer.map plan.type

/-- Whether all names that are decided are the planned ones, and no counter has moved. -/
structure Follows (task : NamingTask) (plan : NamePlan) (c : NamingContext) : Prop where
  /-- The counters are the planned ones. -/
  counters_eq : c.counters = plan.counters
  /-- Classes have the planned names. -/
  type : ∀ {id : ClassId}, id < task.graph.size → ∀ {name : String},
    c.classNames.find? (task.graph.nameAt id) = some name → name = plan.type id
  /-- Fields have the planned names. -/
  field : ∀ {ref : MemberRef} {name : String}, c.fieldNames.find? ref = some name →
    name = plan.field ref
  /-- Methods have the planned names. -/
  method : ∀ {method : MethodId} {name : String}, c.methodNames.find? method = some name →
    name = plan.method method

/-- Whether the heritage offers every symbol that needs a name the planned one. -/
structure Offers (task : NamingTask) (plan : NamePlan) : Prop where
  /-- A class keeps its name or takes over one that becomes the planned one. -/
  type : ∀ id < task.graph.size, ∃ need, task.classDecision id = .ok need ∧
    (need = false →
      keptClassName (task.graph.classAt id) (task.plannedParent plan id) = plan.type id) ∧
    (need = true → ∃ found, task.heritage.className? (task.graph.nameAt id) = some found ∧
      task.carriedClassName (task.graph.classAt id) (task.plannedParent plan id) found =
        plan.type id ∧
      plan.Passed .type found)
  /-- A field is offered its planned name. -/
  field : ∀ id, (task.graph.classAt id).loaded = true →
    ∀ f ∈ (task.graph.classAt id).fields.values, ∃ need,
      task.chain.needsFieldName (task.graph.classAt id) f = .ok need ∧
      (need = true →
        task.heritage.fieldName? ⟨task.graph.nameAt id, f.key⟩ =
          some (plan.field ⟨task.graph.nameAt id, f.key⟩) ∧
        plan.Passed .field (plan.field ⟨task.graph.nameAt id, f.key⟩))
  /-- A family is offered the planned name of its method and no other one. -/
  method : ∀ id key method symbol, task.Starts id key method symbol → ∃ need,
    task.chain.needsMethodName (task.graph.classAt id) symbol = .ok need ∧
    (need = true →
      (task.candidates (task.hierarchy.family id key) key).keys = [plan.method method] ∧
      plan.Passed .method (plan.method method))

namespace Follows

variable {c : NamingContext}

/-- A context without names follows every plan that starts from its counters. -/
theorem of_empty (hcounters : c.counters = plan.counters) (hclass : c.classNames = .empty)
    (hfield : c.fieldNames = .empty) (hmethod : c.methodNames = .empty) :
    task.Follows plan c where
  counters_eq := hcounters
  type _ _ hname := by rw [hclass] at hname; cases hname
  field hname := by rw [hfield] at hname; cases hname
  method hname := by rw [hmethod] at hname; cases hname

/-- The name of a container is the planned one. -/
theorem parentName_eq (h : task.Follows plan c) (hgraph : task.graph.Finished) {id : ClassId}
    (houter : task.OuterNamed c id) : task.parentName c id = task.plannedParent plan id := by
  rw [parentName, plannedParent]
  cases hcontainer : (task.graph.classAt id).outer with
  | none => rfl
  | some outer =>
    obtain ⟨name, hname⟩ := Option.isSome_iff_exists.1 (houter outer hcontainer)
    have hlt : outer < task.graph.size := hgraph.forest.outer_lt hcontainer
    rw [Option.bind_some, Option.map_some, hname, h.type hlt hname]

theorem setClass (h : task.Follows plan c) (hgraph : task.graph.Finished) {id : ClassId}
    (hid : id < task.graph.size) :
    task.Follows plan (c.setClass (task.graph.nameAt id) (plan.type id)) where
  counters_eq := h.counters_eq
  type {id'} hid' name hname := by
    dsimp only [NamingContext.setClass] at hname
    rw [Dictionary.find?_insert] at hname
    split at hname
    · rename_i heq
      obtain rfl := hgraph.names hid hid' heq
      exact (Option.some.inj hname).symm
    · exact h.type hid' hname
  field := h.field
  method := h.method

theorem setField (h : task.Follows plan c) (ref : MemberRef) :
    task.Follows plan (c.setField ref (plan.field ref)) where
  counters_eq := h.counters_eq
  type := h.type
  field {ref'} name hname := by
    dsimp only [NamingContext.setField] at hname
    rw [Dictionary.find?_insert] at hname
    split at hname
    · rename_i heq
      rw [← heq]
      exact (Option.some.inj hname).symm
    · exact h.field hname
  method := h.method

theorem setMethod (h : task.Follows plan c) (method : MethodId) :
    task.Follows plan (c.setMethod method (plan.method method)) where
  counters_eq := h.counters_eq
  type := h.type
  field := h.field
  method {method'} name hname := by
    dsimp only [NamingContext.setMethod] at hname
    rw [Dictionary.find?_insert] at hname
    split at hname
    · rename_i heq
      rw [← heq]
      exact (Option.some.inj hname).symm
    · exact h.method hname

end Follows

/-! ## Steps -/

/-- A decision of a run that is offered the planned names gives a planned name. -/
theorem Follows.decides {c c' : NamingContext} {d : Decision} (h : task.Follows plan c)
    (hgraph : task.graph.Finished) (hoffers : task.Offers plan) (hd : task.Decides c d c') :
    task.Follows plan c' := by
  cases hd with
  | @type id need provenance _ c₁ hid _ outer decision chooses =>
    obtain ⟨need', hneed, hkept, hcarried⟩ := hoffers.type id hid
    obtain rfl : need' = need := Except.ok.inj (hneed.symm.trans decision)
    have hparent := h.parentName_eq hgraph outer
    have hset := h.setClass hgraph hid
    rw [hparent]
    cases need' with
    | false =>
      cases chooses
      rw [← hkept rfl] at hset
      exact hset
    | true =>
      obtain ⟨found, hfound, hname, hpassed⟩ := hcarried rfl
      rw [hfound] at chooses
      obtain ⟨rfl, rfl⟩ := hpassed.of_chooses h.counters_eq chooses
      rw [← hname] at hset
      exact hset
  | @field id f provenance _ c₁ loaded mem decision _ chooses =>
    obtain ⟨need, hneed, hoffer⟩ := hoffers.field id loaded f mem
    obtain ⟨hfound, hpassed⟩ := hoffer (Except.ok.inj (hneed.symm.trans decision))
    rw [hfound] at chooses
    obtain ⟨rfl, rfl⟩ := hpassed.of_chooses h.counters_eq chooses
    exact h.setField _
  | @method id key method symbol provenance _ c₁ starts decision _ chooses =>
    obtain ⟨need, hneed, hoffer⟩ := hoffers.method id key method symbol starts
    obtain ⟨honly, hpassed⟩ := hoffer (Except.ok.inj (hneed.symm.trans decision))
    rw [honly] at chooses
    obtain ⟨rfl, rfl⟩ := hpassed.of_chooses h.counters_eq chooses
    exact h.setMethod _

/-- So does a whole log. -/
theorem Follows.leads {c c' : NamingContext} (h : task.Follows plan c)
    (hgraph : task.graph.Finished) (hoffers : task.Offers plan) (hc : task.Leads c c') :
    task.Follows plan c' := by
  obtain ⟨ds, hds⟩ := hc
  induction hds with
  | nil => exact h
  | snoc _ hd ih => exact ih.decides hgraph hoffers hd

/-- A run that is offered the planned names cannot fail. -/
theorem Offers.uncontested (h : task.Offers plan) : task.Uncontested where
  type id hid := by
    obtain ⟨need, hneed, -⟩ := h.type id hid
    exact ⟨need, hneed⟩
  field id hloaded f hf := by
    obtain ⟨need, hneed, -⟩ := h.field id hloaded f hf
    exact ⟨need, hneed⟩
  method id key method symbol hstarts := by
    obtain ⟨need, hneed, hoffer⟩ := h.method id key method symbol hstarts
    refine ⟨need, hneed, fun hcarried => ?_⟩
    rw [(hoffer hcarried).1]
    exact Nat.le_refl _

/-- There is room for every planned name. -/
theorem Offers.room (h : task.Offers plan) {c : NamingContext} {subject : Subject}
    {offered : List String} (hawaits : task.Awaits c subject offered) :
    Room subject.kind offered c := by
  cases hawaits with
  | @type id hid _ hneed =>
    obtain ⟨need, hneed', -, hoffer⟩ := h.type id hid
    obtain ⟨found, hfound, -, hpassed⟩ := hoffer (Except.ok.inj (hneed'.symm.trans hneed))
    rw [hfound]
    exact .of_passed hpassed c
  | @field id f hloaded hmem _ hneed =>
    obtain ⟨need, hneed', hoffer⟩ := h.field id hloaded f hmem
    obtain ⟨hfound, hpassed⟩ := hoffer (Except.ok.inj (hneed'.symm.trans hneed))
    rw [hfound]
    exact .of_passed hpassed c
  | @method id key method symbol hstarts _ hneed =>
    obtain ⟨need, hneed', hoffer⟩ := h.method id key method symbol hstarts
    obtain ⟨honly, hpassed⟩ := hoffer (Except.ok.inj (hneed'.symm.trans hneed))
    rw [honly]
    exact .of_passed hpassed c

/-- A run to a plan whose names are all offered succeeds and follows the plan to its end. -/
theorem Offers.exists_succeeds_run [ConflictResolver ρ] {s : NamingState ρ}
    (hgraph : task.graph.Finished) (hoffers : task.Offers plan)
    (hs : task.Follows plan s.context) :
    ∃ set t, Succeeds task.run s set t ∧ task.Follows plan t.context := by
  rcases hoffers.uncontested.succeeds_or_overflows hgraph s with
    ⟨set, t, hrun⟩ | ⟨_, _, _, _, -, -, hawaits, hfull⟩
  · obtain ⟨hleads, -, -⟩ := of_succeeds_run hgraph hrun
    exact ⟨set, t, hrun, hs.leads hgraph hoffers hleads⟩
  · exact absurd (hoffers.room hawaits) hfull

/-! ## What two runs to one plan give -/

section Same

variable {c c' : NamingContext} (hc : task.Follows plan c) (hc' : task.Follows plan c')
include hc hc'

theorem fieldEntryIn_congr {id : ClassId} {f : Member} (hsettled : task.FieldSettled c id f)
    (hsettled' : task.FieldSettled c' id f) :
    task.fieldEntryIn c' id f = task.fieldEntryIn c id f := by
  obtain ⟨need, hneed, hname⟩ := hsettled
  obtain ⟨need', hneed', hname'⟩ := hsettled'
  obtain rfl : need = need' := Except.ok.inj (hneed.symm.trans hneed')
  rw [fieldEntryIn, fieldEntryIn, hneed]
  cases need with
  | false => rfl
  | true =>
    obtain ⟨name, hname⟩ := hname rfl
    obtain ⟨name', hname'⟩ := hname' rfl
    dsimp only
    rw [hname, hname', hc.field hname, hc'.field hname']

theorem methodEntryIn_congr {id : ClassId} {slot : MemberKey × MethodId}
    (hsettled : task.MethodSettled c id slot) (hsettled' : task.MethodSettled c' id slot) :
    task.methodEntryIn c' id slot = task.methodEntryIn c id slot := by
  rw [methodEntryIn, methodEntryIn]
  by_cases hskip : (slot.1.isInitializer || !task.hierarchy.isSource id slot.1) = true
  · rw [if_pos hskip, if_pos hskip]
  · rw [if_neg hskip, if_neg hskip]
    rw [Bool.or_eq_true, not_or, Bool.not_eq_true, Bool.not_eq_true, Bool.not_eq_false'] at hskip
    cases hsymbol : task.graph.methodAt? slot.2 with
    | none => rfl
    | some symbol =>
      obtain ⟨need, hneed, hname⟩ := hsettled hskip.1 hskip.2 symbol hsymbol
      obtain ⟨need', hneed', hname'⟩ := hsettled' hskip.1 hskip.2 symbol hsymbol
      obtain rfl : need = need' := Except.ok.inj (hneed.symm.trans hneed')
      dsimp only
      rw [hneed]
      cases need with
      | false => rfl
      | true =>
        obtain ⟨name, hname⟩ := hname rfl
        obtain ⟨name', hname'⟩ := hname' rfl
        dsimp only
        rw [hname, hname', hc.method hname, hc'.method hname']

/-- Two runs that settle everything by one plan give the same mapping set. -/
theorem setIn_congr (hgraph : task.graph.Finished)
    (hsettled : ∀ id < task.graph.size, task.ClassSettled c id)
    (hsettled' : ∀ id < task.graph.size, task.ClassSettled c' id) :
    task.setIn c' = task.setIn c := by
  have hentry : ∀ id ∈ task.graph.walk, task.classEntryIn c' id = task.classEntryIn c id := by
    intro id hwalk
    have hid := (hgraph.forest.mem_walk_iff hgraph.names).1 hwalk
    have h := hsettled id hid
    have h' := hsettled' id hid
    obtain ⟨name, hname⟩ := h.name
    obtain ⟨name', hname'⟩ := h'.name
    rw [classEntryIn, classEntryIn]
    by_cases hloaded : (task.graph.classAt id).loaded = true
    · have hfields := List.filterMap_congr fun f hf =>
        fieldEntryIn_congr hc hc' (h.fields hloaded f hf) (h'.fields hloaded f hf)
      have hmethods := List.filterMap_congr fun slot hslot =>
        methodEntryIn_congr hc hc' (h.methods hloaded slot hslot) (h'.methods hloaded slot hslot)
      rw [if_pos hloaded, if_pos hloaded, hname, hname', hc.type hid hname, hc'.type hid hname',
        hfields, hmethods]
    · rw [if_neg hloaded, if_neg hloaded]
  rw [setIn, setIn, hc.counters_eq, hc'.counters_eq, List.filterMap_congr hentry]

end Same

end NamingTask

/-- The plan to give the names that are decided in a context. -/
def NamePlan.ofContext (g : ClassGraph) (c : NamingContext) : NamePlan where
  type id := (c.classNames.find? (g.nameAt id)).getD ""
  field ref := (c.fieldNames.find? ref).getD ""
  method method := (c.methodNames.find? method).getD ""
  counters := c.counters

namespace NamePlan

variable {g : ClassGraph} {c : NamingContext} {name : String}

theorem type_ofContext {id : ClassId} (h : c.classNames.find? (g.nameAt id) = some name) :
    (ofContext g c).type id = name := by
  dsimp only [ofContext]
  rw [h, Option.getD_some]

theorem field_ofContext {ref : MemberRef} (h : c.fieldNames.find? ref = some name) :
    (ofContext g c).field ref = name := by
  dsimp only [ofContext]
  rw [h, Option.getD_some]

theorem method_ofContext {method : MethodId} (h : c.methodNames.find? method = some name) :
    (ofContext g c).method method = name := by
  dsimp only [ofContext]
  rw [h, Option.getD_some]

end NamePlan

/-- A context follows its own plan. -/
theorem NamingTask.follows_ofContext (task : NamingTask) (c : NamingContext) :
    task.Follows (.ofContext task.graph c) c where
  counters_eq := rfl
  type _ _ hname := (NamePlan.type_ofContext hname).symm
  field hname := (NamePlan.field_ofContext hname).symm
  method hname := (NamePlan.method_ofContext hname).symm

/-- A generator that starts without names from the counters of a plan, and is offered the names of
the plan, succeeds and follows the plan to its end. -/
theorem Generator.exists_generate_of_offers {ρ : Type} [ConflictResolver ρ] {gen : Generator ρ}
    {plan : NamePlan} {stored : Counters} (hgraph : gen.task.graph.Finished)
    (hstored : gen.storedCounters = .ok stored) (hclass : gen.context.classNames = .empty)
    (hfield : gen.context.fieldNames = .empty) (hmethod : gen.context.methodNames = .empty)
    (hcounters : gen.startCounters = plan.counters) (hoffers : gen.task.Offers plan) :
    ∃ t : NamingState ρ, gen.generate = (.ok (gen.task.setIn t.context),
        { gen with context := t.context, resolver := t.resolver }.storeCounters) ∧
      gen.task.Follows plan t.context ∧
      gen.task.Leads { gen.context with counters := gen.startCounters } t.context ∧
      ∀ id < gen.task.graph.size, gen.task.ClassSettled t.context id := by
  have hstart : gen.task.Follows plan { gen.context with counters := gen.startCounters } :=
    .of_empty hcounters hclass hfield hmethod
  obtain ⟨set, t, hsucceeds, hplan⟩ :=
    NamingTask.Offers.exists_succeeds_run (s := ⟨_, gen.resolver⟩) hgraph hoffers hstart
  obtain ⟨hleads, hsettled, rfl⟩ := NamingTask.of_succeeds_run hgraph hsucceeds
  exact ⟨t, generate_of_succeeds hstored hsucceeds, hplan, hleads, hsettled⟩

end StableNaming
