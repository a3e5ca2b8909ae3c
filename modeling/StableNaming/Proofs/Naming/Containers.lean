import Mathlib.Data.Finset.Card
import Mathlib.Data.Finset.Range
import StableNaming.Proofs.Graph.Loading
import StableNaming.Proofs.Naming.Accounts
import StableNaming.Proofs.Naming.RoundTrip
import StableNaming.Proofs.Policy.Engine

/-!
# Containers without class files

A container that is only known from the names of the classes inside it gets a name
like any other class, but the name is in no table. A later run that reads the table
makes up a new one, so that all classes inside move along, and stops if there are not
numbers enough for all such containers. The other classes, and all members, have their
names again.
-/

namespace StableNaming

open Relation

/-! ## Names of classes and of their containers -/

/-- Different containers make different names of a class that keeps its own. -/
theorem NamingTask.keptClassName_inj {c : ClassSymbol} {parent parent' : Option String}
    (hsome : parent'.isSome = parent.isSome) :
    keptClassName c parent' = keptClassName c parent ↔ parent' = parent := by
  refine ⟨fun h => ?_, fun h => h ▸ rfl⟩
  cases parent with
  | none => exact Option.isNone_iff_eq_none.1 (by simpa using hsome)
  | some name =>
    obtain ⟨name', rfl⟩ := Option.isSome_iff_exists.1 hsome
    simpa only [keptClassName, String.append_left_inj, Option.some_inj] using h

/-- A symbol that is offered a single name meets no number but that of the name. -/
theorem suffix?_of_mem_numbers {kind : SymbolKind} {found : String} {c c' : NamingContext}
    {provenance : Provenance} (h : Chooses kind true [found] c provenance c') {n : Nat}
    (hn : n ∈ provenance.numbers kind) : kind.suffix? found = some n := by
  cases h with
  | carried _ _ =>
    obtain ⟨name, hname, hsuffix⟩ := List.mem_filterMap.1 hn
    rwa [← List.mem_singleton.1 hname]

namespace NamingTask

variable {task : NamingTask}

/-- Different containers make different places for a class. -/
theorem classNameStart_inj {c : ClassSymbol} {parent parent' : Option String}
    (hsome : parent'.isSome = parent.isSome) :
    task.classNameStart c parent' = task.classNameStart c parent ↔ parent' = parent := by
  refine ⟨fun h => ?_, fun h => h ▸ rfl⟩
  cases parent with
  | none => exact Option.isNone_iff_eq_none.1 (by simpa using hsome)
  | some name =>
    obtain ⟨name', rfl⟩ := Option.isSome_iff_exists.1 hsome
    simpa only [classNameStart, Option.elim_some, String.append_left_inj, Option.some_inj] using h

/-- A name that was made up for a class moves with the container of the class. -/
theorem carriedClassName_eq {id : ClassId} {parent parent' : Option String} {found : String}
    {n : Nat} (hpackage : IsPackage (task.chain.packageFor (task.graph.classAt id)))
    (hsome : parent'.isSome = parent.isSome)
    (hfound : found = task.classNameStart (task.graph.classAt id) parent ++
      SymbolKind.type.generatedName n) :
    task.carriedClassName (task.graph.classAt id) parent' found =
      task.classNameStart (task.graph.classAt id) parent' ++ SymbolKind.type.generatedName n := by
  cases parent with
  | none =>
    obtain rfl : parent' = none := Option.isNone_iff_eq_none.1 (by simpa using hsome)
    rw [carriedClassName_eq_self hpackage hfound, hfound]
  | some name =>
    obtain ⟨name', rfl⟩ := Option.isSome_iff_exists.1 hsome
    obtain ⟨place, digits, hplace, hdigits, hstart⟩ :=
      @exists_classNameStart_eq task id (some name) hpackage
    rw [carriedClassName, if_neg (by simp), hfound, hstart,
      SymbolKind.dropLeadingDigits_innermostName hplace hdigits]

/-- Names that are made up with different numbers differ. -/
theorem classNameStart_generatedName_ne {id id' : ClassId} {parent parent' : Option String}
    {n n' : Nat} (hpackage : IsPackage (task.chain.packageFor (task.graph.classAt id)))
    (hpackage' : IsPackage (task.chain.packageFor (task.graph.classAt id'))) (hne : n' ≠ n) :
    task.classNameStart (task.graph.classAt id') parent' ++ SymbolKind.type.generatedName n' ≠
      task.classNameStart (task.graph.classAt id) parent ++ SymbolKind.type.generatedName n := by
  obtain ⟨place, digits, hplace, hdigits, hstart⟩ :=
    @exists_classNameStart_eq task id parent hpackage
  obtain ⟨place', digits', hplace', hdigits', hstart'⟩ :=
    @exists_classNameStart_eq task id' parent' hpackage'
  intro heq
  have hinner := congrArg (fun name => dropLeadingDigits (innermostName name)) heq
  rw [hstart, hstart', SymbolKind.dropLeadingDigits_innermostName hplace hdigits,
    SymbolKind.dropLeadingDigits_innermostName hplace' hdigits',
    SymbolKind.generatedName_inj] at hinner
  exact hne hinner

/-- Whether a class needs a name and has no class file, so that no table has its name. -/
def Unrecorded (task : NamingTask) (id : ClassId) : Prop :=
  (task.graph.classAt id).loaded = false ∧ task.classDecision id = .ok true

instance (task : NamingTask) (id : ClassId) : Decidable (task.Unrecorded id) :=
  inferInstanceAs (Decidable (_ ∧ _))

/-- The classes whose names are in no table. -/
def unrecorded (task : NamingTask) : Finset ClassId :=
  (Finset.range task.graph.size).filter task.Unrecorded

theorem mem_unrecorded_iff {id : ClassId} :
    id ∈ task.unrecorded ↔ id < task.graph.size ∧ task.Unrecorded id := by
  rw [unrecorded, Finset.mem_filter, Finset.mem_range]

/-- Those of them that have names in a context. -/
def unrecordedIn (task : NamingTask) (c : NamingContext) : Finset ClassId :=
  task.unrecorded.filter fun id => (c.classNames.find? (task.graph.nameAt id)).isSome = true

theorem mem_unrecordedIn_iff {c : NamingContext} {id : ClassId} :
    id ∈ task.unrecordedIn c ↔ (id < task.graph.size ∧ task.Unrecorded id) ∧
      (c.classNames.find? (task.graph.nameAt id)).isSome = true := by
  rw [unrecordedIn, Finset.mem_filter, mem_unrecorded_iff]

theorem unrecordedIn_congr {c c' : NamingContext} (h : c'.classNames = c.classNames) :
    task.unrecordedIn c' = task.unrecordedIn c := by
  rw [unrecordedIn, unrecordedIn, h]

/-- A class that gets a name is one more of them if its name is in no table. -/
theorem card_unrecordedIn_setClass (hnames : task.graph.DistinctNames) {c : NamingContext}
    {id : ClassId} (hid : id < task.graph.size)
    (hnew : c.classNames.find? (task.graph.nameAt id) = none) (name : String) :
    (task.unrecordedIn (c.setClass (task.graph.nameAt id) name)).card =
      (task.unrecordedIn c).card + if task.Unrecorded id then 1 else 0 := by
  have hfind : ∀ x, x < task.graph.size →
      (((c.setClass (task.graph.nameAt id) name).classNames.find?
          (task.graph.nameAt x)).isSome = true ↔
        x = id ∨ (c.classNames.find? (task.graph.nameAt x)).isSome = true) := by
    intro x hx
    dsimp only [NamingContext.setClass]
    rw [Dictionary.find?_insert]
    split
    · rename_i heq
      obtain rfl := hnames hid hx heq
      simp
    · rename_i hne
      have hother : x ≠ id := fun heq => hne (heq ▸ rfl)
      simp [hother]
  have hnot : id ∉ task.unrecordedIn c := fun hmem => by
    have hsome := (mem_unrecordedIn_iff.1 hmem).2
    rw [hnew] at hsome
    cases hsome
  split
  · rename_i hbad
    rw [← Finset.card_insert_of_notMem hnot]
    refine congrArg Finset.card (Finset.ext fun x => ?_)
    rw [mem_unrecordedIn_iff, Finset.mem_insert, mem_unrecordedIn_iff]
    constructor
    · rintro ⟨hx, hnamed⟩
      exact ((hfind x hx.1).1 hnamed).imp_right fun hnamed => ⟨hx, hnamed⟩
    · rintro (rfl | ⟨hx, hnamed⟩)
      · exact ⟨⟨hid, hbad⟩, (hfind _ hid).2 (.inl rfl)⟩
      · exact ⟨hx, (hfind x hx.1).2 (.inr hnamed)⟩
  · rename_i hrecorded
    rw [Nat.add_zero]
    refine congrArg Finset.card (Finset.ext fun x => ?_)
    rw [mem_unrecordedIn_iff, mem_unrecordedIn_iff]
    refine and_congr_right fun hx => (hfind x hx.1).trans (or_iff_right ?_)
    rintro rfl
    exact hrecorded hx.2

namespace Remembered

variable {start : Counters} {c : NamingContext} {t : MappingTable}
  (h : task.Remembered start c t) {heritage : Heritage} (honly : heritage.PriorOnly)
  (hprior : heritage.prior = t)
include h honly hprior

/-- A class with a class file is offered the name that it had. -/
theorem className?_of_loaded {id : ClassId} (hid : id < task.graph.size)
    (hloaded : (task.graph.classAt id).loaded = true)
    (hneed : task.classDecision id = .ok true) :
    ∃ name n, heritage.className? (task.graph.nameAt id) = some name ∧
      c.classNames.find? (task.graph.nameAt id) = some name ∧
      name = task.classNameStart (task.graph.classAt id) (task.parentName c id) ++
        SymbolKind.type.generatedName n ∧
      ∀ m, SymbolKind.type.suffix? name = some m → m < c.counters.get .type := by
  obtain ⟨name, n, hname, heq, hjudge, hpassed⟩ := h.judge_type hid hloaded hneed
  refine ⟨name, n, ?_, hname, heq, hpassed⟩
  rw [honly.className?_eq, hprior, hjudge]
  rfl

/-- A class without a class file is offered nothing. -/
theorem className?_of_not_loaded {id : ClassId} (hid : id < task.graph.size)
    (hloaded : (task.graph.classAt id).loaded = false) :
    heritage.className? (task.graph.nameAt id) = none := by
  rw [honly.className?_eq, hprior]
  cases htarget : t.classTarget? (task.graph.nameAt id) with
  | none => rfl
  | some name =>
    obtain ⟨entry, hmem, hname, -⟩ := h.answers.classTarget?_iff.1 htarget
    have hentry := eq_classEntryIn_of_name_eq h.graph hid hmem hname
    rw [classEntryIn, hloaded] at hentry
    cases hentry

/-- A field is offered the name that it had. -/
theorem fieldName?_of_mem {id : ClassId} {f : Member}
    (hloaded : (task.graph.classAt id).loaded = true)
    (hf : f ∈ (task.graph.classAt id).fields.values)
    (hneed : task.chain.needsFieldName (task.graph.classAt id) f = .ok true) :
    ∃ name, heritage.fieldName? ⟨task.graph.nameAt id, f.key⟩ = some name ∧
      ∀ m, SymbolKind.field.suffix? name = some m → m < c.counters.get .field := by
  obtain ⟨name, -, hjudge, hpassed⟩ :=
    h.judge_field (ClassGraph.lt_size_of_mem_fields hf) hloaded hf hneed
  refine ⟨name, ?_, hpassed⟩
  rw [honly.fieldName?_eq, hprior, hjudge]
  rfl

/-- A family is offered the name that it had, and no other one. -/
theorem exists_keys_candidates_eq {id : ClassId} {key : MemberKey} {method : MethodId}
    {symbol : MethodSymbol} (hstarts : task.Starts id key method symbol)
    (hneed : task.chain.needsMethodName (task.graph.classAt id) symbol = .ok true) :
    ∃ name, (({ task with heritage } : NamingTask).candidates
        (task.hierarchy.family id key) key).keys = [name] ∧
      ∀ m, SymbolKind.method.suffix? name = some m → m < c.counters.get .method := by
  obtain ⟨need, hneed', hnamed⟩ :=
    (h.settled id (ClassGraph.lt_size_of_slot? hstarts.slot)).of_starts hstarts
  obtain ⟨name, hname⟩ := hnamed (Except.ok.inj (hneed'.symm.trans hneed))
  exact ⟨name, h.keys_candidates_of_prior honly hprior hstarts hneed hname,
    fun m hm => h.lt_of_suffix?_method hname hm⟩

/-- A run that reads the table cannot fail. -/
theorem uncontested : ({ task with heritage } : NamingTask).Uncontested where
  type id hid := by
    obtain ⟨name, hname⟩ := (h.settled id hid).name
    exact (h.minted.type hid hname).decided
  field id hloaded f hf := by
    obtain ⟨need, hneed, -⟩ :=
      (h.settled id (ClassGraph.lt_size_of_mem_fields hf)).fields hloaded f hf
    exact ⟨need, hneed⟩
  method id key method symbol hstarts := by
    have hstarts : task.Starts id key method symbol :=
      ⟨hstarts.loaded, hstarts.slot, hstarts.not_initializer, hstarts.source, hstarts.declared⟩
    obtain ⟨need, hneed, -⟩ :=
      (h.settled id (ClassGraph.lt_size_of_slot? hstarts.slot)).of_starts hstarts
    refine ⟨need, hneed, fun hcarried => ?_⟩
    rw [hcarried] at hneed
    obtain ⟨name, hkeys, -⟩ := h.exists_keys_candidates_eq honly hprior hstarts hneed
    change (({ task with heritage } : NamingTask).candidates
      (task.hierarchy.family id key) key).keys.length ≤ 1
    rw [hkeys]
    exact Nat.le_refl 1

/-! ## What the later run decides -/

/-- A decision of the later run meets a number that was not passed before only if it names a class
that is not recorded. -/
theorem lt_of_mem_numbers {c₁ c₂ : NamingContext} {d : Decision}
    (hd : ({ task with heritage } : NamingTask).Decides c₁ d c₂)
    (hrecorded : ∀ id, d.subject = .type id → ¬ task.Unrecorded id) {kind : SymbolKind} {n : Nat}
    (hn : n ∈ d.numbers kind) : n < c.counters.get kind := by
  rw [Decision.numbers] at hn
  split at hn
  · rename_i hkind
    subst hkind
    cases hd with
    | @type id need provenance _ _ hid _ _ decision chooses =>
      have chooses : Chooses .type need
        (heritage.className? (task.graph.nameAt id)).toList c₁ provenance _ := chooses
      cases need with
      | false =>
        cases chooses
        exact absurd hn List.not_mem_nil
      | true =>
        have hloaded : (task.graph.classAt id).loaded = true := by
          cases hloaded : (task.graph.classAt id).loaded with
          | true => rfl
          | false => exact absurd ⟨hloaded, decision⟩ (hrecorded id rfl)
        obtain ⟨name, -, hoffer, -, -, hpassed⟩ :=
          h.className?_of_loaded honly hprior hid hloaded decision
        rw [hoffer] at chooses
        exact hpassed n (suffix?_of_mem_numbers chooses hn)
    | @field id f _ _ _ loaded mem decision _ chooses =>
      have chooses : Chooses .field true
        (heritage.fieldName? ⟨task.graph.nameAt id, f.key⟩).toList c₁ _ _ := chooses
      obtain ⟨name, hoffer, hpassed⟩ := h.fieldName?_of_mem honly hprior loaded mem decision
      rw [hoffer] at chooses
      exact hpassed n (suffix?_of_mem_numbers chooses hn)
    | @method id key method symbol _ _ _ starts decision _ chooses =>
      have hstarts : task.Starts id key method symbol :=
        ⟨starts.loaded, starts.slot, starts.not_initializer, starts.source, starts.declared⟩
      obtain ⟨name, hkeys, hpassed⟩ := h.exists_keys_candidates_eq honly hprior hstarts decision
      have chooses : Chooses .method true (({ task with heritage } : NamingTask).candidates
        (task.hierarchy.family id key) key).keys c₁ _ _ := chooses
      rw [hkeys] at chooses
      exact hpassed n (suffix?_of_mem_numbers chooses hn)
  · exact absurd hn List.not_mem_nil

/-- The later run moves no counter but that of classes. -/
theorem get_counters_eq_of_ne {c₀ c' : NamingContext} (hstart : c₀.counters = c.counters)
    (hleads : ({ task with heritage } : NamingTask).Leads c₀ c') {kind : SymbolKind}
    (hkind : kind ≠ .type) : c'.counters.get kind = c.counters.get kind := by
  obtain ⟨ds, hlog⟩ := hleads
  rw [← hstart]
  refine hlog.get_counters_eq_of_forall_lt fun d hd n hn => ?_
  obtain ⟨c₁, c₂, -, hdecides, -⟩ := hlog.exists_decides hd
  rw [hstart]
  refine h.lt_of_mem_numbers honly hprior hdecides (fun id hid => ?_) hn
  rw [Decision.numbers, if_neg (by rw [hid]; exact hkind.symm)] at hn
  exact absurd hn List.not_mem_nil

/-- A decision of the later run takes a number for a class if it names one that is not recorded. -/
theorem get_counters_type_of_decides {c₁ c₂ : NamingContext} {d : Decision}
    (hle : c.counters.get .type ≤ c₁.counters.get .type)
    (hd : ({ task with heritage } : NamingTask).Decides c₁ d c₂) :
    c₂.counters.get .type + (task.unrecordedIn c₁).card =
      c₁.counters.get .type + (task.unrecordedIn c₂).card := by
  have hstays : (∀ id, d.subject = .type id → ¬ task.Unrecorded id) →
      c₂.counters.get .type = c₁.counters.get .type := by
    intro hrecorded
    rw [hd.get_counters]
    exact nextAfter_eq_of_forall_lt fun n hn =>
      (h.lt_of_mem_numbers honly hprior hd hrecorded hn).trans_le hle
  cases hd with
  | @type id need provenance _ c' hid hnew _ decision chooses =>
    have chooses : Chooses .type need
      (heritage.className? (task.graph.nameAt id)).toList c₁ provenance c' := chooses
    have hsame : c'.classNames = c₁.classNames := by rw [counters_of_chooses chooses]
    rw [← hsame] at hnew
    have hcount := card_unrecordedIn_setClass h.graph.names hid hnew
      (({ task with heritage } : NamingTask).classNameBy id
        (({ task with heritage } : NamingTask).parentName c₁ id) provenance)
    rw [unrecordedIn_congr hsame] at hcount
    change c'.counters.get .type + (task.unrecordedIn c₁).card = c₁.counters.get .type +
      (task.unrecordedIn (c'.setClass (task.graph.nameAt id) _)).card
    rw [hcount]
    split
    · rename_i hbad
      obtain rfl : true = need := Except.ok.inj (hbad.2.symm.trans decision)
      rw [h.className?_of_not_loaded honly hprior hid hbad.1] at chooses
      rw [NamingContext.get_counters_skip? (of_chooses_nil chooses).2, if_pos rfl]
      omega
    · rename_i hrecorded
      have hstays : c'.counters.get .type = c₁.counters.get .type :=
        hstays fun x hx => Subject.type.inj hx ▸ hrecorded
      rw [hstays, Nat.add_zero]
  | @field _ _ _ _ c' _ _ _ _ chooses =>
    have hsame : c₁.classNames = c'.classNames := by rw [counters_of_chooses chooses]
    rw [hstays fun _ hid => (by cases hid)]
    exact congrArg (fun ids => _ + Finset.card ids) (unrecordedIn_congr hsame)
  | @method _ _ _ _ _ _ c' _ _ _ chooses =>
    have hsame : c₁.classNames = c'.classNames := by rw [counters_of_chooses chooses]
    rw [hstays fun _ hid => (by cases hid)]
    exact congrArg (fun ids => _ + Finset.card ids) (unrecordedIn_congr hsame)

/-- The later run takes one number for each class that is not recorded. -/
theorem get_counters_type_of_leads {c₀ c' : NamingContext} (hstart : c₀.counters = c.counters)
    (hclass : c₀.classNames = .empty)
    (hleads : ({ task with heritage } : NamingTask).Leads c₀ c') :
    c'.counters.get .type = c.counters.get .type + (task.unrecordedIn c').card := by
  obtain ⟨ds, hlog⟩ := hleads
  induction hlog with
  | nil =>
    have hnone : task.unrecordedIn c₀ = ∅ := by
      refine Finset.eq_empty_of_forall_notMem fun id hmem => ?_
      have hsome := (mem_unrecordedIn_iff.1 hmem).2
      rw [hclass] at hsome
      cases hsome
    rw [hstart, hnone, Finset.card_empty, Nat.add_zero]
  | @snoc c₁ c₂ _ _ hlog hd ih =>
    have hle := Leads.get_counters_le ⟨_, hlog⟩ .type
    rw [hstart] at hle
    have hstep := h.get_counters_type_of_decides honly hprior hle hd
    omega

/-- When there is no room for a name in the later run, the numbers for the classes that are not
recorded are used up. -/
theorem wordLimit_le_of_not_room {c₀ c' : NamingContext} (hstart : c₀.counters = c.counters)
    (hclass : c₀.classNames = .empty)
    (hleads : ({ task with heritage } : NamingTask).Leads c₀ c') {subject : Subject}
    {offered : List String}
    (hawaits : ({ task with heritage } : NamingTask).Awaits c' subject offered)
    (hfull : ¬ Room subject.kind offered c') :
    Text.wordLimit ≤ c.counters.get .type + task.unrecorded.card := by
  cases hawaits with
  | @type id hid hnew decision =>
    cases hloaded : (task.graph.classAt id).loaded with
    | true =>
      obtain ⟨name, -, hoffer, -, -, hpassed⟩ :=
        h.className?_of_loaded honly hprior hid hloaded decision
      have hfull : ¬ Room .type (heritage.className? (task.graph.nameAt id)).toList c' := hfull
      rw [hoffer] at hfull
      exact absurd (.of_passed hpassed c') hfull
    | false =>
      have hfull : ¬ Room .type (heritage.className? (task.graph.nameAt id)).toList c' := hfull
      rw [h.className?_of_not_loaded honly hprior hid hloaded] at hfull
      have hlast : Text.wordLimit ≤ c'.counters.get .type + 1 := by
        refine Nat.le_of_not_lt fun hlt => hfull ⟨fun name hname => ?_, fun _ => hlt⟩
        exact absurd hname List.not_mem_nil
      have hless : (task.unrecordedIn c').card < task.unrecorded.card := by
        refine Finset.card_lt_card ((Finset.ssubset_iff_of_subset (Finset.filter_subset _ _)).2
          ⟨id, mem_unrecorded_iff.2 ⟨hid, hloaded, decision⟩, fun hmem => ?_⟩)
        have hsome := (mem_unrecordedIn_iff.1 hmem).2
        have hnew : c'.classNames.find? (task.graph.nameAt id) = none := hnew
        rw [hnew] at hsome
        cases hsome
      rw [h.get_counters_type_of_leads honly hprior hstart hclass hleads] at hlast
      omega
  | field loaded mem _ decision =>
    obtain ⟨name, hoffer, hpassed⟩ := h.fieldName?_of_mem honly hprior loaded mem decision
    dsimp only at hfull
    rw [hoffer] at hfull
    exact absurd (.of_passed hpassed c') hfull
  | @method id key method symbol starts _ decision =>
    have hstarts : task.Starts id key method symbol :=
      ⟨starts.loaded, starts.slot, starts.not_initializer, starts.source, starts.declared⟩
    obtain ⟨name, hkeys, hpassed⟩ := h.exists_keys_candidates_eq honly hprior hstarts decision
    have hfull : ¬ Room .method (({ task with heritage } : NamingTask).candidates
      (task.hierarchy.family id key) key).keys c' := hfull
    rw [hkeys] at hfull
    exact absurd (.of_passed hpassed c') hfull

variable {c' : NamingContext}
  (hlater : ({ task with heritage } : NamingTask).Accounted c.counters c')
include hlater

/-- A class has its name again exactly if it is recorded and its container has its name again. -/
theorem className_eq_iff {id : ClassId} (hid : id < task.graph.size) {name name' : String}
    (hname : c.classNames.find? (task.graph.nameAt id) = some name)
    (hname' : c'.classNames.find? (task.graph.nameAt id) = some name') :
    name' = name ↔ ¬ task.Unrecorded id ∧ task.parentName c' id = task.parentName c id := by
  have hminted := h.minted.type hid hname
  obtain ⟨need, provenance, ⟨houter', hneed, htraced, heq'⟩⟩ := hlater.type hid hname'
  have hsome : (task.parentName c' id).isSome = (task.parentName c id).isSome :=
    (isSome_parentName houter').trans (isSome_parentName hminted.outer).symm
  have hneed : task.classDecision id = .ok need := hneed
  cases need with
  | false =>
    have hnot : ¬ task.Unrecorded id := fun hbad => by
      have hsame := hneed.symm.trans hbad.2
      cases hsame
    obtain rfl := htraced.eq_kept
    have heq' : name' = keptClassName (task.graph.classAt id) (task.parentName c' id) := heq'
    rw [heq', hminted.kept hneed, keptClassName_inj hsome, and_iff_right hnot]
  | true =>
    obtain ⟨n, -, hlt, heq⟩ := hminted.minted hneed
    cases hloaded : (task.graph.classAt id).loaded with
    | true =>
      have hnot : ¬ task.Unrecorded id := fun hbad => by
        rw [Unrecorded, hloaded] at hbad
        exact absurd hbad.1 (by decide)
      obtain ⟨found, m, hoffer, hfound, hshape, -⟩ :=
        h.className?_of_loaded honly hprior hid hloaded hneed
      obtain rfl : name = found := Option.some.inj (hname.symm.trans hfound)
      have htraced : Traced .type c.counters c'.counters true
          (heritage.className? (task.graph.nameAt id)).toList provenance := htraced
      rw [hoffer] at htraced
      obtain rfl := htraced.eq_carried
      have heq' : name' = task.carriedClassName (task.graph.classAt id) (task.parentName c' id)
          name := heq'
      rw [carriedClassName_eq (h.packages id hid) hsome hshape] at heq'
      rw [heq', hshape, String.append_left_inj, classNameStart_inj hsome, and_iff_right hnot]
    | false =>
      have htraced : Traced .type c.counters c'.counters true
          (heritage.className? (task.graph.nameAt id)).toList provenance := htraced
      rw [h.className?_of_not_loaded honly hprior hid hloaded] at htraced
      obtain ⟨n', hle, -, rfl⟩ := htraced.exists_minted
      have heq' : name' = task.classNameStart (task.graph.classAt id) (task.parentName c' id) ++
          SymbolKind.type.generatedName n' := heq'
      have hne : n' ≠ n := by omega
      rw [heq', heq]
      constructor
      · intro hsame
        exact absurd hsame (classNameStart_generatedName_ne
          (h.packages id hid) (h.packages id hid) hne)
      · intro hrecorded
        exact absurd ⟨hloaded, hneed⟩ hrecorded.1

/-- A class has its name again exactly if it is recorded and all its containers are, at any
depth. -/
theorem className_eq_iff_forall
    (hsettled : ∀ id < task.graph.size, ∃ name',
      c'.classNames.find? (task.graph.nameAt id) = some name')
    {id : ClassId} (hid : id < task.graph.size) :
    c'.classNames.find? (task.graph.nameAt id) = c.classNames.find? (task.graph.nameAt id) ↔
      ∀ x, ReflTransGen task.graph.ContainedIn id x → ¬ task.Unrecorded x := by
  -- the names of containers are compared before those of the classes inside them
  induction h.graph.forest.ends id with
  | intro id _ ih =>
    obtain ⟨name, hname⟩ := (h.settled id hid).name
    obtain ⟨name', hname'⟩ := hsettled id hid
    rw [hname, hname', Option.some_inj, h.className_eq_iff honly hprior hlater hid hname hname']
    cases houter : (task.graph.classAt id).outer with
    | none =>
      have hparent : task.parentName c' id = task.parentName c id := by
        rw [parentName, parentName, houter]
        rfl
      rw [and_iff_left hparent]
      constructor
      · intro hrecorded x hx
        rcases hx.cases_head with rfl | ⟨outer, hcontained, -⟩
        · exact hrecorded
        · rw [ClassGraph.ContainedIn, houter] at hcontained
          cases hcontained
      · exact fun hall => hall id .refl
    | some outer =>
      have hcontained : task.graph.ContainedIn id outer := houter
      have hparent : task.parentName c' id = task.parentName c id ↔
          ∀ x, ReflTransGen task.graph.ContainedIn outer x → ¬ task.Unrecorded x := by
        rw [parentName, parentName, houter]
        exact ih outer hcontained (h.graph.forest.outer_lt hcontained)
      rw [hparent]
      constructor
      · rintro ⟨hrecorded, hall⟩ x hx
        rcases hx.cases_head with rfl | ⟨outer', houter', hx⟩
        · exact hrecorded
        · rw [ClassGraph.rightUnique_containedIn houter' hcontained] at hx
          exact hall x hx
      · intro hall
        exact ⟨hall id .refl, fun x hx => hall x (.head hcontained hx)⟩

end Remembered

end NamingTask

/-! ## With the usual choice -/

theorem SymbolKind.lt_length_generatedName (kind : SymbolKind) (n : Nat) :
    3 < (kind.generatedName n).toList.length := by
  have hstem : 3 < kind.stem.toList.length := by cases kind <;> decide
  rw [toList_generatedName, List.length_append]
  omega

/-- A text in front of a generated name does not hide it. -/
theorem SymbolKind.isGenerated_append (kind : SymbolKind) (start : String) (n : Nat) :
    kind.isGenerated (start ++ kind.generatedName n) = true := by
  rw [isGenerated, Text.occursIn, String.toList_append, toList_generatedName]
  exact Text.isSome_cutFirst?_append _ _ _

/-- Whether a class keeps the last segment of its name: it is in a package, or it is anonymous and
inside another class. -/
def ClassGraph.KeepsSegment (g : ClassGraph) (id : ClassId) : Prop :=
  ((g.classAt id).outer.isSome = true ∧ (g.classAt id).isAnonymous = true) ∨
    packageMark ∈ (g.nameAt id).toList

instance (g : ClassGraph) (id : ClassId) : Decidable (g.KeepsSegment id) :=
  inferInstanceAs (Decidable (_ ∨ _))

/-- With the usual choice all other classes need names. -/
theorem NamingTask.classDecision_of_usual {task : NamingTask}
    (hpolicies : task.chain.policies = [])
    (hdefault : task.chain.default = NamePatterns.usual.policy) (id : ClassId) :
    task.classDecision id = .ok (decide (¬ task.graph.KeepsSegment id)) := by
  rw [classDecision]
  split
  · rename_i hinside
    rw [Bool.and_eq_true] at hinside
    have hkeeps : task.graph.KeepsSegment id := .inl hinside
    exact congrArg Except.ok (decide_eq_false (not_not_intro hkeeps)).symm
  · rename_i hinside
    rw [Bool.and_eq_true] at hinside
    have hmatch : NamePatterns.anyMatch NamePatterns.usual.classes (task.graph.nameAt id) =
        decide (¬ task.graph.KeepsSegment id) := by
      rw [Bool.eq_iff_iff, NamePatterns.anyMatch_usual_classes_iff, decide_eq_true_iff,
        ClassGraph.KeepsSegment, or_iff_right hinside]
    rw [PolicyChain.needsClassName_eq hpolicies hdefault]
    exact congrArg Except.ok hmatch

/-- Whether a class outside packages has no class file: other classes have names that announce it
as their container. -/
def GraphBuilder.Announced (files : List ClassFile) (id : ClassId) : Prop :=
  ClassFile.named? files ((build files).nameAt id) = none ∧
    packageMark ∉ ((build files).nameAt id).toList

instance (files : List ClassFile) (id : ClassId) : Decidable (GraphBuilder.Announced files id) :=
  inferInstanceAs (Decidable (_ ∧ _))

/-- The classes that are announced only. -/
def GraphBuilder.announced (files : List ClassFile) : Finset ClassId :=
  (Finset.range (build files).size).filter (Announced files)

namespace Generator

open NamingM

variable {ρ σ : Type}

/-- With the usual choice every class outside packages needs a name, unless it is anonymous and
inside another class. -/
theorem classDecision_usual {graph : ClassGraph} {counters : Counters} {resolver : ρ}
    {counterFile : Option File} {id : ClassId}
    (henclosure : (graph.classAt id).enclosure = none) :
    (freshWith graph {} .usual [] counters resolver counterFile).task.classDecision id =
      .ok (decide (packageMark ∉ (graph.nameAt id).toList)) := by
  have hanonymous : (graph.classAt id).isAnonymous = false := by
    rw [ClassSymbol.isAnonymous, henclosure]
    rfl
  have hkeeps : graph.KeepsSegment id ↔ packageMark ∈ (graph.nameAt id).toList := by
    rw [ClassGraph.KeepsSegment, hanonymous]
    simp
  rw [NamingTask.classDecision_of_usual rfl rfl]
  exact congrArg Except.ok (decide_eq_decide.2 (not_congr hkeeps))

/-- With the usual choice only fields with short names get others. -/
theorem length_le_of_needsFieldName_usual {graph : ClassGraph} {counters : Counters} {resolver : ρ}
    {counterFile : Option File} {c : ClassSymbol} {f : Member}
    (h : (freshWith graph {} .usual [] counters resolver counterFile).task.chain.needsFieldName
      c f = .ok true) : f.key.name.toList.length ≤ 3 := by
  rw [@PolicyChain.needsFieldName_eq _ .usual rfl rfl, Except.ok.injEq] at h
  exact NamePatterns.length_le_of_anyMatch_usual h

/-- With the usual choice only methods with short names get others. -/
theorem length_le_of_needsMethodName_usual {graph : ClassGraph} {counters : Counters}
    {resolver : ρ} {counterFile : Option File} {c : ClassSymbol} {m : MethodSymbol}
    (h : (freshWith graph {} .usual [] counters resolver counterFile).task.chain.needsMethodName
      c m = .ok true) : m.key.name.toList.length ≤ 3 := by
  rw [@PolicyChain.needsMethodName_eq _ .usual rfl rfl, Except.ok.injEq, Bool.and_eq_true] at h
  exact NamePatterns.length_le_of_anyMatch_usual h.1

/-- With the usual choice a run that carries nothing over gives every class and member that needs
a name another one than before, unless a class looks generated already. -/
theorem renames_of_usual [PatternEngine] [PatternEngine.ReadsUsual] [ConflictResolver ρ]
    {files : List ClassFile} {counters : Counters} {resolver : ρ} {counterFile : Option File}
    {first last : Generator ρ} {set : MappingSet}
    (hfirst : fresh (GraphBuilder.build files) {} [] counters resolver counterFile = .ok first)
    (hrun : first.generate = (.ok set, last))
    (hplain : ∀ id < (GraphBuilder.build files).size,
      SymbolKind.type.isGenerated ((GraphBuilder.build files).nameAt id) = false) :
    last.Renames := by
  obtain ⟨t, hsucceeds, hlast⟩ := exists_succeeds_of_generate hrun
  have hfinished := GraphBuilder.finished_build files
  have hgraph := hfinished
  rw [← graph_of_fresh hfirst] at hgraph
  have hminted := onlyMinted_of_fresh hfirst hgraph hsucceeds
  have hgrounded := grounded_of_fresh hfirst hgraph hsucceeds
  obtain ⟨patterns, hpatterns, rfl⟩ := fresh_eq_ok_iff.1 hfirst
  obtain rfl : NamePatterns.usual = patterns :=
    Option.some.inj (NamePatterns.compile?_usual.symm.trans hpatterns)
  rw [hlast]
  refine ⟨fun id hid hneed hname => ?_, fun id hid f hf hname => ?_,
    fun id hid slot hslot hname => ?_⟩
  · obtain ⟨n, -, -, heq⟩ := (hminted.type hid hname).minted hneed
    have heq : (GraphBuilder.build files).nameAt id = _ := heq
    have hbad := hplain id hid
    rw [heq, SymbolKind.isGenerated_append] at hbad
    cases hbad
  · have hshort := length_le_of_needsFieldName_usual
      (hgrounded.needsFieldName_eq hgraph hid hf hname)
    obtain ⟨n, -, -, heq⟩ := hminted.field hname
    have hlong := SymbolKind.field.lt_length_generatedName n
    rw [← heq] at hlong
    omega
  · have hslot := KeyMap.find?_eq_some_iff.2 hslot
    rw [methodName?_nameAt rfl hfinished.names hid] at hname
    obtain ⟨method, hmethod, hname⟩ := Option.bind_eq_some_iff.1 hname
    obtain ⟨id', key', symbol, hstarts, hneed⟩ := hgrounded.method hname
    obtain ⟨hkey, -⟩ := (hfinished.slot_eq_iff hmethod hstarts.slot).1 rfl
    obtain ⟨symbol', hsymbol', hkey'⟩ := hfinished.symbol_of_slot hstarts.slot
    obtain rfl : symbol' = symbol := Option.some.inj (hsymbol'.symm.trans hstarts.declared)
    have hshort := length_le_of_needsMethodName_usual hneed
    obtain ⟨n, -, -, heq⟩ := hminted.method hname
    have hlong := SymbolKind.method.lt_length_generatedName n
    rw [← heq, hkey, ← hkey'] at hlong
    omega

/-- With the usual choice the classes whose names no table has are those that are announced only. -/
theorem unrecorded_usual_iff {files : List ClassFile} {counters : Counters} {resolver : ρ}
    {counterFile : Option File} {id : ClassId} (hid : id < (GraphBuilder.build files).size) :
    (freshWith (GraphBuilder.build files) {} .usual [] counters resolver
      counterFile).task.Unrecorded id ↔ GraphBuilder.Announced files id := by
  have hloaded := GraphBuilder.loaded_build hid
  rw [NamingTask.Unrecorded, GraphBuilder.Announced]
  change ((GraphBuilder.build files).classAt id).loaded = false ∧ _ ↔ _
  cases hnamed : ClassFile.named? files ((GraphBuilder.build files).nameAt id) with
  | some file =>
    rw [hloaded, hnamed]
    simp
  | none =>
    rw [hnamed, Option.isSome_none] at hloaded
    have henclosure : ((GraphBuilder.build files).classAt id).enclosure = none := by
      rw [← ClassSymbol.enclosure_outline, GraphBuilder.outline_build_of_not_loaded hid hloaded]
    rw [classDecision_usual henclosure, hloaded]
    simp

/-- A generator that resumes a run, and knows its table, needs a number for each class that is not
recorded. It fails only if there are not so many. If it succeeds, it gives a class with a class file
its target again exactly if the class and its containers, at any depth, are recorded. -/
theorem exists_generate_of_remembered [ConflictResolver σ] {gen : Generator σ} {task : NamingTask}
    {start : Counters} {c : NamingContext} {t : MappingTable} (h : task.Remembered start c t)
    (hresumes : gen.Resumes task c t) :
    (∃ set' last', gen.generate = (.ok set', last') ∧
      (∀ id < task.graph.size, (task.graph.classAt id).loaded = true →
        ((set'.find? (task.graph.nameAt id)).map ClassEntry.target =
            ((task.setIn c).find? (task.graph.nameAt id)).map ClassEntry.target ↔
          ∀ x, ReflTransGen task.graph.ContainedIn id x → ¬ task.Unrecorded x)) ∧
      (∀ kind, kind ≠ .type → last'.context.counters.get kind = c.counters.get kind) ∧
      last'.context.counters.get .type = c.counters.get .type + task.unrecorded.card) ∨
    (gen.generate.1 = .error .overflow ∧
      Text.wordLimit ≤ c.counters.get .type + task.unrecorded.card) := by
  obtain ⟨stored, hstored⟩ := hresumes.stored
  obtain ⟨heritage, htask, honly, hprior⟩ := hresumes.task_eq
  have hstart : gen.startState.context.counters = c.counters := hresumes.start
  have hclass : gen.startState.context.classNames = .empty := hresumes.classNames
  have hfield : gen.startState.context.fieldNames = .empty := hresumes.fieldNames
  have hmethod : gen.startState.context.methodNames = .empty := hresumes.methodNames
  have hgraph : ({ task with heritage } : NamingTask).graph.Finished := h.graph
  rcases (h.uncontested honly hprior).succeeds_or_overflows h.graph gen.startState with
    ⟨set', s, hsucceeds⟩ | ⟨_, _, _, _, hfails, hleads, hawaits, hfull⟩
  · obtain ⟨hleads, hsettled, hset'⟩ := NamingTask.of_succeeds_run hgraph hsucceeds
    have hlater := hleads.accounted h.graph.names hclass hfield hmethod
    have hgenerate : gen.generate = (.ok set',
        { gen with context := s.context, resolver := s.resolver }.storeCounters) := by
      rw [← htask] at hsucceeds
      exact generate_of_succeeds hstored hsucceeds
    have hall : task.unrecordedIn s.context = task.unrecorded := by
      refine Finset.filter_true_of_mem fun id hmem => ?_
      obtain ⟨name, hname⟩ := (hsettled id (NamingTask.mem_unrecorded_iff.1 hmem).1).name
      exact Option.isSome_iff_exists.2 ⟨name, hname⟩
    have hcount := h.get_counters_type_of_leads honly hprior hstart hclass hleads
    rw [hstart] at hlater
    rw [hall] at hcount
    refine .inl ⟨_, _, hgenerate, fun id hid hloaded => ?_, fun kind hkind =>
      h.get_counters_eq_of_ne honly hprior hstart hleads hkind, hcount⟩
    obtain ⟨name, hname⟩ := (h.settled id hid).name
    obtain ⟨name', hname'⟩ := (hsettled id hid).name
    have hagain := h.className_eq_iff_forall honly hprior hlater
      (fun id hid => (hsettled id hid).name) hid
    have htarget := NamingTask.map_target_find?_setIn h.graph hid hloaded hname
    have htarget' := NamingTask.map_target_find?_setIn hgraph hid hloaded hname'
    rw [hset', htarget, ← hagain, hname, hname']
    exact Eq.congr_left htarget'
  · refine .inr ⟨?_, h.wordLimit_le_of_not_room honly hprior hstart hclass hleads hawaits hfull⟩
    rw [← htask] at hfails
    rw [(generate_of_stored hstored).1, hfails]

/-- With the usual configuration and without policies, generating again from the table of a run
needs a class number for each class that is announced only, and fails only if there are not so many.
If it succeeds, it gives a class with a class file its target again exactly if the class and its
containers, at any depth, are more than announced. It moves no counter but that of classes, and
that one exactly if a class is only announced. -/
theorem target_eq_iff_of_prior [PatternEngine] [PatternEngine.ReadsUsual] [ConflictResolver ρ]
    [ConflictResolver σ] (files : List ClassFile) (counters : Counters) (resolver : ρ)
    (resolver' : σ) (counterFile : Option File) {first last : Generator ρ} {set : MappingSet}
    (hfirst : fresh (GraphBuilder.build files) {} [] counters resolver counterFile = .ok first)
    (hrun : first.generate = (.ok set, last))
    (hplain : ∀ id < (GraphBuilder.build files).size,
      SymbolKind.type.isGenerated ((GraphBuilder.build files).nameAt id) = false) :
    ∃ table again second, set.toTable = .ok table ∧
      fresh (GraphBuilder.build files) {} [] {} resolver' last.counterFile = .ok again ∧
      again.withPrior table = .ok second ∧
      ((∃ set' last', second.generate = (.ok set', last') ∧
        (∀ id < (GraphBuilder.build files).size,
          ((GraphBuilder.build files).classAt id).loaded = true →
          ((set'.find? ((GraphBuilder.build files).nameAt id)).map ClassEntry.target =
              (set.find? ((GraphBuilder.build files).nameAt id)).map ClassEntry.target ↔
            ∀ x, ReflTransGen (GraphBuilder.build files).ContainedIn id x →
              ¬ GraphBuilder.Announced files x)) ∧
        (∀ kind, kind ≠ .type →
          last'.context.counters.get kind = last.context.counters.get kind) ∧
        last'.context.counters.get .type =
          last.context.counters.get .type + (GraphBuilder.announced files).card ∧
        (last'.context.counters = last.context.counters ↔
          ∀ id < (GraphBuilder.build files).size, ¬ GraphBuilder.Announced files id)) ∨
      (second.generate.1 = .error .overflow ∧ Text.wordLimit ≤
        last.context.counters.get .type + (GraphBuilder.announced files).card)) := by
  have hrenames := renames_of_usual hfirst hrun hplain
  have hpackages : ∀ id < (GraphBuilder.build files).size,
      NamingTask.IsPackage
        (first.task.chain.packageFor ((GraphBuilder.build files).classAt id)) := by
    obtain ⟨patterns, -, rfl⟩ := fresh_eq_ok_iff.1 hfirst
    have husual : NamingTask.IsPackage "net/minecraft/" := by decide
    exact fun id _ => husual
  obtain ⟨c, table, hset, htable, hlast, hremembered⟩ :=
    exists_remembered hfirst hrun hpackages hrenames
  obtain ⟨again, second, hfresh, hprior, hresumes⟩ :=
    exists_resumes resolver' hfirst hlast hremembered
  have hunrecorded : ∀ id < (GraphBuilder.build files).size,
      first.task.Unrecorded id ↔ GraphBuilder.Announced files id := by
    intro id hid
    obtain ⟨patterns, hpatterns, rfl⟩ := fresh_eq_ok_iff.1 hfirst
    obtain rfl : NamePatterns.usual = patterns :=
      Option.some.inj (NamePatterns.compile?_usual.symm.trans hpatterns)
    exact unrecorded_usual_iff hid
  have hgraph := graph_of_fresh hfirst
  have hannounced : first.task.unrecorded = GraphBuilder.announced files := by
    rw [NamingTask.unrecorded, GraphBuilder.announced, hgraph]
    exact Finset.filter_congr fun id hid => hunrecorded id (Finset.mem_range.1 hid)
  have hlastCounters : last.context.counters = c.counters := by rw [hlast]; rfl
  have hagain := exists_generate_of_remembered hremembered hresumes
  rw [hannounced, ← hlastCounters, ← hset] at hagain
  refine ⟨table, again, second, htable, hfresh, hprior, hagain.imp_left ?_⟩
  rintro ⟨set', last', hgenerate, htargets, hothers, htype⟩
  refine ⟨set', last', hgenerate, fun id hid hloaded => ?_, hothers, htype, ?_⟩
  · rw [hgraph] at htargets
    rw [htargets id hid hloaded]
    refine forall₂_congr fun x hx => not_congr (hunrecorded x ?_)
    exact (GraphBuilder.finished_build files).forest.lt_size_of_reflTransGen hx hid
  · have hempty : (GraphBuilder.announced files).card = 0 ↔
        ∀ id < (GraphBuilder.build files).size, ¬ GraphBuilder.Announced files id := by
      rw [Finset.card_eq_zero, GraphBuilder.announced, Finset.filter_eq_empty_iff]
      exact forall_congr' fun id => by rw [Finset.mem_range]
    rw [← hempty]
    constructor
    · intro hsame
      rw [hsame] at htype
      omega
    · intro hnone
      refine Counters.ext_get fun kind => ?_
      by_cases hkind : kind = .type
      · rw [hkind, htype, hnone, Nat.add_zero]
      · exact hothers kind hkind

/-- A class whose name announces a container that has no class file, and one more class. -/
def insideFiles : List ClassFile := [{ name := "a$b" }, { name := "c" }]

/-- Generating again, the class whose container is announced only moves, and the other one does
not. -/
theorem targets_insideFiles :
    ∃ (first last again second last' : Generator Resolver) (set set' : MappingSet)
      (table : MappingTable),
      fresh (GraphBuilder.build insideFiles) {} [] {} .refuse none = .ok first ∧
      first.generate = (.ok set, last) ∧ set.toTable = .ok table ∧
      fresh (GraphBuilder.build insideFiles) {} [] {} .refuse last.counterFile = .ok again ∧
      again.withPrior table = .ok second ∧ second.generate = (.ok set', last') ∧
      (set'.find? "a$b").map ClassEntry.target ≠ (set.find? "a$b").map ClassEntry.target ∧
      (set'.find? "c").map ClassEntry.target = (set.find? "c").map ClassEntry.target := by
  have hfirst : fresh (GraphBuilder.build insideFiles) {} [] {} Resolver.refuse none = .ok _ :=
    fresh_eq_ok_iff.2 ⟨.usual, NamePatterns.compile?_usual, rfl⟩
  obtain ⟨set, hrun⟩ := @exists_generate_eq_of_isOk Resolver
    (freshWith (GraphBuilder.build insideFiles) {} .usual [] {} .refuse none) _ (by decide +kernel)
  obtain ⟨table, again, second, htable, hagain, hprior,
      ⟨set', last', hgenerate, htargets, -⟩ | ⟨-, hfull⟩⟩ :=
    target_eq_iff_of_prior insideFiles {} .refuse Resolver.refuse none hfirst hrun
      (by decide +kernel)
  case inr => exact absurd hfull (by decide +kernel)
  refine ⟨_, _, again, second, last', set, set', table, hfirst, hrun, htable, hagain, hprior,
    hgenerate, ?_, ?_⟩
  · have hcontained : (GraphBuilder.build insideFiles).ContainedIn 1 0 := by
      change ((GraphBuilder.build insideFiles).classAt 1).outer = some 0
      decide +kernel
    have hannounced : GraphBuilder.Announced insideFiles 0 := by
      constructor <;> decide +kernel
    have hname : (GraphBuilder.build insideFiles).nameAt 1 = "a$b" := by decide +kernel
    have htarget := htargets 1 (by decide +kernel) (by decide +kernel)
    rw [hname] at htarget
    exact fun hsame => htarget.1 hsame 0 (.single hcontained) hannounced
  · have htop : ((GraphBuilder.build insideFiles).classAt 2).outer = none := by decide +kernel
    have hname : (GraphBuilder.build insideFiles).nameAt 2 = "c" := by decide +kernel
    have htarget := htargets 2 (by decide +kernel) (by decide +kernel)
    rw [hname] at htarget
    refine htarget.2 fun x hx hannounced => ?_
    rcases hx.cases_head with rfl | ⟨outer, houter, -⟩
    · exact absurd hannounced.1 (by decide +kernel)
    · rw [ClassGraph.ContainedIn, htop] at houter
      cases houter

/-- What the first run gives. -/
def insideSet : MappingSet where
  source := "official"
  target := "intermediary"
  counters := ⟨4, 1, 1⟩
  classes := [{ name := "a$b", target := "net/minecraft/class_1$class_2" },
    { name := "c", target := "net/minecraft/class_3" }]

/-- Its table. -/
def insideTable : MappingTable where
  source := "official"
  target := "intermediary"
  counters := ⟨4, 1, 1⟩
  classes := .ofList [("a$b", "net/minecraft/class_1$class_2"), ("c", "net/minecraft/class_3")]

/-- Generating again moves the target of the class whose container is announced only, and moves the
counter of classes. -/
theorem inner_class_moves :
    ∃ gen second : Generator Resolver,
      fresh (GraphBuilder.build insideFiles) {} [] {} .refuse = .ok gen ∧
      gen.generate.1 = .ok insideSet ∧ insideSet.toTable = .ok insideTable ∧
      gen.withPrior insideTable = .ok second ∧
      second.generate.1 = .ok { insideSet with
        counters := ⟨5, 1, 1⟩
        classes := [{ name := "a$b", target := "net/minecraft/class_4$class_2" },
          { name := "c", target := "net/minecraft/class_3" }] } := by
  obtain ⟨gen, hgen⟩ : ∃ gen, freshWith (GraphBuilder.build insideFiles) {} .usual [] {}
      Resolver.refuse none = gen := ⟨_, rfl⟩
  obtain ⟨second, hsecond⟩ : ∃ second, gen.withPrior insideTable = .ok second := by
    cases hgen
    exact ⟨_, rfl⟩
  refine ⟨gen, second, fresh_eq_ok_iff.2 ⟨.usual, NamePatterns.compile?_usual, hgen⟩, ?_,
    by decide +kernel, hsecond, ?_⟩
  · cases hgen
    decide +kernel
  · cases hgen
    cases hsecond
    decide +kernel

end Generator

end StableNaming
