import StableNaming.Graph.Renaming
import StableNaming.Proofs.Naming.Lifetime
import StableNaming.Proofs.Policy.Engine

/-!
# Running again

A run that finds everything settled asks nobody, counts nothing and decides nothing: it says what
has been decided. A successful run settles everything, whatever the graph is, so after it every
further run says the same. The first run need not have said so too. When a family is named, all
methods that its classes hold are given its name, also those that have one; so the name on a
METHOD line can be replaced later in the same run, if the classes of some family hold different
methods. In a graph that class files make they hold one, and the first run says what all later
ones say.
-/

namespace StableNaming

open NamingM

/-- Change what is said about methods. -/
def ClassEntry.mapMethods (c : ClassEntry) (read : MemberEntry → MemberEntry) : ClassEntry :=
  { c with methods := c.methods.map read }

/-- Change what is said about methods. -/
def MappingSet.mapMethods (set : MappingSet) (read : MemberEntry → MemberEntry) : MappingSet :=
  { set with classes := set.classes.map (·.mapMethods read) }

/-- A mapping set without the names of methods: its METHOD lines say only which methods have
names. -/
def MappingSet.withoutMethodNames (set : MappingSet) : MappingSet :=
  set.mapMethods fun m => { m with target := "" }

theorem MappingSet.mapMethods_id (set : MappingSet) : set.mapMethods id = set := by
  have hentry : (fun c : ClassEntry => c.mapMethods id) = id := by
    funext c
    rw [ClassEntry.mapMethods, List.map_id]
    rfl
  rw [mapMethods, hentry, List.map_id]

/-- Deciding one name for several methods changes the names of these methods only. -/
theorem NamingContext.setMethods_eq (c : NamingContext) (methods : List MethodId) (name : String) :
    c.setMethods methods name =
      { c with methodNames := (c.setMethods methods name).methodNames } := by
  rw [setMethods]
  induction methods generalizing c with
  | nil => rfl
  | cons m methods ih => exact ih (c.setMethod m name)

theorem NamingContext.find?_setMethods (c : NamingContext) (methods : List MethodId) (name : String)
    (m : MethodId) : (c.setMethods methods name).methodNames.find? m =
      if m ∈ methods then some name else c.methodNames.find? m := by
  rw [setMethods]
  induction methods generalizing c with
  | nil => rfl
  | cons first methods ih =>
    rw [List.foldl_cons, ih, setMethod]
    dsimp only
    rw [Dictionary.find?_insert]
    by_cases hfirst : m = first <;> by_cases hmem : m ∈ methods <;>
      simp [hfirst, hmem, Ne.symm]

namespace NamingTask

variable {ρ : Type} {task : NamingTask} {s t : NamingState ρ}

/-! ## A run that finds everything settled -/

/-- A field that is settled is told from its name. -/
theorem succeeds_fieldEntry_of_settled {id : ClassId} {f : Member}
    (h : task.FieldSettled s.context id f) :
    Succeeds (task.fieldEntry (task.graph.classAt id) f) s (task.fieldEntryIn s.context id f)
      s := by
  obtain ⟨need, hneed, hname⟩ := h
  rw [fieldEntry, fieldEntryIn, succeeds_bind_iff]
  refine ⟨need, s, succeeds_ask_iff.2 ⟨hneed, rfl⟩, ?_⟩
  rw [hneed]
  cases need with
  | false => exact succeeds_pure_iff.2 ⟨rfl, rfl⟩
  | true =>
    obtain ⟨name, hname⟩ := hname rfl
    rw [if_pos rfl, succeeds_bind_iff]
    refine ⟨name, s, (succeeds_fieldNameFor_iff_of_known hname).2 ⟨rfl, rfl⟩, ?_⟩
    dsimp only
    rw [hname]
    exact succeeds_pure_iff.2 ⟨rfl, rfl⟩

variable [ConflictResolver ρ]

/-- A method that has a name keeps it. -/
theorem succeeds_methodNameFor_of_known {id : ClassId} {key : MemberKey} {method : MethodId}
    {name : String} (h : s.context.methodNames.find? method = some name) :
    Succeeds (task.methodNameFor id key method) s name s := by
  rw [methodNameFor, succeeds_bind_iff]
  refine ⟨s.context, s, succeeds_context_iff.2 ⟨rfl, rfl⟩, ?_⟩
  rw [h]
  exact succeeds_pure_iff.2 ⟨rfl, rfl⟩

/-- A method that is settled is told from its name. -/
theorem succeeds_methodEntry_of_settled {id : ClassId} {slot : MemberKey × MethodId}
    (h : task.MethodSettled s.context id slot) :
    Succeeds (task.methodEntry id slot) s (task.methodEntryIn s.context id slot) s := by
  rw [methodEntry, methodEntryIn]
  by_cases hskip : (slot.1.isInitializer || !task.hierarchy.isSource id slot.1) = true
  · rw [if_pos hskip, if_pos hskip]
    exact succeeds_pure_iff.2 ⟨rfl, rfl⟩
  · rw [if_neg hskip, if_neg hskip]
    rw [Bool.or_eq_true, not_or, Bool.not_eq_true, Bool.not_eq_true, Bool.not_eq_false'] at hskip
    cases hsymbol : task.graph.methodAt? slot.2 with
    | none => exact succeeds_pure_iff.2 ⟨rfl, rfl⟩
    | some symbol =>
      obtain ⟨need, hneed, hname⟩ := h hskip.1 hskip.2 symbol hsymbol
      dsimp only
      rw [sourceEntry, succeeds_bind_iff]
      refine ⟨need, s, succeeds_ask_iff.2 ⟨hneed, rfl⟩, ?_⟩
      rw [hneed]
      cases need with
      | false => exact succeeds_pure_iff.2 ⟨rfl, rfl⟩
      | true =>
        obtain ⟨name, hname⟩ := hname rfl
        rw [if_pos rfl, succeeds_bind_iff]
        refine ⟨name, s, succeeds_methodNameFor_of_known hname, ?_⟩
        dsimp only
        rw [hname]
        exact succeeds_pure_iff.2 ⟨rfl, rfl⟩

/-- A class that is settled is told from the decided names. -/
theorem succeeds_visit_of_settled {id : ClassId} (h : task.ClassSettled s.context id) :
    Succeeds (task.visit id) s (task.classEntryIn s.context id) s := by
  obtain ⟨name, hname⟩ := h.name
  rw [visit, succeeds_bind_iff]
  refine ⟨name, s, (succeeds_classNameFor_iff_of_known hname).2 ⟨rfl, rfl⟩, ?_⟩
  rw [classEntryIn]
  by_cases hloaded : (task.graph.classAt id).loaded = true
  · have hfields := succeeds_filterMapM_of_still fun f hf =>
      succeeds_fieldEntry_of_settled (h.fields hloaded f hf)
    have hmethods := succeeds_filterMapM_of_still fun slot hslot =>
      succeeds_methodEntry_of_settled (h.methods hloaded slot hslot)
    rw [if_pos hloaded, if_pos hloaded, hname]
    simp only [succeeds_bind_iff, succeeds_pure_iff]
    exact ⟨_, s, hfields, _, s, hmethods, rfl, rfl⟩
  · rw [if_neg hloaded, if_neg hloaded]
    exact succeeds_pure_iff.2 ⟨rfl, rfl⟩

/-- A run over settled classes says what has been decided, and changes nothing. -/
theorem succeeds_run_of_settled (h : ∀ id ∈ task.graph.walk, task.ClassSettled s.context id) :
    Succeeds task.run s (task.setIn s.context) s := by
  rw [run, succeeds_bind_iff]
  refine ⟨_, s, succeeds_filterMapM_of_still fun id hid => succeeds_visit_of_settled (h id hid), ?_⟩
  rw [succeeds_bind_iff]
  exact ⟨s.context, s, succeeds_context_iff.2 ⟨rfl, rfl⟩, succeeds_pure_iff.2 ⟨rfl, rfl⟩⟩

/-! ## What a run leaves behind -/

/-- Whether the classes of each family that needs a name hold no method but the one with which the
family starts. -/
def OwnFamilies (task : NamingTask) : Prop :=
  ∀ ⦃id : ClassId⦄ ⦃key : MemberKey⦄ ⦃method : MethodId⦄ ⦃symbol : MethodSymbol⦄,
    task.Starts id key method symbol →
    task.chain.needsMethodName (task.graph.classAt id) symbol = .ok true →
    ∀ x ∈ task.hierarchy.family id key, ∀ m, task.graph.slot? x key = some m → m = method

/-- In a finished graph the classes of a family hold one method. -/
theorem ownFamilies_of_finished (hgraph : task.graph.Finished) : task.OwnFamilies :=
  fun _ _ _ _ hstarts _ _ hx _ hm =>
    eq_of_mem_shared hgraph hstarts.slot (List.mem_filterMap.2 ⟨_, hx, hm⟩)

/-- Whether classes and fields keep their names, methods that have names have names, which are the
same if `kept` says so, and no counter goes back. -/
structure Stays (kept : Prop) (c c' : NamingContext) : Prop where
  /-- Classes keep their names. -/
  type : ∀ {className name : String}, c.classNames.find? className = some name →
    c'.classNames.find? className = some name
  /-- Fields keep their names. -/
  field : ∀ {ref : MemberRef} {name : String}, c.fieldNames.find? ref = some name →
    c'.fieldNames.find? ref = some name
  /-- Methods keep having names. -/
  method : ∀ {method : MethodId} {name : String}, c.methodNames.find? method = some name →
    ∃ name', c'.methodNames.find? method = some name' ∧ (kept → name' = name)
  /-- No counter goes back. -/
  get_counters_le : ∀ kind, c.counters.get kind ≤ c'.counters.get kind

namespace Stays

variable {kept : Prop} {c c' c'' : NamingContext}

theorem of_persists (h : Persists c c')
    (hcounters : ∀ kind, c.counters.get kind ≤ c'.counters.get kind) : Stays kept c c' :=
  ⟨h.type, h.field, fun hname => ⟨_, h.method hname, fun _ => rfl⟩, hcounters⟩

theorem refl (c : NamingContext) : Stays kept c c := .of_persists (.refl c) fun _ => Nat.le_refl _

theorem trans (h : Stays kept c c') (h' : Stays kept c' c'') : Stays kept c c'' where
  type := h'.type ∘ h.type
  field := h'.field ∘ h.field
  method hname := by
    obtain ⟨name', hname', hsame⟩ := h.method hname
    obtain ⟨name'', hname'', hsame'⟩ := h'.method hname'
    exact ⟨name'', hname'', fun hkept => (hsame' hkept).trans (hsame hkept)⟩
  get_counters_le kind := (h.get_counters_le kind).trans (h'.get_counters_le kind)

theorem of_later {s t : NamingState ρ} (h : Later s t) : Stays kept s.context t.context :=
  .of_persists h.persists h.get_counters_le

theorem of_leads (h : task.Leads c c') : Stays kept c c' :=
  .of_persists h.persists h.get_counters_le

end Stays

section Stay

variable {kept : Prop}

/-- Naming a family names the method with which it starts. It gives new names only to other methods
that its classes hold. -/
theorem stays_methodNameFor {id : ClassId} {key : MemberKey} {method : MethodId} {name : String}
    (hkept : kept → ∀ x ∈ task.hierarchy.family id key, ∀ m,
      task.graph.slot? x key = some m → m = method)
    (h : Succeeds (task.methodNameFor id key method) s name t) :
    Stays kept s.context t.context ∧ t.context.methodNames.find? method = some name := by
  rw [methodNameFor, succeeds_bind_iff] at h
  obtain ⟨known, u, hcontext, h⟩ := h
  obtain ⟨rfl, rfl⟩ := succeeds_context_iff.1 hcontext
  cases hknown : u.context.methodNames.find? method with
  | some known =>
    rw [hknown] at h
    obtain ⟨rfl, rfl⟩ := succeeds_pure_iff.1 h
    exact ⟨.refl _, hknown⟩
  | none =>
    rw [hknown] at h
    simp only [succeeds_bind_iff, succeeds_modifyContext_iff, succeeds_pure_iff] at h
    obtain ⟨name', v, hchosen, _, _, rfl, rfl, rfl⟩ := h
    have hcounts := (moves_newMethodName _ _).of_succeeds hchosen
    have hsame := hcounts.aside.methodNames_eq
    dsimp only
    refine ⟨?_, by rw [NamingContext.find?_setMethods, if_pos List.mem_cons_self]⟩
    rw [NamingContext.setMethods_eq]
    refine ⟨hcounts.persists.type, hcounts.persists.field, fun {m found} hfound => ?_,
      hcounts.get_counters_le⟩
    rw [NamingContext.find?_setMethods, hsame]
    split
    · rename_i hmem
      refine ⟨name', rfl, fun hkeeps => ?_⟩
      -- the method with which the family starts had no name
      rcases List.mem_cons.1 hmem with rfl | hmem
      · rw [hknown] at hfound
        cases hfound
      · obtain ⟨x, hx, hslot⟩ := List.mem_filterMap.1 hmem
        rw [hkept hkeeps x hx m hslot, hknown] at hfound
        cases hfound
    · exact ⟨found, hfound, fun _ => rfl⟩

variable {read : MemberEntry → MemberEntry}
  (hread : ∀ key name name', (kept → name' = name) → read ⟨key, name'⟩ = read ⟨key, name⟩)
include hread

theorem MethodSettled.stays {c c' : NamingContext} {id : ClassId} {slot : MemberKey × MethodId}
    (hc : Stays kept c c') (h : task.MethodSettled c id slot) :
    task.MethodSettled c' id slot ∧
      (task.methodEntryIn c' id slot).map read = (task.methodEntryIn c id slot).map read := by
  constructor
  · intro hinit hsource symbol hsymbol
    obtain ⟨need, hneed, hname⟩ := h hinit hsource symbol hsymbol
    refine ⟨need, hneed, fun hneed => ?_⟩
    obtain ⟨name, hname⟩ := hname hneed
    obtain ⟨name', hname', -⟩ := hc.method hname
    exact ⟨name', hname'⟩
  · rw [methodEntryIn, methodEntryIn]
    by_cases hskip : (slot.1.isInitializer || !task.hierarchy.isSource id slot.1) = true
    · rw [if_pos hskip, if_pos hskip]
    · rw [if_neg hskip, if_neg hskip]
      rw [Bool.or_eq_true, not_or, Bool.not_eq_true, Bool.not_eq_true, Bool.not_eq_false'] at hskip
      cases hsymbol : task.graph.methodAt? slot.2 with
      | none => rfl
      | some symbol =>
        obtain ⟨need, hneed, hname⟩ := h hskip.1 hskip.2 symbol hsymbol
        dsimp only
        rw [hneed]
        cases need with
        | false => rfl
        | true =>
          obtain ⟨name, hname⟩ := hname rfl
          obtain ⟨name', hname', hsame⟩ := hc.method hname
          dsimp only
          rw [hname, hname', Option.map_some, Option.map_some, Option.map_some, Option.map_some,
            hread slot.1 name name' hsame]

theorem ClassSettled.stays {c c' : NamingContext} {id : ClassId} (hc : Stays kept c c')
    (h : task.ClassSettled c id) :
    task.ClassSettled c' id ∧ (task.classEntryIn c' id).map (·.mapMethods read) =
      (task.classEntryIn c id).map (·.mapMethods read) := by
  obtain ⟨name, hname⟩ := h.name
  have hname' := hc.type hname
  refine ⟨⟨⟨name, hname'⟩, fun hloaded f hf => ((h.fields hloaded f hf).of_persists hc.field).1,
    fun hloaded slot hslot => (MethodSettled.stays hread hc (h.methods hloaded slot hslot)).1⟩, ?_⟩
  rw [classEntryIn, classEntryIn]
  by_cases hloaded : (task.graph.classAt id).loaded = true
  · have hfields := List.filterMap_congr fun f hf =>
      ((h.fields hloaded f hf).of_persists hc.field).2
    have hmethods : ((task.graph.classAt id).methods.entries.filterMap
        (task.methodEntryIn c' id)).map read =
        ((task.graph.classAt id).methods.entries.filterMap (task.methodEntryIn c id)).map read := by
      rw [List.map_filterMap, List.map_filterMap]
      exact List.filterMap_congr fun slot hslot =>
        (MethodSettled.stays hread hc (h.methods hloaded slot hslot)).2
    rw [if_pos hloaded, if_pos hloaded, Option.map_some, Option.map_some, ClassEntry.mapMethods,
      ClassEntry.mapMethods, hname, hname', hfields, hmethods]
  · rw [if_neg hloaded, if_neg hloaded]

variable (hkept : kept → task.OwnFamilies)
include hkept

omit hread in
/-- The turn of a method settles it, in any graph. -/
theorem stays_methodEntry {id : ClassId} {slot : MemberKey × MethodId} {entry : Option MemberEntry}
    (hloaded : (task.graph.classAt id).loaded = true)
    (hslot : slot ∈ (task.graph.classAt id).methods.entries)
    (h : Succeeds (task.methodEntry id slot) s entry t) :
    Stays kept s.context t.context ∧ task.MethodSettled t.context id slot ∧
      entry = task.methodEntryIn t.context id slot :=
  of_succeeds_methodEntry_of Stays.refl
    (fun hstarts hneed h => stays_methodNameFor (fun hkeeps => hkept hkeeps hstarts hneed) h)
    hloaded hslot h

/-- Visiting a class settles it, in any graph. -/
theorem stays_visit {id : ClassId} {entry : Option ClassEntry}
    (h : Succeeds (task.visit id) s entry t) :
    Stays kept s.context t.context ∧ task.ClassSettled t.context id ∧
      entry.map (·.mapMethods read) =
        (task.classEntryIn t.context id).map (·.mapMethods read) := by
  rw [visit, succeeds_bind_iff] at h
  obtain ⟨target, u, htarget, h⟩ := h
  have hname : u.context.classNames.find? (task.graph.nameAt id) = some target :=
    find?_of_succeeds_classNameFor htarget
  have hsu : Stays kept s.context u.context :=
    .of_later ((moves_classNameFor _).of_succeeds htarget).toLater
  by_cases hloaded : (task.graph.classAt id).loaded = true
  · rw [if_pos hloaded] at h
    simp only [succeeds_bind_iff, succeeds_pure_iff] at h
    obtain ⟨fields, v, hfieldRun, methods, w, hmethodRun, rfl, rfl⟩ := h
    obtain ⟨huv, hfields, rfl⟩ := of_succeeds_fieldEntries hloaded (fun _ hf => hf) hfieldRun
    have huv : Stays kept u.context v.context := .of_leads huv
    obtain ⟨hvw, hmethods, hmethodEntries⟩ :=
      of_succeeds_filterMapM_read read (Stays kept) (fun c slot => task.MethodSettled c id slot)
        (fun c slot => task.methodEntryIn c id slot) Stays.refl (fun _ _ _ => Stays.trans)
        (fun _ _ _ hc hslot => MethodSettled.stays hread hc hslot)
        (fun _ hslot _ _ _ h => by
          obtain ⟨hstays, hsettled, rfl⟩ := stays_methodEntry hkept hloaded hslot h
          exact ⟨hstays, hsettled, rfl⟩) hmethodRun
    have hname := (huv.trans hvw).type hname
    refine ⟨hsu.trans (huv.trans hvw), ⟨⟨target, hname⟩,
      fun _ f hf => ((hfields f hf).of_persists hvw.field).1, fun _ => hmethods⟩, ?_⟩
    have hentries := List.filterMap_congr fun f hf => ((hfields f hf).of_persists hvw.field).2
    rw [classEntryIn, if_pos hloaded, hname, hentries, Option.map_some, Option.map_some,
      ClassEntry.mapMethods, ClassEntry.mapMethods, hmethodEntries]
    rfl
  · rw [if_neg hloaded] at h
    obtain ⟨rfl, rfl⟩ := succeeds_pure_iff.1 h
    refine ⟨hsu, ⟨⟨target, hname⟩, fun h => absurd h hloaded, fun h => absurd h hloaded⟩, ?_⟩
    rw [classEntryIn, if_neg hloaded]

variable (kept read) in
/-- A successful run settles the classes that it visits, in any graph. -/
theorem stays_run {set : MappingSet} (h : Succeeds task.run s set t) :
    Stays kept s.context t.context ∧ (∀ id ∈ task.graph.walk, task.ClassSettled t.context id) ∧
      set.mapMethods read = (task.setIn t.context).mapMethods read := by
  rw [run] at h
  simp only [succeeds_bind_iff, succeeds_context_iff, succeeds_pure_iff] at h
  obtain ⟨classes, u, hclasses, c, v, ⟨rfl, rfl⟩, rfl, rfl⟩ := h
  obtain ⟨hstays, hsettled, hentries⟩ :=
    of_succeeds_filterMapM_read (ClassEntry.mapMethods · read) (Stays kept) task.ClassSettled
      task.classEntryIn Stays.refl (fun _ _ _ => Stays.trans)
      (fun _ _ _ hc hid => ClassSettled.stays hread hc hid)
      (fun _ _ _ _ _ h => stays_visit hread hkept h) hclasses
  refine ⟨hstays, hsettled, ?_⟩
  rw [setIn, MappingSet.mapMethods, MappingSet.mapMethods]
  dsimp only
  rw [hentries]

end Stay

end NamingTask

namespace Generator

variable {ρ : Type}

/-- Only a generator whose counter file can be read succeeds. -/
theorem exists_storedCounters_of_generate [ConflictResolver ρ] {gen after : Generator ρ}
    {set : MappingSet} (h : gen.generate = (.ok set, after)) :
    ∃ stored, gen.storedCounters = .ok stored := by
  rw [generate] at h
  cases hstored : gen.storedCounters with
  | error fault =>
    rw [hstored] at h
    cases (Prod.mk.inj h).1
  | ok stored => exact ⟨stored, rfl⟩

theorem storeCounters_storeCounters (gen : Generator ρ) :
    gen.storeCounters.storeCounters = gen.storeCounters := by
  rw [storeCounters, storeCounters]
  cases gen.counterFile <;> rfl

/-- A generator for which everything is settled, and that has written its counter file, says what
has been decided and stays as it is. -/
theorem generate_storeCounters [ConflictResolver ρ] {gen : Generator ρ}
    (hone : ∀ kind, 1 ≤ gen.context.counters.get kind)
    (hsettled : ∀ id ∈ gen.task.graph.walk, gen.task.ClassSettled gen.context id) :
    gen.storeCounters.generate = (.ok (gen.task.setIn gen.context), gen.storeCounters) := by
  obtain ⟨stored, hstored, hle⟩ := storedCounters_storeCounters gen
  -- what is in the counter file is not ahead of the counters
  have hstart : gen.storeCounters.startCounters = gen.context.counters := by
    rw [startCounters, hstored]
    exact Counters.merge_eq_self fun kind =>
      (hle kind).trans (Nat.max_le.2 ⟨hone kind, Nat.le_refl _⟩)
  have hrun : Succeeds gen.task.run ⟨gen.context, gen.resolver⟩ (gen.task.setIn gen.context)
    ⟨gen.context, gen.resolver⟩ := NamingTask.succeeds_run_of_settled hsettled
  have hgenerate := generate_of_succeeds hstored (by rw [hstart]; exact hrun)
  exact hgenerate.trans (congrArg (Prod.mk _) gen.storeCounters_storeCounters)

/-- After a successful run of any generator every further run succeeds, whoever settles conflicts,
since nobody is asked. It says what has been decided, and changes nothing. The run before it has
said the same, but for the names of methods that classes of another family hold; in a graph of
class files there are none. -/
theorem generate_again [ConflictResolver ρ] {gen after : Generator ρ} {set : MappingSet}
    (hrun : gen.generate = (.ok set, after)) :
    ∃ again, after.generate = (.ok again, after) ∧
      (∀ {σ : Type} [ConflictResolver σ] (resolver : σ),
        (after.withResolver resolver).generate = (.ok again, after.withResolver resolver)) ∧
      again = gen.task.setIn after.context ∧
      again.withoutMethodNames = set.withoutMethodNames ∧
      (gen.task.OwnFamilies → again = set) ∧
      ∀ files, gen.task.graph = GraphBuilder.build files → again = set := by
  obtain ⟨stored, hstored⟩ := exists_storedCounters_of_generate hrun
  obtain ⟨t, hsucceeds, rfl⟩ := exists_succeeds_of_generate hrun
  obtain ⟨hstays, hsettled, hsame⟩ := NamingTask.stays_run False (fun m => { m with target := "" })
    (fun _ _ _ _ => rfl) False.elim hsucceeds
  have hone : ∀ kind, 1 ≤ t.context.counters.get kind := fun kind =>
    (one_le_startCounters hstored kind).trans (hstays.get_counters_le kind)
  have hown : gen.task.OwnFamilies → gen.task.setIn t.context = set := by
    intro hown
    obtain ⟨-, -, hsame⟩ := NamingTask.stays_run True id
      (fun key name name' h => by rw [h trivial]) (fun _ => hown) hsucceeds
    rw [MappingSet.mapMethods_id, MappingSet.mapMethods_id] at hsame
    exact hsame.symm
  refine ⟨gen.task.setIn t.context, ?_, fun {σ} _ resolver => ?_, rfl, hsame.symm, hown,
    fun files hfiles => hown (NamingTask.ownFamilies_of_finished ?_)⟩
  · exact generate_storeCounters hone hsettled
  · exact @generate_storeCounters σ _ { gen with context := t.context, resolver } hone hsettled
  · rw [hfiles]
    exact GraphBuilder.finished_build files

/-- Two interfaces, one method each, and a class that has the method of the first one. -/
def overlapFiles : List ClassFile :=
  [{ name := "a", methods := [{ key := ⟨"f", "()V"⟩ }] },
    { name := "b", interfaces := ["a", "c"], methods := [{ key := ⟨"f", "()V"⟩ }] },
    { name := "c", methods := [{ key := ⟨"g", "()V"⟩ }] }]

/-- The method of the second interface is called like that of the first one. -/
def overlapTable : MappingTable where
  source := "official"
  target := "named"
  methods := .ofList [(⟨"c", ⟨"g", "()V"⟩⟩, ⟨"c", ⟨"f", "()V"⟩⟩)]

/-- A generator for the two interfaces and the class whose counters go to a file repeats its mapping
set, also with a resolver that takes the first candidate. -/
theorem generate_again_overlapFiles :
    ∃ (gen after : Generator Resolver) (set : MappingSet),
      create (GraphBuilder.build overlapFiles) {} .refuse (some none) = .ok gen ∧
      gen.generate = (.ok set, after) ∧ gen.counterFile.isSome = true ∧
      (after.withResolver Resolver.first).generate =
        (.ok set, after.withResolver Resolver.first) := by
  obtain ⟨gen, hgen⟩ : ∃ gen, freshWith (GraphBuilder.build overlapFiles) {} .usual [] {}
    Resolver.refuse (some none) = gen := ⟨_, rfl⟩
  have hcreate : create (GraphBuilder.build overlapFiles) {} .refuse (some none) = .ok gen :=
    hgen ▸ create_of_usual _ rfl _ _
  obtain ⟨set, hrun⟩ : ∃ set, gen.generate = (.ok set, gen.generate.2) := by
    refine exists_generate_eq_of_isOk ?_
    rw [← hgen]
    decide +kernel
  obtain ⟨again, -, hresolver, -, -, -, hfiles⟩ := generate_again hrun
  obtain rfl := hfiles overlapFiles (by rw [← hgen]; rfl)
  exact ⟨gen, _, again, hcreate, hrun, by rw [← hgen]; rfl, hresolver Resolver.first⟩

/-- Once the methods of the two interfaces are called alike, naming the family of the second one
replaces the name of the first one after its METHOD line has been written: the second run gives
another mapping set. -/
theorem name_replaced_in_run :
    ∃ (gen after : Generator Resolver) (set again : MappingSet),
      create ((GraphBuilder.build overlapFiles).rename overlapTable) {} .refuse = .ok gen ∧
      gen.generate = (.ok set, after) ∧ after.generate.1 = .ok again ∧
      (set.classes.map ClassEntry.methods).flatten =
        [⟨⟨"f", "()V"⟩, "method_1"⟩, ⟨⟨"f", "()V"⟩, "method_2"⟩] ∧
      (again.classes.map ClassEntry.methods).flatten =
        [⟨⟨"f", "()V"⟩, "method_2"⟩, ⟨⟨"f", "()V"⟩, "method_2"⟩] ∧
      again ≠ set := by
  obtain ⟨gen, set, hgen, hcreate, hrun⟩ := exists_create_generate
    ((GraphBuilder.build overlapFiles).rename overlapTable) Resolver.refuse (by decide +kernel)
  obtain ⟨again, hagain⟩ : ∃ again, gen.generate.2.generate.1 = .ok again := by
    cases hsecond : gen.generate.2.generate.1 with
    | ok again => exact ⟨again, rfl⟩
    | error fault =>
      have hok : gen.generate.2.generate.1.isOk = true := by
        rw [← hgen]
        decide +kernel
      rw [hsecond] at hok
      cases hok
  have hfirst : ∀ set ∈ gen.generate.1.toOption, (set.classes.map ClassEntry.methods).flatten =
      [⟨⟨"f", "()V"⟩, "method_1"⟩, ⟨⟨"f", "()V"⟩, "method_2"⟩] := by
    rw [← hgen]
    decide +kernel
  have hsecond : ∀ set ∈ gen.generate.2.generate.1.toOption,
      (set.classes.map ClassEntry.methods).flatten =
        [⟨⟨"f", "()V"⟩, "method_2"⟩, ⟨⟨"f", "()V"⟩, "method_2"⟩] := by
    rw [← hgen]
    decide +kernel
  have hset := hfirst set (by rw [hrun]; rfl)
  have hsets := hsecond again (by rw [hagain]; rfl)
  refine ⟨gen, _, set, again, hcreate, hrun, hagain, hset, hsets, ?_⟩
  rintro rfl
  rw [hset] at hsets
  revert hsets
  decide

end Generator

end StableNaming
