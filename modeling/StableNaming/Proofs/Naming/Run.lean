import StableNaming.Proofs.Naming.Steps

/-!
# What a run decides

A run visits every class once, containers first. A successful run has decided
the name of every class and settled its fields and methods, and the mapping set
that it gives is what the decided names say.
-/

namespace StableNaming

open NamingM

namespace NamingTask

variable {ρ : Type} {task : NamingTask} {s t : NamingState ρ}

/-! ## Members with names need them -/

/-- Whether all members with names need them. -/
structure Grounded (task : NamingTask) (c : NamingContext) : Prop where
  /-- Fields with names need them. -/
  field : ∀ {ref : MemberRef} {name : String}, c.fieldNames.find? ref = some name →
    ∃ id, ∃ f ∈ (task.graph.classAt id).fields.values, ref = ⟨task.graph.nameAt id, f.key⟩ ∧
      task.chain.needsFieldName (task.graph.classAt id) f = .ok true
  /-- Methods with names start families that need names. -/
  method : ∀ {method : MethodId} {name : String}, c.methodNames.find? method = some name →
    ∃ id key symbol, task.Starts id key method symbol ∧
      task.chain.needsMethodName (task.graph.classAt id) symbol = .ok true

theorem Grounded.decides {c c' : NamingContext} {d : Decision} (h : task.Grounded c)
    (hd : task.Decides c d c') : task.Grounded c' := by
  cases hd with
  | type _ _ _ _ chooses =>
    rw [counters_of_chooses chooses]
    exact ⟨h.field, h.method⟩
  | field _ mem decision _ chooses =>
    rw [counters_of_chooses chooses]
    refine ⟨fun {ref name} hname => ?_, h.method⟩
    dsimp only [NamingContext.setField] at hname
    rw [Dictionary.find?_insert] at hname
    split at hname
    · rename_i heq
      exact ⟨_, _, mem, heq.symm, decision⟩
    · exact h.field hname
  | method starts decision _ chooses =>
    rw [counters_of_chooses chooses]
    refine ⟨h.field, fun {method name} hname => ?_⟩
    dsimp only [NamingContext.setMethod] at hname
    rw [Dictionary.find?_insert] at hname
    split at hname
    · rename_i heq
      exact ⟨_, _, _, heq ▸ starts, decision⟩
    · exact h.method hname

/-- A log that starts without names of members gives names only to those that need them. -/
theorem Leads.grounded {c c' : NamingContext} (h : task.Leads c c')
    (hfield : c.fieldNames = .empty) (hmethod : c.methodNames = .empty) : task.Grounded c' := by
  obtain ⟨ds, hds⟩ := h
  induction hds with
  | nil =>
    refine ⟨fun hname => ?_, fun hname => ?_⟩
    · rw [hfield] at hname
      cases hname
    · rw [hmethod] at hname
      cases hname
  | snoc _ hd ih => exact ih.decides hd

/-- A field with a name needs it. -/
theorem Grounded.needsFieldName_eq {c : NamingContext} (h : task.Grounded c)
    (hgraph : task.graph.Finished) {id : ClassId} (hid : id < task.graph.size) {f : Member}
    (hf : f ∈ (task.graph.classAt id).fields.values) {name : String}
    (hname : c.fieldNames.find? ⟨task.graph.nameAt id, f.key⟩ = some name) :
    task.chain.needsFieldName (task.graph.classAt id) f = .ok true := by
  obtain ⟨id', f', hf', href, hneed⟩ := h.field hname
  obtain ⟨hsameName, hsameKey⟩ := MemberRef.mk.inj href
  obtain rfl := hgraph.names hid (ClassGraph.lt_size_of_mem_fields hf') hsameName
  have hfind := hgraph.fields.mem_values_iff.1 hf
  rw [hsameKey, hgraph.fields.mem_values_iff.1 hf', Option.some_inj] at hfind
  exact hfind ▸ hneed

/-! ## Settled classes -/

/-- Whether the name of a class is decided, and everything about the members of a class that
has a class file is settled. -/
structure ClassSettled (task : NamingTask) (c : NamingContext) (id : ClassId) : Prop where
  /-- The class has a name. -/
  name : ∃ name, c.classNames.find? (task.graph.nameAt id) = some name
  /-- Its fields are settled. -/
  fields : (task.graph.classAt id).loaded = true →
    ∀ f ∈ (task.graph.classAt id).fields.values, task.FieldSettled c id f
  /-- Its methods are settled. -/
  methods : (task.graph.classAt id).loaded = true →
    ∀ slot ∈ (task.graph.classAt id).methods.entries, task.MethodSettled c id slot

/-- It is known whether a method at which a family starts needs a name, and if so the name is
decided. -/
theorem ClassSettled.of_starts {c : NamingContext} {id : ClassId} {key : MemberKey}
    {method : MethodId} {symbol : MethodSymbol} (h : task.ClassSettled c id)
    (hstarts : task.Starts id key method symbol) :
    ∃ need, task.chain.needsMethodName (task.graph.classAt id) symbol = .ok need ∧
      (need = true → ∃ name, c.methodNames.find? method = some name) :=
  h.methods hstarts.loaded (key, method) (KeyMap.find?_eq_some_iff.1 hstarts.slot)
    hstarts.not_initializer hstarts.source symbol hstarts.declared

/-- The entry of a class by the decided names. -/
def classEntryIn (task : NamingTask) (c : NamingContext) (id : ClassId) : Option ClassEntry :=
  if (task.graph.classAt id).loaded then
    some
      { name := task.graph.nameAt id
        target := (c.classNames.find? (task.graph.nameAt id)).getD ""
        fields := (task.graph.classAt id).fields.values.filterMap (task.fieldEntryIn c id)
        methods := (task.graph.classAt id).methods.entries.filterMap (task.methodEntryIn c id) }
  else none

theorem ClassSettled.mono {c c' : NamingContext} {id : ClassId} (hc : task.Leads c c')
    (h : task.ClassSettled c id) :
    task.ClassSettled c' id ∧ task.classEntryIn c' id = task.classEntryIn c id := by
  obtain ⟨name, hname⟩ := h.name
  have hname' := hc.persists.type hname
  refine ⟨⟨⟨name, hname'⟩, fun hloaded f hf => ((h.fields hloaded f hf).mono hc).1,
    fun hloaded slot hslot => ((h.methods hloaded slot hslot).mono hc).1⟩, ?_⟩
  rw [classEntryIn, classEntryIn]
  by_cases hloaded : (task.graph.classAt id).loaded = true
  · have hfields := List.filterMap_congr fun f hf => ((h.fields hloaded f hf).mono hc).2
    have hmethods := List.filterMap_congr fun slot hslot =>
      ((h.methods hloaded slot hslot).mono hc).2
    rw [if_pos hloaded, if_pos hloaded, hname, hname', hfields, hmethods]
  · rw [if_neg hloaded, if_neg hloaded]

/-- Going through fields of a class settles them. -/
theorem of_succeeds_fieldEntries {id : ClassId} (hloaded : (task.graph.classAt id).loaded = true)
    {fs : List Member} (hfs : ∀ f ∈ fs, f ∈ (task.graph.classAt id).fields.values)
    {entries : List MemberEntry}
    (h : Succeeds (fs.filterMapM (task.fieldEntry (task.graph.classAt id))) s entries t) :
    task.Leads s.context t.context ∧ (∀ f ∈ fs, task.FieldSettled t.context id f) ∧
      entries = fs.filterMap (task.fieldEntryIn t.context id) :=
  of_succeeds_filterMapM_of_forall task.Leads (fun c f => task.FieldSettled c id f)
    (fun c f => task.fieldEntryIn c id f) Leads.refl (fun _ _ _ => Leads.trans)
    (fun _ _ _ hc hf => hf.mono hc)
    (fun f hf _ _ _ h => of_succeeds_fieldEntry hloaded (hfs f hf) h) h

/-- Going through methods of a class settles them. -/
theorem of_succeeds_methodEntries [ConflictResolver ρ] (hgraph : task.graph.Finished)
    {id : ClassId} (hloaded : (task.graph.classAt id).loaded = true)
    {slots : List (MemberKey × MethodId)}
    (hslots : ∀ slot ∈ slots, slot ∈ (task.graph.classAt id).methods.entries)
    {entries : List MemberEntry}
    (h : Succeeds (slots.filterMapM (task.methodEntry id)) s entries t) :
    task.Leads s.context t.context ∧ (∀ slot ∈ slots, task.MethodSettled t.context id slot) ∧
      entries = slots.filterMap (task.methodEntryIn t.context id) :=
  of_succeeds_filterMapM_of_forall task.Leads (fun c slot => task.MethodSettled c id slot)
    (fun c slot => task.methodEntryIn c id slot) Leads.refl (fun _ _ _ => Leads.trans)
    (fun _ _ _ hc hslot => hslot.mono hc)
    (fun slot hslot _ _ _ h => of_succeeds_methodEntry hgraph hloaded (hslots slot hslot) h) h

/-- Visiting a class settles it. -/
theorem of_succeeds_visit [ConflictResolver ρ] (hgraph : task.graph.Finished) {id : ClassId}
    {entry : Option ClassEntry} (hid : id < task.graph.size)
    (houter : task.OuterNamed s.context id) (h : Succeeds (task.visit id) s entry t) :
    task.Leads s.context t.context ∧ task.ClassSettled t.context id ∧
      entry = task.classEntryIn t.context id := by
  rw [visit, succeeds_bind_iff] at h
  obtain ⟨target, u, htarget, h⟩ := h
  obtain ⟨hsu, hname⟩ := of_succeeds_classNameFor hid houter htarget
  by_cases hloaded : (task.graph.classAt id).loaded = true
  · rw [if_pos hloaded] at h
    simp only [succeeds_bind_iff, succeeds_pure_iff] at h
    obtain ⟨fields, v, hfieldRun, methods, w, hmethodRun, rfl, rfl⟩ := h
    obtain ⟨huv, hfields, rfl⟩ := of_succeeds_fieldEntries hloaded (fun _ hf => hf) hfieldRun
    obtain ⟨hvw, hmethods, rfl⟩ :=
      of_succeeds_methodEntries hgraph hloaded (fun _ hslot => hslot) hmethodRun
    have hname := (huv.trans hvw).persists.type hname
    refine ⟨hsu.trans (huv.trans hvw),
      ⟨⟨target, hname⟩, fun _ f hf => ((hfields f hf).mono hvw).1, fun _ => hmethods⟩, ?_⟩
    have hentries := List.filterMap_congr fun f hf => ((hfields f hf).mono hvw).2
    rw [classEntryIn, if_pos hloaded, hname, hentries]
    rfl
  · rw [if_neg hloaded] at h
    obtain ⟨rfl, rfl⟩ := succeeds_pure_iff.1 h
    refine ⟨hsu, ⟨⟨target, hname⟩, fun h => absurd h hloaded, fun h => absurd h hloaded⟩, ?_⟩
    rw [classEntryIn, if_neg hloaded]

/-- When the walk comes to a class, the container of the class has a name. -/
theorem outerNamed_of_walk_eq (hgraph : task.graph.Finished) {c : NamingContext}
    {done rest : List ClassId} {id : ClassId} (hwalk : task.graph.walk = done ++ id :: rest)
    (hdone : ∀ y ∈ done, ∃ name, c.classNames.find? (task.graph.nameAt y) = some name) :
    task.OuterNamed c id := by
  intro outer houter
  obtain ⟨name, hname⟩ :=
    hdone outer (hgraph.forest.outer_mem_of_walk_eq hgraph.names hwalk houter)
  rw [hname]
  rfl

theorem lt_size_of_walk_eq (hgraph : task.graph.Finished) {done rest : List ClassId}
    {id : ClassId} (hwalk : task.graph.walk = done ++ id :: rest) : id < task.graph.size := by
  rw [← hgraph.forest.mem_walk_iff hgraph.names, hwalk]
  exact List.mem_append_right _ List.mem_cons_self

/-- The mapping set by the decided names. -/
def setIn (task : NamingTask) (c : NamingContext) : MappingSet where
  source := task.config.sourceNamespace
  target := task.config.targetNamespace
  counters := c.counters
  classes := task.graph.walk.filterMap (task.classEntryIn c)

/-- A successful run makes decisions that settle all classes, and its result is what the last
context says about them. -/
theorem of_succeeds_run [ConflictResolver ρ] (hgraph : task.graph.Finished) {set : MappingSet}
    (h : Succeeds task.run s set t) :
    task.Leads s.context t.context ∧
      (∀ id < task.graph.size, task.ClassSettled t.context id) ∧ set = task.setIn t.context := by
  rw [run] at h
  simp only [succeeds_bind_iff, succeeds_context_iff, succeeds_pure_iff] at h
  obtain ⟨classes, u, hclasses, c, v, ⟨rfl, rfl⟩, rfl, rfl⟩ := h
  obtain ⟨hleads, hsettled, rfl⟩ :=
    of_succeeds_filterMapM task.Leads task.ClassSettled task.classEntryIn Leads.refl
      (fun _ _ _ => Leads.trans) (fun _ _ _ hc hid => hid.mono hc) [] task.graph.walk
      (fun _ _ _ _ _ _ hwalk hdone hvisit =>
        of_succeeds_visit hgraph (lt_size_of_walk_eq hgraph hwalk)
          (outerNamed_of_walk_eq hgraph hwalk fun y hy => (hdone y hy).name) hvisit)
      (fun y hy => absurd hy List.not_mem_nil) hclasses
  refine ⟨hleads, fun id hid => hsettled id ?_, rfl⟩
  exact (hgraph.forest.mem_walk_iff hgraph.names).2 hid

end NamingTask

end StableNaming
