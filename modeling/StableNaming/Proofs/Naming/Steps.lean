import StableNaming.Proofs.Naming.Decision

/-!
# What the steps of a run decide

A step that names a symbol either finds that the symbol has a name already, or
makes one decision. Naming does not change what has been decided before, so what
a run says about a symbol when it visits it is what its last context says.
-/

namespace StableNaming

open NamingM

namespace NamingTask

variable {ρ : Type} {task : NamingTask} {s t : NamingState ρ}

/-! ## Classes -/

/-- Whether a class needs a name is asked unless the class is an anonymous one inside
another. -/
theorem ask_classDecision_eq {id : ClassId} {parent : Option String}
    (hparent : parent.isSome = (task.graph.classAt id).outer.isSome) :
    (if (!(parent.isSome && (task.graph.classAt id).isAnonymous)) = true
        then ask (task.chain.needsClassName (task.graph.classAt id)) else pure false) =
      (ask (task.classDecision id) : NamingM ρ Bool) := by
  rw [classDecision, hparent]
  cases (task.graph.classAt id).outer.isSome && (task.graph.classAt id).isAnonymous <;> rfl

/-- What is done once it is known whether a class needs a name. -/
def nameClass (task : NamingTask) (c : ClassSymbol) (parent : Option String) (needed : Bool) :
    NamingM ρ String := do
  if needed then
    match task.heritage.className? c.name with
    | some found =>
      observe .type found
      pure (task.carriedClassName c parent found)
    | none =>
      let minted ← mint .type
      pure (task.classNameStart c parent ++ minted)
  else
    pure (keptClassName c parent)

theorem newClassName_eq (c : ClassSymbol) (parent : Option String) :
    (task.newClassName c parent : NamingM ρ String) =
      (if (!(parent.isSome && c.isAnonymous)) = true then ask (task.chain.needsClassName c)
        else pure false) >>= task.nameClass c parent := by
  rw [newClassName]
  cases parent.isSome && c.isAnonymous <;> rfl

/-- The name of a class for which it is known whether it needs one. -/
theorem succeeds_nameClass_iff {id : ClassId} {parent : Option String} {need : Bool}
    {name : String} :
    Succeeds (task.nameClass (task.graph.classAt id) parent need) s name t ↔
      ∃ provenance c', Chooses .type need
          (task.heritage.className? (task.graph.nameAt id)).toList s.context provenance c' ∧
        name = task.classNameBy id parent provenance ∧ t = { s with context := c' } := by
  change Succeeds (task.nameClass (task.graph.classAt id) parent need) s name t ↔
    ∃ provenance c', Chooses .type need
      (task.heritage.className? (task.graph.classAt id).name).toList s.context provenance c' ∧ _ ∧ _
  rw [nameClass]
  cases need with
  | false =>
    rw [if_neg Bool.false_ne_true, succeeds_pure_iff]
    constructor
    · rintro ⟨rfl, rfl⟩
      exact ⟨.kept, s.context, .kept, rfl, rfl⟩
    · rintro ⟨provenance, c', hchooses, rfl, rfl⟩
      cases hchooses
      exact ⟨rfl, rfl⟩
  | true =>
    rw [if_pos rfl]
    cases task.heritage.className? (task.graph.classAt id).name with
    | some found =>
      simp only [succeeds_bind_iff, succeeds_observe_iff, succeeds_pure_iff, Option.toList_some]
      constructor
      · rintro ⟨_, _, ⟨c, hpassed, rfl⟩, rfl, rfl⟩
        rw [← NamingContext.passAll?_singleton] at hpassed
        exact ⟨.carried found [found], c, .carried List.mem_cons_self hpassed, rfl, rfl⟩
      · rintro ⟨provenance, c', hchooses, rfl, rfl⟩
        cases hchooses with
        | carried hmem hpassed =>
          obtain rfl := List.mem_singleton.1 hmem
          rw [NamingContext.passAll?_singleton] at hpassed
          exact ⟨(), _, ⟨c', hpassed, rfl⟩, rfl, rfl⟩
    | none =>
      simp only [succeeds_bind_iff, succeeds_mint_iff, succeeds_pure_iff, Option.toList_none]
      constructor
      · rintro ⟨_, _, ⟨rfl, c, hskip, rfl⟩, rfl, rfl⟩
        exact ⟨_, c, .minted hskip, rfl, rfl⟩
      · rintro ⟨provenance, c', hchooses, rfl, rfl⟩
        obtain ⟨rfl, hskip⟩ := of_chooses_nil hchooses
        exact ⟨_, _, ⟨rfl, c', hskip, rfl⟩, rfl, rfl⟩

/-- A new name of a class is chosen as the policies decide. -/
theorem succeeds_newClassName_iff {id : ClassId} {parent : Option String}
    (hparent : parent.isSome = (task.graph.classAt id).outer.isSome) {name : String} :
    Succeeds (task.newClassName (task.graph.classAt id) parent) s name t ↔
      ∃ need provenance c', task.classDecision id = .ok need ∧
        Chooses .type need (task.heritage.className? (task.graph.nameAt id)).toList s.context
          provenance c' ∧
        name = task.classNameBy id parent provenance ∧ t = { s with context := c' } := by
  simp only [newClassName_eq, ask_classDecision_eq hparent, succeeds_bind_iff, succeeds_ask_iff]
  constructor
  · rintro ⟨need, u, ⟨hneed, rfl⟩, hname⟩
    obtain ⟨provenance, c', hchosen⟩ := succeeds_nameClass_iff.1 hname
    exact ⟨need, provenance, c', hneed, hchosen⟩
  · rintro ⟨need, provenance, c', hneed, hchosen⟩
    exact ⟨need, s, ⟨hneed, rfl⟩, succeeds_nameClass_iff.2 ⟨provenance, c', hchosen⟩⟩

theorem isSome_parentName {c : NamingContext} {id : ClassId} (h : task.OuterNamed c id) :
    (task.parentName c id).isSome = (task.graph.classAt id).outer.isSome := by
  rw [parentName]
  cases houter : (task.graph.classAt id).outer with
  | none => rfl
  | some outer =>
    rw [Option.bind_some]
    exact h outer houter

/-- A class that has a name keeps it. -/
theorem succeeds_classNameFor_iff_of_known {id : ClassId} {known name : String}
    (h : s.context.classNames.find? (task.graph.nameAt id) = some known) :
    Succeeds (task.classNameFor (task.graph.classAt id)) s name t ↔ name = known ∧ t = s := by
  have h' : s.context.classNames.find? (task.graph.classAt id).name = some known := h
  rw [classNameFor]
  simp only [succeeds_bind_iff, succeeds_context_iff]
  constructor
  · rintro ⟨_, _, ⟨rfl, rfl⟩, hname⟩
    rw [h'] at hname
    obtain ⟨rfl, rfl⟩ := succeeds_pure_iff.1 hname
    exact ⟨rfl, rfl⟩
  · rintro ⟨rfl, rfl⟩
    refine ⟨_, t, ⟨rfl, rfl⟩, ?_⟩
    rw [h']
    exact succeeds_pure_iff.2 ⟨rfl, rfl⟩

/-- A class that has no name gets one in a decision. -/
theorem succeeds_classNameFor_iff_of_new {id : ClassId} {name : String}
    (hnew : s.context.classNames.find? (task.graph.nameAt id) = none)
    (houter : task.OuterNamed s.context id) :
    Succeeds (task.classNameFor (task.graph.classAt id)) s name t ↔
      ∃ need provenance c', task.classDecision id = .ok need ∧
        Chooses .type need (task.heritage.className? (task.graph.nameAt id)).toList s.context
          provenance c' ∧
        name = task.classNameBy id (task.parentName s.context id) provenance ∧
        t = { s with context := c'.setClass (task.graph.nameAt id) name } := by
  have hnew' : s.context.classNames.find? (task.graph.classAt id).name = none := hnew
  have hname := @succeeds_newClassName_iff ρ task s
  rw [classNameFor]
  simp only [succeeds_bind_iff, succeeds_context_iff]
  constructor
  · rintro ⟨_, _, ⟨rfl, rfl⟩, hrest⟩
    rw [hnew'] at hrest
    simp only [succeeds_bind_iff, succeeds_modifyContext_iff, succeeds_pure_iff] at hrest
    obtain ⟨_, u, hchosen, _, _, rfl, rfl, rfl⟩ := hrest
    obtain ⟨need, provenance, c', hneed, hchooses, rfl, rfl⟩ :=
      (hname (isSome_parentName houter)).1 hchosen
    exact ⟨need, provenance, c', hneed, hchooses, rfl, rfl⟩
  · rintro ⟨need, provenance, c', hneed, hchooses, rfl, rfl⟩
    refine ⟨_, s, ⟨rfl, rfl⟩, ?_⟩
    rw [hnew']
    simp only [succeeds_bind_iff, succeeds_modifyContext_iff, succeeds_pure_iff]
    exact ⟨_, { s with context := c' },
      (hname (isSome_parentName houter)).2 ⟨need, provenance, c', hneed, hchooses, rfl, rfl⟩,
      (), _, rfl, rfl, rfl⟩

/-- A class has a name when its turn is over. -/
theorem find?_of_succeeds_classNameFor {c : ClassSymbol} {name : String}
    (h : Succeeds (task.classNameFor c) s name t) :
    t.context.classNames.find? c.name = some name := by
  rw [classNameFor, succeeds_bind_iff] at h
  obtain ⟨known, u, hcontext, h⟩ := h
  obtain ⟨rfl, rfl⟩ := succeeds_context_iff.1 hcontext
  cases hknown : u.context.classNames.find? c.name with
  | some known =>
    rw [hknown] at h
    obtain ⟨rfl, rfl⟩ := succeeds_pure_iff.1 h
    exact hknown
  | none =>
    rw [hknown] at h
    simp only [succeeds_bind_iff, succeeds_modifyContext_iff, succeeds_pure_iff] at h
    obtain ⟨name', v, -, _, _, rfl, rfl, rfl⟩ := h
    dsimp only [NamingContext.setClass]
    rw [Dictionary.find?_insert, if_pos rfl]

/-- The turn of a class decides its name, unless it has one. -/
theorem of_succeeds_classNameFor {id : ClassId} {name : String} (hid : id < task.graph.size)
    (houter : task.OuterNamed s.context id)
    (h : Succeeds (task.classNameFor (task.graph.classAt id)) s name t) :
    task.Leads s.context t.context ∧
      t.context.classNames.find? (task.graph.nameAt id) = some name := by
  refine ⟨?_, find?_of_succeeds_classNameFor h⟩
  cases hknown : s.context.classNames.find? (task.graph.nameAt id) with
  | some known =>
    obtain ⟨rfl, rfl⟩ := (succeeds_classNameFor_iff_of_known hknown).1 h
    exact .refl _
  | none =>
    obtain ⟨need, provenance, c', hneed, hchooses, rfl, rfl⟩ :=
      (succeeds_classNameFor_iff_of_new hknown houter).1 h
    exact (Decides.type hid hknown houter hneed hchooses).leads

/-! ## Fields -/

/-- A new name of a field is carried over if there is one, and made up if not. -/
theorem succeeds_newFieldName_iff {ref : MemberRef} {name : String} :
    Succeeds (task.newFieldName ref) s name t ↔
      ∃ provenance c', Chooses .field true (task.heritage.fieldName? ref).toList s.context
          provenance c' ∧
        name = provenance.name .field ∧ t = { s with context := c' } := by
  rw [newFieldName]
  cases hfound : task.heritage.fieldName? ref with
  | some found =>
    simp only [succeeds_bind_iff, succeeds_observe_iff, succeeds_pure_iff, Option.toList_some]
    constructor
    · rintro ⟨_, _, ⟨c, hpassed, rfl⟩, rfl, rfl⟩
      rw [← NamingContext.passAll?_singleton] at hpassed
      exact ⟨.carried found [found], c, .carried List.mem_cons_self hpassed, rfl, rfl⟩
    · rintro ⟨provenance, c', hchooses, rfl, rfl⟩
      cases hchooses with
      | carried hmem hpassed =>
        obtain rfl := List.mem_singleton.1 hmem
        rw [NamingContext.passAll?_singleton] at hpassed
        exact ⟨(), _, ⟨c', hpassed, rfl⟩, rfl, rfl⟩
  | none =>
    simp only [succeeds_mint_iff, Option.toList_none]
    constructor
    · rintro ⟨rfl, c, hskip, rfl⟩
      exact ⟨_, c, .minted hskip, rfl, rfl⟩
    · rintro ⟨provenance, c', hchooses, rfl, rfl⟩
      obtain ⟨rfl, hskip⟩ := of_chooses_nil hchooses
      exact ⟨rfl, c', hskip, rfl⟩

theorem succeeds_fieldNameFor_iff_of_known {ref : MemberRef} {known name : String}
    (h : s.context.fieldNames.find? ref = some known) :
    Succeeds (task.fieldNameFor ref) s name t ↔ name = known ∧ t = s := by
  rw [fieldNameFor]
  simp only [succeeds_bind_iff, succeeds_context_iff]
  constructor
  · rintro ⟨_, _, ⟨rfl, rfl⟩, hname⟩
    rw [h] at hname
    obtain ⟨rfl, rfl⟩ := succeeds_pure_iff.1 hname
    exact ⟨rfl, rfl⟩
  · rintro ⟨rfl, rfl⟩
    refine ⟨_, t, ⟨rfl, rfl⟩, ?_⟩
    rw [h]
    exact succeeds_pure_iff.2 ⟨rfl, rfl⟩

theorem succeeds_fieldNameFor_iff_of_new {ref : MemberRef} {name : String}
    (hnew : s.context.fieldNames.find? ref = none) :
    Succeeds (task.fieldNameFor ref) s name t ↔
      ∃ provenance c', Chooses .field true (task.heritage.fieldName? ref).toList s.context
          provenance c' ∧
        name = provenance.name .field ∧ t = { s with context := c'.setField ref name } := by
  rw [fieldNameFor]
  simp only [succeeds_bind_iff, succeeds_context_iff]
  constructor
  · rintro ⟨_, _, ⟨rfl, rfl⟩, hrest⟩
    rw [hnew] at hrest
    simp only [succeeds_bind_iff, succeeds_modifyContext_iff, succeeds_pure_iff] at hrest
    obtain ⟨_, u, hchosen, _, _, rfl, rfl, rfl⟩ := hrest
    obtain ⟨provenance, c', hchooses, rfl, rfl⟩ := succeeds_newFieldName_iff.1 hchosen
    exact ⟨provenance, c', hchooses, rfl, rfl⟩
  · rintro ⟨provenance, c', hchooses, rfl, rfl⟩
    refine ⟨_, s, ⟨rfl, rfl⟩, ?_⟩
    rw [hnew]
    simp only [succeeds_bind_iff, succeeds_modifyContext_iff, succeeds_pure_iff]
    exact ⟨_, { s with context := c' },
      succeeds_newFieldName_iff.2 ⟨provenance, c', hchooses, rfl, rfl⟩, (), _, rfl, rfl, rfl⟩

/-- Whether it is known if a field needs a name, and if so the name is decided. -/
def FieldSettled (task : NamingTask) (c : NamingContext) (id : ClassId) (f : Member) : Prop :=
  ∃ need, task.chain.needsFieldName (task.graph.classAt id) f = .ok need ∧
    (need = true → ∃ name, c.fieldNames.find? ⟨task.graph.nameAt id, f.key⟩ = some name)

/-- The entry of a field by the decided names. -/
def fieldEntryIn (task : NamingTask) (c : NamingContext) (id : ClassId) (f : Member) :
    Option MemberEntry :=
  match task.chain.needsFieldName (task.graph.classAt id) f with
  | .ok true => (c.fieldNames.find? ⟨task.graph.nameAt id, f.key⟩).map fun name => ⟨f.key, name⟩
  | _ => task.keptEntry f.key

/-- Visiting a field settles it. -/
theorem of_succeeds_fieldEntry {id : ClassId} {f : Member} {entry : Option MemberEntry}
    (hloaded : (task.graph.classAt id).loaded = true)
    (hmem : f ∈ (task.graph.classAt id).fields.values)
    (h : Succeeds (task.fieldEntry (task.graph.classAt id) f) s entry t) :
    task.Leads s.context t.context ∧ task.FieldSettled t.context id f ∧
      entry = task.fieldEntryIn t.context id f := by
  rw [fieldEntry, succeeds_bind_iff] at h
  obtain ⟨need, u, hasked, hentry⟩ := h
  obtain ⟨hneed, hu⟩ := succeeds_ask_iff.1 hasked
  rw [hu] at hentry
  rw [fieldEntryIn, hneed]
  cases need with
  | false =>
    obtain ⟨rfl, rfl⟩ := succeeds_pure_iff.1 hentry
    exact ⟨.refl _, ⟨false, hneed, fun h => absurd h Bool.false_ne_true⟩, rfl⟩
  | true =>
    rw [if_pos rfl] at hentry
    simp only [succeeds_bind_iff, succeeds_pure_iff] at hentry
    obtain ⟨name, last, hname, rfl, hlast⟩ := hentry
    rw [hlast] at hname
    have hdecided : task.Leads s.context t.context ∧
        t.context.fieldNames.find? ⟨task.graph.nameAt id, f.key⟩ = some name := by
      cases hknown : s.context.fieldNames.find? ⟨task.graph.nameAt id, f.key⟩ with
      | some known =>
        obtain ⟨rfl, rfl⟩ := (succeeds_fieldNameFor_iff_of_known hknown).1 hname
        exact ⟨.refl _, hknown⟩
      | none =>
        obtain ⟨provenance, c', hchooses, rfl, rfl⟩ :=
          (succeeds_fieldNameFor_iff_of_new hknown).1 hname
        refine ⟨(Decides.field hloaded hmem hneed hknown hchooses).leads, ?_⟩
        dsimp only [NamingContext.setField]
        rw [Dictionary.find?_insert, if_pos rfl]
    refine ⟨hdecided.1, ⟨true, hneed, fun _ => ⟨name, hdecided.2⟩⟩, ?_⟩
    dsimp only
    rw [hdecided.2, Option.map_some]

/-- What is settled about a field stays so if its name stays. -/
theorem FieldSettled.of_persists {c c' : NamingContext} {id : ClassId} {f : Member}
    (hpersists : ∀ {ref : MemberRef} {name : String}, c.fieldNames.find? ref = some name →
      c'.fieldNames.find? ref = some name) (h : task.FieldSettled c id f) :
    task.FieldSettled c' id f ∧ task.fieldEntryIn c' id f = task.fieldEntryIn c id f := by
  obtain ⟨need, hneed, hname⟩ := h
  rw [fieldEntryIn, fieldEntryIn, hneed]
  cases need with
  | false => exact ⟨⟨false, hneed, fun h => absurd h Bool.false_ne_true⟩, rfl⟩
  | true =>
    obtain ⟨name, hname⟩ := hname rfl
    have hname' := hpersists hname
    refine ⟨⟨true, hneed, fun _ => ⟨name, hname'⟩⟩, ?_⟩
    dsimp only
    rw [hname, hname']

theorem FieldSettled.mono {c c' : NamingContext} {id : ClassId} {f : Member}
    (hc : task.Leads c c') (h : task.FieldSettled c id f) :
    task.FieldSettled c' id f ∧ task.fieldEntryIn c' id f = task.fieldEntryIn c id f :=
  h.of_persists hc.persists.field

/-! ## Methods -/

/-- A resolver that settles a conflict picks one of the candidates. -/
theorem of_succeeds_chooseName [ConflictResolver ρ] {member : MemberRef} {candidates : Candidates}
    {name : String} (h : Succeeds (chooseName member candidates) s name t) :
    (candidates.keys = [] ∧
      name = SymbolKind.method.generatedName (s.context.counters.get .method) ∧
        s.context.skip? .method = some t.context) ∨
      (name ∈ candidates.keys ∧ t.context = s.context) := by
  rw [chooseName] at h
  split at h
  · rename_i hnil
    obtain ⟨rfl, c, hskip, rfl⟩ := succeeds_mint_iff.1 h
    exact .inl ⟨hnil, rfl, hskip⟩
  · rename_i only honly
    obtain ⟨rfl, rfl⟩ := succeeds_pure_iff.1 h
    exact .inr ⟨honly ▸ List.mem_cons_self, rfl⟩
  · rw [succeeds_bind_iff] at h
    obtain ⟨index, u, hindex, h⟩ := h
    obtain ⟨-, hu⟩ := succeeds_resolve_iff.1 hindex
    have hcontext : u.context = s.context := by rw [hu]
    split at h
    · rename_i found hfound
      obtain ⟨rfl, rfl⟩ := succeeds_pure_iff.1 h
      exact .inr ⟨List.mem_of_getElem? hfound, hcontext⟩
    · exact absurd h not_succeeds_throw

@[simp] theorem succeeds_observeAll_iff {kind : SymbolKind} {names : List String} {a : PUnit} :
    Succeeds (names.forM (observe kind) : NamingM ρ PUnit) s a t ↔
      ∃ c, s.context.passAll? kind names = some c ∧ t = { s with context := c } := by
  induction names generalizing s with
  | nil =>
    change Succeeds (pure PUnit.unit) s a t ↔ ∃ c, some s.context = some c ∧ _
    rw [succeeds_pure_iff]
    constructor
    · rintro ⟨-, rfl⟩
      exact ⟨_, rfl, rfl⟩
    · rintro ⟨c, hc, rfl⟩
      obtain rfl := Option.some.inj hc
      exact ⟨rfl, rfl⟩
  | cons name names ih =>
    change Succeeds (observe kind name >>= fun _ => names.forM (observe kind)) s a t ↔ _
    simp only [succeeds_bind_iff, succeeds_observe_iff, ih, NamingContext.passAll?_cons,
      Option.bind_eq_some_iff]
    constructor
    · rintro ⟨_, _, ⟨c, hhead, rfl⟩, c', htail, rfl⟩
      exact ⟨c', ⟨c, hhead, htail⟩, rfl⟩
    · rintro ⟨c', ⟨c, hhead, htail⟩, rfl⟩
      exact ⟨(), _, ⟨c, hhead, rfl⟩, c', htail, rfl⟩

/-- A new name of a family is one of the candidates if there are any, and made up if not. -/
theorem of_succeeds_newMethodName [ConflictResolver ρ] {member : MemberRef}
    {family : List ClassId} {name : String}
    (h : Succeeds (task.newMethodName member family) s name t) :
    ∃ provenance, Chooses .method true (task.candidates family member.key).keys s.context
        provenance t.context ∧ name = provenance.name .method := by
  rw [newMethodName] at h
  simp only [succeeds_bind_iff, succeeds_observeAll_iff] at h
  obtain ⟨_, _, ⟨c, hpassed, rfl⟩, h⟩ := h
  rcases of_succeeds_chooseName h with ⟨hnil, rfl, hskip⟩ | ⟨hmem, hcontext⟩
  · rw [hnil] at hpassed ⊢
    obtain rfl := Option.some.inj hpassed
    exact ⟨_, .minted hskip, rfl⟩
  · rw [hcontext]
    exact ⟨.carried name _, .carried hmem hpassed, rfl⟩

/-- All classes of the family of a method hold the method. -/
theorem eq_of_mem_shared (hgraph : task.graph.Finished) {id : ClassId} {key : MemberKey}
    {method m : MethodId} (hslot : task.graph.slot? id key = some method)
    (hm : m ∈ (task.hierarchy.family id key).filterMap (task.graph.slot? · key)) : m = method := by
  obtain ⟨x, hx, hm⟩ := List.mem_filterMap.1 hm
  rw [hgraph.mem_family_iff_holds task.hierarchy hslot, hm] at hx
  exact Option.some.inj hx

/-- The name of a method at which a family starts is decided when the walk has come to it. -/
theorem of_succeeds_methodNameFor [ConflictResolver ρ] (hgraph : task.graph.Finished)
    {id : ClassId} {key : MemberKey} {method : MethodId} {symbol : MethodSymbol}
    (hstarts : task.Starts id key method symbol)
    (hneed : task.chain.needsMethodName (task.graph.classAt id) symbol = .ok true) {name : String}
    (h : Succeeds (task.methodNameFor id key method) s name t) :
    task.Leads s.context t.context ∧ t.context.methodNames.find? method = some name := by
  rw [methodNameFor] at h
  simp only [succeeds_bind_iff, succeeds_context_iff] at h
  obtain ⟨c, u, ⟨hc, hu⟩, h⟩ := h
  rw [hc, hu] at h
  cases hknown : s.context.methodNames.find? method with
  | some known =>
    rw [hknown] at h
    obtain ⟨rfl, rfl⟩ := succeeds_pure_iff.1 h
    exact ⟨.refl _, hknown⟩
  | none =>
    rw [hknown] at h
    simp only [succeeds_bind_iff, succeeds_modifyContext_iff, succeeds_pure_iff] at h
    obtain ⟨_, u, hchosen, _, _, rfl, rfl, rfl⟩ := h
    obtain ⟨provenance, hchooses, rfl⟩ := of_succeeds_newMethodName hchosen
    have hshared := NamingContext.setMethods_eq_setMethod (c := u.context) (provenance.name .method)
      fun m hm => eq_of_mem_shared hgraph hstarts.slot hm
    dsimp only
    rw [hshared]
    refine ⟨(Decides.method hstarts hneed hknown hchooses).leads, ?_⟩
    dsimp only [NamingContext.setMethod]
    rw [Dictionary.find?_insert, if_pos rfl]

/-- Whether it is known if a method that overrides nothing needs a name, and if so the name is
decided. -/
def MethodSettled (task : NamingTask) (c : NamingContext) (id : ClassId)
    (slot : MemberKey × MethodId) : Prop :=
  slot.1.isInitializer = false → task.hierarchy.isSource id slot.1 = true →
    ∀ symbol, task.graph.methodAt? slot.2 = some symbol →
      ∃ need, task.chain.needsMethodName (task.graph.classAt id) symbol = .ok need ∧
        (need = true → ∃ name, c.methodNames.find? slot.2 = some name)

/-- The entry of a method by the decided names. -/
def methodEntryIn (task : NamingTask) (c : NamingContext) (id : ClassId)
    (slot : MemberKey × MethodId) : Option MemberEntry :=
  if slot.1.isInitializer || !task.hierarchy.isSource id slot.1 then none
  else
    match task.graph.methodAt? slot.2 with
    | none => none
    | some symbol =>
      match task.chain.needsMethodName (task.graph.classAt id) symbol with
      | .ok true => (c.methodNames.find? slot.2).map fun name => ⟨slot.1, name⟩
      | _ => task.keptEntry slot.1

section Entry

variable [ConflictResolver ρ] {R : NamingContext → NamingContext → Prop} {id : ClassId}
  (hrefl : ∀ c, R c c)
  (hname : ∀ {key : MemberKey} {method : MethodId} {symbol : MethodSymbol} {name : String}
    {s t : NamingState ρ}, task.Starts id key method symbol →
      task.chain.needsMethodName (task.graph.classAt id) symbol = .ok true →
      Succeeds (task.methodNameFor id key method) s name t →
        R s.context t.context ∧ t.context.methodNames.find? method = some name)
include hrefl hname

/-- The entry of a method at which a family starts, if naming the family keeps to a relation. -/
theorem of_succeeds_sourceEntry_of {key : MemberKey} {method : MethodId} {symbol : MethodSymbol}
    {entry : Option MemberEntry} (hstarts : task.Starts id key method symbol)
    (h : Succeeds (task.sourceEntry id key method symbol) s entry t) :
    ∃ need, task.chain.needsMethodName (task.graph.classAt id) symbol = .ok need ∧
      R s.context t.context ∧
      (need = true → ∃ name, t.context.methodNames.find? method = some name) ∧
      entry = if need then (t.context.methodNames.find? method).map (⟨key, ·⟩)
        else task.keptEntry key := by
  rw [sourceEntry, succeeds_bind_iff] at h
  obtain ⟨need, u, hasked, hentry⟩ := h
  obtain ⟨hneed, hu⟩ := succeeds_ask_iff.1 hasked
  rw [hu] at hentry
  refine ⟨need, hneed, ?_⟩
  cases need with
  | false =>
    obtain ⟨rfl, rfl⟩ := succeeds_pure_iff.1 hentry
    exact ⟨hrefl _, fun h => absurd h Bool.false_ne_true, rfl⟩
  | true =>
    rw [if_pos rfl] at hentry
    simp only [succeeds_bind_iff, succeeds_pure_iff] at hentry
    obtain ⟨name, last, hnamed, rfl, hlast⟩ := hentry
    rw [hlast] at hnamed
    obtain ⟨hmove, hdecided⟩ := hname hstarts hneed hnamed
    refine ⟨hmove, fun _ => ⟨name, hdecided⟩, ?_⟩
    rw [if_pos rfl, hdecided, Option.map_some]

/-- Visiting a method settles it, if naming its family keeps to a relation. -/
theorem of_succeeds_methodEntry_of {slot : MemberKey × MethodId} {entry : Option MemberEntry}
    (hloaded : (task.graph.classAt id).loaded = true)
    (hmem : slot ∈ (task.graph.classAt id).methods.entries)
    (h : Succeeds (task.methodEntry id slot) s entry t) :
    R s.context t.context ∧ task.MethodSettled t.context id slot ∧
      entry = task.methodEntryIn t.context id slot := by
  have hslot : task.graph.slot? id slot.1 = some slot.2 := KeyMap.find?_eq_some_iff.2 hmem
  rw [methodEntry] at h
  rw [methodEntryIn]
  by_cases hskip : (slot.1.isInitializer || !task.hierarchy.isSource id slot.1) = true
  · rw [if_pos hskip] at h ⊢
    obtain ⟨rfl, rfl⟩ := succeeds_pure_iff.1 h
    refine ⟨hrefl _, fun hinit hsource => ?_, rfl⟩
    rw [hinit, hsource] at hskip
    exact absurd hskip (by decide)
  · rw [if_neg hskip] at h ⊢
    rw [Bool.or_eq_true, not_or, Bool.not_eq_true, Bool.not_eq_true, Bool.not_eq_false'] at hskip
    cases hsymbol : task.graph.methodAt? slot.2 with
    | none =>
      rw [hsymbol] at h
      obtain ⟨rfl, rfl⟩ := succeeds_pure_iff.1 h
      refine ⟨hrefl _, fun _ _ symbol hdeclared => ?_, rfl⟩
      rw [hsymbol] at hdeclared
      cases hdeclared
    | some symbol =>
      rw [hsymbol] at h
      obtain ⟨need, hneed, hmove, hnamed, hentry⟩ :=
        of_succeeds_sourceEntry_of hrefl hname ⟨hloaded, hslot, hskip.1, hskip.2, hsymbol⟩ h
      refine ⟨hmove, fun _ _ symbol' hsymbol' => ?_, ?_⟩
      · obtain rfl := Option.some.inj (hsymbol.symm.trans hsymbol')
        exact ⟨need, hneed, hnamed⟩
      · dsimp only
        rw [hentry, hneed]
        cases need <;> rfl

end Entry

/-- Visiting a method settles it. -/
theorem of_succeeds_methodEntry [ConflictResolver ρ] (hgraph : task.graph.Finished) {id : ClassId}
    {slot : MemberKey × MethodId} {entry : Option MemberEntry}
    (hloaded : (task.graph.classAt id).loaded = true)
    (hmem : slot ∈ (task.graph.classAt id).methods.entries)
    (h : Succeeds (task.methodEntry id slot) s entry t) :
    task.Leads s.context t.context ∧ task.MethodSettled t.context id slot ∧
      entry = task.methodEntryIn t.context id slot :=
  of_succeeds_methodEntry_of Leads.refl
    (fun hstarts hneed hname => of_succeeds_methodNameFor hgraph hstarts hneed hname) hloaded hmem h

theorem MethodSettled.mono {c c' : NamingContext} {id : ClassId} {slot : MemberKey × MethodId}
    (hc : task.Leads c c') (h : task.MethodSettled c id slot) :
    task.MethodSettled c' id slot ∧
      task.methodEntryIn c' id slot = task.methodEntryIn c id slot := by
  constructor
  · intro hinit hsource symbol hsymbol
    obtain ⟨need, hneed, hname⟩ := h hinit hsource symbol hsymbol
    refine ⟨need, hneed, fun hneed => ?_⟩
    obtain ⟨name, hname⟩ := hname hneed
    exact ⟨name, hc.persists.method hname⟩
  · rw [methodEntryIn, methodEntryIn]
    by_cases hskip : (slot.1.isInitializer || !task.hierarchy.isSource id slot.1) = true
    · rw [if_pos hskip, if_pos hskip]
    · rw [if_neg hskip, if_neg hskip]
      rw [Bool.or_eq_true, not_or, Bool.not_eq_true, Bool.not_eq_true, Bool.not_eq_false'] at hskip
      cases hsymbol : task.graph.methodAt? slot.2 with
      | none => rfl
      | some symbol =>
        obtain ⟨need, hneed, hname⟩ := h hskip.1 hskip.2 symbol hsymbol
        dsimp only
        rw [hneed]
        cases need with
        | false => rfl
        | true =>
          obtain ⟨name, hname⟩ := hname rfl
          dsimp only
          rw [hname, hc.persists.method hname]

end NamingTask

end StableNaming
