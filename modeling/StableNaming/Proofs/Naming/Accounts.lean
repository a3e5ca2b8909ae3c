import StableNaming.Proofs.Naming.Numbers

/-!
# Where decided names come from

After a log that starts without names, every name goes back to a decision. So it
can be told from the last context alone what a symbol was offered, whether its name
is kept, carried over or made up, and between which counters the numbers lie that
the decision met.
-/

namespace StableNaming

/-- Where a decided name comes from, as it shows between the counters before and after a log. -/
inductive Traced (kind : SymbolKind) (start last : Counters) :
    Bool → List String → Provenance → Prop where
  /-- The symbol needs no name. -/
  | kept {offered : List String} : Traced kind start last false offered .kept
  /-- An offered name is carried over, and all offered ones have been passed. -/
  | carried {found : String} {offered : List String} :
    found ∈ offered → (∀ n ∈ offered.filterMap kind.suffix?, n < last.get kind) →
      Traced kind start last true offered (.carried found offered)
  /-- Nothing is offered, and the name has a number between the counters. -/
  | minted {number : Nat} : start.get kind ≤ number → number < last.get kind →
    Traced kind start last true [] (.minted number)

namespace Traced

variable {kind : SymbolKind} {start last : Counters} {need : Bool} {offered : List String}
  {provenance : Provenance}

/-- All numbers that a decision has met are passed in the end. -/
theorem lt_of_mem_numbers (h : Traced kind start last need offered provenance) {n : Nat}
    (hn : n ∈ provenance.numbers kind) : n < last.get kind := by
  cases h with
  | kept => exact absurd hn List.not_mem_nil
  | carried _ hpassed => exact hpassed n hn
  | minted _ hlt => exact List.mem_singleton.1 hn ▸ hlt

/-- A carried name is one of the offered ones. -/
theorem sound (h : Traced kind start last need offered provenance) : provenance.Sound := by
  intro found offered' heq
  cases h with
  | kept => cases heq
  | carried hmem =>
    obtain ⟨rfl, rfl⟩ := Provenance.carried.inj heq
    exact hmem
  | minted => cases heq

/-- A symbol that needs a name and is offered a single one gets it. -/
theorem eq_carried {found : String} (h : Traced kind start last true [found] provenance) :
    provenance = .carried found [found] := by
  cases h with
  | carried hmem => rw [List.mem_singleton.1 hmem]

/-- A symbol that needs a name and is offered none gets one that is made up. -/
theorem exists_minted (h : Traced kind start last true [] provenance) :
    ∃ number, start.get kind ≤ number ∧ number < last.get kind ∧ provenance = .minted number := by
  cases h with
  | carried hmem => exact absurd hmem List.not_mem_nil
  | minted hle hlt => exact ⟨_, hle, hlt, rfl⟩

/-- A symbol that needs no name keeps its own. -/
theorem eq_kept (h : Traced kind start last false offered provenance) : provenance = .kept := by
  cases h
  rfl

end Traced

/-- What is chosen can be traced in every context that comes later. -/
theorem traced_of_chooses {kind : SymbolKind} {need : Bool} {offered : List String}
    {c c' : NamingContext} {provenance : Provenance} {start last : Counters}
    (h : Chooses kind need offered c provenance c')
    (hstart : start.get kind ≤ c.counters.get kind)
    (hlast : c'.counters.get kind ≤ last.get kind) :
    Traced kind start last need offered provenance := by
  have hget := get_counters_of_chooses h kind
  rw [if_pos rfl] at hget
  have hmet : ∀ n ∈ provenance.numbers kind, n < last.get kind := by
    intro n hn
    have hlt := lt_nextAfter hn (c.counters.get kind)
    omega
  cases h with
  | kept => exact .kept
  | carried hmem => exact .carried hmem hmet
  | minted => exact .minted hstart (hmet _ List.mem_cons_self)

namespace NamingTask

variable {task : NamingTask} {c c' : NamingContext} {ds : List Decision}

/-! ## Decisions behind names -/

/-- A decision names nothing but its own subject. -/
theorem Decides.classNames_eq_or {d : Decision} (h : task.Decides c d c') (className : String) :
    c'.classNames.find? className = c.classNames.find? className ∨
      ∃ id < task.graph.size, d.subject = .type id ∧ task.graph.nameAt id = className := by
  cases h with
  | @type id _ _ _ _ lt_size _ _ _ chooses =>
    rw [counters_of_chooses chooses]
    dsimp only [NamingContext.setClass]
    rw [Dictionary.find?_insert]
    by_cases hname : task.graph.nameAt id = className
    · exact .inr ⟨id, lt_size, rfl, hname⟩
    · rw [if_neg hname]
      exact .inl rfl
  | field _ _ _ _ chooses =>
    rw [counters_of_chooses chooses]
    exact .inl rfl
  | method _ _ _ chooses =>
    rw [counters_of_chooses chooses]
    exact .inl rfl

theorem Decides.fieldNames_eq_or {d : Decision} (h : task.Decides c d c') (ref : MemberRef) :
    c'.fieldNames.find? ref = c.fieldNames.find? ref ∨ d.subject = .field ref := by
  cases h with
  | type _ _ _ _ chooses =>
    rw [counters_of_chooses chooses]
    exact .inl rfl
  | field _ _ _ _ chooses =>
    rw [counters_of_chooses chooses]
    dsimp only [NamingContext.setField]
    rw [Dictionary.find?_insert]
    split
    · rename_i hname
      exact .inr (by rw [hname])
    · exact .inl rfl
  | method _ _ _ chooses =>
    rw [counters_of_chooses chooses]
    exact .inl rfl

theorem Decides.methodNames_eq_or {d : Decision} (h : task.Decides c d c') (method : MethodId) :
    c'.methodNames.find? method = c.methodNames.find? method ∨ d.subject = .method method := by
  cases h with
  | type _ _ _ _ chooses =>
    rw [counters_of_chooses chooses]
    exact .inl rfl
  | field _ _ _ _ chooses =>
    rw [counters_of_chooses chooses]
    exact .inl rfl
  | method _ _ _ chooses =>
    rw [counters_of_chooses chooses]
    dsimp only [NamingContext.setMethod]
    rw [Dictionary.find?_insert]
    split
    · rename_i hname
      exact .inr (by rw [hname])
    · exact .inl rfl

/-- A class that has a name after a log, and had none before, is named by one of its decisions. -/
theorem Log.exists_mem_of_classNames (h : task.Log c ds c') (hnames : task.graph.DistinctNames)
    {id : ClassId} (hid : id < task.graph.size)
    (hnew : c.classNames.find? (task.graph.nameAt id) = none) {name : String}
    (hname : c'.classNames.find? (task.graph.nameAt id) = some name) :
    ∃ d ∈ ds, d.subject = .type id := by
  induction h with
  | nil =>
    rw [hnew] at hname
    cases hname
  | snoc _ hd ih =>
    rcases hd.classNames_eq_or (task.graph.nameAt id) with hsame | ⟨id', hid', hsubject, heq⟩
    · obtain ⟨d, hmem, hsubject⟩ := ih (hsame ▸ hname)
      exact ⟨d, List.mem_append_left _ hmem, hsubject⟩
    · rw [hnames hid' hid heq] at hsubject
      exact ⟨_, List.mem_append_right _ List.mem_cons_self, hsubject⟩

theorem Log.exists_mem_of_fieldNames (h : task.Log c ds c') (hempty : c.fieldNames = .empty)
    {ref : MemberRef} {name : String} (hname : c'.fieldNames.find? ref = some name) :
    ∃ d ∈ ds, d.subject = .field ref := by
  induction h with
  | nil =>
    rw [hempty] at hname
    cases hname
  | snoc _ hd ih =>
    rcases hd.fieldNames_eq_or ref with hsame | hsubject
    · obtain ⟨d, hmem, hsubject⟩ := ih (hsame ▸ hname)
      exact ⟨d, List.mem_append_left _ hmem, hsubject⟩
    · exact ⟨_, List.mem_append_right _ List.mem_cons_self, hsubject⟩

theorem Log.exists_mem_of_methodNames (h : task.Log c ds c') (hempty : c.methodNames = .empty)
    {method : MethodId} {name : String} (hname : c'.methodNames.find? method = some name) :
    ∃ d ∈ ds, d.subject = .method method := by
  induction h with
  | nil =>
    rw [hempty] at hname
    cases hname
  | snoc _ hd ih =>
    rcases hd.methodNames_eq_or method with hsame | hsubject
    · obtain ⟨d, hmem, hsubject⟩ := ih (hsame ▸ hname)
      exact ⟨d, List.mem_append_left _ hmem, hsubject⟩
    · exact ⟨_, List.mem_append_right _ List.mem_cons_self, hsubject⟩

/-- Every decision of a log is made between the counters at its two ends. -/
theorem Log.exists_decides (h : task.Log c ds c') {d : Decision} (hd : d ∈ ds) :
    ∃ c₁ c₂, task.Leads c c₁ ∧ task.Decides c₁ d c₂ ∧ task.Leads c₂ c' := by
  obtain ⟨before, after, rfl⟩ := List.append_of_mem hd
  obtain ⟨c₁, c₂, hbefore, hdecides, hafter⟩ := h.divide
  exact ⟨c₁, c₂, ⟨before, hbefore⟩, hdecides, ⟨after, hafter⟩⟩

/-! ## Names accounted for -/

/-- Whether the name of a class goes back to a decision. -/
structure ClassTraced (task : NamingTask) (start : Counters) (c : NamingContext) (id : ClassId)
    (name : String) (need : Bool) (provenance : Provenance) : Prop where
  /-- The container has a name. -/
  outer : task.OuterNamed c id
  /-- It is known whether the class needs a name. -/
  decision : task.classDecision id = .ok need
  /-- The name comes from what the class was offered. -/
  traced : Traced .type start c.counters need
    (task.heritage.className? (task.graph.nameAt id)).toList provenance
  /-- The name is what the decision says. -/
  name_eq : name = task.classNameBy id (task.parentName c id) provenance

/-- The name of a class that had none before a log goes back to a decision. -/
theorem Leads.exists_classTraced (h : task.Leads c c') (hnames : task.graph.DistinctNames)
    {id : ClassId} (hid : id < task.graph.size)
    (hnew : c.classNames.find? (task.graph.nameAt id) = none) {name : String}
    (hname : c'.classNames.find? (task.graph.nameAt id) = some name) :
    ∃ need provenance, task.ClassTraced c.counters c' id name need provenance := by
  obtain ⟨ds, hlog⟩ := h
  obtain ⟨⟨subject, provenance⟩, hd, rfl⟩ := hlog.exists_mem_of_classNames hnames hid hnew hname
  obtain ⟨c₁, c₂, hbefore, hdecides, hafter⟩ := hlog.exists_decides hd
  have hnamed := hlog.nameIn?_eq hd
  dsimp only [nameIn?, nameBy] at hnamed
  rw [hname, Option.some_inj] at hnamed
  have hlast := hdecides.leads.trans hafter
  have hcounters := hafter.get_counters_le .type
  cases hdecides with
  | type _ _ outer decision chooses =>
    exact ⟨_, provenance, outer.mono hlast.persists, decision,
      traced_of_chooses chooses (hbefore.get_counters_le .type) hcounters, hnamed⟩

/-- Whether the name of a method goes back to a decision at a class where its family starts. -/
structure MethodTraced (task : NamingTask) (start : Counters) (c : NamingContext)
    (method : MethodId) (name : String) (id : ClassId) (key : MemberKey) (symbol : MethodSymbol)
    (provenance : Provenance) : Prop where
  /-- The family starts at the class. -/
  starts : task.Starts id key method symbol
  /-- The method needs a name. -/
  decision : task.chain.needsMethodName (task.graph.classAt id) symbol = .ok true
  /-- The name comes from what the family was offered. -/
  traced : Traced .method start c.counters true
    (task.candidates (task.hierarchy.family id key) key).keys provenance
  /-- The name is what the decision says. -/
  name_eq : name = provenance.name .method

/-- Whether all decided names go back to decisions. -/
structure Accounted (task : NamingTask) (start : Counters) (c : NamingContext) : Prop where
  /-- Names of classes do. -/
  type : ∀ {id : ClassId}, id < task.graph.size → ∀ {name : String},
    c.classNames.find? (task.graph.nameAt id) = some name →
      ∃ need provenance, task.ClassTraced start c id name need provenance
  /-- Names of fields do. -/
  field : ∀ {ref : MemberRef} {name : String}, c.fieldNames.find? ref = some name →
    ∃ provenance, Traced .field start c.counters true (task.heritage.fieldName? ref).toList
      provenance ∧ name = provenance.name .field
  /-- Names of methods do. -/
  method : ∀ {method : MethodId} {name : String}, c.methodNames.find? method = some name →
    ∃ id key symbol provenance,
      task.MethodTraced start c method name id key symbol provenance

/-- After a log that starts without names, all names are accounted for. -/
theorem Leads.accounted (h : task.Leads c c') (hnames : task.graph.DistinctNames)
    (hclass : c.classNames = .empty) (hfield : c.fieldNames = .empty)
    (hmethod : c.methodNames = .empty) : task.Accounted c.counters c' := by
  have ⟨ds, hlog⟩ := h
  refine ⟨fun {id} hid name hname => h.exists_classTraced hnames hid (by rw [hclass]; rfl) hname,
    fun {ref name} hname => ?_, fun {method name} hname => ?_⟩
  · obtain ⟨⟨subject, provenance⟩, hd, rfl⟩ := hlog.exists_mem_of_fieldNames hfield hname
    obtain ⟨c₁, c₂, hbefore, hdecides, hafter⟩ := hlog.exists_decides hd
    have hnamed := hlog.nameIn?_eq hd
    dsimp only [nameIn?, nameBy] at hnamed
    rw [hname, Option.some_inj] at hnamed
    have hcounters := hafter.get_counters_le .field
    cases hdecides with
    | field _ _ _ _ chooses =>
      exact ⟨provenance,
        traced_of_chooses chooses (hbefore.get_counters_le .field) hcounters, hnamed⟩
  · obtain ⟨⟨subject, provenance⟩, hd, rfl⟩ := hlog.exists_mem_of_methodNames hmethod hname
    obtain ⟨c₁, c₂, hbefore, hdecides, hafter⟩ := hlog.exists_decides hd
    have hnamed := hlog.nameIn?_eq hd
    dsimp only [nameIn?, nameBy] at hnamed
    rw [hname, Option.some_inj] at hnamed
    have hcounters := hafter.get_counters_le .method
    cases hdecides with
    | method starts decision _ chooses =>
      exact ⟨_, _, _, provenance, starts, decision,
        traced_of_chooses chooses (hbefore.get_counters_le .method) hcounters, hnamed⟩

/-- A counter does not move when only smaller numbers are met. -/
theorem Log.get_counters_eq_of_forall_lt (h : task.Log c ds c') {kind : SymbolKind}
    (hlt : ∀ d ∈ ds, ∀ n ∈ d.numbers kind, n < c.counters.get kind) :
    c'.counters.get kind = c.counters.get kind := by
  rw [h.get_counters]
  refine nextAfter_eq_of_forall_lt fun n hn => ?_
  obtain ⟨d, hd, hn⟩ := List.mem_flatMap.1 hn
  exact hlt d hd n hn

end NamingTask

end StableNaming
