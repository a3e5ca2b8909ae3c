import StableNaming.Proofs.Naming.Inheritance
import StableNaming.Proofs.Naming.Numbers
import StableNaming.Proofs.Symbol.GeneratedName

/-!
# Runs that carry nothing over

When no name is offered, every name that a run decides is kept or made up. The
names of classes follow those of their containers, and the names of methods run
through the numbers from the first counter to the last one, each for one method.
-/

namespace StableNaming

namespace NamingTask

variable {task : NamingTask}

/-- Whether a class keeps its name inside its container, or has one that is made up with a
number between two counters. -/
structure ClassMinted (task : NamingTask) (start : Counters) (c : NamingContext) (id : ClassId)
    (name : String) : Prop where
  /-- The container has a name. -/
  outer : task.OuterNamed c id
  /-- A class that needs no name keeps its own. -/
  kept : task.classDecision id = .ok false →
    name = keptClassName (task.graph.classAt id) (task.parentName c id)
  /-- A class that needs a name has one that is made up. -/
  minted : task.classDecision id = .ok true → ∃ n, start.get .type ≤ n ∧
    n < c.counters.get .type ∧
    name = task.classNameStart (task.graph.classAt id) (task.parentName c id) ++
      SymbolKind.type.generatedName n
  /-- It is known which of the two it is. -/
  decided : ∃ need, task.classDecision id = .ok need

theorem ClassMinted.mono {start : Counters} {c c' : NamingContext} (hnames : Persists c c')
    (hcounters : c.counters.get .type ≤ c'.counters.get .type) {id : ClassId} {name : String}
    (h : task.ClassMinted start c id name) : task.ClassMinted start c' id name where
  outer := h.outer.mono hnames
  kept hneed := by
    rw [parentName_eq hnames h.outer]
    exact h.kept hneed
  minted hneed := by
    obtain ⟨n, hstart, hlt, hname⟩ := h.minted hneed
    rw [parentName_eq hnames h.outer]
    exact ⟨n, hstart, Nat.lt_of_lt_of_le hlt hcounters, hname⟩
  decided := h.decided

/-- What holds of the decided names when nothing is carried over. -/
structure OnlyMinted (task : NamingTask) (start : Counters) (c : NamingContext) : Prop where
  /-- No counter has gone back. -/
  start_le : ∀ kind, start.get kind ≤ c.counters.get kind
  /-- Classes keep their names or have made up ones. -/
  type : ∀ {id : ClassId}, id < task.graph.size → ∀ {name : String},
    c.classNames.find? (task.graph.nameAt id) = some name → task.ClassMinted start c id name
  /-- Names of fields are made up. -/
  field : ∀ {ref : MemberRef} {name : String}, c.fieldNames.find? ref = some name →
    ∃ n, start.get .field ≤ n ∧ n < c.counters.get .field ∧
      name = SymbolKind.field.generatedName n
  /-- Names of methods are made up. -/
  method : ∀ {method : MethodId} {name : String}, c.methodNames.find? method = some name →
    ∃ n, start.get .method ≤ n ∧ n < c.counters.get .method ∧
      name = SymbolKind.method.generatedName n
  /-- No two methods have one name. -/
  method_inj : ∀ {method method' : MethodId} {name : String},
    c.methodNames.find? method = some name → c.methodNames.find? method' = some name →
      method = method'
  /-- Every number that was handed out names a method. -/
  method_surj : ∀ {n : Nat}, start.get .method ≤ n → n < c.counters.get .method →
    ∃ method, c.methodNames.find? method = some (SymbolKind.method.generatedName n)

/-- Nothing is decided yet. -/
theorem onlyMinted_of_empty {c : NamingContext} (hclass : c.classNames = .empty)
    (hfield : c.fieldNames = .empty) (hmethod : c.methodNames = .empty) :
    task.OnlyMinted c.counters c where
  start_le _ := Nat.le_refl _
  type _ _ hname := by rw [hclass] at hname; cases hname
  field hname := by rw [hfield] at hname; cases hname
  method hname := by rw [hmethod] at hname; cases hname
  method_inj hname := by rw [hmethod] at hname; cases hname
  method_surj hle hlt := absurd hle (Nat.not_le_of_lt hlt)

namespace OnlyMinted

variable {start : Counters} {c c' : NamingContext}

/-- Moving counters on keeps what holds of names, but for the numbers of methods. -/
theorem mono_type (h : task.OnlyMinted start c) (hnames : Persists c c')
    (hcounters : ∀ kind, c.counters.get kind ≤ c'.counters.get kind) {id : ClassId}
    (hid : id < task.graph.size) {name : String}
    (hname : c.classNames.find? (task.graph.nameAt id) = some name) :
    task.ClassMinted start c' id name :=
  (h.type hid hname).mono hnames (hcounters .type)

theorem mono_field (h : task.OnlyMinted start c)
    (hcounters : ∀ kind, c.counters.get kind ≤ c'.counters.get kind) {ref : MemberRef}
    {name : String} (hname : c.fieldNames.find? ref = some name) :
    ∃ n, start.get .field ≤ n ∧ n < c'.counters.get .field ∧
      name = SymbolKind.field.generatedName n := by
  obtain ⟨n, hstart, hlt, hname⟩ := h.field hname
  exact ⟨n, hstart, Nat.lt_of_lt_of_le hlt (hcounters .field), hname⟩

theorem mono_method (h : task.OnlyMinted start c)
    (hcounters : ∀ kind, c.counters.get kind ≤ c'.counters.get kind) {method : MethodId}
    {name : String} (hname : c.methodNames.find? method = some name) :
    ∃ n, start.get .method ≤ n ∧ n < c'.counters.get .method ∧
      name = SymbolKind.method.generatedName n := by
  obtain ⟨n, hstart, hlt, hname⟩ := h.method hname
  exact ⟨n, hstart, Nat.lt_of_lt_of_le hlt (hcounters .method), hname⟩

/-- A class that is offered nothing keeps its name or gets one that is made up. -/
theorem classMinted_of_chooses {id : ClassId} {need : Bool} {provenance : Provenance}
    {last : NamingContext} (hstart : ∀ kind, start.get kind ≤ c.counters.get kind)
    (houter : task.OuterNamed last id)
    (hneed : task.classDecision id = .ok need)
    (hchooses : Chooses .type need [] c provenance c')
    (hlast : last.counters = c'.counters) :
    task.ClassMinted start last id
      (task.classNameBy id (task.parentName last id) provenance) where
  outer := houter
  kept hkept := by
    rw [hneed] at hkept
    cases hkept
    cases hchooses
    rfl
  minted hminted := by
    rw [hneed] at hminted
    cases hminted
    obtain ⟨rfl, hskip⟩ := of_chooses_nil hchooses
    refine ⟨c.counters.get .type, hstart .type, ?_, rfl⟩
    rw [hlast, NamingContext.get_counters_skip? hskip, if_pos rfl]
    exact Nat.lt_succ_self _
  decided := ⟨need, hneed⟩

/-- Making up a name of one kind leaves the counters of the other kinds alone. -/
theorem get_counters_eq_of_chooses {kind other : SymbolKind} {need : Bool} {provenance : Provenance}
    (h : Chooses kind need [] c provenance c') (hne : other ≠ kind) :
    c'.counters.get other = c.counters.get other := by
  have hget := get_counters_of_chooses h other
  rw [if_neg (Ne.symm hne)] at hget
  exact hget

/-! ## Decisions -/

section Decisions

variable (h : task.OnlyMinted start c)
include h

/-- Naming a class that is offered nothing keeps what holds. -/
theorem setClass (hgraph : task.graph.Finished) {id : ClassId} {need : Bool}
    {provenance : Provenance} (hid : id < task.graph.size) (houter : task.OuterNamed c id)
    (hneed : task.classDecision id = .ok need) (hchooses : Chooses .type need [] c provenance c')
    {last : NamingContext} (hlast : last = c'.setClass (task.graph.nameAt id)
      (task.classNameBy id (task.parentName c id) provenance))
    (hnames : Persists c last) (hcounters : ∀ kind, c.counters.get kind ≤ last.counters.get kind) :
    task.OnlyMinted start last := by
  have hsame := counters_of_chooses hchooses
  have hclasses : c'.classNames = c.classNames := by rw [hsame]
  have hfields : last.fieldNames = c.fieldNames := by rw [hlast, hsame]; rfl
  have hmethods : last.methodNames = c.methodNames := by rw [hlast, hsame]; rfl
  have hother : SymbolKind.method ≠ .type := by decide
  have hmethod : last.counters.get .method = c.counters.get .method := by
    rw [hlast, ← get_counters_eq_of_chooses hchooses hother]
    rfl
  have hstart := fun kind => (h.start_le kind).trans (hcounters kind)
  refine ⟨hstart, fun {id'} hid' name hname => ?_,
    fun hname => h.mono_field hcounters (hfields ▸ hname),
    fun hname => h.mono_method hcounters (hmethods ▸ hname),
    fun hname hname' => h.method_inj (hmethods ▸ hname) (hmethods ▸ hname'),
    fun hle hlt => hmethods ▸ h.method_surj hle (hmethod ▸ hlt)⟩
  have hfind : last.classNames.find? (task.graph.nameAt id') =
      if task.graph.nameAt id = task.graph.nameAt id' then
        some (task.classNameBy id (task.parentName c id) provenance)
      else c.classNames.find? (task.graph.nameAt id') := by
    rw [hlast, ← hclasses]
    exact Dictionary.find?_insert _ _ _ _
  rw [hfind] at hname
  split at hname
  · rename_i heq
    obtain rfl := hgraph.names hid hid' heq
    have hcounted : last.counters = c'.counters := by rw [hlast]; rfl
    have hminted :=
      classMinted_of_chooses h.start_le (houter.mono hnames) hneed hchooses hcounted
    rw [parentName_eq hnames houter] at hminted
    exact Option.some.inj hname ▸ hminted
  · exact h.mono_type hnames hcounters hid' hname

/-- Making up the name of a field keeps what holds. -/
theorem setField {ref : MemberRef} (hskip : c.skip? .field = some c') {last : NamingContext}
    (hlast : last =
      c'.setField ref (SymbolKind.field.generatedName (c.counters.get .field)))
    (hnames : Persists c last) (hcounters : ∀ kind, c.counters.get kind ≤ last.counters.get kind) :
    task.OnlyMinted start last := by
  have hsame := counters_of_skip? hskip
  have hclasses : last.classNames = c.classNames := by rw [hlast, hsame]; rfl
  have hfields : c'.fieldNames = c.fieldNames := by rw [hsame]
  have hmethods : last.methodNames = c.methodNames := by rw [hlast, hsame]; rfl
  have hother : SymbolKind.method ≠ .field := by decide
  have hmethod : last.counters.get .method = c.counters.get .method := by
    rw [hlast, ← get_counters_eq_of_chooses (.minted hskip) hother]
    rfl
  have hfield : last.counters.get .field = c.counters.get .field + 1 := by
    rw [hlast]
    exact (NamingContext.get_counters_skip? hskip _).trans (if_pos rfl)
  have hstart := fun kind => (h.start_le kind).trans (hcounters kind)
  refine ⟨hstart, fun hid _ hname => h.mono_type hnames hcounters hid (hclasses ▸ hname),
    fun {ref' name} hname => ?_, fun hname => h.mono_method hcounters (hmethods ▸ hname),
    fun hname hname' => h.method_inj (hmethods ▸ hname) (hmethods ▸ hname'),
    fun hle hlt => hmethods ▸ h.method_surj hle (hmethod ▸ hlt)⟩
  have hfind : last.fieldNames.find? ref' =
      if ref = ref' then some (SymbolKind.field.generatedName (c.counters.get .field))
      else c.fieldNames.find? ref' := by
    rw [hlast, ← hfields]
    exact Dictionary.find?_insert _ _ _ _
  rw [hfind] at hname
  split at hname
  · have hle := h.start_le .field
    exact ⟨c.counters.get .field, hle, by omega, (Option.some.inj hname).symm⟩
  · exact h.mono_field hcounters hname

/-- Making up the name of a method keeps what holds. -/
theorem setMethod {method : MethodId} (hskip : c.skip? .method = some c') {last : NamingContext}
    (hlast : last =
      c'.setMethod method (SymbolKind.method.generatedName (c.counters.get .method)))
    (hnames : Persists c last) (hcounters : ∀ kind, c.counters.get kind ≤ last.counters.get kind) :
    task.OnlyMinted start last := by
  have hsame := counters_of_skip? hskip
  have hclasses : last.classNames = c.classNames := by rw [hlast, hsame]; rfl
  have hfields : last.fieldNames = c.fieldNames := by rw [hlast, hsame]; rfl
  have hmethods : c'.methodNames = c.methodNames := by rw [hsame]
  have hmethod : last.counters.get .method = c.counters.get .method + 1 := by
    rw [hlast]
    exact (NamingContext.get_counters_skip? hskip _).trans (if_pos rfl)
  have hfind : ∀ method', last.methodNames.find? method' =
      if method = method' then some (SymbolKind.method.generatedName (c.counters.get .method))
      else c.methodNames.find? method' := by
    intro method'
    rw [hlast, ← hmethods]
    exact Dictionary.find?_insert _ _ _ _
  -- an older name has a smaller number
  have hfresh : ∀ {method'}, c.methodNames.find? method' ≠
      some (SymbolKind.method.generatedName (c.counters.get .method)) := by
    intro method' hname
    obtain ⟨n, -, hlt, heq⟩ := h.method hname
    rw [SymbolKind.generatedName_inj] at heq
    omega
  have hstart := fun kind => (h.start_le kind).trans (hcounters kind)
  refine ⟨hstart, fun hid _ hname => h.mono_type hnames hcounters hid (hclasses ▸ hname),
    fun hname => h.mono_field hcounters (hfields ▸ hname), fun {method' name} hname => ?_,
    fun {method' method'' name} hname hname' => ?_, fun {n} hle hlt => ?_⟩
  · rw [hfind] at hname
    split at hname
    · have hle := h.start_le .method
      exact ⟨c.counters.get .method, hle, by omega, (Option.some.inj hname).symm⟩
    · exact h.mono_method hcounters hname
  · rw [hfind] at hname hname'
    split at hname <;> split at hname'
    · rename_i heq heq'
      rw [← heq, ← heq']
    · rw [← hname] at hname'
      exact absurd hname' hfresh
    · rw [← hname'] at hname
      exact absurd hname hfresh
    · exact h.method_inj hname hname'
  · rw [hmethod] at hlt
    rcases Nat.lt_succ_iff_lt_or_eq.1 hlt with hlt | rfl
    · obtain ⟨method', hname⟩ := h.method_surj hle hlt
      exact ⟨method', hnames.method hname⟩
    · refine ⟨method, ?_⟩
      rw [hfind, if_pos rfl]

end Decisions

/-- A decision keeps what holds when nothing is carried over. -/
theorem decides (h : task.OnlyMinted start c) (hgraph : task.graph.Finished)
    (hsilent : task.heritage.Silent) {d : Decision} (hd : task.Decides c d c') :
    task.OnlyMinted start c' := by
  have hnames := hd.persists
  have hcounters := hd.leads.get_counters_le
  cases hd with
  | type hid _ houter hneed hchooses =>
    rw [hsilent.className?, Option.toList_none] at hchooses
    exact h.setClass hgraph hid houter hneed hchooses rfl hnames hcounters
  | field _ _ _ _ hchooses =>
    rw [hsilent.fieldName?, Option.toList_none] at hchooses
    obtain ⟨rfl, hskip⟩ := of_chooses_nil hchooses
    exact h.setField hskip rfl hnames hcounters
  | method _ _ _ hchooses =>
    rw [keys_candidates_of_silent hsilent] at hchooses
    obtain ⟨rfl, hskip⟩ := of_chooses_nil hchooses
    exact h.setMethod hskip rfl hnames hcounters

/-- A log keeps what holds when nothing is carried over. -/
theorem leads (h : task.OnlyMinted start c) (hgraph : task.graph.Finished)
    (hsilent : task.heritage.Silent) (hc : task.Leads c c') : task.OnlyMinted start c' := by
  obtain ⟨ds, hds⟩ := hc
  induction hds with
  | nil => exact h
  | snoc _ hd ih => exact ih.decides hgraph hsilent hd

end OnlyMinted

end NamingTask

end StableNaming
