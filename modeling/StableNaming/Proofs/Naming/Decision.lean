import StableNaming.Proofs.Graph.JoinPass
import StableNaming.Proofs.Naming.Outcome

/-!
# Decisions and their log

Everything that a run does to the counters and to the decided names is a sequence
of decisions. A decision names one class, one field or one method that has no name
yet, and says where the name comes from: the symbol keeps its own, a name is
carried over, or one is made up. Carrying a name over passes the counter over all
names that were offered.
-/

namespace StableNaming

/-- Where a decided name comes from. -/
inductive Provenance where
  /-- The symbol keeps its name. -/
  | kept
  /-- A name is carried over, one of those that are offered. -/
  | carried (found : String) (offered : List String)
  /-- A name is made up. -/
  | minted (number : Nat)
  deriving Repr, DecidableEq

/-- The name that a member gets. -/
def Provenance.name (kind : SymbolKind) : Provenance → String
  | kept => ""
  | carried found _ => found
  | minted number => kind.generatedName number

/-- What a name is decided for. All classes that share a method get its name. -/
inductive Subject where
  /-- A class. -/
  | type (id : ClassId)
  /-- A field. -/
  | field (ref : MemberRef)
  /-- A method. -/
  | method (method : MethodId)
  deriving Repr, DecidableEq

/-- The kind of the symbol that is named. -/
def Subject.kind : Subject → SymbolKind
  | type _ => .type
  | field _ => .field
  | method _ => .method

/-- A decision. -/
structure Decision where
  /-- What is named. -/
  subject : Subject
  /-- Where the name comes from. -/
  provenance : Provenance
  deriving Repr, DecidableEq

namespace NamingContext

/-- Keep the counter of a kind past the numbers in several names, if there are words past them. -/
def passAll? (c : NamingContext) (kind : SymbolKind) (names : List String) :
    Option NamingContext :=
  names.foldlM (·.pass? kind ·) c

theorem passAll?_cons (c : NamingContext) (kind : SymbolKind) (name : String)
    (names : List String) :
    c.passAll? kind (name :: names) = (c.pass? kind name).bind (·.passAll? kind names) := by
  rw [passAll?, List.foldlM_cons]
  rfl

theorem passAll?_singleton (c : NamingContext) (kind : SymbolKind) (name : String) :
    c.passAll? kind [name] = c.pass? kind name := by
  rw [passAll?_cons]
  cases c.pass? kind name <;> rfl

/-- Deciding one name for one method again and again decides it once. -/
theorem setMethods_eq_setMethod {c : NamingContext} {method : MethodId} {methods : List MethodId}
    (name : String) (h : ∀ m ∈ methods, m = method) :
    c.setMethods (method :: methods) name = c.setMethod method name := by
  have htwice : (c.setMethod method name).setMethod method name = c.setMethod method name := by
    rw [setMethod, setMethod, Dictionary.insert_insert_self]
  rw [setMethods, List.foldl_cons]
  induction methods with
  | nil => rfl
  | cons m methods ih =>
    obtain ⟨rfl, hmethods⟩ := List.forall_mem_cons.1 h
    rw [List.foldl_cons, htwice]
    exact ih hmethods

end NamingContext

/-- Where the name of a symbol comes from, given whether it needs one and which names are
offered to be carried over, and what this does to the context. -/
inductive Chooses (kind : SymbolKind) :
    Bool → List String → NamingContext → Provenance → NamingContext → Prop where
  /-- A symbol that needs no name keeps its own. -/
  | kept {offered : List String} {c : NamingContext} : Chooses kind false offered c .kept c
  /-- One of the offered names is carried over. -/
  | carried {found : String} {offered : List String} {c c' : NamingContext} :
    found ∈ offered → c.passAll? kind offered = some c' →
      Chooses kind true offered c (.carried found offered) c'
  /-- If no name is offered, the next one is made up. -/
  | minted {c c' : NamingContext} :
    c.skip? kind = some c' → Chooses kind true [] c (.minted (c.counters.get kind)) c'

/-- A name is made up only for a symbol that needs one and is offered none, and it has the next
number. -/
theorem of_chooses_minted {kind : SymbolKind} {need : Bool} {offered : List String}
    {c c' : NamingContext} {number : Nat} (h : Chooses kind need offered c (.minted number) c') :
    need = true ∧ offered = [] ∧ number = c.counters.get kind ∧ c.skip? kind = some c' := by
  cases h with
  | minted hskip => exact ⟨rfl, rfl, rfl, hskip⟩

/-- A symbol that needs a name and is offered none gets one that is made up. -/
theorem of_chooses_nil {kind : SymbolKind} {c c' : NamingContext} {provenance : Provenance}
    (h : Chooses kind true [] c provenance c') :
    provenance = .minted (c.counters.get kind) ∧ c.skip? kind = some c' := by
  cases h with
  | carried hmem => exact absurd hmem List.not_mem_nil
  | minted hskip => exact ⟨rfl, hskip⟩

namespace NamingTask

variable (task : NamingTask)

/-- Whether a class needs a name. An anonymous class inside another one does not. -/
def classDecision (id : ClassId) : Except PolicyFault Bool :=
  if (task.graph.classAt id).outer.isSome && (task.graph.classAt id).isAnonymous then .ok false
  else task.chain.needsClassName (task.graph.classAt id)

/-- The decided name of the container of a class. -/
def parentName (c : NamingContext) (id : ClassId) : Option String :=
  (task.graph.classAt id).outer.bind fun outer => c.classNames.find? (task.graph.nameAt outer)

/-- The name that a class gets. -/
def classNameBy (id : ClassId) (parent : Option String) : Provenance → String
  | .kept => keptClassName (task.graph.classAt id) parent
  | .carried found _ => task.carriedClassName (task.graph.classAt id) parent found
  | .minted number =>
    task.classNameStart (task.graph.classAt id) parent ++ SymbolKind.type.generatedName number

/-- Whether the container of a class has a name. -/
def OuterNamed (c : NamingContext) (id : ClassId) : Prop :=
  ∀ outer ∈ (task.graph.classAt id).outer,
    (c.classNames.find? (task.graph.nameAt outer)).isSome = true

/-- Whether a method is the one that a class holds under a key, and the class is where the
family of the method starts. -/
structure Starts (id : ClassId) (key : MemberKey) (method : MethodId) (symbol : MethodSymbol) :
    Prop where
  /-- The class has a class file. -/
  loaded : (task.graph.classAt id).loaded = true
  /-- The class holds the method. -/
  slot : task.graph.slot? id key = some method
  /-- Initializers have no families. -/
  not_initializer : key.isInitializer = false
  /-- The class overrides nothing. -/
  source : task.hierarchy.isSource id key = true
  /-- The method has a declaration. -/
  declared : task.graph.methodAt? method = some symbol

/-- Whether a decision leads from one context to another. -/
inductive Decides : NamingContext → Decision → NamingContext → Prop where
  /-- A class is named after its container. -/
  | type {id : ClassId} {need : Bool} {provenance : Provenance} {c c' : NamingContext}
    (lt_size : id < task.graph.size)
    (new : c.classNames.find? (task.graph.nameAt id) = none)
    (outer : task.OuterNamed c id)
    (decision : task.classDecision id = .ok need)
    (chooses : Chooses .type need (task.heritage.className? (task.graph.nameAt id)).toList c
      provenance c') :
    Decides c ⟨.type id, provenance⟩
      (c'.setClass (task.graph.nameAt id)
        (task.classNameBy id (task.parentName c id) provenance))
  /-- A field that needs a name gets one. -/
  | field {id : ClassId} {f : Member} {provenance : Provenance} {c c' : NamingContext}
    (loaded : (task.graph.classAt id).loaded = true)
    (mem : f ∈ (task.graph.classAt id).fields.values)
    (decision : task.chain.needsFieldName (task.graph.classAt id) f = .ok true)
    (new : c.fieldNames.find? ⟨task.graph.nameAt id, f.key⟩ = none)
    (chooses : Chooses .field true
      (task.heritage.fieldName? ⟨task.graph.nameAt id, f.key⟩).toList c provenance c') :
    Decides c ⟨.field ⟨task.graph.nameAt id, f.key⟩, provenance⟩
      (c'.setField ⟨task.graph.nameAt id, f.key⟩ (provenance.name .field))
  /-- A method that needs a name gets one at a class where its family starts. -/
  | method {id : ClassId} {key : MemberKey} {method : MethodId} {symbol : MethodSymbol}
    {provenance : Provenance} {c c' : NamingContext}
    (starts : task.Starts id key method symbol)
    (decision : task.chain.needsMethodName (task.graph.classAt id) symbol = .ok true)
    (new : c.methodNames.find? method = none)
    (chooses : Chooses .method true
      (task.candidates (task.hierarchy.family id key) key).keys c provenance c') :
    Decides c ⟨.method method, provenance⟩ (c'.setMethod method (provenance.name .method))

/-- Whether decisions, one after the other, lead from one context to another. -/
inductive Log : NamingContext → List Decision → NamingContext → Prop where
  /-- Nothing is decided. -/
  | nil {c : NamingContext} : Log c [] c
  /-- One more decision. -/
  | snoc {c c' c'' : NamingContext} {ds : List Decision} {d : Decision} :
    Log c ds c' → task.Decides c' d c'' → Log c (ds ++ [d]) c''

/-- Whether some decisions lead from one context to another. -/
def Leads (c c' : NamingContext) : Prop := ∃ ds, task.Log c ds c'

variable {task}

theorem Log.trans {c c' c'' : NamingContext} {ds es : List Decision} (h : task.Log c ds c')
    (h' : task.Log c' es c'') : task.Log c (ds ++ es) c'' := by
  induction h' with
  | nil => rw [List.append_nil]; exact h
  | snoc _ hd ih =>
    rw [← List.append_assoc]
    exact .snoc ih hd

/-- A log can be divided at any decision. -/
theorem Log.divide {c c' : NamingContext} {before after : List Decision} {d : Decision}
    (h : task.Log c (before ++ d :: after) c') :
    ∃ c₁ c₂, task.Log c before c₁ ∧ task.Decides c₁ d c₂ ∧ task.Log c₂ after c' := by
  generalize hds : before ++ d :: after = ds at h
  induction h generalizing after with
  | nil => simp at hds
  | @snoc c' c'' ds last hlog hlast ih =>
    rcases List.eq_nil_or_concat after with rfl | ⟨after', d', rfl⟩
    · obtain ⟨hbefore, hd⟩ := List.append_inj' hds rfl
      obtain rfl := hbefore
      obtain rfl := List.singleton_inj.1 hd
      exact ⟨c', c'', hlog, hlast, .nil⟩
    · rw [List.concat_eq_append] at hds ⊢
      have hds' : (before ++ d :: after') ++ [d'] = ds ++ [last] := by simpa using hds
      obtain ⟨hfront, hd⟩ := List.append_inj' hds' rfl
      obtain rfl := List.singleton_inj.1 hd
      obtain ⟨c₁, c₂, hbefore, hmiddle, hafter⟩ := ih hfront
      exact ⟨c₁, c₂, hbefore, hmiddle, .snoc hafter hlast⟩

theorem Leads.refl (c : NamingContext) : task.Leads c c := ⟨[], .nil⟩

theorem Leads.trans {c c' c'' : NamingContext} (h : task.Leads c c') (h' : task.Leads c' c'') :
    task.Leads c c'' := by
  obtain ⟨ds, hds⟩ := h
  obtain ⟨es, hes⟩ := h'
  exact ⟨ds ++ es, hds.trans hes⟩

/-! ## Names stay -/

/-- Whether all names that are decided in one context are decided in the other one. -/
structure Persists (c c' : NamingContext) : Prop where
  /-- Classes keep their names. -/
  type : ∀ {className name : String}, c.classNames.find? className = some name →
    c'.classNames.find? className = some name
  /-- Fields keep their names. -/
  field : ∀ {ref : MemberRef} {name : String}, c.fieldNames.find? ref = some name →
    c'.fieldNames.find? ref = some name
  /-- Methods keep their names. -/
  method : ∀ {method : MethodId} {name : String}, c.methodNames.find? method = some name →
    c'.methodNames.find? method = some name

theorem Persists.refl (c : NamingContext) : Persists c c := ⟨id, id, id⟩

theorem Persists.trans {c c' c'' : NamingContext} (h : Persists c c') (h' : Persists c' c'') :
    Persists c c'' :=
  ⟨h'.type ∘ h.type, h'.field ∘ h.field, h'.method ∘ h.method⟩

theorem counters_of_pass? {c c' : NamingContext} {kind : SymbolKind} {name : String}
    (h : c.pass? kind name = some c') : c' = { c with counters := c'.counters } := by
  rw [NamingContext.pass?] at h
  split at h
  · obtain ⟨next, -, rfl⟩ := Option.map_eq_some_iff.1 h
    rfl
  · rw [← Option.some.inj h]

/-- Passing over names changes counters only. -/
theorem counters_of_passAll? {c c' : NamingContext} {kind : SymbolKind} {names : List String}
    (h : c.passAll? kind names = some c') : c' = { c with counters := c'.counters } := by
  induction names generalizing c with
  | nil => rw [← Option.some.inj h]
  | cons name names ih =>
    rw [NamingContext.passAll?_cons] at h
    obtain ⟨middle, hhead, htail⟩ := Option.bind_eq_some_iff.1 h
    rw [ih htail, counters_of_pass? hhead]

theorem counters_of_skip? {c c' : NamingContext} {kind : SymbolKind} (h : c.skip? kind = some c') :
    c' = { c with counters := c'.counters } := by
  obtain ⟨counters, -, rfl⟩ := Option.map_eq_some_iff.1 h
  rfl

/-- Choosing where a name comes from changes counters only. -/
theorem counters_of_chooses {kind : SymbolKind} {need : Bool} {offered : List String}
    {c c' : NamingContext} {provenance : Provenance}
    (h : Chooses kind need offered c provenance c') :
    c' = { c with counters := c'.counters } := by
  cases h with
  | kept => rfl
  | carried _ hpassed => exact counters_of_passAll? hpassed
  | minted hskip => exact counters_of_skip? hskip

/-- The name of a container stays. -/
theorem parentName_eq {c c' : NamingContext} (h : Persists c c') {id : ClassId}
    (houter : task.OuterNamed c id) : task.parentName c' id = task.parentName c id := by
  rw [parentName, parentName]
  cases hcontainer : (task.graph.classAt id).outer with
  | none => rfl
  | some outer =>
    obtain ⟨name, hname⟩ := Option.isSome_iff_exists.1 (houter outer hcontainer)
    rw [Option.bind_some, Option.bind_some, hname, h.type hname]

theorem OuterNamed.mono {c c' : NamingContext} (h : Persists c c') {id : ClassId}
    (houter : task.OuterNamed c id) : task.OuterNamed c' id := by
  intro outer hcontainer
  obtain ⟨name, hname⟩ := Option.isSome_iff_exists.1 (houter outer hcontainer)
  rw [h.type hname]
  rfl

/-- A decision leaves the names alone that have been decided before. -/
theorem Decides.persists {c c' : NamingContext} {d : Decision} (h : task.Decides c d c') :
    Persists c c' := by
  cases h with
  | type _ new _ _ chooses =>
    rw [counters_of_chooses chooses]
    exact ⟨fun hfind => Dictionary.find?_insert_of_new new hfind _, id, id⟩
  | field _ _ _ new chooses =>
    rw [counters_of_chooses chooses]
    exact ⟨id, fun hfind => Dictionary.find?_insert_of_new new hfind _, id⟩
  | method _ _ new chooses =>
    rw [counters_of_chooses chooses]
    exact ⟨id, id, fun hfind => Dictionary.find?_insert_of_new new hfind _⟩

theorem Log.persists {c c' : NamingContext} {ds : List Decision} (h : task.Log c ds c') :
    Persists c c' := by
  induction h with
  | nil => exact .refl _
  | snoc _ hd ih => exact ih.trans hd.persists

theorem Leads.persists {c c' : NamingContext} (h : task.Leads c c') : Persists c c' := by
  obtain ⟨ds, hds⟩ := h
  exact hds.persists

theorem Decides.leads {c c' : NamingContext} {d : Decision} (h : task.Decides c d c') :
    task.Leads c c' := ⟨[d], .snoc .nil h⟩

/-! ## Names by decisions -/

/-- The name that a symbol has in a context. -/
def nameIn? (task : NamingTask) (c : NamingContext) : Subject → Option String
  | .type id => c.classNames.find? (task.graph.nameAt id)
  | .field ref => c.fieldNames.find? ref
  | .method method => c.methodNames.find? method

/-- The name that a decision gives. -/
def nameBy (task : NamingTask) (c : NamingContext) (d : Decision) : String :=
  match d.subject with
  | .type id => task.classNameBy id (task.parentName c id) d.provenance
  | .field _ => d.provenance.name .field
  | .method _ => d.provenance.name .method

/-- A decision gives its symbol the name that it says, and the symbol keeps it. -/
theorem Decides.nameIn?_eq {c c' last : NamingContext} {d : Decision} (h : task.Decides c d c')
    (hlast : Persists c' last) : task.nameIn? last d.subject = some (task.nameBy last d) := by
  have hall := h.persists.trans hlast
  cases h with
  | type _ _ outer _ _ =>
    dsimp only [nameIn?, nameBy]
    rw [parentName_eq hall outer]
    refine hlast.type ?_
    dsimp only [NamingContext.setClass]
    rw [Dictionary.find?_insert, if_pos rfl]
  | field _ _ _ _ _ =>
    refine hlast.field ?_
    dsimp only [NamingContext.setField]
    rw [Dictionary.find?_insert, if_pos rfl]
    rfl
  | method _ _ _ _ =>
    refine hlast.method ?_
    dsimp only [NamingContext.setMethod]
    rw [Dictionary.find?_insert, if_pos rfl]
    rfl

/-- After a log every symbol that it decides about has the name that the decision says. -/
theorem Log.nameIn?_eq {c c' : NamingContext} {ds : List Decision} (h : task.Log c ds c')
    {d : Decision} (hd : d ∈ ds) : task.nameIn? c' d.subject = some (task.nameBy c' d) := by
  obtain ⟨before, after, rfl⟩ := List.append_of_mem hd
  obtain ⟨c₁, c₂, -, hdecides, hafter⟩ := h.divide
  exact hdecides.nameIn?_eq hafter.persists

end NamingTask

end StableNaming
