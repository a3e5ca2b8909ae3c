import Mathlib.Order.Defs.Unbundled
import StableNaming.Proofs.Naming.Numbers

/-!
# What a step may change

What a step has changed stays also if the step fails. So a relation between the states
before and after a run has to hold however the run ends. The basic steps keep to a few
such relations, each closed under doing one step after another, and so does every run.
-/

namespace StableNaming

namespace NamingM

variable {ρ α β : Type} {R R' : NamingState ρ → NamingState ρ → Prop}

/-- Whether the state after a step is related to the state before it, also if it fails. -/
def Moves (R : NamingState ρ → NamingState ρ → Prop) (x : NamingM ρ α) : Prop :=
  ∀ s, R s (x.run s).2

theorem Moves.mono {x : NamingM ρ α} (hx : Moves R x) (h : ∀ {s t}, R s t → R' s t) :
    Moves R' x :=
  fun s => h (hx s)

theorem Moves.of_succeeds {x : NamingM ρ α} {s t : NamingState ρ} {a : α} (hx : Moves R x)
    (h : Succeeds x s a t) : R s t := by
  have hmove := hx s
  rw [h] at hmove
  exact hmove

/-- Whether what holds before a step holds after it. -/
def Keeps (I : NamingState ρ → Prop) (s t : NamingState ρ) : Prop := I s → I t

instance (I : NamingState ρ → Prop) : IsPreorder (NamingState ρ) (Keeps I) where
  refl _ := id
  trans _ _ _ h h' := h' ∘ h

section Preorder

variable [IsPreorder (NamingState ρ) R]

theorem moves_pure (a : α) : Moves R (pure a) := fun s => refl_of R s

theorem moves_throw (fault : NamingFault) : Moves R (throw fault : NamingM ρ α) :=
  fun s => refl_of R s

theorem moves_context : Moves R context := fun s => refl_of R s

theorem moves_ask (answer : Except PolicyFault α) : Moves R (ask answer) := by
  cases answer with
  | ok a => exact moves_pure a
  | error fault => exact moves_throw _

theorem Moves.bind {x : NamingM ρ α} {f : α → NamingM ρ β} (hx : Moves R x)
    (hf : ∀ a, Moves R (f a)) : Moves R (x >>= f) := by
  intro s
  have hfirst := hx s
  cases hrun : x.run s with
  | mk outcome t =>
    rw [hrun] at hfirst
    cases outcome with
    | error fault =>
      rw [run_bind_of_error hrun]
      exact hfirst
    | ok a =>
      rw [run_bind_of_succeeds hrun]
      exact trans_of R hfirst (hf a t)

theorem moves_forM {f : α → NamingM ρ PUnit} {xs : List α} (hf : ∀ x ∈ xs, Moves R (f x)) :
    Moves R (xs.forM f) := by
  induction xs with
  | nil => exact moves_pure PUnit.unit
  | cons x xs ih =>
    exact (hf x List.mem_cons_self).bind fun _ =>
      ih fun y hy => hf y (List.mem_cons_of_mem x hy)

theorem moves_filterMapM {f : α → NamingM ρ (Option β)} {xs : List α}
    (hf : ∀ x ∈ xs, Moves R (f x)) : Moves R (xs.filterMapM f) := by
  induction xs with
  | nil => exact moves_pure []
  | cons x xs ih =>
    have hrest := ih fun y hy => hf y (List.mem_cons_of_mem x hy)
    rw [List.filterMapM_cons]
    refine (hf x List.mem_cons_self).bind fun b => ?_
    cases b with
    | none => exact hrest
    | some b => exact hrest.bind fun _ => moves_pure _

end Preorder

end NamingM

open NamingM NamingTask

variable {ρ : Type} [ConflictResolver ρ]

/-- Whether one state may follow another in a run: names stay, and counters do not go back. -/
structure Later (s t : NamingState ρ) : Prop where
  /-- What has a name keeps it. -/
  persists : Persists s.context t.context
  /-- No counter goes back. -/
  get_counters_le : ∀ kind, s.context.counters.get kind ≤ t.context.counters.get kind
  /-- A resolver whose answers leave it as it is stays so. -/
  resolver_eq : (∀ c, (ConflictResolver.resolve c s.resolver).2 = s.resolver) →
    t.resolver = s.resolver

/-- Whether moreover no method but one gets a name. -/
structure Spares (method : MethodId) (s t : NamingState ρ) : Prop extends Later s t where
  /-- The names of all other methods are the same. -/
  find?_eq : ∀ {other : MethodId}, other ≠ method →
    t.context.methodNames.find? other = s.context.methodNames.find? other

/-- Whether moreover no method gets a name. -/
structure Aside (s t : NamingState ρ) : Prop extends Later s t where
  /-- The names of methods are the same. -/
  methodNames_eq : t.context.methodNames = s.context.methodNames

/-- Whether moreover nothing gets a name. -/
structure Counts (s t : NamingState ρ) : Prop extends Later s t where
  /-- Only the counters differ. -/
  context_eq : t.context = { s.context with counters := t.context.counters }

theorem Later.trans {s t u : NamingState ρ} (h : Later s t) (h' : Later t u) : Later s u where
  persists := h.persists.trans h'.persists
  get_counters_le kind := (h.get_counters_le kind).trans (h'.get_counters_le kind)
  resolver_eq hstays := by
    have ht := h.resolver_eq hstays
    exact (h'.resolver_eq (ht ▸ hstays)).trans ht

theorem Aside.spares {s t : NamingState ρ} (h : Aside s t) {method : MethodId} :
    Spares method s t where
  toLater := h.toLater
  find?_eq _ := by rw [h.methodNames_eq]

theorem Counts.aside {s t : NamingState ρ} (h : Counts s t) : Aside s t where
  toLater := h.toLater
  methodNames_eq := by rw [h.context_eq]

/-- A step that changes counters only, and no resolver, may raise them. -/
theorem counts_of_counters {s : NamingState ρ} {counters : Counters}
    (h : ∀ kind, s.context.counters.get kind ≤ counters.get kind) :
    Counts s { s with context := { s.context with counters } } where
  persists := ⟨id, id, id⟩
  get_counters_le := h
  resolver_eq _ := rfl
  context_eq := rfl

instance : IsPreorder (NamingState ρ) Later where
  refl _ := ⟨.refl _, fun _ => Nat.le_refl _, fun _ => rfl⟩
  trans _ _ _ := Later.trans

instance (method : MethodId) : IsPreorder (NamingState ρ) (Spares method) where
  refl s := ⟨refl_of Later s, fun _ => rfl⟩
  trans _ _ _ h h' := ⟨h.toLater.trans h'.toLater,
    fun hother => (h'.find?_eq hother).trans (h.find?_eq hother)⟩

instance : IsPreorder (NamingState ρ) Aside where
  refl s := ⟨refl_of Later s, rfl⟩
  trans _ _ _ h h' := ⟨h.toLater.trans h'.toLater, h'.methodNames_eq.trans h.methodNames_eq⟩

instance : IsPreorder (NamingState ρ) Counts where
  refl s := ⟨refl_of Later s, rfl⟩
  trans _ _ _ h h' := ⟨h.toLater.trans h'.toLater, by rw [h'.context_eq, h.context_eq]⟩

/-! ## Basic steps -/

theorem moves_observe (kind : SymbolKind) (name : String) :
    Moves Counts (observe kind name : NamingM ρ Unit) := by
  intro s
  rw [observe, run_context_bind]
  cases hpassed : s.context.pass? kind name with
  | none => exact refl_of Counts s
  | some c =>
    change Counts s { s with context := c }
    rw [counters_of_pass? hpassed]
    refine counts_of_counters fun kind' => ?_
    rw [NamingContext.get_counters_pass? hpassed]
    split
    · rename_i heq
      exact heq ▸ le_nextAfter _ _
    · exact Nat.le_refl _

theorem moves_mint (kind : SymbolKind) : Moves Counts (mint kind : NamingM ρ String) := by
  intro s
  rw [mint, run_context_bind]
  cases hminted : s.context.mint? kind with
  | none => exact refl_of Counts s
  | some minted =>
    obtain ⟨name, c⟩ := minted
    have hskip := (NamingContext.mint?_eq_some_iff.1 hminted).2
    change Counts s { s with context := c }
    rw [counters_of_skip? hskip]
    refine counts_of_counters fun kind' => ?_
    rw [NamingContext.get_counters_skip? hskip]
    split
    · rename_i heq
      exact heq ▸ Nat.le_succ _
    · exact Nat.le_refl _

theorem moves_resolve (c : NamingConflict) : Moves Counts (resolve c : NamingM ρ Nat) := by
  intro s
  rw [run_resolve]
  exact ⟨⟨.refl _, fun _ => Nat.le_refl _, fun hstays => hstays c⟩, rfl⟩

namespace NamingTask

variable {task : NamingTask} {s : NamingState ρ}

/-! ## New names -/

theorem moves_newClassName (c : ClassSymbol) (parent : Option String) :
    Moves Counts (task.newClassName c parent : NamingM ρ String) := by
  rw [newClassName_eq]
  refine Moves.bind ?_ fun needed => ?_
  · split
    · exact moves_ask _
    · exact moves_pure _
  · rw [nameClass]
    split
    · split
      · exact (moves_observe _ _).bind fun _ => moves_pure _
      · exact (moves_mint _).bind fun _ => moves_pure _
    · exact moves_pure _

theorem moves_newFieldName (ref : MemberRef) :
    Moves Counts (task.newFieldName ref : NamingM ρ String) := by
  rw [newFieldName]
  split
  · exact (moves_observe _ _).bind fun _ => moves_pure _
  · exact moves_mint _

theorem moves_chooseName (member : MemberRef) (candidates : Candidates) :
    Moves Counts (chooseName member candidates : NamingM ρ String) := by
  rw [chooseName]
  split
  · exact moves_mint _
  · exact moves_pure _
  · refine (moves_resolve _).bind fun index => ?_
    split
    · exact moves_pure _
    · exact moves_throw _

theorem moves_newMethodName (member : MemberRef) (family : List ClassId) :
    Moves Counts (task.newMethodName member family : NamingM ρ String) := by
  rw [newMethodName]
  exact (moves_forM fun _ _ => moves_observe _ _).bind fun _ => moves_chooseName _ _

/-- What holds of a choice that fails, and of one that succeeds once the name is stored, holds of
choosing a name and storing it. -/
theorem moves_stored {R : NamingState ρ → NamingState ρ → Prop} {x : NamingM ρ String}
    {store : NamingContext → String → NamingContext} (hx : Moves Counts x)
    (hcounts : ∀ {t}, Counts s t → R s t)
    (hstore : ∀ {name t}, Counts s t → Succeeds x s name t →
      R s { t with context := store t.context name }) :
    R s ((do let name ← x; modifyContext (store · name); pure name).run s).2 := by
  have hfirst := hx s
  cases hrun : x.run s with
  | mk outcome t =>
    rw [hrun] at hfirst
    cases outcome with
    | error fault =>
      rw [run_bind_of_error hrun]
      exact hcounts hfirst
    | ok name =>
      rw [run_bind_of_succeeds hrun]
      exact hstore hfirst hrun

/-! ## Names of classes and fields -/

theorem moves_classNameFor (c : ClassSymbol) :
    Moves Aside (task.classNameFor c : NamingM ρ String) := by
  intro s
  rw [classNameFor, run_context_bind]
  cases hknown : s.context.classNames.find? c.name with
  | some known => exact refl_of Aside s
  | none =>
    refine moves_stored (moves_newClassName _ _) Counts.aside fun {name t} ht _ => ?_
    have hnew : t.context.classNames.find? c.name = none := by rw [ht.context_eq]; exact hknown
    exact ⟨⟨⟨fun h => Dictionary.find?_insert_of_new hnew (ht.persists.type h) _,
      ht.persists.field, ht.persists.method⟩, ht.get_counters_le, ht.resolver_eq⟩,
      ht.aside.methodNames_eq⟩

theorem moves_fieldNameFor (ref : MemberRef) :
    Moves Aside (task.fieldNameFor ref : NamingM ρ String) := by
  intro s
  rw [fieldNameFor, run_context_bind]
  cases hknown : s.context.fieldNames.find? ref with
  | some known => exact refl_of Aside s
  | none =>
    refine moves_stored (moves_newFieldName _) Counts.aside fun {name t} ht _ => ?_
    have hnew : t.context.fieldNames.find? ref = none := by rw [ht.context_eq]; exact hknown
    exact ⟨⟨⟨ht.persists.type,
      fun h => Dictionary.find?_insert_of_new hnew (ht.persists.field h) _, ht.persists.method⟩,
      ht.get_counters_le, ht.resolver_eq⟩, ht.aside.methodNames_eq⟩

theorem moves_fieldEntry (c : ClassSymbol) (f : Member) :
    Moves Aside (task.fieldEntry c f : NamingM ρ (Option MemberEntry)) := by
  rw [fieldEntry]
  refine (moves_ask _).bind fun needed => ?_
  split
  · exact (moves_fieldNameFor _).bind fun _ => moves_pure _
  · exact moves_pure _

/-! ## Names of methods -/

theorem moves_methodNameFor (hgraph : task.graph.Finished) {id : ClassId} {key : MemberKey}
    {method : MethodId} (hslot : task.graph.slot? id key = some method) :
    Moves (Spares method) (task.methodNameFor id key method : NamingM ρ String) := by
  intro s
  rw [methodNameFor, run_context_bind]
  cases hknown : s.context.methodNames.find? method with
  | some known => exact refl_of (Spares method) s
  | none =>
    refine moves_stored (moves_newMethodName _ _) (fun ht => ht.aside.spares)
      fun {name t} ht _ => ?_
    have hsame := ht.aside.methodNames_eq
    rw [NamingContext.setMethods_eq_setMethod name fun m hm => eq_of_mem_shared hgraph hslot hm]
    refine ⟨⟨⟨ht.persists.type, ht.persists.field, fun h => ?_⟩, ht.get_counters_le,
      ht.resolver_eq⟩, fun {other} hother => ?_⟩
    · rw [← hsame] at hknown
      exact Dictionary.find?_insert_of_new hknown (ht.persists.method h) _
    · dsimp only [NamingContext.setMethod]
      rw [Dictionary.find?_insert, if_neg hother.symm, hsame]

theorem moves_methodEntry {R : NamingState ρ → NamingState ρ → Prop} [IsPreorder (NamingState ρ) R]
    {id : ClassId} {slot : MemberKey × MethodId}
    (hname : Moves R (task.methodNameFor id slot.1 slot.2)) :
    Moves R (task.methodEntry id slot) := by
  rw [methodEntry]
  split
  · exact moves_pure _
  · split
    · exact moves_pure _
    · rw [sourceEntry]
      refine (moves_ask _).bind fun needed => ?_
      split
      · exact hname.bind fun _ => moves_pure _
      · exact moves_pure _

/-! ## Runs -/

section Runs

variable {R : NamingState ρ → NamingState ρ → Prop} [IsPreorder (NamingState ρ) R]
  (haside : ∀ {s t}, Aside s t → R s t)
  (hname : ∀ {id key method}, task.graph.slot? id key = some method →
    Moves R (task.methodNameFor id key method))
include haside hname

/-- Visiting a class keeps to a relation if naming a family does and what names no method does. -/
theorem moves_visit_of (id : ClassId) : Moves R (task.visit id) := by
  rw [visit]
  refine ((moves_classNameFor _).mono haside).bind fun target => ?_
  split
  · refine Moves.bind ?_ fun fields => Moves.bind ?_ fun methods => moves_pure _
    · exact moves_filterMapM fun f _ => (moves_fieldEntry _ f).mono haside
    · exact moves_filterMapM fun slot hslot =>
        moves_methodEntry (hname (KeyMap.find?_eq_some_iff.2 hslot))
  · exact moves_pure _

/-- So does a run. -/
theorem moves_run_of : Moves R (task.run : NamingM ρ MappingSet) := by
  rw [run]
  refine (moves_filterMapM fun id _ => moves_visit_of haside hname id).bind fun classes => ?_
  exact moves_context.bind fun context => moves_pure _

end Runs

theorem later_methodEntry (hgraph : task.graph.Finished) {id : ClassId}
    {slot : MemberKey × MethodId} (hslot : slot ∈ (task.graph.classAt id).methods.entries) :
    Moves Later (task.methodEntry id slot : NamingM ρ (Option MemberEntry)) := by
  have hname := moves_methodNameFor (ρ := ρ) hgraph (KeyMap.find?_eq_some_iff.2 hslot)
  exact moves_methodEntry (hname.mono Spares.toLater)

theorem later_visit (hgraph : task.graph.Finished) (id : ClassId) :
    Moves Later (task.visit id : NamingM ρ (Option ClassEntry)) :=
  moves_visit_of Aside.toLater (fun hslot => (moves_methodNameFor hgraph hslot).mono Spares.toLater)
    id

end NamingTask

end StableNaming
