import StableNaming.Proofs.Naming.Moves
import StableNaming.Proofs.Naming.Run

/-!
# Why a run fails

A run that fails has made decisions before, and nothing is named after the last of them.
It is stopped at one symbol: the policies contradict each other about it, or its family
is offered more than one name, or there is no room for its name, because the counter
cannot be moved past it. So a run in which nothing is contested fails only for want of
room.
-/

namespace StableNaming

namespace NamingM

variable {ρ α β : Type} {s t : NamingState ρ} {fault : NamingFault}

/-- Whether a step that starts in `s` fails with a fault and ends in `t`. -/
def Fails (x : NamingM ρ α) (s : NamingState ρ) (fault : NamingFault) (t : NamingState ρ) : Prop :=
  x.run s = (.error fault, t)

/-- Every step succeeds or fails. -/
theorem succeeds_or_fails (x : NamingM ρ α) (s : NamingState ρ) :
    (∃ a t, Succeeds x s a t) ∨ ∃ fault t, Fails x s fault t := by
  cases hrun : x.run s with
  | mk outcome t =>
    cases outcome with
    | ok a => exact .inl ⟨a, t, hrun⟩
    | error fault => exact .inr ⟨fault, t, hrun⟩

theorem Moves.of_fails {R : NamingState ρ → NamingState ρ → Prop} {x : NamingM ρ α}
    (hx : Moves R x) (h : Fails x s fault t) : R s t := by
  have hmove := hx s
  rw [h] at hmove
  exact hmove

@[simp] theorem not_fails_pure {a : α} : ¬ Fails (pure a) s fault t := by
  intro h
  cases h

@[simp] theorem not_fails_context : ¬ Fails context s fault t := by
  intro h
  cases h

@[simp] theorem not_fails_modifyContext {f : NamingContext → NamingContext} :
    ¬ Fails (modifyContext f) s fault t := by
  intro h
  cases h

@[simp] theorem fails_throw_iff {thrown : NamingFault} :
    Fails (throw thrown : NamingM ρ α) s fault t ↔ fault = thrown ∧ t = s := by
  change (Except.error thrown, s) = (Except.error fault, t) ↔ _
  rw [Prod.mk.injEq, Except.error.injEq, eq_comm, eq_comm (a := s)]

@[simp] theorem fails_bind_iff {x : NamingM ρ α} {f : α → NamingM ρ β} :
    Fails (x >>= f) s fault t ↔
      Fails x s fault t ∨ ∃ a u, Succeeds x s a u ∧ Fails (f a) u fault t := by
  constructor
  · intro h
    rcases succeeds_or_fails x s with ⟨a, u, hx⟩ | ⟨fault', u, hx⟩
    · rw [Fails, run_bind_of_succeeds hx] at h
      exact .inr ⟨a, u, hx, h⟩
    · rw [Fails, run_bind_of_error hx] at h
      cases h
      exact .inl hx
  · rintro (hx | ⟨a, u, hx, hf⟩)
    · exact run_bind_of_error hx f
    · exact (run_bind_of_succeeds hx f).trans hf

theorem fails_context_bind_iff {f : NamingContext → NamingM ρ α} :
    Fails (context >>= f) s fault t ↔ Fails (f s.context) s fault t := Iff.rfl

@[simp] theorem fails_ask_iff {answer : Except PolicyFault α} :
    Fails (ask answer : NamingM ρ α) s fault t ↔
      ∃ reason, answer = .error reason ∧ fault = .policy reason ∧ t = s := by
  cases answer with
  | ok a =>
    rw [ask]
    simp
  | error reason =>
    rw [ask]
    simp

/-- A name can be passed over or there is no word past its number. -/
theorem fails_observe_iff {kind : SymbolKind} {name : String} :
    Fails (observe kind name) s fault t ↔
      s.context.pass? kind name = none ∧ fault = .overflow ∧ t = s := by
  rw [observe, fails_context_bind_iff]
  cases s.context.pass? kind name <;> simp

/-- A name can be made up or its number is the last word. -/
theorem fails_mint_iff {kind : SymbolKind} :
    Fails (mint kind) s fault t ↔ s.context.skip? kind = none ∧ fault = .overflow ∧ t = s := by
  rw [mint, fails_context_bind_iff, NamingContext.mint?, Counters.next?, NamingContext.skip?]
  cases s.context.counters.skip? kind with
  | none => simp
  | some counters =>
    simp only [Option.map_some, fails_bind_iff, not_fails_modifyContext, not_fails_pure, and_false,
      exists_false, or_false, reduceCtorEq, false_and]

/-- Names can be passed over one after the other or there is no word past the number of one. -/
theorem of_fails_observeAll {kind : SymbolKind} {names : List String}
    (h : Fails (names.forM (observe kind)) s fault t) :
    s.context.passAll? kind names = none ∧ fault = .overflow := by
  induction names generalizing s with
  | nil => exact absurd h not_fails_pure
  | cons name names ih =>
    change Fails (observe kind name >>= fun _ => names.forM (observe kind)) s fault t at h
    rw [NamingContext.passAll?_cons]
    simp only [fails_bind_iff, fails_observe_iff, succeeds_observe_iff] at h
    rcases h with ⟨hnone, rfl, -⟩ | ⟨_, _, ⟨c, hpassed, rfl⟩, hrest⟩
    · rw [hnone]
      exact ⟨rfl, rfl⟩
    · rw [hpassed]
      exact ih hrest

/-- A run along a list that fails does so at one element, after the steps at all elements before
have succeeded. -/
theorem exists_of_fails_filterMapM {f : α → NamingM ρ (Option β)} {xs : List α}
    (h : Fails (xs.filterMapM f) s fault t) :
    ∃ done x rest bs u, xs = done ++ x :: rest ∧ Succeeds (done.filterMapM f) s bs u ∧
      Fails (f x) u fault t := by
  induction xs generalizing s with
  | nil => exact absurd h not_fails_pure
  | cons x xs ih =>
    rw [List.filterMapM_cons, fails_bind_iff] at h
    rcases h with hx | ⟨b, u, hx, hrest⟩
    · exact ⟨[], x, xs, [], s, rfl, succeeds_filterMapM_nil_iff.2 ⟨rfl, rfl⟩, hx⟩
    · have hrest : Fails (xs.filterMapM f) u fault t := by
        cases b with
        | none => exact hrest
        | some b =>
          simpa only [fails_bind_iff, not_fails_pure, and_false, exists_false, or_false]
            using hrest
      obtain ⟨done, y, rest, bs, v, rfl, hdone, hy⟩ := ih hrest
      exact ⟨x :: done, y, rest, _, v, rfl,
        succeeds_filterMapM_cons_iff.2 ⟨b, u, bs, hx, hdone, rfl⟩, hy⟩

end NamingM

open NamingM

/-- Whether there is room for the name of a symbol that needs one: no offered name has the last
word as its number, and if none is offered the next number is not the last word. -/
structure Room (kind : SymbolKind) (offered : List String) (c : NamingContext) : Prop where
  /-- There are words past the numbers of all offered names. -/
  carried : ∀ name ∈ offered, ∀ n, kind.suffix? name = some n → n + 1 < Text.wordLimit
  /-- There is a word past the next number. -/
  minted : offered = [] → c.counters.get kind + 1 < Text.wordLimit

/-- There is room for a single name if some counter is past its number. -/
theorem Room.of_passed {kind : SymbolKind} {name : String} {counters : Counters}
    (h : ∀ n, kind.suffix? name = some n → n < counters.get kind) (c : NamingContext) :
    Room kind [name] c where
  carried name' hname' n hn := by
    rw [List.mem_singleton.1 hname'] at hn
    have hlt := h n hn
    have hword := counters.get_lt kind
    omega
  minted hnil := by cases hnil

namespace NamingTask

variable {ρ : Type} {task : NamingTask} {s t : NamingState ρ} {fault : NamingFault}

/-- Whether a symbol needs a name and has none, and which names are offered. -/
inductive Awaits (task : NamingTask) (c : NamingContext) : Subject → List String → Prop where
  /-- A class. -/
  | type {id : ClassId} (lt_size : id < task.graph.size)
    (new : c.classNames.find? (task.graph.nameAt id) = none)
    (decision : task.classDecision id = .ok true) :
    Awaits task c (.type id) (task.heritage.className? (task.graph.nameAt id)).toList
  /-- A field. -/
  | field {id : ClassId} {f : Member} (loaded : (task.graph.classAt id).loaded = true)
    (mem : f ∈ (task.graph.classAt id).fields.values)
    (new : c.fieldNames.find? ⟨task.graph.nameAt id, f.key⟩ = none)
    (decision : task.chain.needsFieldName (task.graph.classAt id) f = .ok true) :
    Awaits task c (.field ⟨task.graph.nameAt id, f.key⟩)
      (task.heritage.fieldName? ⟨task.graph.nameAt id, f.key⟩).toList
  /-- A method, at a class where its family starts. -/
  | method {id : ClassId} {key : MemberKey} {method : MethodId} {symbol : MethodSymbol}
    (starts : task.Starts id key method symbol)
    (new : c.methodNames.find? method = none)
    (decision : task.chain.needsMethodName (task.graph.classAt id) symbol = .ok true) :
    Awaits task c (.method method) (task.candidates (task.hierarchy.family id key) key).keys

/-- Whether the policies contradict each other about a symbol. -/
inductive Undecided (task : NamingTask) : PolicyFault → Prop where
  /-- A class. -/
  | type {id : ClassId} {reason : PolicyFault} (lt_size : id < task.graph.size)
    (decision : task.classDecision id = .error reason) : Undecided task reason
  /-- A field. -/
  | field {id : ClassId} {f : Member} {reason : PolicyFault}
    (loaded : (task.graph.classAt id).loaded = true)
    (mem : f ∈ (task.graph.classAt id).fields.values)
    (decision : task.chain.needsFieldName (task.graph.classAt id) f = .error reason) :
    Undecided task reason
  /-- A method, at a class where its family starts. -/
  | method {id : ClassId} {key : MemberKey} {method : MethodId} {symbol : MethodSymbol}
    {reason : PolicyFault} (starts : task.Starts id key method symbol)
    (decision : task.chain.needsMethodName (task.graph.classAt id) symbol = .error reason) :
    Undecided task reason

/-- Whether a run can stop with a fault when the names of a context have been decided. -/
inductive Stops (task : NamingTask) (c : NamingContext) : NamingFault → Prop where
  /-- The policies contradict each other. -/
  | policy {reason : PolicyFault} (undecided : task.Undecided reason) :
    Stops task c (.policy reason)
  /-- There is no room for a name. -/
  | overflow {subject : Subject} {offered : List String} (awaits : task.Awaits c subject offered)
    (no_room : ¬ Room subject.kind offered c) : Stops task c .overflow
  /-- A family that needs a name is offered more than one. -/
  | contested {id : ClassId} {key : MemberKey} {method : MethodId} {symbol : MethodSymbol}
    {fault : NamingFault} (starts : task.Starts id key method symbol)
    (decision : task.chain.needsMethodName (task.graph.classAt id) symbol = .ok true)
    (two_le : 2 ≤ (task.candidates (task.hierarchy.family id key) key).keys.length) :
    Stops task c fault

/-! ## Steps that fail -/

/-- There is no room for a name that cannot be carried over. -/
theorem not_room_of_pass? {kind : SymbolKind} {c c' : NamingContext} {names : List String}
    (h : c.passAll? kind names = none) : ¬ Room kind names c' := by
  intro hroom
  obtain ⟨last, hlast⟩ := NamingContext.exists_passAll?_iff.2 hroom.carried
  rw [h] at hlast
  cases hlast

/-- There is no room for a name that cannot be made up. -/
theorem not_room_of_skip? {kind : SymbolKind} {c : NamingContext} (h : c.skip? kind = none) :
    ¬ Room kind [] c := by
  intro hroom
  obtain ⟨last, hlast⟩ := NamingContext.exists_skip?_iff.2 (hroom.minted rfl)
  rw [h] at hlast
  cases hlast

/-- A class for which it is known whether it needs a name fails to get one for want of room. -/
theorem of_fails_nameClass {c : ClassSymbol} {parent : Option String} {need : Bool}
    (h : Fails (task.nameClass c parent need) s fault t) :
    need = true ∧ fault = .overflow ∧
      ¬ Room .type (task.heritage.className? c.name).toList s.context := by
  rw [nameClass] at h
  cases need with
  | false => exact absurd h not_fails_pure
  | true =>
    rw [if_pos rfl] at h
    refine ⟨rfl, ?_⟩
    cases hfound : task.heritage.className? c.name with
    | some found =>
      rw [hfound] at h
      simp only [fails_bind_iff, fails_observe_iff, not_fails_pure, and_false, exists_false,
        or_false, ← NamingContext.passAll?_singleton] at h
      exact ⟨h.2.1, not_room_of_pass? h.1⟩
    | none =>
      rw [hfound] at h
      simp only [fails_bind_iff, fails_mint_iff, not_fails_pure, and_false, exists_false,
        or_false] at h
      exact ⟨h.2.1, not_room_of_skip? h.1⟩

/-- The same for a field. -/
theorem of_fails_newFieldName {ref : MemberRef} (h : Fails (task.newFieldName ref) s fault t) :
    fault = .overflow ∧ ¬ Room .field (task.heritage.fieldName? ref).toList s.context := by
  rw [newFieldName] at h
  cases hfound : task.heritage.fieldName? ref with
  | some found =>
    rw [hfound] at h
    simp only [fails_bind_iff, fails_observe_iff, not_fails_pure, and_false, exists_false,
      or_false, ← NamingContext.passAll?_singleton] at h
    exact ⟨h.2.1, not_room_of_pass? h.1⟩
  | none =>
    rw [hfound] at h
    obtain ⟨hskip, rfl, -⟩ := fails_mint_iff.1 h
    exact ⟨rfl, not_room_of_skip? hskip⟩

section Resolver

variable [ConflictResolver ρ]

/-- A family fails to get a name for want of room or because it is offered more than one. -/
theorem of_fails_newMethodName {member : MemberRef} {family : List ClassId}
    (h : Fails (task.newMethodName member family) s fault t) :
    (fault = .overflow ∧ ¬ Room .method (task.candidates family member.key).keys s.context) ∨
      2 ≤ (task.candidates family member.key).keys.length := by
  rw [newMethodName] at h
  simp only [fails_bind_iff, succeeds_observeAll_iff] at h
  rcases h with h | ⟨_, _, ⟨c, hpassed, rfl⟩, h⟩
  · obtain ⟨hnone, rfl⟩ := of_fails_observeAll h
    exact .inl ⟨rfl, not_room_of_pass? hnone⟩
  · rw [chooseName] at h
    split at h
    · rename_i hnil
      rw [hnil] at hpassed ⊢
      obtain rfl := Option.some.inj hpassed
      obtain ⟨hskip, rfl, -⟩ := fails_mint_iff.1 h
      exact .inl ⟨rfl, not_room_of_skip? hskip⟩
    · exact absurd h not_fails_pure
    · rename_i hnone hsingle
      refine .inr ?_
      cases hkeys : (task.candidates family member.key).keys with
      | nil => exact absurd hkeys hnone
      | cons only rest =>
        cases rest with
        | nil => exact absurd hkeys (hsingle only)
        | cons _ rest =>
          simp only [List.length_cons]
          omega

/-- A class without a name fails to get one if the policies contradict each other, or for want of
room. -/
theorem of_fails_classNameFor {id : ClassId} (hid : id < task.graph.size)
    (houter : task.OuterNamed s.context id)
    (h : Fails (task.classNameFor (task.graph.classAt id)) s fault t) :
    Counts s t ∧ task.Stops s.context fault := by
  rw [classNameFor, fails_context_bind_iff] at h
  cases hknown : s.context.classNames.find? (task.graph.classAt id).name with
  | some known =>
    rw [hknown] at h
    exact absurd h not_fails_pure
  | none =>
    rw [hknown] at h
    simp only [fails_bind_iff, not_fails_modifyContext, not_fails_pure, and_false, exists_false,
      or_false] at h
    refine ⟨(moves_newClassName _ _).of_fails h, ?_⟩
    change Fails (task.newClassName _ (task.parentName s.context id)) s fault t at h
    rw [newClassName_eq, ask_classDecision_eq (isSome_parentName houter), fails_bind_iff] at h
    rcases h with h | ⟨need, u, hasked, h⟩
    · obtain ⟨reason, hreason, rfl, -⟩ := fails_ask_iff.1 h
      exact .policy (.type hid hreason)
    · obtain ⟨hneed, rfl⟩ := succeeds_ask_iff.1 hasked
      obtain ⟨rfl, rfl, hroom⟩ := of_fails_nameClass h
      exact .overflow (.type hid hknown hneed) hroom

/-- So does a field. -/
theorem of_fails_fieldEntry {id : ClassId} {f : Member}
    (hloaded : (task.graph.classAt id).loaded = true)
    (hmem : f ∈ (task.graph.classAt id).fields.values)
    (h : Fails (task.fieldEntry (task.graph.classAt id) f) s fault t) :
    Counts s t ∧ task.Stops s.context fault := by
  rw [fieldEntry, fails_bind_iff] at h
  rcases h with h | ⟨need, u, hasked, h⟩
  · obtain ⟨reason, hreason, rfl, rfl⟩ := fails_ask_iff.1 h
    exact ⟨refl_of Counts _, .policy (.field hloaded hmem hreason)⟩
  · obtain ⟨hneed, rfl⟩ := succeeds_ask_iff.1 hasked
    cases need with
    | false => exact absurd h not_fails_pure
    | true =>
      rw [if_pos rfl] at h
      simp only [fails_bind_iff, not_fails_pure, and_false, exists_false, or_false] at h
      rw [fieldNameFor, fails_context_bind_iff] at h
      cases hknown : u.context.fieldNames.find? ⟨(task.graph.classAt id).name, f.key⟩ with
      | some known =>
        rw [hknown] at h
        exact absurd h not_fails_pure
      | none =>
        rw [hknown] at h
        simp only [fails_bind_iff, not_fails_modifyContext, not_fails_pure, and_false,
          exists_false, or_false] at h
        obtain ⟨rfl, hroom⟩ := of_fails_newFieldName h
        exact ⟨(moves_newFieldName _).of_fails h,
          .overflow (.field hloaded hmem hknown hneed) hroom⟩

/-- A method fails to get its entry also if its family is offered more than one name. -/
theorem of_fails_methodEntry {id : ClassId} {slot : MemberKey × MethodId}
    (hloaded : (task.graph.classAt id).loaded = true)
    (hmem : slot ∈ (task.graph.classAt id).methods.entries)
    (h : Fails (task.methodEntry id slot) s fault t) :
    Counts s t ∧ task.Stops s.context fault := by
  have hslot : task.graph.slot? id slot.1 = some slot.2 := KeyMap.find?_eq_some_iff.2 hmem
  rw [methodEntry] at h
  by_cases hskip : (slot.1.isInitializer || !task.hierarchy.isSource id slot.1) = true
  · rw [if_pos hskip] at h
    exact absurd h not_fails_pure
  rw [if_neg hskip] at h
  rw [Bool.or_eq_true, not_or, Bool.not_eq_true, Bool.not_eq_true, Bool.not_eq_false'] at hskip
  cases hsymbol : task.graph.methodAt? slot.2 with
  | none =>
    rw [hsymbol] at h
    exact absurd h not_fails_pure
  | some symbol =>
    have hstarts : task.Starts id slot.1 slot.2 symbol :=
      ⟨hloaded, hslot, hskip.1, hskip.2, hsymbol⟩
    rw [hsymbol] at h
    dsimp only at h
    rw [sourceEntry, fails_bind_iff] at h
    rcases h with h | ⟨need, u, hasked, h⟩
    · obtain ⟨reason, hreason, rfl, rfl⟩ := fails_ask_iff.1 h
      exact ⟨refl_of Counts _, .policy (.method hstarts hreason)⟩
    · obtain ⟨hneed, rfl⟩ := succeeds_ask_iff.1 hasked
      cases need with
      | false => exact absurd h not_fails_pure
      | true =>
        rw [if_pos rfl] at h
        simp only [fails_bind_iff, not_fails_pure, and_false, exists_false, or_false] at h
        rw [methodNameFor, fails_context_bind_iff] at h
        cases hknown : u.context.methodNames.find? slot.2 with
        | some known =>
          rw [hknown] at h
          exact absurd h not_fails_pure
        | none =>
          rw [hknown] at h
          simp only [fails_bind_iff, not_fails_modifyContext, not_fails_pure, and_false,
            exists_false, or_false] at h
          refine ⟨(moves_newMethodName _ _).of_fails h, ?_⟩
          rcases of_fails_newMethodName h with ⟨rfl, hroom⟩ | htwo
          · exact .overflow (.method hstarts hknown hneed) hroom
          · exact .contested hstarts hneed htwo

/-! ## Runs that fail -/

/-- Whether a log leads from one state to where a fault stops the run, which ends in the other
state. -/
def StopsAfter (task : NamingTask) (s : NamingState ρ) (fault : NamingFault) (t : NamingState ρ) :
    Prop :=
  ∃ u, task.Leads s.context u.context ∧ Counts u t ∧ task.Stops u.context fault

theorem StopsAfter.of_leads {u : NamingState ρ} (hlog : task.Leads s.context u.context)
    (h : task.StopsAfter u fault t) : task.StopsAfter s fault t := by
  obtain ⟨v, hlater, hstops⟩ := h
  exact ⟨v, hlog.trans hlater, hstops⟩

theorem stopsAfter_of_stops (h : Counts s t ∧ task.Stops s.context fault) :
    task.StopsAfter s fault t := ⟨s, .refl _, h⟩

/-- Visiting a class fails where its name, a field or a method fails. -/
theorem stopsAfter_of_fails_visit (hgraph : task.graph.Finished) {id : ClassId}
    (hid : id < task.graph.size) (houter : task.OuterNamed s.context id)
    (h : Fails (task.visit id) s fault t) : task.StopsAfter s fault t := by
  rw [visit, fails_bind_iff] at h
  rcases h with h | ⟨target, u, htarget, h⟩
  · exact stopsAfter_of_stops (of_fails_classNameFor hid houter h)
  refine .of_leads (of_succeeds_classNameFor hid houter htarget).1 ?_
  by_cases hloaded : (task.graph.classAt id).loaded = true
  · rw [if_pos hloaded] at h
    simp only [fails_bind_iff, not_fails_pure, and_false, exists_false, or_false] at h
    rcases h with h | ⟨fields, v, hfields, h⟩
    · obtain ⟨done, f, rest, _, v, hsplit, hdone, hf⟩ := exists_of_fails_filterMapM h
      have hmem : ∀ f' ∈ done ++ f :: rest, f' ∈ (task.graph.classAt id).fields.values :=
        fun f' hf' => hsplit ▸ hf'
      obtain ⟨hleads, -⟩ := of_succeeds_fieldEntries hloaded
        (fun f' hf' => hmem f' (List.mem_append_left _ hf')) hdone
      have hf := of_fails_fieldEntry hloaded
        (hmem f (List.mem_append_right _ List.mem_cons_self)) hf
      exact .of_leads hleads (stopsAfter_of_stops hf)
    · obtain ⟨hfieldLog, -⟩ := of_succeeds_fieldEntries hloaded (fun _ hf => hf) hfields
      obtain ⟨done, slot, rest, _, w, hsplit, hdone, hslot⟩ := exists_of_fails_filterMapM h
      have hmem : ∀ slot' ∈ done ++ slot :: rest,
          slot' ∈ (task.graph.classAt id).methods.entries := fun slot' hslot' => hsplit ▸ hslot'
      obtain ⟨hmethodLog, -⟩ := of_succeeds_methodEntries hgraph hloaded
        (fun slot' hslot' => hmem slot' (List.mem_append_left _ hslot')) hdone
      have hslot := of_fails_methodEntry hloaded
        (hmem slot (List.mem_append_right _ List.mem_cons_self)) hslot
      exact .of_leads (hfieldLog.trans hmethodLog) (stopsAfter_of_stops hslot)
  · rw [if_neg hloaded] at h
    exact absurd h not_fails_pure

/-- A run that fails has made decisions, and is stopped after them. -/
theorem stopsAfter_of_fails_run (hgraph : task.graph.Finished) (h : Fails task.run s fault t) :
    task.StopsAfter s fault t := by
  rw [run] at h
  simp only [fails_bind_iff, not_fails_context, not_fails_pure, and_false, exists_false,
    or_false] at h
  obtain ⟨done, id, rest, _, u, hsplit, hdone, hvisit⟩ := exists_of_fails_filterMapM h
  obtain ⟨hleads, hsettled, -⟩ :=
    of_succeeds_filterMapM task.Leads task.ClassSettled task.classEntryIn Leads.refl
      (fun _ _ _ => Leads.trans) (fun _ _ _ hc hid => hid.mono hc) [] done
      (fun before y after _ _ _ hbefore hbeforeDone hvisit => by
        have hwalk : task.graph.walk = before ++ y :: (after ++ id :: rest) := by
          rw [hsplit, ← List.nil_append done, hbefore, List.append_assoc, List.cons_append]
        exact of_succeeds_visit hgraph (lt_size_of_walk_eq hgraph hwalk)
          (outerNamed_of_walk_eq hgraph hwalk fun z hz => (hbeforeDone z hz).name) hvisit)
      (fun y hy => absurd hy List.not_mem_nil) hdone
  have houter := outerNamed_of_walk_eq hgraph hsplit fun y hy =>
    (hsettled y (List.mem_append_right [] hy)).name
  exact .of_leads hleads
    (stopsAfter_of_fails_visit hgraph (lt_size_of_walk_eq hgraph hsplit) houter hvisit)

end Resolver

/-! ## Runs in which nothing is contested -/

/-- Whether the policies decide about every symbol, and no family is offered two names. -/
structure Uncontested (task : NamingTask) : Prop where
  /-- The policies decide about classes. -/
  type : ∀ id < task.graph.size, ∃ need, task.classDecision id = .ok need
  /-- The policies decide about fields. -/
  field : ∀ id, (task.graph.classAt id).loaded = true →
    ∀ f ∈ (task.graph.classAt id).fields.values, ∃ need,
      task.chain.needsFieldName (task.graph.classAt id) f = .ok need
  /-- The policies decide about methods, and a family that needs a name is offered one at
  most. -/
  method : ∀ id key method symbol, task.Starts id key method symbol → ∃ need,
    task.chain.needsMethodName (task.graph.classAt id) symbol = .ok need ∧
      (need = true →
        (task.candidates (task.hierarchy.family id key) key).keys.length ≤ 1)

/-- The policies do not contradict each other then. -/
theorem Uncontested.not_undecided (h : task.Uncontested) {reason : PolicyFault} :
    ¬ task.Undecided reason := by
  intro hreason
  cases hreason with
  | type hid hreason =>
    obtain ⟨need, hneed⟩ := h.type _ hid
    cases hneed.symm.trans hreason
  | field hloaded hmem hreason =>
    obtain ⟨need, hneed⟩ := h.field _ hloaded _ hmem
    cases hneed.symm.trans hreason
  | method hstarts hreason =>
    obtain ⟨need, hneed, -⟩ := h.method _ _ _ _ hstarts
    cases hneed.symm.trans hreason

/-- Such a run stops only for want of room. -/
theorem Uncontested.overflow_of_stops (h : task.Uncontested) {c : NamingContext}
    (hstops : task.Stops c fault) :
    fault = .overflow ∧ ∃ subject offered, task.Awaits c subject offered ∧
      ¬ Room subject.kind offered c := by
  cases hstops with
  | policy hreason => exact absurd hreason h.not_undecided
  | overflow hawaits hroom => exact ⟨rfl, _, _, hawaits, hroom⟩
  | contested hstarts hneed htwo =>
    obtain ⟨need, hneed', hone⟩ := h.method _ _ _ _ hstarts
    have hone := hone (Except.ok.inj (hneed'.symm.trans hneed))
    omega

/-- A run in which nothing is contested succeeds, or it has led to a symbol for whose name there is
no room. -/
theorem Uncontested.succeeds_or_overflows [ConflictResolver ρ] (h : task.Uncontested)
    (hgraph : task.graph.Finished) (s : NamingState ρ) :
    (∃ set t, Succeeds task.run s set t) ∨
      ∃ t c subject offered, Fails task.run s .overflow t ∧ task.Leads s.context c ∧
        task.Awaits c subject offered ∧ ¬ Room subject.kind offered c := by
  rcases succeeds_or_fails task.run s with hsucceeds | ⟨fault, t, hfails⟩
  · exact .inl hsucceeds
  · obtain ⟨u, hleads, -, hstops⟩ := stopsAfter_of_fails_run hgraph hfails
    obtain ⟨rfl, subject, offered, hawaits, hroom⟩ := h.overflow_of_stops hstops
    exact .inr ⟨t, u.context, subject, offered, hfails, hleads, hawaits, hroom⟩

end NamingTask

end StableNaming
