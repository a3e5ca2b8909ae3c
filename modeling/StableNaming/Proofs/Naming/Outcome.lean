import StableNaming.Naming.Walk

/-!
# Successful steps

What it means that a step of a run succeeds, for each of the basic steps, for
steps one after the other, and for steps along a list, and how a run goes on after
a step.
-/

namespace StableNaming

namespace NamingContext

/-- Move the counter of a kind past its next number, if there is one after it. -/
def skip? (c : NamingContext) (kind : SymbolKind) : Option NamingContext :=
  (c.counters.skip? kind).map fun counters => { c with counters }

/-- A new name has the next number, which the counter moves past. -/
theorem mint?_eq_some_iff {c c' : NamingContext} {kind : SymbolKind} {name : String} :
    c.mint? kind = some (name, c') ↔
      name = kind.generatedName (c.counters.get kind) ∧ c.skip? kind = some c' := by
  rw [mint?, Counters.next?, skip?]
  cases c.counters.skip? kind with
  | none => simp
  | some counters => simp [eq_comm]

end NamingContext

namespace NamingM

variable {ρ α β : Type} {s t : NamingState ρ}

/-- Whether a step that starts in `s` succeeds with `a` and ends in `t`. -/
def Succeeds (x : NamingM ρ α) (s : NamingState ρ) (a : α) (t : NamingState ρ) : Prop :=
  x.run s = (.ok a, t)

@[simp] theorem succeeds_pure_iff {a b : α} :
    Succeeds (pure a) s b t ↔ a = b ∧ s = t := by
  change (Except.ok a, s) = (Except.ok b, t) ↔ _
  rw [Prod.mk.injEq, Except.ok.injEq]

@[simp] theorem succeeds_bind_iff {x : NamingM ρ α} {f : α → NamingM ρ β} {b : β} :
    Succeeds (x >>= f) s b t ↔ ∃ a u, Succeeds x s a u ∧ Succeeds (f a) u b t := by
  have hrun : (x >>= f).run s = ExceptT.bindCont f (x.run s).1 (x.run s).2 := rfl
  rw [Succeeds, hrun]
  constructor
  · intro h
    cases hx : x.run s with
    | mk outcome u =>
      rw [hx] at h
      cases outcome with
      | ok a => exact ⟨a, u, hx, h⟩
      | error fault => cases h
  · rintro ⟨a, u, hx, hf⟩
    rw [Succeeds] at hx
    rw [hx]
    exact hf

@[simp] theorem not_succeeds_throw {fault : NamingFault} {a : α} :
    ¬ Succeeds (throw fault) s a t := by
  intro h
  cases h

@[simp] theorem succeeds_get_iff {a : NamingState ρ} :
    Succeeds get s a t ↔ a = s ∧ t = s := by
  change (Except.ok s, s) = (Except.ok a, t) ↔ _
  rw [Prod.mk.injEq, Except.ok.injEq, eq_comm, eq_comm (a := s) (b := t)]

@[simp] theorem succeeds_context_iff {a : NamingContext} :
    Succeeds context s a t ↔ a = s.context ∧ t = s := by
  change (Except.ok s.context, s) = (Except.ok a, t) ↔ _
  rw [Prod.mk.injEq, Except.ok.injEq, eq_comm, eq_comm (a := s) (b := t)]

theorem succeeds_context_bind_iff {f : NamingContext → NamingM ρ α} {a : α} :
    Succeeds (context >>= f) s a t ↔ Succeeds (f s.context) s a t := Iff.rfl

@[simp] theorem succeeds_modifyContext_iff {f : NamingContext → NamingContext} {a : Unit} :
    Succeeds (modifyContext f) s a t ↔ t = { s with context := f s.context } := by
  change (Except.ok (), { s with context := f s.context }) = (Except.ok a, t) ↔ _
  rw [Prod.mk.injEq]
  exact ⟨fun h => h.2.symm, fun h => ⟨rfl, h.symm⟩⟩

@[simp] theorem succeeds_observe_iff {kind : SymbolKind} {name : String} {a : Unit} :
    Succeeds (observe kind name) s a t ↔
      ∃ c, s.context.pass? kind name = some c ∧ t = { s with context := c } := by
  rw [observe, succeeds_context_bind_iff]
  cases s.context.pass? kind name <;> simp

@[simp] theorem succeeds_mint_iff {kind : SymbolKind} {name : String} :
    Succeeds (mint kind) s name t ↔
      name = kind.generatedName (s.context.counters.get kind) ∧
        ∃ c, s.context.skip? kind = some c ∧ t = { s with context := c } := by
  have hiff : Succeeds (mint kind) s name t ↔
      ∃ c, s.context.mint? kind = some (name, c) ∧ t = { s with context := c } := by
    rw [mint, succeeds_context_bind_iff]
    cases s.context.mint? kind with
    | none => simp
    | some minted =>
      simp only [succeeds_bind_iff, succeeds_modifyContext_iff, succeeds_pure_iff,
        Option.some_inj]
      constructor
      · rintro ⟨_, _, rfl, rfl, rfl⟩
        exact ⟨minted.2, rfl, rfl⟩
      · rintro ⟨c, rfl, rfl⟩
        exact ⟨(), _, rfl, rfl, rfl⟩
  simp only [hiff, NamingContext.mint?_eq_some_iff, and_assoc, exists_and_left]

@[simp] theorem succeeds_ask_iff {answer : Except PolicyFault α} {a : α} :
    Succeeds (ask answer : NamingM ρ α) s a t ↔ answer = .ok a ∧ t = s := by
  cases answer with
  | ok b =>
    rw [ask, succeeds_pure_iff, Except.ok.injEq, eq_comm (a := s)]
  | error fault =>
    rw [ask]
    exact ⟨fun h => absurd h not_succeeds_throw, fun h => by cases h.1⟩

/-! ## Steps that go on or fail -/

/-- After a step that succeeds the next one runs. -/
theorem run_bind_of_succeeds {x : NamingM ρ α} {a : α}
    (h : Succeeds x s a t) (f : α → NamingM ρ β) : (x >>= f).run s = (f a).run t := by
  have hrun : (x >>= f).run s = ExceptT.bindCont f (x.run s).1 (x.run s).2 := rfl
  rw [hrun, h]
  rfl

/-- After a step that fails nothing runs. -/
theorem run_bind_of_error {x : NamingM ρ α} {fault : NamingFault}
    (h : x.run s = (.error fault, t)) (f : α → NamingM ρ β) :
    (x >>= f).run s = (.error fault, t) := by
  have hrun : (x >>= f).run s = ExceptT.bindCont f (x.run s).1 (x.run s).2 := rfl
  rw [hrun, h]
  rfl

theorem run_context_bind (f : NamingContext → NamingM ρ β) :
    (context >>= f).run s = (f s.context).run s := rfl

/-- Asking the resolver gives its answer and changes its state only. -/
theorem run_resolve [ConflictResolver ρ] (c : NamingConflict) (s : NamingState ρ) :
    (resolve c : NamingM ρ Nat).run s =
      ((ConflictResolver.resolve c s.resolver).1,
        { s with resolver := (ConflictResolver.resolve c s.resolver).2 }) := by
  have hget : Succeeds get s s s := succeeds_get_iff.2 ⟨rfl, rfl⟩
  rw [resolve, run_bind_of_succeeds hget]
  cases ConflictResolver.resolve c s.resolver with
  | mk outcome r => cases outcome <;> rfl

theorem succeeds_resolve_iff [ConflictResolver ρ] {c : NamingConflict} {index : Nat} :
    Succeeds (resolve c) s index t ↔
      (ConflictResolver.resolve c s.resolver).1 = .ok index ∧
        t = { s with resolver := (ConflictResolver.resolve c s.resolver).2 } := by
  rw [Succeeds, run_resolve, Prod.mk.injEq]
  exact and_congr_right fun _ => eq_comm

/-! ## Steps along a list -/

variable {f : α → NamingM ρ (Option β)}

@[simp] theorem succeeds_filterMapM_nil_iff {bs : List β} :
    Succeeds ([].filterMapM f) s bs t ↔ bs = [] ∧ t = s := by
  rw [List.filterMapM_nil, succeeds_pure_iff, eq_comm, eq_comm (a := s)]

theorem succeeds_filterMapM_cons_iff {x : α} {xs : List α} {bs : List β} :
    Succeeds ((x :: xs).filterMapM f) s bs t ↔
      ∃ b u rest, Succeeds (f x) s b u ∧ Succeeds (xs.filterMapM f) u rest t ∧
        bs = b.toList ++ rest := by
  rw [List.filterMapM_cons, succeeds_bind_iff]
  constructor
  · rintro ⟨b, u, hx, hrest⟩
    cases b with
    | none => exact ⟨none, u, bs, hx, hrest, rfl⟩
    | some b =>
      simp only [succeeds_bind_iff, succeeds_pure_iff] at hrest
      obtain ⟨rest, _, hrest, rfl, rfl⟩ := hrest
      exact ⟨some b, u, rest, hx, hrest, rfl⟩
  · rintro ⟨b, u, rest, hx, hrest, rfl⟩
    refine ⟨b, u, hx, ?_⟩
    cases b with
    | none => exact hrest
    | some b =>
      simp only [succeeds_bind_iff, succeeds_pure_iff]
      exact ⟨rest, t, hrest, rfl, rfl⟩

/-- If every step settles its element, and what is settled stays so, then a run along a list
settles all elements, and its results are what the last context says about them. -/
theorem of_succeeds_filterMapM (R : NamingContext → NamingContext → Prop)
    (Settled : NamingContext → α → Prop) (entry : NamingContext → α → Option β)
    (hrefl : ∀ c, R c c) (htrans : ∀ c c' c'', R c c' → R c' c'' → R c c'')
    (hstable : ∀ c c' x, R c c' → Settled c x → Settled c' x ∧ entry c' x = entry c x)
    (before xs : List α)
    (hstep : ∀ done x rest s b t, before ++ xs = done ++ x :: rest →
      (∀ y ∈ done, Settled s.context y) → Succeeds (f x) s b t →
        R s.context t.context ∧ Settled t.context x ∧ b = entry t.context x)
    {bs : List β} (hbefore : ∀ y ∈ before, Settled s.context y)
    (h : Succeeds (xs.filterMapM f) s bs t) :
    R s.context t.context ∧ (∀ x ∈ before ++ xs, Settled t.context x) ∧
      bs = xs.filterMap (entry t.context) := by
  induction xs generalizing before s bs with
  | nil =>
    rw [succeeds_filterMapM_nil_iff] at h
    obtain ⟨rfl, rfl⟩ := h
    rw [List.append_nil]
    exact ⟨hrefl _, hbefore, rfl⟩
  | cons x xs ih =>
    obtain ⟨b, u, rest, hx, hrest, rfl⟩ := succeeds_filterMapM_cons_iff.1 h
    obtain ⟨hsu, hsettled, hb⟩ := hstep _ _ _ _ _ _ rfl hbefore hx
    have happend : before ++ x :: xs = before ++ [x] ++ xs := by
      rw [List.append_assoc, List.singleton_append]
    have hbefore' : ∀ y ∈ before ++ [x], Settled u.context y := by
      intro y hy
      rcases List.mem_append.1 hy with hy | hy
      · exact (hstable _ _ y hsu (hbefore y hy)).1
      · rw [List.mem_singleton.1 hy]
        exact hsettled
    obtain ⟨hut, hall, hrest'⟩ := ih (before ++ [x]) (happend ▸ hstep) hbefore' hrest
    refine ⟨htrans _ _ _ hsu hut, happend ▸ hall, ?_⟩
    rw [hb, hrest', ← (hstable _ _ x hut hsettled).2, List.filterMap_cons]
    cases entry t.context x <;> rfl

/-- The same for steps that do not depend on what is settled before. -/
theorem of_succeeds_filterMapM_of_forall (R : NamingContext → NamingContext → Prop)
    (Settled : NamingContext → α → Prop) (entry : NamingContext → α → Option β)
    (hrefl : ∀ c, R c c) (htrans : ∀ c c' c'', R c c' → R c' c'' → R c c'')
    (hstable : ∀ c c' x, R c c' → Settled c x → Settled c' x ∧ entry c' x = entry c x)
    {xs : List α}
    (hstep : ∀ x ∈ xs, ∀ s b t, Succeeds (f x) s b t →
      R s.context t.context ∧ Settled t.context x ∧ b = entry t.context x)
    {bs : List β} (h : Succeeds (xs.filterMapM f) s bs t) :
    R s.context t.context ∧ (∀ x ∈ xs, Settled t.context x) ∧
      bs = xs.filterMap (entry t.context) := by
  refine of_succeeds_filterMapM R Settled entry hrefl htrans hstable [] xs ?_
    (fun y hy => absurd hy List.not_mem_nil) h
  intro done x rest s b t hsplit _ hx
  have hmem : x ∈ [] ++ xs := hsplit ▸ List.mem_append_right _ List.mem_cons_self
  exact hstep x hmem s b t hx

/-- If what is settled stays so, and so does what is read off its entry, then a run along a list
settles all elements, and of its results the same is read as of what the last context says. -/
theorem of_succeeds_filterMapM_read {γ : Type} (read : β → γ)
    (R : NamingContext → NamingContext → Prop) (Settled : NamingContext → α → Prop)
    (entry : NamingContext → α → Option β)
    (hrefl : ∀ c, R c c) (htrans : ∀ c c' c'', R c c' → R c' c'' → R c c'')
    (hstable : ∀ c c' x, R c c' → Settled c x →
      Settled c' x ∧ (entry c' x).map read = (entry c x).map read) {xs : List α}
    (hstep : ∀ x ∈ xs, ∀ s b t, Succeeds (f x) s b t →
      R s.context t.context ∧ Settled t.context x ∧ b.map read = (entry t.context x).map read)
    {bs : List β} (h : Succeeds (xs.filterMapM f) s bs t) :
    R s.context t.context ∧ (∀ x ∈ xs, Settled t.context x) ∧
      bs.map read = (xs.filterMap (entry t.context)).map read := by
  induction xs generalizing s bs with
  | nil =>
    obtain ⟨rfl, rfl⟩ := succeeds_filterMapM_nil_iff.1 h
    exact ⟨hrefl _, fun x hx => absurd hx List.not_mem_nil, rfl⟩
  | cons x xs ih =>
    obtain ⟨b, u, rest, hx, hrest, rfl⟩ := succeeds_filterMapM_cons_iff.1 h
    obtain ⟨hstep, hsteps⟩ := List.forall_mem_cons.1 hstep
    obtain ⟨hsu, hsettled, hb⟩ := hstep _ _ _ hx
    obtain ⟨hut, hall, hread⟩ := ih hsteps hrest
    obtain ⟨hlast, hentry⟩ := hstable _ _ x hut hsettled
    refine ⟨htrans _ _ _ hsu hut, List.forall_mem_cons.2 ⟨hlast, hall⟩, ?_⟩
    have hcons : (x :: xs).filterMap (entry t.context) =
        (entry t.context x).toList ++ xs.filterMap (entry t.context) := by
      rw [List.filterMap_cons]
      cases entry t.context x <;> rfl
    rw [hcons, List.map_append, List.map_append, hread, ← Option.toList_map, ← Option.toList_map,
      hentry, hb]

/-- A run along a list changes nothing if no step does. -/
theorem succeeds_filterMapM_of_still {entry : α → Option β} {xs : List α}
    (h : ∀ x ∈ xs, Succeeds (f x) s (entry x) s) :
    Succeeds (xs.filterMapM f) s (xs.filterMap entry) s := by
  induction xs with
  | nil => exact succeeds_filterMapM_nil_iff.2 ⟨rfl, rfl⟩
  | cons x xs ih =>
    obtain ⟨hx, hxs⟩ := List.forall_mem_cons.1 h
    refine succeeds_filterMapM_cons_iff.2 ⟨entry x, s, xs.filterMap entry, hx, ih hxs, ?_⟩
    rw [List.filterMap_cons]
    cases entry x <;> rfl

end NamingM

end StableNaming
