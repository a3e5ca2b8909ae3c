import StableNaming.Proofs.Naming.Moves

/-!
# How far a run comes

A run comes to a method if everything that it does before succeeds. It goes on with
the method then: if the method cannot be named, the run ends there with the same fault,
and else whatever follows only adds to what has been decided. A run that gives a method
its name comes to it, at a class where the family of the method starts.
-/

namespace StableNaming

namespace NamingM

variable {ρ α β γ : Type} {R : NamingState ρ → NamingState ρ → Prop} {s t u : NamingState ρ}

/-- Whether `x` goes on with `y` in the state `t` when it starts in the state `s`, and then
keeps to a relation. -/
def GoesOnWith (R : NamingState ρ → NamingState ρ → Prop) (x : NamingM ρ α) (s : NamingState ρ)
    (y : NamingM ρ β) (t : NamingState ρ) : Prop :=
  ∃ rest : β → NamingM ρ α, x.run s = (y >>= rest).run t ∧ ∀ b, Moves R (rest b)

namespace GoesOnWith

variable {x : NamingM ρ α} {y : NamingM ρ β}

/-- What comes after in `x` comes after `y`. -/
theorem bind [IsPreorder (NamingState ρ) R] {f : α → NamingM ρ γ}
    (h : GoesOnWith R x s y t) (hf : ∀ a, Moves R (f a)) : GoesOnWith R (x >>= f) s y t := by
  obtain ⟨rest, hrun, hrest⟩ := h
  refine ⟨fun b => rest b >>= f, ?_, fun b => (hrest b).bind hf⟩
  have hfront : (x >>= f).run s = ((y >>= rest) >>= f).run t := by
    change ExceptT.bindCont f (x.run s).1 (x.run s).2 =
      ExceptT.bindCont f ((y >>= rest).run t).1 ((y >>= rest).run t).2
    rw [hrun]
  rw [hfront, bind_assoc]

/-- After what succeeds the rest goes on. -/
theorem after {z : NamingM ρ γ} {f : γ → NamingM ρ α} {c : γ} (hz : Succeeds z s c t)
    (h : GoesOnWith R (f c) t y u) : GoesOnWith R (z >>= f) s y u := by
  obtain ⟨rest, hrun, hrest⟩ := h
  exact ⟨rest, (run_bind_of_succeeds hz f).trans hrun, hrest⟩

/-- The run ends after `y` has been done. -/
theorem of_moves (h : GoesOnWith R x s y t) [IsPreorder (NamingState ρ) R] :
    R (y.run t).2 (x.run s).2 := by
  obtain ⟨rest, hrun, hrest⟩ := h
  rw [hrun]
  cases hy : y.run t with
  | mk outcome u =>
    cases outcome with
    | error fault =>
      rw [run_bind_of_error hy]
      exact refl_of R u
    | ok b =>
      rw [run_bind_of_succeeds hy]
      exact hrest b u

/-- If `y` fails, so does the run. -/
theorem of_error {fault : NamingFault} (h : GoesOnWith R x s y t)
    (hy : y.run t = (.error fault, u)) : x.run s = (.error fault, u) := by
  obtain ⟨rest, hrun, -⟩ := h
  rw [hrun, run_bind_of_error hy]

end GoesOnWith

variable {f : α → NamingM ρ (Option β)}

/-- A run along a list goes on with what the step at an element goes on with, once the steps
before it have succeeded. -/
theorem goesOnWith_filterMapM [IsPreorder (NamingState ρ) R] {before after : List α} {x : α}
    {bs : List β} {y : NamingM ρ γ} (hbefore : Succeeds (before.filterMapM f) s bs t)
    (hx : GoesOnWith R (f x) t y u) (hafter : ∀ z ∈ after, Moves R (f z)) :
    GoesOnWith R ((before ++ x :: after).filterMapM f) s y u := by
  induction before generalizing s bs with
  | nil =>
    obtain ⟨-, rfl⟩ := succeeds_filterMapM_nil_iff.1 hbefore
    have hrest := moves_filterMapM hafter
    rw [List.nil_append, List.filterMapM_cons]
    refine hx.bind fun b => ?_
    cases b with
    | none => exact hrest
    | some b => exact hrest.bind fun _ => moves_pure _
  | cons z before ih =>
    obtain ⟨b, v, rest, hz, hrest, -⟩ := succeeds_filterMapM_cons_iff.1 hbefore
    rw [List.cons_append, List.filterMapM_cons]
    refine GoesOnWith.after hz ?_
    cases b with
    | none => exact ih hrest
    | some b => exact (ih hrest).bind fun _ => moves_pure _

/-- If something holds before a run along a list and not after it, some step of the run ends it. -/
theorem exists_step_of_filterMapM {P : NamingState ρ → Prop} {xs : List α} {bs : List β}
    (h : Succeeds (xs.filterMapM f) s bs t) (hs : P s) (ht : ¬ P t) :
    ∃ before x after cs b u v, xs = before ++ x :: after ∧
      Succeeds (before.filterMapM f) s cs u ∧ Succeeds (f x) u b v ∧ P u ∧ ¬ P v := by
  induction xs generalizing s bs with
  | nil =>
    obtain ⟨-, rfl⟩ := succeeds_filterMapM_nil_iff.1 h
    exact absurd hs ht
  | cons x xs ih =>
    obtain ⟨b, u, rest, hx, hrest, -⟩ := succeeds_filterMapM_cons_iff.1 h
    by_cases hu : P u
    · obtain ⟨before, y, after, cs, b', v, w, rfl, hbefore, hy, hv, hw⟩ := ih hrest hu
      exact ⟨x :: before, y, after, _, b', v, w, rfl,
        succeeds_filterMapM_cons_iff.2 ⟨b, u, cs, hx, hbefore, rfl⟩, hy, hv, hw⟩
    · exact ⟨[], x, xs, [], b, s, u, rfl, succeeds_filterMapM_nil_iff.2 ⟨rfl, rfl⟩, hx, hs, hu⟩

end NamingM

open NamingM

namespace NamingTask

variable {ρ : Type} [ConflictResolver ρ] {task : NamingTask} {start s t : NamingState ρ}

/-- Whether a run that starts in one state comes in another one to a method of a class: it gets
through the classes before, and in the class through the name, the fields and the methods
before. -/
inductive ComesTo (task : NamingTask) (start : NamingState ρ) (id : ClassId)
    (slot : MemberKey × MethodId) (s : NamingState ρ) : Prop where
  /-- Everything before has succeeded. -/
  | intro {before after : List ClassId} {above below : List (MemberKey × MethodId)}
    {entries : List ClassEntry} {target : String} {fields methods : List MemberEntry}
    {u v w : NamingState ρ}
    (walk_eq : task.graph.walk = before ++ id :: after)
    (classes : Succeeds (before.filterMapM task.visit) start entries u)
    (name : Succeeds (task.classNameFor (task.graph.classAt id)) u target v)
    (loaded : (task.graph.classAt id).loaded = true)
    (fields : Succeeds ((task.graph.classAt id).fields.values.filterMapM
      (task.fieldEntry (task.graph.classAt id))) v fields w)
    (entries_eq : (task.graph.classAt id).methods.entries = above ++ slot :: below)
    (methods : Succeeds (above.filterMapM (task.methodEntry id)) w methods s)

/-- A run that comes to a method goes on with it. -/
theorem ComesTo.goesOnWith (hgraph : task.graph.Finished) {id : ClassId}
    {slot : MemberKey × MethodId} (h : task.ComesTo start id slot s) :
    GoesOnWith Later task.run start (task.methodEntry id slot) s := by
  obtain @⟨before, after, above, below, _, _, _, _, u, v, w, walk_eq, classes, name, loaded, fields,
    entries_eq, methods⟩ := h
  have hbelow : ∀ slot' ∈ below, Moves Later (task.methodEntry id slot' : NamingM ρ _) := by
    intro slot' hslot'
    refine later_methodEntry hgraph ?_
    rw [entries_eq]
    exact List.mem_append_right _ (List.mem_cons_of_mem _ hslot')
  have hentries : GoesOnWith Later
      ((task.graph.classAt id).methods.entries.filterMapM (task.methodEntry id)) w
      (task.methodEntry id slot) s := by
    rw [entries_eq]
    refine goesOnWith_filterMapM methods ⟨pure, ?_, fun _ => moves_pure _⟩ hbelow
    rw [bind_pure]
  have hvisit : GoesOnWith Later (task.visit id) u (task.methodEntry id slot) s := by
    rw [visit]
    refine .after name ?_
    rw [if_pos loaded]
    exact .after fields (hentries.bind fun _ => moves_pure _)
  rw [run, walk_eq]
  refine (goesOnWith_filterMapM classes hvisit fun x _ => later_visit hgraph x).bind fun _ => ?_
  exact moves_context.bind fun _ => moves_pure _

/-- What a run has done when it comes to a method only adds to what was decided before. -/
theorem ComesTo.later (hgraph : task.graph.Finished) {id : ClassId}
    {slot : MemberKey × MethodId} (h : task.ComesTo start id slot s) : Later start s := by
  obtain @⟨before, after, above, below, _, _, _, _, u, v, w, walk_eq, classes, name, loaded, fields,
    entries_eq, methods⟩ := h
  have hclasses : Later start u :=
    (moves_filterMapM fun x _ => later_visit hgraph x).of_succeeds classes
  have hname : Later u v := ((moves_classNameFor _).of_succeeds name).toLater
  have hfields : Later v w :=
    (moves_filterMapM fun f _ => (moves_fieldEntry _ f).mono Aside.toLater).of_succeeds fields
  have hmethods : Later w s := by
    refine (moves_filterMapM fun slot' hslot' => ?_).of_succeeds methods
    refine later_methodEntry hgraph ?_
    rw [entries_eq]
    exact List.mem_append_left _ hslot'
  exact ((hclasses.trans hname).trans hfields).trans hmethods

/-! ## Methods that get names -/

/-- A method that has no name before the step at some method and has one after it is that method.
It needs a name, and its family starts at the class. -/
theorem starts_of_methodEntry (hgraph : task.graph.Finished) {id : ClassId}
    (hloaded : (task.graph.classAt id).loaded = true) {slot : MemberKey × MethodId}
    (hslot : slot ∈ (task.graph.classAt id).methods.entries) {entry : Option MemberEntry}
    (h : Succeeds (task.methodEntry id slot) s entry t) {method : MethodId}
    (hnew : s.context.methodNames.find? method = none)
    (hnamed : t.context.methodNames.find? method ≠ none) :
    slot.2 = method ∧ ∃ symbol, task.Starts id slot.1 method symbol ∧
      task.chain.needsMethodName (task.graph.classAt id) symbol = .ok true := by
  have hheld : task.graph.slot? id slot.1 = some slot.2 := KeyMap.find?_eq_some_iff.2 hslot
  have hspares : Spares slot.2 s t :=
    (moves_methodEntry (moves_methodNameFor hgraph hheld)).of_succeeds h
  have hsame : slot.2 = method := by
    by_contra hother
    exact hnamed ((hspares.find?_eq (Ne.symm hother)).trans hnew)
  rw [hsame] at hheld
  refine ⟨hsame, ?_⟩
  rw [methodEntry] at h
  by_cases hskip : (slot.1.isInitializer || !task.hierarchy.isSource id slot.1) = true
  · rw [if_pos hskip] at h
    obtain ⟨-, rfl⟩ := succeeds_pure_iff.1 h
    exact absurd hnew hnamed
  rw [if_neg hskip, hsame] at h
  rw [Bool.or_eq_true, not_or, Bool.not_eq_true, Bool.not_eq_true, Bool.not_eq_false'] at hskip
  cases hsymbol : task.graph.methodAt? method with
  | none =>
    rw [hsymbol] at h
    obtain ⟨-, rfl⟩ := succeeds_pure_iff.1 h
    exact absurd hnew hnamed
  | some symbol =>
    rw [hsymbol] at h
    dsimp only at h
    rw [sourceEntry, succeeds_bind_iff] at h
    obtain ⟨need, u, hasked, h⟩ := h
    obtain ⟨hneed, rfl⟩ := succeeds_ask_iff.1 hasked
    cases need with
    | false =>
      obtain ⟨-, rfl⟩ := succeeds_pure_iff.1 h
      exact absurd hnew hnamed
    | true => exact ⟨symbol, ⟨hloaded, hheld, hskip.1, hskip.2, hsymbol⟩, hneed⟩

/-- A successful run that gives a method its name comes to it while it has none, at a class where
the family of the method starts and needs a name. -/
theorem exists_comesTo (hgraph : task.graph.Finished) {set : MappingSet}
    (h : Succeeds task.run start set t) {method : MethodId}
    (hnew : start.context.methodNames.find? method = none)
    (hnamed : t.context.methodNames.find? method ≠ none) :
    ∃ id key symbol s, task.ComesTo start id (key, method) s ∧
      task.Starts id key method symbol ∧
      task.chain.needsMethodName (task.graph.classAt id) symbol = .ok true ∧
      s.context.methodNames.find? method = none := by
  rw [run] at h
  simp only [succeeds_bind_iff, succeeds_context_iff, succeeds_pure_iff] at h
  obtain ⟨entries, u, hwalk, _, _, ⟨-, rfl⟩, -, rfl⟩ := h
  -- First the class whose visit names the method, then the method among those of the class.
  obtain ⟨before, id, after, _, _, u, v, hsplit, hbefore, hvisit, hu, hv⟩ :=
    exists_step_of_filterMapM (P := fun s => s.context.methodNames.find? method = none) hwalk hnew
      hnamed
  rw [visit, succeeds_bind_iff] at hvisit
  obtain ⟨target, w, hname, hvisit⟩ := hvisit
  have hw : w.context.methodNames.find? method = none := by
    rw [((moves_classNameFor _).of_succeeds hname).methodNames_eq, hu]
  by_cases hloaded : (task.graph.classAt id).loaded = true
  · rw [if_pos hloaded] at hvisit
    simp only [succeeds_bind_iff, succeeds_pure_iff] at hvisit
    obtain ⟨fields, x, hfields, methods, y, hmethods, -, rfl⟩ := hvisit
    have hx : x.context.methodNames.find? method = none := by
      have hmoves : Aside w x :=
        (moves_filterMapM fun f _ => moves_fieldEntry _ f).of_succeeds hfields
      rw [hmoves.methodNames_eq, hw]
    obtain ⟨above, slot, below, _, _, s, z, hslots, habove, hslot, hs, hz⟩ :=
      exists_step_of_filterMapM (P := fun s => s.context.methodNames.find? method = none) hmethods
        hx hv
    have hmem : slot ∈ (task.graph.classAt id).methods.entries := by
      rw [hslots]
      exact List.mem_append_right _ List.mem_cons_self
    obtain ⟨rfl, symbol, hstarts, hneed⟩ :=
      starts_of_methodEntry hgraph hloaded hmem hslot hs hz
    exact ⟨id, slot.1, symbol, s,
      .intro hsplit hbefore hname hloaded hfields hslots habove, hstarts, hneed, hs⟩
  · rw [if_neg hloaded] at hvisit
    obtain ⟨-, rfl⟩ := succeeds_pure_iff.1 hvisit
    exact absurd hw hv

end NamingTask

end StableNaming
