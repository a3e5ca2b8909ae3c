import StableNaming.Proofs.Naming.Accounts
import StableNaming.Proofs.Naming.Inheritance
import StableNaming.Proofs.Naming.Moves

/-!
# Runs in which every conflict is refused

Such a run succeeds only if no family that it names is offered two names. Only the step
that names a family can break this, so it is enough to look at that step.
-/

namespace StableNaming

open NamingM

namespace NamingTask

variable {task : NamingTask}

/-- Whether no two names are offered to the classes that hold a method. -/
def Agreed (task : NamingTask) (method : MethodId) : Prop :=
  ∀ (x y : ClassId) (key : MemberKey), task.graph.slot? x key = some method →
    task.graph.slot? y key = some method → ∀ (name name' : String) (ref ref' : MemberRef),
      task.heritage.methodName? ⟨task.graph.nameAt x, key⟩ = some (name, ref) →
      task.heritage.methodName? ⟨task.graph.nameAt y, key⟩ = some (name', ref') → name = name'

/-- A family whose candidates are all one name is not offered two. -/
theorem agreed_of_keys (hgraph : task.graph.Finished) {id : ClassId} {key : MemberKey}
    {method : MethodId} (hslot : task.graph.slot? id key = some method)
    (hkeys : ∀ name ∈ (task.candidates (task.hierarchy.family id key) key).keys,
      ∀ name' ∈ (task.candidates (task.hierarchy.family id key) key).keys, name = name') :
    task.Agreed method := by
  intro x y key' hx hy name name' ref ref' hoffer hoffer'
  obtain ⟨rfl, -⟩ := (hgraph.slot_eq_iff hslot hx).1 rfl
  have hfamily := fun z => @ClassGraph.Finished.mem_family_iff_holds _ hgraph task.hierarchy id z
    key method hslot
  have hname := mem_keys_candidates_iff.2 ⟨x, (hfamily x).2 hx, ref, hoffer⟩
  have hname' := mem_keys_candidates_iff.2 ⟨y, (hfamily y).2 hy, ref', hoffer'⟩
  exact hkeys name hname name' hname'

/-! ## What a run keeps -/

/-- Whether conflicts are refused, and no family that has a name so far was offered two. -/
structure Refusing (task : NamingTask) (s : NamingState Resolver) : Prop where
  /-- Conflicts are refused. -/
  resolver_eq : s.resolver = .refuse
  /-- Families with names have been offered one at most. -/
  agreed : ∀ {method : MethodId} {name : String},
    s.context.methodNames.find? method = some name → task.Agreed method

variable {s t : NamingState Resolver}

/-- Steps that name no method keep this. -/
theorem Refusing.aside (h : task.Refusing s) (ht : Aside s t) : task.Refusing t where
  resolver_eq := by
    have hstays : t.resolver = s.resolver := ht.resolver_eq fun c => by rw [h.resolver_eq]; rfl
    exact hstays.trans h.resolver_eq
  agreed hname := h.agreed (ht.methodNames_eq ▸ hname)

/-- When conflicts are refused, a name is chosen only among candidates that are all one. -/
theorem of_succeeds_newMethodName_refuse {member : MemberRef} {family : List ClassId}
    {name : String} (h : Succeeds (task.newMethodName member family) s name t)
    (hs : s.resolver = .refuse) :
    ∀ a ∈ (task.candidates family member.key).keys,
      ∀ b ∈ (task.candidates family member.key).keys, a = b := by
  rw [newMethodName] at h
  simp only [succeeds_bind_iff, succeeds_observeAll_iff] at h
  obtain ⟨_, _, ⟨c, -, rfl⟩, h⟩ := h
  rw [chooseName] at h
  split at h
  · rename_i hnil
    rw [hnil]
    exact fun a ha => absurd ha List.not_mem_nil
  · rename_i only honly
    rw [honly]
    intro a ha b hb
    rw [List.mem_singleton.1 ha, List.mem_singleton.1 hb]
  · obtain ⟨index, u, hindex, -⟩ := succeeds_bind_iff.1 h
    rw [Succeeds, run_resolve, hs] at hindex
    cases hindex

/-- Naming a family keeps this: the family is not offered two names. -/
theorem keeps_methodNameFor (hgraph : task.graph.Finished) {id : ClassId} {key : MemberKey}
    {method : MethodId} (hslot : task.graph.slot? id key = some method) :
    Moves (Keeps task.Refusing) (task.methodNameFor id key method) := by
  intro s hs
  rw [methodNameFor, run_context_bind]
  cases hknown : s.context.methodNames.find? method with
  | some known => exact hs
  | none =>
    refine moves_stored (R := Keeps task.Refusing) (moves_newMethodName _ _)
      (fun ht hs => hs.aside ht.aside) (fun {name t} ht hchosen hs => ?_) hs
    have hkeys := of_succeeds_newMethodName_refuse hchosen hs.resolver_eq
    have hrefusing := hs.aside ht.aside
    rw [NamingContext.setMethods_eq_setMethod name fun m hm => eq_of_mem_shared hgraph hslot hm]
    refine ⟨hrefusing.resolver_eq, fun {other found} hfound => ?_⟩
    dsimp only [NamingContext.setMethod] at hfound
    rw [Dictionary.find?_insert] at hfound
    split at hfound
    · rename_i heq
      rw [← heq]
      exact agreed_of_keys hgraph hslot hkeys
    · exact hrefusing.agreed hfound

/-- A run that succeeds although it refuses all conflicts has named no family that was offered two
names. -/
theorem agreed_of_succeeds_run (hgraph : task.graph.Finished) {set : MappingSet}
    (h : Succeeds task.run s set t) (hresolver : s.resolver = .refuse)
    (hempty : s.context.methodNames = .empty) {method : MethodId} {name : String}
    (hname : t.context.methodNames.find? method = some name) : task.Agreed method := by
  have hkeeps : Moves (Keeps task.Refusing) task.run :=
    moves_run_of (fun ht hs => hs.aside ht) fun hslot => keeps_methodNameFor hgraph hslot
  have hstart : task.Refusing s := by
    refine ⟨hresolver, fun hfound => ?_⟩
    rw [hempty] at hfound
    cases hfound
  exact (hkeeps.of_succeeds h hstart).agreed hname

end NamingTask

end StableNaming
