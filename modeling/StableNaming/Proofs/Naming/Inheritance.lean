import Mathlib.Data.List.Induction
import StableNaming.Naming.Generator

/-!
# What a heritage offers

A heritage whose tables are the identity offers nothing. One with an earlier
mapping of the same classes and nothing else offers the generated names of that
mapping.
-/

namespace StableNaming

namespace Carried

/-- A symbol that keeps its name carries nothing over. -/
theorem judge_self (kind : SymbolKind) (name : String) : judge kind name (some name) = missing :=
  if_pos rfl

/-- A generated name of another symbol is carried over. -/
theorem judge_generated {kind : SymbolKind} {name found : String} (hne : found ≠ name)
    (hgenerated : kind.isGenerated (innermostName found) = true) :
    judge kind name (some found) = generated found := by
  rw [judge, if_neg hne, if_pos hgenerated]

/-- Only generated names are carried over. -/
theorem name?_eq_some_iff {carried : Carried} {name : String} :
    carried.name? = some name ↔ carried = generated name := by
  cases carried with
  | generated found =>
    rw [name?, Option.some_inj]
    exact ⟨fun h => congrArg generated h, generated.inj⟩
  | missing => simp [name?]
  | renamed found => simp [name?]

theorem of_judge_eq_generated {kind : SymbolKind} {name found : String} {answer : Option String}
    (h : judge kind name answer = generated found) :
    answer = some found ∧ found ≠ name ∧ kind.isGenerated (innermostName found) = true := by
  cases answer with
  | none => cases h
  | some answer =>
    rw [judge] at h
    split at h
    · cases h
    · rename_i hne
      split at h
      · rename_i hgenerated
        obtain rfl := Carried.generated.inj h
        exact ⟨rfl, hne, hgenerated⟩
      · cases h

end Carried

theorem MappingTable.classTarget?_theIdentity (name : String) :
    theIdentity.classTarget? name = some name := rfl

theorem MappingTable.memberTarget?_theIdentity (kind : MemberKind) (ref : MemberRef) :
    theIdentity.memberTarget? kind ref = some ref := rfl

namespace Heritage

/-- The identity has nothing to say about members. -/
theorem judgeMember_theIdentity (kind : MemberKind) (ref : MemberRef) :
    judgeMember .theIdentity kind ref = .missing :=
  Carried.judge_self _ _

/-- Whether a heritage offers no name at all. -/
structure Silent (h : Heritage) : Prop where
  /-- No class is offered a name. -/
  className? : ∀ name, h.className? name = none
  /-- No field is offered a name. -/
  fieldName? : ∀ ref, h.fieldName? ref = none
  /-- No method is offered a name. -/
  methodName? : ∀ ref, h.methodName? ref = none

/-- Whether a heritage knows an earlier mapping of the same classes at most. -/
structure PriorOnly (h : Heritage) : Prop where
  /-- No class is matched with another one. -/
  matched : h.matched = .theIdentity
  /-- No old mapping renames anything. -/
  old : h.old = .theIdentity

variable {h : Heritage}

/-- Only generated names are carried over to methods. -/
theorem isGenerated_of_methodName? {ref found : MemberRef} {name : String}
    (hoffer : h.methodName? ref = some (name, found)) :
    SymbolKind.method.isGenerated (innermostName name) = true := by
  have hmember : ∀ {t ref}, judgeMember t .method ref = .generated name →
      SymbolKind.method.isGenerated (innermostName name) = true :=
    fun hjudge => (Carried.of_judge_eq_generated hjudge).2.2
  have hfamily : ∀ {ref}, h.judgeFamily ref = .generated name →
      SymbolKind.method.isGenerated (innermostName name) = true := by
    intro ref hjudge
    rw [judgeFamily] at hjudge
    split at hjudge
    · cases hjudge
    · obtain hfind | ⟨-, hnone⟩ := Option.getD_eq_iff.1 hjudge
      · obtain ⟨member, -, hjudge⟩ := List.mem_map.1 (List.mem_of_find?_eq_some hfind)
        exact hmember hjudge
      · cases hnone
  have hold : ∀ {ref}, h.judgeOldMethod ref = .generated name →
      SymbolKind.method.isGenerated (innermostName name) = true := by
    intro ref hjudge
    rw [judgeOldMethod] at hjudge
    split at hjudge
    · exact hfamily hjudge
    · exact hmember hjudge
  rw [methodName?] at hoffer
  split at hoffer
  · obtain ⟨old, -, hoffer⟩ := Option.bind_eq_some_iff.1 hoffer
    obtain ⟨name', hname, heq⟩ := Option.map_eq_some_iff.1 hoffer
    obtain ⟨rfl, -⟩ := Prod.mk.inj heq
    exact hold (Carried.name?_eq_some_iff.1 hname)
  · obtain ⟨name', hname, heq⟩ := Option.map_eq_some_iff.1 hoffer
    obtain ⟨rfl, -⟩ := Prod.mk.inj heq
    exact hmember (Carried.name?_eq_some_iff.1 hname)

/-- An old mapping that renames nothing has nothing to say about methods. -/
theorem judgeOldMethod_of_identity (hold : h.old = .theIdentity) (ref : MemberRef) :
    h.judgeOldMethod ref = .missing := by
  rw [judgeOldMethod, hold, judgeMember_theIdentity]
  dsimp only
  rw [judgeFamily]
  split
  · rfl
  · rename_i id _
    have hnone : ((h.oldHierarchy.family id ref.key).map fun member =>
        judgeMember h.old .method ⟨h.oldGraph.nameAt member, ref.key⟩).find?
          (fun judged => decide (judged ≠ .missing)) = none := by
      refine List.find?_eq_none.2 fun judged hjudged => ?_
      obtain ⟨member, -, rfl⟩ := List.mem_map.1 hjudged
      rw [hold, judgeMember_theIdentity]
      decide
    dsimp only
    rw [hnone]
    rfl

namespace PriorOnly

variable (hprior : h.PriorOnly)
include hprior

theorem className?_eq (name : String) :
    h.className? name = (Carried.judge .type name (h.prior.classTarget? name)).name? := by
  rw [Heritage.className?]
  split
  · rename_i hmissing
    rw [hmissing, hprior.matched, hprior.old, MappingTable.classTarget?_theIdentity,
      Option.bind_some, MappingTable.classTarget?_theIdentity, Carried.judge_self]
  · rfl

theorem oldMember?_eq (kind : MemberKind) (ref : MemberRef) :
    h.oldMember? kind ref = some ref := by
  rw [oldMember?, hprior.matched, MappingTable.memberTarget?_theIdentity, Option.some_or]

theorem fieldName?_eq (ref : MemberRef) :
    h.fieldName? ref = (judgeMember h.prior .field ref).name? := by
  rw [Heritage.fieldName?]
  split
  · rename_i hmissing
    rw [hmissing, hprior.oldMember?_eq, Option.bind_some, hprior.old, judgeMember_theIdentity]
  · rfl

theorem methodName?_eq (ref : MemberRef) :
    h.methodName? ref = (judgeMember h.prior .method ref).name?.map fun name => (name, ref) := by
  rw [Heritage.methodName?]
  split
  · rename_i hmissing
    rw [hmissing, hprior.oldMember?_eq, Option.bind_some, judgeOldMethod_of_identity hprior.old]
  · rfl

/-- Without an earlier mapping nothing is offered. -/
theorem silent (hidentity : h.prior = .theIdentity) : h.Silent where
  className? name := by
    rw [hprior.className?_eq, hidentity, MappingTable.classTarget?_theIdentity,
      Carried.judge_self]
    rfl
  fieldName? ref := by
    rw [hprior.fieldName?_eq, hidentity, judgeMember_theIdentity]
    rfl
  methodName? ref := by
    rw [hprior.methodName?_eq, hidentity, judgeMember_theIdentity]
    rfl

end PriorOnly

end Heritage

/-! ## Candidates for a family -/

namespace NamingTask

variable {task : NamingTask}

/-- The candidates for a family are the names that its classes are offered, in the order of the
classes, each once. -/
theorem keys_candidates (family : List ClassId) (key : MemberKey) :
    (task.candidates family key).keys = (family.filterMap fun id =>
      (task.heritage.methodName? ⟨task.graph.nameAt id, key⟩).map Prod.fst).eraseDups := by
  induction family using List.reverseRecOn with
  | nil => rfl
  | append_singleton family id ih =>
    rw [candidates] at ih ⊢
    rw [List.foldl_append, List.foldl_cons, List.foldl_nil, List.filterMap_append,
      List.eraseDups_append, ← ih, List.filterMap_cons, List.filterMap_nil, ClassGraph.nameAt]
    dsimp only
    cases task.heritage.methodName? ⟨(task.graph.classAt id).name, key⟩ with
    | none => exact (List.append_nil _).symm
    | some offer =>
      obtain ⟨name, ref⟩ := offer
      dsimp only [Option.map_some]
      rw [Candidates.add, Dictionary.keys_insert, ih, List.cons_removeAll, List.nil_removeAll,
        List.contains_eq_mem]
      split
      · rename_i hknown
        rw [decide_eq_true (List.mem_eraseDups.1 hknown), if_neg (by decide),
          List.eraseDups_nil, List.append_nil]
      · rename_i hnew
        rw [decide_eq_false (mt List.mem_eraseDups.2 hnew), if_pos rfl]
        rfl

theorem mem_keys_candidates_iff {family : List ClassId} {key : MemberKey} {name : String} :
    name ∈ (task.candidates family key).keys ↔
      ∃ id ∈ family, ∃ ref, task.heritage.methodName? ⟨task.graph.nameAt id, key⟩ =
        some (name, ref) := by
  rw [keys_candidates, List.mem_eraseDups, List.mem_filterMap]
  simp only [Option.map_eq_some_iff, Prod.exists, exists_and_right, exists_eq_right]

/-- A family that is offered nothing has no candidates. -/
theorem keys_candidates_of_silent (h : task.heritage.Silent) (family : List ClassId)
    (key : MemberKey) : (task.candidates family key).keys = [] := by
  refine List.eq_nil_iff_forall_not_mem.2 fun name hname => ?_
  obtain ⟨id, -, ref, hoffer⟩ := mem_keys_candidates_iff.1 hname
  rw [h.methodName?] at hoffer
  cases hoffer

/-- If some class of a family is offered a name and no class another one, the name is the only
candidate. -/
theorem keys_candidates_of_agree {family : List ClassId} {key : MemberKey} {only : String}
    (hsome : ∃ id ∈ family, ∃ ref, task.heritage.methodName? ⟨task.graph.nameAt id, key⟩ =
      some (only, ref))
    (hagree : ∀ id ∈ family, ∀ name ref,
      task.heritage.methodName? ⟨task.graph.nameAt id, key⟩ = some (name, ref) → name = only) :
    (task.candidates family key).keys = [only] := by
  have hnodup : (task.candidates family key).keys.Nodup := (task.candidates family key).nodup
  have hmem : only ∈ (task.candidates family key).keys := mem_keys_candidates_iff.2 hsome
  refine List.perm_singleton.1 ((List.perm_ext_iff_of_nodup hnodup (List.pairwise_singleton _ _)).2
    fun name => ?_)
  rw [List.mem_singleton]
  constructor
  · intro hname
    obtain ⟨id, hid, ref, hoffer⟩ := mem_keys_candidates_iff.1 hname
    exact hagree id hid name ref hoffer
  · rintro rfl
    exact hmem

end NamingTask

end StableNaming
