import StableNaming.Proofs.Mapping.TinyTable

/-!
# What the targets of a table are made of

A table of a mapping set gives every member a class, a name and a descriptor: the class is
the target of the class of the member, and the descriptor is that of the member in terms of
the classes of the table. The classes are entered first, so this holds from the first
member on.
-/

namespace StableNaming

namespace MappingTable

/-- Whether the targets of the members are spelled with given classes, and their owners are the
targets of entries. -/
structure Spelled (entries : List ClassEntry) (classes : Dictionary String String)
    (t : MappingTable) : Prop where
  /-- The table is not the identity. -/
  identity_eq : t.identity = false
  /-- Its classes are the given ones. -/
  classes_eq : t.classes = classes
  /-- Targets belong to targets of entries, and their descriptors are mapped. -/
  target : ∀ {kind : MemberKind} {ref target : MemberRef},
    (t.members kind).find? ref = some target →
      (∃ entry ∈ entries, entry.name = ref.owner ∧ entry.target = target.owner) ∧
        target.key.desc = Descriptor.rename classes.find? ref.key.desc

/-- A member whose target is spelled so may be added. -/
theorem Spelled.insertMember {entries : List ClassEntry} {classes : Dictionary String String}
    {t t' : MappingTable} (h : Spelled entries classes t) {entry : ClassEntry}
    (hentry : entry ∈ entries) {kind : MemberKind} {m : MemberEntry}
    (ht : MappingSet.insertMember entry kind t m = .ok t') : Spelled entries classes t' := by
  rw [MappingSet.insertMember] at ht
  obtain ⟨-, -, hidentity, hclasses, -⟩ := of_insertMember ht
  refine ⟨hidentity.trans h.identity_eq, hclasses.trans h.classes_eq,
    fun {kind' ref target} hfind => ?_⟩
  rw [MappingTable.insertMember, Dictionary.insertNew?] at ht
  split at ht
  · rename_i added hadded
    split at hadded
    · cases hadded
    · rw [← Option.some.inj hadded] at ht
      have hdesc : t.mapDescriptor m.key.desc = Descriptor.rename classes.find? m.key.desc := by
        rw [mapDescriptor, h.identity_eq, if_neg Bool.false_ne_true, h.classes_eq]
      by_cases hkind : kind' = kind
      · have hmembers : t'.members kind' = (t.members kind).insert ⟨entry.name, m.key⟩
            ⟨entry.target, ⟨m.target, t.mapDescriptor m.key.desc⟩⟩ := by
          rw [← Except.ok.inj ht, hkind]
          cases kind <;> rfl
        rw [hmembers, Dictionary.find?_insert] at hfind
        split at hfind
        · rename_i href
          rw [← Option.some.inj hfind, ← href]
          exact ⟨⟨entry, hentry, rfl, rfl⟩, hdesc⟩
        · exact h.target hfind
      · have hmembers : t'.members kind' = t.members kind' := by
          rw [← Except.ok.inj ht]
          cases kind <;> cases kind' <;> first | rfl | exact absurd rfl hkind
        exact h.target (hmembers ▸ hfind)
  · cases ht

end MappingTable

namespace MappingSet

open MappingTable

/-- The target of a member in the table of a set belongs to the target of the class of the
member, and its descriptor is mapped. -/
theorem of_memberTarget?_toTable {s : MappingSet} {t : MappingTable} (ht : s.toTable = .ok t)
    {kind : MemberKind} {ref target : MemberRef} (h : t.memberTarget? kind ref = some target) :
    (∃ entry ∈ s.classes, entry.name = ref.owner ∧ entry.target = target.owner) ∧
      target.key.desc = t.mapDescriptor ref.key.desc := by
  rw [toTable] at ht
  dsimp only [bind, Except.bind] at ht
  split at ht
  · cases ht
  · rename_i known hknown
    split at ht
    · cases ht
    · rename_i filled hfilled
      have hfresh : Spelled s.classes known.classes known := by
        rw [eq_of_foldlM_insertClass hknown]
        refine ⟨rfl, rfl, fun {kind ref target} hfind => ?_⟩
        cases kind <;> cases hfind
      have hone : ∀ u, Spelled s.classes known.classes u → ∀ entry ∈ s.classes, ∀ u',
          insertMembers u entry = .ok u' → Spelled s.classes known.classes u' := by
        intro u hu entry hentry u' hstep
        rw [insertMembers] at hstep
        dsimp only [bind, Except.bind] at hstep
        split at hstep
        · cases hstep
        · rename_i v hfields
          have hv : Spelled s.classes known.classes v :=
            of_foldlM_eq_ok (fun _ hw _ _ _ hm => hw.insertMember hentry hm) hu hfields
          exact of_foldlM_eq_ok (fun _ hw _ _ _ hm => hw.insertMember hentry hm) hv hstep
      have hspelled : Spelled s.classes known.classes filled :=
        of_foldlM_eq_ok hone hfresh hfilled
      rw [← Except.ok.inj ht] at h ⊢
      have hfind : (filled.members kind).find? ref = some target := by
        rw [memberTarget?] at h
        dsimp only at h
        rw [hspelled.identity_eq, if_neg Bool.false_ne_true] at h
        cases kind <;> exact h
      rw [mapDescriptor]
      dsimp only
      rw [hspelled.identity_eq, if_neg Bool.false_ne_true, hspelled.classes_eq]
      exact hspelled.target hfind

end MappingSet

end StableNaming
