import Mathlib.Data.List.Nodup
import StableNaming.Mapping.Set
import StableNaming.Proofs.Collection.Lookup

/-!
# Tables of mapping sets

A mapping set in which no symbol stands twice has a table, and the table answers
exactly what the set says.
-/

namespace StableNaming

namespace MappingTable

theorem classTarget?_of_not_identity {t : MappingTable} (h : t.identity = false) (name : String) :
    t.classTarget? name = t.classes.find? name := by
  rw [classTarget?, h, if_neg Bool.false_ne_true]

theorem memberTarget?_of_not_identity {t : MappingTable} (h : t.identity = false)
    (kind : MemberKind) (ref : MemberRef) :
    t.memberTarget? kind ref = (t.members kind).find? ref := by
  rw [memberTarget?, h, if_neg Bool.false_ne_true]

/-- The members of one kind that a table knows, with their names in the target namespace. -/
def memberNames (t : MappingTable) (kind : MemberKind) : List (MemberRef × String) :=
  (t.members kind).entries.map fun e => (e.1, e.2.key.name)

theorem keys_memberNames (t : MappingTable) (kind : MemberKind) :
    (t.memberNames kind).map Prod.fst = (t.members kind).keys := by
  rw [memberNames, List.map_map]
  rfl

/-- What a table answers for a member is what it lists. -/
theorem memberTarget?_eq_some_iff {t : MappingTable} (ht : t.identity = false)
    {kind : MemberKind} {ref : MemberRef} {name : String} :
    (t.memberTarget? kind ref).map (·.key.name) = some name ↔
      (ref, name) ∈ t.memberNames kind := by
  rw [memberTarget?_of_not_identity ht, memberNames, List.mem_map,
    Option.map_eq_some_iff]
  constructor
  · rintro ⟨target, htarget, rfl⟩
    exact ⟨(ref, target), Dictionary.find?_eq_some_iff.1 htarget, rfl⟩
  · rintro ⟨⟨ref', target⟩, hmem, heq⟩
    obtain ⟨rfl, rfl⟩ := Prod.mk.inj heq
    exact ⟨target, Dictionary.find?_eq_some_iff.2 hmem, rfl⟩

/-- Whether two tables differ at most in their members. -/
structure SameButMembers (t t' : MappingTable) : Prop where
  /-- The namespace of the questions is the same. -/
  source_eq : t'.source = t.source
  /-- The namespace of the answers is the same. -/
  target_eq : t'.target = t.target
  /-- Both are the identity or neither. -/
  identity_eq : t'.identity = t.identity
  /-- The classes are the same. -/
  classes_eq : t'.classes = t.classes
  /-- The counters are the same. -/
  counters_eq : t'.counters = t.counters

namespace SameButMembers

theorem refl (t : MappingTable) : SameButMembers t t := ⟨rfl, rfl, rfl, rfl, rfl⟩

theorem trans {t₁ t₂ t₃ : MappingTable} (h : SameButMembers t₁ t₂) (h' : SameButMembers t₂ t₃) :
    SameButMembers t₁ t₃ :=
  ⟨h'.source_eq.trans h.source_eq, h'.target_eq.trans h.target_eq,
    h'.identity_eq.trans h.identity_eq, h'.classes_eq.trans h.classes_eq,
    h'.counters_eq.trans h.counters_eq⟩

theorem symm {t t' : MappingTable} (h : SameButMembers t t') : SameButMembers t' t :=
  ⟨h.source_eq.symm, h.target_eq.symm, h.identity_eq.symm, h.classes_eq.symm, h.counters_eq.symm⟩

/-- Tables with the same members that differ at most in their members are one. -/
theorem eq_of_members_eq {t t' : MappingTable} (h : SameButMembers t t')
    (hmembers : ∀ kind, (t'.members kind).entries = (t.members kind).entries) : t' = t := by
  have hfields : t'.fields = t.fields := Dictionary.eq_of_entries_eq (hmembers .field)
  have hmethods : t'.methods = t.methods := Dictionary.eq_of_entries_eq (hmembers .method)
  obtain ⟨hsource, htarget, hidentity, hclasses, hcounters⟩ := h
  cases t
  cases t'
  simp_all

end SameButMembers

theorem members_withMembers (t : MappingTable) (kind kind' : MemberKind)
    (entries : Dictionary MemberRef MemberRef) :
    (t.withMembers kind entries).members kind' =
      if kind' = kind then entries else t.members kind' := by
  cases kind <;> cases kind' <;> rfl

theorem sameButMembers_withMembers (t : MappingTable) (kind : MemberKind)
    (entries : Dictionary MemberRef MemberRef) :
    SameButMembers t (t.withMembers kind entries) := by
  cases kind <;> exact ⟨rfl, rfl, rfl, rfl, rfl⟩

/-- A class is added exactly if it can stand after all others. -/
theorem insertClass_eq_ok_iff {t t' : MappingTable} {name target : String} :
    t.insertClass name target = .ok t' ↔ t' = { t with classes := t'.classes } ∧
      t'.classes.entries = t.classes.entries ++ [(name, target)] := by
  rw [← Dictionary.insertNew?_eq_some_iff, insertClass]
  cases hinsert : t.classes.insertNew? name target with
  | none => simp
  | some classes =>
    constructor
    · intro h
      rw [← Except.ok.inj h]
      exact ⟨rfl, rfl⟩
    · rintro ⟨h, hclasses⟩
      rw [h, ← Option.some.inj hclasses]

/-- A member is added exactly if it can stand after all others of its kind. -/
theorem insertMember_eq_ok_iff {t t' : MappingTable} {kind : MemberKind} {ref target : MemberRef} :
    t.insertMember kind ref target = .ok t' ↔ SameButMembers t t' ∧
      ∀ kind', (t'.members kind').entries =
        (t.members kind').entries ++ if kind' = kind then [(ref, target)] else [] := by
  rw [insertMember]
  constructor
  · intro h
    cases hinsert : (t.members kind).insertNew? ref target with
    | none =>
      rw [hinsert] at h
      cases h
    | some entries =>
      rw [hinsert] at h
      rw [← Except.ok.inj h]
      refine ⟨sameButMembers_withMembers t kind entries, fun kind' => ?_⟩
      rw [members_withMembers]
      split
      · rename_i hkind
        rw [hkind, Dictionary.insertNew?_eq_some_iff.1 hinsert]
      · rw [List.append_nil]
  · rintro ⟨hother, hentries⟩
    have hnew := hentries kind
    rw [if_pos rfl] at hnew
    rw [Dictionary.insertNew?_eq_some_iff.2 hnew]
    refine congrArg Except.ok ?_
    refine (hother.symm.trans
      (sameButMembers_withMembers t kind _)).eq_of_members_eq fun kind' => ?_
    rw [members_withMembers]
    split
    · rename_i hkind
      rw [hkind]
    · rename_i hkind
      rw [hentries, if_neg hkind, List.append_nil]

/-- A member that is not known yet is added as the last one of its kind. -/
theorem insertMember_of_not_mem {t : MappingTable} {kind : MemberKind} {ref : MemberRef}
    (target : MemberRef) (h : ref ∉ (t.memberNames kind).map Prod.fst) :
    ∃ t', t.insertMember kind ref target = .ok t' ∧ SameButMembers t t' ∧
      t'.memberNames kind = t.memberNames kind ++ [(ref, target.key.name)] ∧
      ∀ kind' ≠ kind, t'.memberNames kind' = t.memberNames kind' := by
  rw [keys_memberNames] at h
  obtain ⟨entries, hentries, hlist⟩ := Dictionary.insertNew?_of_not_mem target h
  refine ⟨t.withMembers kind entries, ?_, sameButMembers_withMembers t kind entries, ?_,
    fun kind' hkind => ?_⟩
  · rw [insertMember, hentries]
  · rw [memberNames, members_withMembers, if_pos rfl, hlist, List.map_append]
    rfl
  · rw [memberNames, members_withMembers, if_neg hkind, memberNames]

end MappingTable

namespace MappingSet

open MappingTable

/-- The members of a class in a set, with their names in the target namespace. -/
def memberNames (entry : ClassEntry) (members : List MemberEntry) : List (MemberRef × String) :=
  members.map fun m => (⟨entry.name, m.key⟩, m.target)

/-- Members that are not known yet are added in order. -/
theorem foldlM_insertMember (entry : ClassEntry) (kind : MemberKind) (members : List MemberEntry)
    (t : MappingTable)
    (h : ((t.memberNames kind ++ memberNames entry members).map Prod.fst).Nodup) :
    ∃ t', members.foldlM (insertMember entry kind) t = .ok t' ∧ SameButMembers t t' ∧
      t'.memberNames kind = t.memberNames kind ++ memberNames entry members ∧
      ∀ kind' ≠ kind, t'.memberNames kind' = t.memberNames kind' := by
  induction members generalizing t with
  | nil => exact ⟨t, rfl, .refl t, (List.append_nil _).symm, fun _ _ => rfl⟩
  | cons m members ih =>
    have hsplit : t.memberNames kind ++ memberNames entry (m :: members) =
        t.memberNames kind ++ [(⟨entry.name, m.key⟩, m.target)] ++ memberNames entry members := by
      rw [List.append_assoc]
      rfl
    have hnew : (⟨entry.name, m.key⟩ : MemberRef) ∉ (t.memberNames kind).map Prod.fst := by
      rw [List.map_append] at h
      exact fun hmem =>
        (List.nodup_append.1 h).2.2 _ hmem _ (List.mem_map_of_mem List.mem_cons_self) rfl
    obtain ⟨t₁, hinsert, hsame, hnames, hother⟩ :=
      insertMember_of_not_mem ⟨entry.target, ⟨m.target, t.mapDescriptor m.key.desc⟩⟩ hnew
    dsimp only at hnames
    rw [hsplit, ← hnames] at h
    obtain ⟨t₂, hfold, hsame₂, hnames₂, hother₂⟩ := ih t₁ h
    refine ⟨t₂, ?_, hsame.trans hsame₂, ?_, fun kind' hkind => ?_⟩
    · rw [List.foldlM_cons, insertMember, hinsert]
      exact hfold
    · rw [hnames₂, hnames, hsplit]
    · rw [hother₂ kind' hkind, hother kind' hkind]

/-- The members of one kind in a set, with their names in the target namespace. -/
def allMemberNames (kind : MemberKind) (classes : List ClassEntry) : List (MemberRef × String) :=
  classes.flatMap fun entry =>
    memberNames entry (match kind with | .field => entry.fields | .method => entry.methods)

/-- The members of all classes are added in order. -/
theorem foldlM_insertMembers (classes : List ClassEntry) (t : MappingTable)
    (h : ∀ kind, ((t.memberNames kind ++ allMemberNames kind classes).map Prod.fst).Nodup) :
    ∃ t', classes.foldlM insertMembers t = .ok t' ∧ SameButMembers t t' ∧
      ∀ kind, t'.memberNames kind = t.memberNames kind ++ allMemberNames kind classes := by
  induction classes generalizing t with
  | nil => exact ⟨t, rfl, .refl t, fun _ => (List.append_nil _).symm⟩
  | cons entry classes ih =>
    have hfront : ∀ (kind : MemberKind) (xs : List (MemberRef × String)),
        ((t.memberNames kind ++ (xs ++ allMemberNames kind classes)).map Prod.fst).Nodup →
          ((t.memberNames kind ++ xs).map Prod.fst).Nodup := by
      intro kind xs hxs
      rw [← List.append_assoc, List.map_append] at hxs
      exact (List.nodup_append.1 hxs).1
    obtain ⟨t₁, hfields, hsame₁, hnames₁, hother₁⟩ :=
      foldlM_insertMember entry .field entry.fields t (hfront .field _ (h .field))
    have hmethod₁ := hother₁ .method (by decide)
    have hmethods := hfront .method _ (h .method)
    rw [← hmethod₁] at hmethods
    obtain ⟨t₂, hmethods, hsame₂, hnames₂, hother₂⟩ :=
      foldlM_insertMember entry .method entry.methods t₁ hmethods
    have hfield₂ := hother₂ .field (by decide)
    have hboth : ∀ kind, t₂.memberNames kind = t.memberNames kind ++ memberNames entry
        (match kind with | .field => entry.fields | .method => entry.methods) := by
      rintro (_ | _)
      · rw [hfield₂, hnames₁]
      · rw [hnames₂, hmethod₁]
    obtain ⟨t₃, hrest, hsame₃, hnames₃⟩ := ih t₂ fun kind => by
      rw [hboth, List.append_assoc]
      exact h kind
    refine ⟨t₃, ?_, (hsame₁.trans hsame₂).trans hsame₃, fun kind => ?_⟩
    · have hentry : insertMembers t entry = .ok t₂ := by
        rw [insertMembers, hfields]
        exact hmethods
      rw [List.foldlM_cons, hentry]
      exact hrest
    · rw [hnames₃, hboth, List.append_assoc]
      rfl

/-- Classes that are not known yet are added in order. -/
theorem foldlM_insertClass (classes : List ClassEntry) (t : MappingTable)
    (h : ((t.classes.entries ++ classes.map fun e => (e.name, e.target)).map Prod.fst).Nodup) :
    ∃ entries, classes.foldlM (fun (t : MappingTable) e => t.insertClass e.name e.target) t =
        .ok { t with classes := entries } ∧
      entries.entries = t.classes.entries ++ classes.map fun e => (e.name, e.target) := by
  induction classes generalizing t with
  | nil => exact ⟨t.classes, rfl, (List.append_nil _).symm⟩
  | cons e classes ih =>
    have hsplit : t.classes.entries ++ (e :: classes).map (fun e => (e.name, e.target)) =
        t.classes.entries ++ [(e.name, e.target)] ++ classes.map fun e => (e.name, e.target) := by
      rw [List.append_assoc]
      rfl
    have hnew : e.name ∉ t.classes.keys := by
      rw [List.map_append] at h
      exact fun hmem =>
        (List.nodup_append.1 h).2.2 _ hmem _ (List.mem_map_of_mem List.mem_cons_self) rfl
    obtain ⟨entries, hentries, hlist⟩ := Dictionary.insertNew?_of_not_mem e.target hnew
    rw [hsplit, ← hlist] at h
    obtain ⟨entries', hfold, hlist'⟩ := ih { t with classes := entries } h
    refine ⟨entries', ?_, by rw [hlist', hlist, hsplit]⟩
    rw [List.foldlM_cons, insertClass, hentries]
    exact hfold

/-! ## The table of a set -/

/-- Whether no symbol stands twice in a set. -/
structure Unambiguous (s : MappingSet) : Prop where
  /-- No class stands twice. -/
  classes : (s.classes.map ClassEntry.name).Nodup
  /-- No field of a class stands twice. -/
  fields : ∀ entry ∈ s.classes, (entry.fields.map MemberEntry.key).Nodup
  /-- No method of a class stands twice. -/
  methods : ∀ entry ∈ s.classes, (entry.methods.map MemberEntry.key).Nodup

/-- Members that do not stand twice in their classes do not stand twice in the set. -/
theorem Unambiguous.nodup_allMemberNames {s : MappingSet} (h : s.Unambiguous)
    (kind : MemberKind) : ((allMemberNames kind s.classes).map Prod.fst).Nodup := by
  have hone : ∀ (entry : ClassEntry) (members : List MemberEntry),
      (members.map MemberEntry.key).Nodup →
        ((memberNames entry members).map Prod.fst).Nodup := by
    intro entry members hkeys
    rw [memberNames, List.map_map]
    refine List.Nodup.of_map MemberRef.key ?_
    rw [List.map_map]
    exact hkeys
  rw [allMemberNames, List.map_flatMap, List.nodup_flatMap]
  constructor
  · intro entry hentry
    cases kind
    · exact hone entry _ (h.fields entry hentry)
    · exact hone entry _ (h.methods entry hentry)
  · refine (List.pairwise_map.1 h.classes).imp fun {a b} hab => ?_
    intro ref ha hb
    have howner : ∀ {entry : ClassEntry} {members : List MemberEntry},
        ref ∈ (memberNames entry members).map Prod.fst → ref.owner = entry.name := by
      intro entry members hmem
      rw [memberNames, List.map_map] at hmem
      obtain ⟨m, -, rfl⟩ := List.mem_map.1 hmem
      rfl
    exact hab ((howner ha).symm.trans (howner hb))

/-- Whether a table answers exactly what a set says. -/
structure Answers (s : MappingSet) (t : MappingTable) : Prop where
  /-- The namespace of the questions is that of the symbols. -/
  source_eq : t.source = s.source
  /-- The namespace of the answers is that of the given names. -/
  target_eq : t.target = s.target
  /-- The table is not the identity. -/
  identity_eq : t.identity = false
  /-- It answers for the classes of the set. -/
  classTarget?_iff : ∀ {name target : String}, t.classTarget? name = some target ↔
    ∃ entry ∈ s.classes, entry.name = name ∧ entry.target = target
  /-- It answers for the fields of the set. -/
  fieldTarget?_iff : ∀ {ref : MemberRef} {name : String},
    (t.memberTarget? .field ref).map (·.key.name) = some name ↔
      ∃ entry ∈ s.classes, entry.name = ref.owner ∧ ⟨ref.key, name⟩ ∈ entry.fields
  /-- It answers for the methods of the set. -/
  methodTarget?_iff : ∀ {ref : MemberRef} {name : String},
    (t.memberTarget? .method ref).map (·.key.name) = some name ↔
      ∃ entry ∈ s.classes, entry.name = ref.owner ∧ ⟨ref.key, name⟩ ∈ entry.methods
  /-- It has the counters of the set, which start at one. -/
  counters_eq : ∀ kind, t.counters.get kind = max 1 (s.counters.get kind)

theorem mem_memberNames_iff {entry : ClassEntry} {members : List MemberEntry} {ref : MemberRef}
    {name : String} :
    (ref, name) ∈ memberNames entry members ↔
      entry.name = ref.owner ∧ ⟨ref.key, name⟩ ∈ members := by
  rw [memberNames, List.mem_map]
  constructor
  · rintro ⟨m, hm, heq⟩
    obtain ⟨rfl, rfl⟩ := Prod.mk.inj heq
    exact ⟨rfl, hm⟩
  · rintro ⟨howner, hm⟩
    refine ⟨⟨ref.key, name⟩, hm, ?_⟩
    rw [howner]

/-- A set in which no symbol stands twice has a table that answers what the set says. -/
theorem Unambiguous.toTable {s : MappingSet} (h : s.Unambiguous) :
    ∃ t, s.toTable = .ok t ∧ s.Answers t := by
  obtain ⟨entries, hclasses, hlist⟩ :=
    foldlM_insertClass s.classes { source := s.source, target := s.target } (by
      change ((s.classes.map fun e => (e.name, e.target)).map Prod.fst).Nodup
      rw [List.map_map]
      exact h.classes)
  obtain ⟨t, hmembers, hsame, hnames⟩ :=
    foldlM_insertMembers s.classes
      { source := s.source, target := s.target, classes := entries }
      (fun kind => by
        have hnodup := h.nodup_allMemberNames kind
        cases kind <;> exact hnodup)
  obtain ⟨t', ht'⟩ : ∃ t', t' = { t with counters := t.counters.merge s.counters } := ⟨_, rfl⟩
  have hidentity : t'.identity = false := ht' ▸ hsame.identity_eq
  have hentries : t'.classes = entries := ht' ▸ hsame.classes_eq
  have hall : ∀ kind, t'.memberNames kind = allMemberNames kind s.classes := by
    intro kind
    have hkind := hnames kind
    rw [ht']
    cases kind <;> exact hkind
  refine ⟨t', ?_, ht' ▸ hsame.source_eq, ht' ▸ hsame.target_eq, hidentity, fun {name target} => ?_,
    fun {ref name} => ?_, fun {ref name} => ?_, fun kind => ?_⟩
  · rw [MappingSet.toTable, hclasses, ht']
    exact congrArg (· >>= fun t : MappingTable =>
      Except.ok { t with counters := t.counters.merge s.counters }) hmembers
  · have hpairs : entries.entries = s.classes.map fun e => (e.name, e.target) := hlist
    rw [classTarget?, hidentity, if_neg Bool.false_ne_true, hentries,
      Dictionary.find?_eq_some_iff, hpairs]
    simp only [List.mem_map, Prod.mk.injEq]
  · rw [memberTarget?_eq_some_iff hidentity, hall, allMemberNames, List.mem_flatMap]
    simp only [mem_memberNames_iff]
  · rw [memberTarget?_eq_some_iff hidentity, hall, allMemberNames, List.mem_flatMap]
    simp only [mem_memberNames_iff]
  · rw [ht', Counters.get_merge, hsame.counters_eq]
    cases kind <;> rfl

end MappingSet

end StableNaming
