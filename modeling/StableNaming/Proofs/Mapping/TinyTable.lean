import StableNaming.Proofs.Collection.Fold
import StableNaming.Proofs.Mapping.Indexing
import StableNaming.Proofs.Mapping.TinyLines

/-!
# Tables of written sets

A mapping set that is written and read again has the table that it has without being
written, or the same fault. The reader enters the classes before the members, as the
set does, and finds every owner and every class of a descriptor among the classes that
it has just entered.
-/

namespace StableNaming

namespace MappingTable

/-- A class is only added if it is new. -/
theorem of_insertClass {t t' : MappingTable} {name target : String}
    (h : t.insertClass name target = .ok t') :
    t.classes.find? name = none ∧ t' = { t with classes := t.classes.insert name target } := by
  rw [insertClass, Dictionary.insertNew?] at h
  by_cases hknown : t.classes.contains name = true
  · rw [if_pos hknown] at h
    cases h
  · rw [if_neg hknown] at h
    exact ⟨by simpa [Dictionary.contains] using hknown, (Except.ok.inj h).symm⟩

/-- A class is not added if it is known. -/
theorem of_insertClass_eq_error {t : MappingTable} {name target : String} {fault : MappingFault}
    (h : t.insertClass name target = .error fault) : fault = .duplicateEntry .type name := by
  rw [insertClass] at h
  split at h
  · cases h
  · exact (Except.error.inj h).symm

/-- Adding a member touches nothing but the members. -/
theorem of_insertMember {t t' : MappingTable} {kind : MemberKind} {ref target : MemberRef}
    (h : t.insertMember kind ref target = .ok t') : SameButMembers t t' :=
  (insertMember_eq_ok_iff.1 h).1

/-- A member is not added if it is known. -/
theorem of_insertMember_eq_error {t : MappingTable} {kind : MemberKind} {ref target : MemberRef}
    {fault : MappingFault} (h : t.insertMember kind ref target = .error fault) :
    fault = .duplicateEntry kind.symbol ref.text := by
  rw [insertMember] at h
  split at h
  · cases h
  · exact (Except.error.inj h).symm

/-- Whatever the counters are, classes are added alike. -/
theorem insertClass_counters (t : MappingTable) (name target : String) (counters : Counters) :
    ({ t with counters } : MappingTable).insertClass name target =
      (t.insertClass name target).map fun t => { t with counters } := by
  rw [insertClass, insertClass]
  dsimp only
  split <;> rfl

/-- Whatever the counters are, members are added alike. -/
theorem insertMember_counters (t : MappingTable) (kind : MemberKind) (ref target : MemberRef)
    (counters : Counters) :
    ({ t with counters } : MappingTable).insertMember kind ref target =
      (t.insertMember kind ref target).map fun t => { t with counters } := by
  have hmembers : ({ t with counters } : MappingTable).members kind = t.members kind := by
    cases kind <;> rfl
  rw [insertMember, insertMember, hmembers]
  split
  · cases kind <;> rfl
  · rfl

end MappingTable

namespace MappingSet

open MappingTable

/-- The only faults of a set are symbols that stand twice. -/
theorem exists_of_toTable_eq_error {s : MappingSet} {fault : MappingFault}
    (h : s.toTable = .error fault) : ∃ kind symbol, fault = .duplicateEntry kind symbol := by
  rw [toTable] at h
  dsimp only [bind, Except.bind] at h
  split at h
  · rename_i fault' hclasses
    obtain rfl : fault' = fault := Except.error.inj h
    obtain ⟨t, entry, -, hfault⟩ := exists_of_foldlM_eq_error hclasses
    exact ⟨_, _, of_insertClass_eq_error hfault⟩
  · split at h
    · rename_i fault' hmembers
      obtain rfl : fault' = fault := Except.error.inj h
      obtain ⟨t, entry, -, hfault⟩ := exists_of_foldlM_eq_error hmembers
      rw [insertMembers] at hfault
      dsimp only [bind, Except.bind] at hfault
      split at hfault
      · rename_i fault'' hfields
        obtain rfl : fault'' = fault' := Except.error.inj hfault
        obtain ⟨t, m, -, hfault⟩ := exists_of_foldlM_eq_error hfields
        exact ⟨_, _, of_insertMember_eq_error hfault⟩
      · obtain ⟨t, m, -, hfault⟩ := exists_of_foldlM_eq_error hfault
        exact ⟨_, _, of_insertMember_eq_error hfault⟩
    · cases h

/-- The classes that are added are found. -/
theorem find?_of_foldlM_insertClass {classes : List ClassEntry} {t t' : MappingTable}
    (h : classes.foldlM (fun (t : MappingTable) e => t.insertClass e.name e.target) t = .ok t') :
    (∀ name target, t.classes.find? name = some target → t'.classes.find? name = some target) ∧
      ∀ e ∈ classes, t'.classes.find? e.name = some e.target := by
  induction classes generalizing t with
  | nil =>
    obtain rfl : t = t' := Except.ok.inj h
    exact ⟨fun _ _ hfound => hfound, fun e he => absurd he List.not_mem_nil⟩
  | cons e classes ih =>
    rw [List.foldlM_cons] at h
    cases hstep : t.insertClass e.name e.target with
    | error fault =>
      rw [hstep] at h
      cases h
    | ok t₁ =>
      rw [hstep] at h
      obtain ⟨hkept, hfound⟩ := ih h
      obtain ⟨hnew, rfl⟩ := of_insertClass hstep
      refine ⟨fun name target hold => hkept name target ?_, List.forall_mem_cons.2 ⟨?_, hfound⟩⟩
      · have hne : e.name ≠ name := by
          rintro rfl
          rw [hold] at hnew
          cases hnew
        rw [Dictionary.find?_insert, if_neg hne, hold]
      · exact hkept e.name e.target (by rw [Dictionary.find?_insert, if_pos rfl])

/-- Adding classes enters them in order and leaves everything else alone. -/
theorem eq_of_foldlM_insertClass {classes : List ClassEntry} {t t' : MappingTable}
    (h : classes.foldlM (fun (t : MappingTable) e => t.insertClass e.name e.target) t = .ok t') :
    t' = { t with
      classes := classes.foldl (fun d e => d.insert e.name e.target) t.classes } := by
  induction classes generalizing t with
  | nil => exact (Except.ok.inj h).symm
  | cons e classes ih =>
    rw [List.foldlM_cons] at h
    cases hstep : t.insertClass e.name e.target with
    | error fault =>
      rw [hstep] at h
      cases h
    | ok t₁ =>
      rw [hstep] at h
      obtain ⟨-, rfl⟩ := of_insertClass hstep
      exact ih h

/-- Adding the members of a class touches nothing but the members. -/
theorem of_insertMembers {t t' : MappingTable} {entry : ClassEntry}
    (h : insertMembers t entry = .ok t') : SameButMembers t t' := by
  rw [insertMembers] at h
  have hkeep : ∀ {kind : MemberKind} {t₁ : MappingTable} {m : MemberEntry} {t₂ : MappingTable},
      SameButMembers t t₁ → insertMember entry kind t₁ m = .ok t₂ → SameButMembers t t₂ :=
    fun hsame hstep => hsame.trans (of_insertMember hstep)
  cases hfields : entry.fields.foldlM (insertMember entry .field) t with
  | error fault =>
    rw [hfields] at h
    cases h
  | ok t₁ =>
    rw [hfields] at h
    have hsame := of_foldlM_eq_ok (fun _ hsame _ _ _ => hkeep hsame) (.refl t) hfields
    exact of_foldlM_eq_ok (fun _ hsame _ _ _ => hkeep hsame) hsame h

/-- Whatever the counters are, members of classes are added alike. -/
theorem insertMembers_counters (t : MappingTable) (entry : ClassEntry) (counters : Counters) :
    insertMembers { t with counters } entry =
      (insertMembers t entry).map fun t => { t with counters } := by
  have hone : ∀ (kind : MemberKind) (t : MappingTable) (m : MemberEntry),
      insertMember entry kind { t with counters } m =
        (insertMember entry kind t m).map fun t => { t with counters } := fun kind t m =>
    insertMember_counters t kind _ _ counters
  rw [insertMembers, insertMembers, foldlM_map_state _ (hone .field)]
  cases entry.fields.foldlM (insertMember entry .field) t with
  | error fault => rfl
  | ok t₁ => exact foldlM_map_state _ (hone .method)

/-- The counters of a set can be entered first. -/
theorem toTable_eq (s : MappingSet) :
    s.toTable = (s.classes.foldlM (fun (t : MappingTable) e => t.insertClass e.name e.target)
      { source := s.source, target := s.target, counters := Counters.merge {} s.counters }) >>=
        s.classes.foldlM insertMembers := by
  have hclasses := foldlM_map_state s.classes
    (s := ({ source := s.source, target := s.target } : MappingTable))
    (f := fun (t : MappingTable) e => t.insertClass e.name e.target)
    (g := fun t => { t with counters := Counters.merge {} s.counters })
    fun t e => t.insertClass_counters e.name e.target _
  dsimp only at hclasses
  rw [toTable, hclasses]
  cases hentered : s.classes.foldlM (fun (t : MappingTable) e => t.insertClass e.name e.target)
      { source := s.source, target := s.target } with
  | error fault => rfl
  | ok t =>
    have hmembers := foldlM_map_state s.classes (s := t) (f := insertMembers)
      (g := fun t => { t with counters := Counters.merge {} s.counters })
      fun t e => insertMembers_counters t e _
    have hfresh : t.counters = {} := by rw [eq_of_foldlM_insertClass hentered]
    refine Eq.trans ?_ hmembers.symm
    cases hall : s.classes.foldlM insertMembers t with
    | error fault =>
      simp only [bind, Except.bind, hall]
      rfl
    | ok t₁ =>
      have hsame := of_foldlM_eq_ok (I := SameButMembers t)
        (fun _ hsame _ _ _ hstep => hsame.trans (of_insertMembers hstep)) (.refl t) hall
      simp only [bind, Except.bind, hall]
      rw [hsame.counters_eq, hfresh]
      rfl

end MappingSet

namespace Tiny

open MappingTable MappingSet

/-! ## Entering what was read -/

/-- The classes of a set in terms of a namespace, as the reader collects them. -/
theorem classNames_entriesOfClass (pick : (base source target : String) → String)
    (classes : List ClassEntry) :
    classNames pick (classes.flatMap entriesOfClass) =
      .ofList (classes.map fun e => (e.name, pick e.name e.name e.target)) := by
  have hnone : ∀ members : List MemberEntry,
      members.filterMap (fun _ => (none : Option (String × String))) = [] := fun members =>
    List.filterMap_eq_nil_iff.2 fun _ _ => rfl
  rw [classNames, List.filterMap_flatMap]
  refine congrArg Dictionary.ofList ?_
  rw [List.map_eq_flatMap]
  refine congrArg (List.flatMap · classes) (funext fun e => ?_)
  rw [entriesOfClass, List.filterMap_cons, List.filterMap_append, List.filterMap_map,
    List.filterMap_map]
  -- the line of a member names no class
  exact congrArg (_ :: ·) (congrArg₂ (· ++ ·) (hnone e.fields) (hnone e.methods))

/-- The reader enters the classes as the set does. -/
theorem foldlM_insertClass_entries {classes : List ClassEntry}
    (h : ∀ e ∈ classes, e.target ≠ "") (t : MappingTable) :
    (classes.flatMap entriesOfClass).foldlM insertClass t =
      classes.foldlM (fun (t : MappingTable) e => t.insertClass e.name e.target) t := by
  have hmembers : ∀ (kind : MemberKind) (owner : String) (members : List MemberEntry)
      (t : MappingTable), (members.map (memberLineOf kind owner)).foldlM insertClass t = .ok t := by
    intro kind owner members t
    induction members with
    | nil => rfl
    | cons m members ih => exact ih
  induction classes generalizing t with
  | nil => rfl
  | cons e classes ih =>
    obtain ⟨he, hclasses⟩ := List.forall_mem_cons.1 h
    rw [List.flatMap_cons, List.foldlM_append, entriesOfClass, List.foldlM_cons, insertClass,
      if_neg he, List.foldlM_cons]
    cases t.insertClass e.name e.target with
    | error fault => rfl
    | ok t₁ =>
      refine Eq.trans ?_ (ih hclasses t₁)
      dsimp only [bind, Except.bind]
      rw [List.foldlM_append, hmembers]
      dsimp only [bind, Except.bind]
      rw [hmembers]

/-- Whether the reader knows the classes of a set as a table does. -/
structure Translates (toSource toTarget : Dictionary String String) (t : MappingTable) : Prop where
  /-- Names in the source namespace stay. -/
  toSource_eq : ∀ name, (toSource.find? name).getD name = name
  /-- Names in the target namespace are those of the table. -/
  toTarget_eq : t.classes = toTarget
  /-- The table is not the identity. -/
  identity_eq : t.identity = false

/-- The reader enters the members of a class as the set does. -/
theorem foldlM_insertMember_entries {toSource toTarget : Dictionary String String}
    {entry : ClassEntry} (hfound : toTarget.find? entry.name = some entry.target)
    (htargets : ∀ m ∈ entry.fields ++ entry.methods, m.target ≠ "") {t : MappingTable}
    (ht : Translates toSource toTarget t) :
    (entriesOfClass entry).foldlM (insertMember toSource toTarget) t =
      insertMembers t entry := by
  have hkeep : ∀ {kind : MemberKind} {t t' : MappingTable} {m : MemberEntry},
      Translates toSource toTarget t → MappingSet.insertMember entry kind t m = .ok t' →
        Translates toSource toTarget t' := by
    intro kind t t' m ht hstep
    have hsame := of_insertMember hstep
    exact ⟨ht.toSource_eq, hsame.classes_eq.trans ht.toTarget_eq,
      hsame.identity_eq.trans ht.identity_eq⟩
  have hone : ∀ {kind : MemberKind} {t : MappingTable} {m : MemberEntry},
      Translates toSource toTarget t → m.target ≠ "" →
        MappingSet.insertMember entry kind t m =
          insertMember toSource toTarget t (memberLineOf kind entry.name m) := by
    intro kind t m ht hm
    rw [MappingSet.insertMember, memberLineOf, insertMember, if_neg hm, mapDescriptor,
      ht.identity_eq, if_neg Bool.false_ne_true, ht.toTarget_eq]
    dsimp only
    rw [ht.toSource_eq, hfound, Descriptor.rename_eq_self ht.toSource_eq]
    rfl
  have hfold : ∀ (kind : MemberKind) {members : List MemberEntry} {t : MappingTable},
      Translates toSource toTarget t → (∀ m ∈ members, m.target ≠ "") →
        (members.map (memberLineOf kind entry.name)).foldlM (insertMember toSource toTarget) t =
          members.foldlM (MappingSet.insertMember entry kind) t := by
    intro kind members t ht hmembers
    rw [List.foldlM_map]
    exact (foldlM_eq_of_keeps (fun _ _ _ ht hstep => hkeep ht hstep)
      (fun _ ht m hm => hone ht (hmembers m hm)) ht).symm
  have hfields := hfold .field ht fun m hm => htargets m (List.mem_append_left _ hm)
  rw [entriesOfClass, List.foldlM_cons, insertMembers]
  refine Eq.trans (List.foldlM_append ..) ?_
  rw [hfields]
  cases houtcome : entry.fields.foldlM (MappingSet.insertMember entry .field) t with
  | error fault => rfl
  | ok t₁ =>
    have ht₁ : Translates toSource toTarget t₁ :=
      of_foldlM_eq_ok (fun _ ht _ _ _ hstep => hkeep ht hstep) ht houtcome
    exact hfold .method ht₁ fun m hm => htargets m (List.mem_append_right _ hm)

/-- The reader enters all members as the set does. -/
theorem foldlM_insertMembers_entries {toSource toTarget : Dictionary String String}
    {classes : List ClassEntry}
    (hfound : ∀ e ∈ classes, toTarget.find? e.name = some e.target)
    (htargets : ∀ e ∈ classes, ∀ m ∈ e.fields ++ e.methods, m.target ≠ "") {t : MappingTable}
    (ht : Translates toSource toTarget t) :
    (classes.flatMap entriesOfClass).foldlM (insertMember toSource toTarget) t =
      classes.foldlM insertMembers t := by
  induction classes generalizing t with
  | nil => rfl
  | cons e classes ih =>
    obtain ⟨he, hclasses⟩ := List.forall_mem_cons.1 hfound
    obtain ⟨hm, hmembers⟩ := List.forall_mem_cons.1 htargets
    rw [List.flatMap_cons, List.foldlM_append, foldlM_insertMember_entries he hm ht,
      List.foldlM_cons]
    cases hstep : insertMembers t e with
    | error fault => rfl
    | ok t₁ =>
      have hsame := of_insertMembers hstep
      exact ih hclasses hmembers ⟨ht.toSource_eq, hsame.classes_eq.trans ht.toTarget_eq,
        hsame.identity_eq.trans ht.identity_eq⟩

/-- A dictionary of names that stand for themselves does not change a name. -/
theorem getD_find?_ofList_self (names : List String) (name : String) :
    ((Dictionary.ofList (names.map fun n => (n, n))).find? name).getD name = name := by
  have hkept : ∀ (names : List String) (d : Dictionary String String),
      (d.find? name).getD name = name →
        (((names.map fun n => (n, n)).foldl (fun d pair => d.insert pair.1 pair.2) d).find?
          name).getD name = name := by
    intro names
    induction names with
    | nil => exact fun d hd => hd
    | cons n names ih =>
      intro d hd
      refine ih (d.insert n n) ?_
      rw [Dictionary.find?_insert]
      split
      · rename_i heq
        exact heq
      · exact hd
  exact hkept names .empty rfl

/-- A set that is written and read again has the outcome that it has as it is: the same table, or
the same symbol that stands twice. -/
theorem read_write {s : MappingSet} (h : s.Writable) :
    read s.source s.target (Text.encodeUtf8 (write s)) = s.toTable ∧
      ∀ fault, s.toTable = .error fault → ∃ kind symbol, fault = .duplicateEntry kind symbol := by
  refine ⟨?_, fun fault => MappingSet.exists_of_toTable_eq_error⟩
  have hclassTargets : ∀ e ∈ s.classes, e.target ≠ "" := fun e he =>
    (h.classes e he).target.ne_empty
  have hmemberTargets : ∀ e ∈ s.classes, ∀ m ∈ e.fields ++ e.methods, m.target ≠ "" := by
    intro e he m hm
    rcases List.mem_append.1 hm with hm | hm
    · exact ((h.classes e he).fields m hm).target.ne_empty
    · exact ((h.classes e he).methods m hm).target.ne_empty
  rw [read_write_eq_tableOf h, entriesOf_itemsOf, countersOf_itemsOf, MappingSet.toTable_eq,
    tableOf, foldlM_insertClass_entries hclassTargets, classNames_entriesOfClass,
    classNames_entriesOfClass]
  cases hentered : s.classes.foldlM (fun (t : MappingTable) e => t.insertClass e.name e.target)
      { source := s.source, target := s.target, counters := Counters.merge {} s.counters } with
  | error fault => rfl
  | ok t =>
    have ht := MappingSet.eq_of_foldlM_insertClass hentered
    obtain ⟨-, hfound⟩ := MappingSet.find?_of_foldlM_insertClass hentered
    have hpick : s.classes.map (fun e => (e.name, orBase e.target e.name)) =
        s.classes.map fun e => (e.name, e.target) :=
      List.map_congr_left fun e he => by rw [orBase, if_neg (hclassTargets e he)]
    have hclasses : t.classes =
        .ofList (s.classes.map fun e => (e.name, orBase e.target e.name)) := by
      rw [hpick, Dictionary.ofList, List.foldl_map, ht]
    rw [hclasses] at hfound
    refine foldlM_insertMembers_entries hfound hmemberTargets ⟨fun name => ?_, hclasses, ?_⟩
    · have hself := getD_find?_ofList_self (s.classes.map ClassEntry.name) name
      rwa [List.map_map] at hself
    · rw [ht]

/-- Two classes of which each occurs in the descriptor of a member of the other. -/
def knot : MappingSet where
  source := "official"
  target := "intermediary"
  counters := ⟨3, 2, 2⟩
  classes :=
    [{ name := "a", target := "net/minecraft/class_1",
        fields := [⟨⟨"c", "[Lb;"⟩, "field_1"⟩] },
      { name := "b", target := "net/minecraft/class_2",
        methods := [⟨⟨"d", "(La;I)V"⟩, "method_1"⟩] }]

theorem read_write_knot :
    knot.Writable ∧
      read "official" "intermediary" (Text.encodeUtf8 (write knot)) = knot.toTable := by
  have hends : ∃ c, knot.target.toList.getLast? = some c ∧ Text.isBlank c = false :=
    ⟨'y', by decide +kernel⟩
  have hwritable : knot.Writable :=
    ⟨by decide, by decide +kernel, by decide +kernel, hends, by decide +kernel⟩
  exact ⟨hwritable, (read_write hwritable).1⟩

end Tiny

end StableNaming
