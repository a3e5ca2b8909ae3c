import StableNaming.Mapping.Tiny
import StableNaming.Proofs.Collection.Fold
import StableNaming.Proofs.Mapping.Indexing

/-!
# The table of the symbols of a file

The reader enters the classes, then the members, each of them with what it is called in the source
and in the target namespace, and gives up at the first symbol that is entered twice. So there is a
table exactly if no symbol is entered twice, and the table lists what is entered in the order of
the lines.
-/

namespace StableNaming

namespace Tiny

open MappingTable

/-! ## What lines enter -/

/-- What a member is called where the classes have these names. -/
def refIn (names : Dictionary String String) (owner desc name : String) : MemberRef :=
  ⟨(names.find? owner).getD owner, ⟨name, Descriptor.rename names.find? desc⟩⟩

/-- The classes of the first namespace in terms of the source namespace. -/
def sourceNames (entries : List Entry) : Dictionary String String :=
  classNames (fun _ source _ => source) entries

/-- The classes of the first namespace in terms of the target namespace. -/
def targetNames (entries : List Entry) : Dictionary String String :=
  classNames (fun base _ target => orBase target base) entries

/-- What the line of a class enters, if it enters anything. -/
def classPair? : Entry → Option (String × String)
  | .classLine _ source target => if target = "" then none else some (source, target)
  | .memberLine .. => none

/-- What the line of a member enters among the members of a kind, if it enters anything. -/
def memberPair? (toSource toTarget : Dictionary String String) (kind : MemberKind) :
    Entry → Option (MemberRef × MemberRef)
  | .memberLine kind' owner desc source target =>
    if target ≠ "" ∧ kind = kind' then
      some (refIn toSource owner desc source, refIn toTarget owner desc target)
    else none
  | .classLine .. => none

/-- Whether a table has what the lines of the symbols of a file enter, in the order of the
lines. -/
structure Tabulates (source target : String) (counters : Counters) (entries : List Entry)
    (t : MappingTable) : Prop where
  /-- The questions are of the source namespace. -/
  source_eq : t.source = source
  /-- The answers are of the target namespace. -/
  target_eq : t.target = target
  /-- The table answers from its entries. -/
  identity_eq : t.identity = false
  /-- The counters are those of the file. -/
  counters_eq : t.counters = counters
  /-- The classes are those of the lines of classes. -/
  classes_eq : t.classes.entries = entries.filterMap classPair?
  /-- The members are those of the lines of members. -/
  members_eq : ∀ kind, (t.members kind).entries =
    entries.filterMap (memberPair? (sourceNames entries) (targetNames entries) kind)

/-! ## Entering all lines -/

variable {t t' : MappingTable} {toSource toTarget : Dictionary String String} {entry : Entry}
  {entries : List Entry}

/-- A line is gone through exactly if what it enters for a class can stand after all others. -/
theorem insertClass_eq_ok_iff :
    insertClass t entry = .ok t' ↔ t' = { t with classes := t'.classes } ∧
      t'.classes.entries = t.classes.entries ++ (classPair? entry).toList := by
  have hnothing : (Except.ok t : Except MappingFault MappingTable) = .ok t' ↔
      t' = { t with classes := t'.classes } ∧
        t'.classes.entries = t.classes.entries ++ (none : Option (String × String)).toList := by
    rw [Option.toList_none, List.append_nil]
    constructor
    · rintro h
      rw [Except.ok.inj h]
      exact ⟨rfl, rfl⟩
    · rintro ⟨h, hclasses⟩
      rw [h, Dictionary.eq_of_entries_eq hclasses]
  cases entry with
  | memberLine kind owner desc source target => exact hnothing
  | classLine base source target =>
    rw [insertClass, classPair?]
    split
    · exact hnothing
    · exact MappingTable.insertClass_eq_ok_iff

/-- A line is gone through exactly if what it enters for a member can stand after all others. -/
theorem insertMember_eq_ok_iff :
    insertMember toSource toTarget t entry = .ok t' ↔ SameButMembers t t' ∧
      ∀ kind, (t'.members kind).entries =
        (t.members kind).entries ++ (memberPair? toSource toTarget kind entry).toList := by
  have hnothing : (∀ kind, memberPair? toSource toTarget kind entry = none) →
      ((Except.ok t : Except MappingFault MappingTable) = .ok t' ↔ SameButMembers t t' ∧
        ∀ kind, (t'.members kind).entries =
          (t.members kind).entries ++ (memberPair? toSource toTarget kind entry).toList) := by
    intro hnone
    simp only [hnone, Option.toList_none, List.append_nil]
    constructor
    · intro h
      rw [← Except.ok.inj h]
      exact ⟨.refl t, fun _ => rfl⟩
    · rintro ⟨hsame, hmembers⟩
      rw [hsame.eq_of_members_eq hmembers]
  cases entry with
  | classLine base source target => exact hnothing fun _ => rfl
  | memberLine kind owner desc source target =>
    rw [insertMember]
    split
    · rename_i hempty
      exact hnothing fun kind' => if_neg fun h => h.1 hempty
    · rename_i hne
      rw [MappingTable.insertMember_eq_ok_iff]
      have hlist : ∀ kind', (memberPair? toSource toTarget kind'
          (.memberLine kind owner desc source target)).toList =
            if kind' = kind then
              [(refIn toSource owner desc source, refIn toTarget owner desc target)] else [] := by
        intro kind'
        rw [memberPair?]
        by_cases hkind : kind' = kind
        · rw [if_pos ⟨hne, hkind⟩, if_pos hkind, Option.toList_some]
        · rw [if_neg fun h => hkind h.2, if_neg hkind, Option.toList_none]
      simp only [hlist]
      exact Iff.rfl

theorem filterMap_cons_eq_append {α β : Type} (f : α → Option β) (x : α) (xs : List α) :
    (x :: xs).filterMap f = (f x).toList ++ xs.filterMap f := by
  rw [List.filterMap_cons]
  cases f x <;> rfl

/-- The classes of all lines are entered exactly if they can stand one after the other. -/
theorem foldlM_insertClass_eq_ok_iff :
    entries.foldlM insertClass t = .ok t' ↔ t' = { t with classes := t'.classes } ∧
      t'.classes.entries = t.classes.entries ++ entries.filterMap classPair? := by
  induction entries generalizing t with
  | nil =>
    rw [List.filterMap_nil, List.append_nil]
    constructor
    · intro h
      obtain rfl : t = t' := Except.ok.inj h
      exact ⟨rfl, rfl⟩
    · rintro ⟨h, hclasses⟩
      rw [h, Dictionary.eq_of_entries_eq hclasses]
      rfl
  | cons entry entries ih =>
    rw [List.foldlM_cons, bind_eq_ok_iff, filterMap_cons_eq_append, ← List.append_assoc]
    constructor
    · rintro ⟨t₁, hstep, hrest⟩
      obtain ⟨h₁, hclasses₁⟩ := insertClass_eq_ok_iff.1 hstep
      obtain ⟨h, hclasses⟩ := ih.1 hrest
      rw [hclasses₁] at hclasses
      refine ⟨?_, hclasses⟩
      rw [h, h₁]
    · rintro ⟨h, hclasses⟩
      -- what has been entered after this line is the front of what is entered in the end
      have hfront : ((t.classes.entries ++ (classPair? entry).toList).map Prod.fst).Nodup := by
        have hnodup := t'.classes.nodup
        rw [hclasses, List.map_append] at hnodup
        exact hnodup.of_append_left
      refine ⟨{ t with classes := ⟨_, hfront⟩ }, insertClass_eq_ok_iff.2 ⟨rfl, rfl⟩, ih.2 ⟨?_, ?_⟩⟩
      · exact h
      · exact hclasses

/-- The members of all lines are entered exactly if they can stand one after the other. -/
theorem foldlM_insertMember_eq_ok_iff :
    entries.foldlM (insertMember toSource toTarget) t = .ok t' ↔ SameButMembers t t' ∧
      ∀ kind, (t'.members kind).entries = (t.members kind).entries ++
        entries.filterMap (memberPair? toSource toTarget kind) := by
  induction entries generalizing t with
  | nil =>
    simp only [List.filterMap_nil, List.append_nil]
    constructor
    · intro h
      obtain rfl : t = t' := Except.ok.inj h
      exact ⟨.refl t, fun _ => rfl⟩
    · rintro ⟨hsame, hmembers⟩
      rw [hsame.eq_of_members_eq hmembers]
      rfl
  | cons entry entries ih =>
    simp only [List.foldlM_cons, bind_eq_ok_iff, filterMap_cons_eq_append, ← List.append_assoc]
    constructor
    · rintro ⟨t₁, hstep, hrest⟩
      obtain ⟨hsame₁, hmembers₁⟩ := insertMember_eq_ok_iff.1 hstep
      obtain ⟨hsame, hmembers⟩ := ih.1 hrest
      exact ⟨hsame₁.trans hsame, fun kind => by rw [hmembers, hmembers₁]⟩
    · rintro ⟨hsame, hmembers⟩
      have hfront : ∀ kind, (((t.members kind).entries ++
          (memberPair? toSource toTarget kind entry).toList).map Prod.fst).Nodup := by
        intro kind
        have hnodup := (t'.members kind).nodup
        rw [hmembers, List.map_append] at hnodup
        exact hnodup.of_append_left
      refine ⟨{ t with fields := ⟨_, hfront .field⟩, methods := ⟨_, hfront .method⟩ },
        insertMember_eq_ok_iff.2 ⟨⟨rfl, rfl, rfl, rfl, rfl⟩, fun kind => ?_⟩,
        ih.2 ⟨⟨hsame.source_eq, hsame.target_eq, hsame.identity_eq, hsame.classes_eq,
          hsame.counters_eq⟩, fun kind => ?_⟩⟩
      · cases kind <;> rfl
      · rw [hmembers]
        cases kind <;> rfl

/-- There is a table of the symbols of a file exactly if no symbol is entered twice, and it has
what the lines enter. -/
theorem tableOf_eq_ok_iff {source target : String} {counters : Counters} :
    tableOf source target counters entries = .ok t ↔
      Tabulates source target counters entries t := by
  rw [tableOf]
  refine bind_eq_ok_iff.trans ?_
  simp only [foldlM_insertClass_eq_ok_iff, foldlM_insertMember_eq_ok_iff]
  -- before the lines are gone through there are no entries
  have hempty : ∀ kind, ∀ classes : Dictionary String String,
      (({ source, target, counters, classes } : MappingTable).members kind).entries = [] := by
    intro kind classes
    cases kind <;> rfl
  constructor
  · rintro ⟨t₁, ⟨h₁, hclasses⟩, hsame, hmembers⟩
    rw [h₁] at hsame hmembers
    refine ⟨hsame.source_eq, hsame.target_eq, hsame.identity_eq, hsame.counters_eq, ?_,
      fun kind => ?_⟩
    · rw [hsame.classes_eq]
      exact hclasses
    · rw [hmembers, hempty]
      rfl
  · intro h
    refine ⟨{ source, target, counters, classes := t.classes }, ⟨rfl, h.classes_eq⟩,
      ⟨h.source_eq, h.target_eq, h.identity_eq, rfl, h.counters_eq⟩, fun kind => ?_⟩
    rw [h.members_eq, hempty]
    rfl

/-- There is a table with what lines enter exactly if they enter no symbol twice. -/
theorem exists_tabulates_iff {source target : String} {counters : Counters} :
    (∃ t, Tabulates source target counters entries t) ↔
      ((entries.filterMap classPair?).map Prod.fst).Nodup ∧
        ∀ kind, ((entries.filterMap
          (memberPair? (sourceNames entries) (targetNames entries) kind)).map Prod.fst).Nodup := by
  constructor
  · rintro ⟨t, h⟩
    exact ⟨h.classes_eq ▸ t.classes.nodup, fun kind => h.members_eq kind ▸ (t.members kind).nodup⟩
  · rintro ⟨hclasses, hmembers⟩
    let t : MappingTable :=
      { source, target, counters
        classes := ⟨_, hclasses⟩
        fields := ⟨_, hmembers .field⟩
        methods := ⟨_, hmembers .method⟩ }
    refine ⟨t, rfl, rfl, rfl, rfl, rfl, fun kind => ?_⟩
    cases kind <;> rfl

end Tiny

end StableNaming
