import Mathlib.Logic.Basic
import Mathlib.Tactic.ByContra
import StableNaming.Proofs.Collection.Fold
import StableNaming.Proofs.Mapping.CounterFile
import StableNaming.Proofs.Mapping.Indexing

/-!
# Merged tables

Two tables between the same namespaces can be merged exactly if no symbol has different names in
them. The merged table is the least one that has the entries of both and no smaller counters, so
neither the order nor the grouping of several tables matters, and a table merged with itself is
itself: up to what tables answer, since entries are kept in the order in which they came.
-/

namespace StableNaming

namespace MappingTable

variable {a b c t : MappingTable}

/-- Whether two tables map between the same namespaces and neither is the identity. -/
structure Alike (a b : MappingTable) : Prop where
  /-- The first table is not the identity. -/
  left : a.identity = false
  /-- The second table is not the identity. -/
  right : b.identity = false
  /-- The questions are of one namespace. -/
  source_eq : a.source = b.source
  /-- The answers are of one namespace. -/
  target_eq : a.target = b.target

instance (a b : MappingTable) : Decidable (a.Alike b) :=
  decidable_of_iff
    (a.identity = false ∧ b.identity = false ∧ a.source = b.source ∧ a.target = b.target)
    ⟨fun h => ⟨h.1, h.2.1, h.2.2.1, h.2.2.2⟩, fun h => ⟨h.left, h.right, h.source_eq, h.target_eq⟩⟩

/-- Whether two tables give one name to every symbol that both know. -/
structure Compatible (a b : MappingTable) : Prop where
  /-- Classes have one name. -/
  classes : ∀ {name x y}, a.classTarget? name = some x → b.classTarget? name = some y → x = y
  /-- Members have one name. -/
  members : ∀ {kind ref x y},
    a.memberTarget? kind ref = some x → b.memberTarget? kind ref = some y → x = y

/-- Whether a table has the entries of two tables, and of their counters the greater ones. -/
structure IsUnion (a b t : MappingTable) : Prop where
  /-- It maps between the namespaces of the tables, and is not the identity. -/
  alike : a.Alike t
  /-- It answers for a class what the first table says, or else what the second one does. -/
  classTarget?_eq : ∀ name,
    t.classTarget? name = (a.classTarget? name).or (b.classTarget? name)
  /-- It answers for a member what the first table says, or else what the second one does. -/
  memberTarget?_eq : ∀ kind ref,
    t.memberTarget? kind ref = (a.memberTarget? kind ref).or (b.memberTarget? kind ref)
  /-- It lists the classes of both tables. -/
  mem_classes_iff : ∀ name, name ∈ t.classes.keys ↔ name ∈ a.classes.keys ∨ name ∈ b.classes.keys
  /-- It lists the members of both tables. -/
  mem_members_iff : ∀ kind ref, ref ∈ (t.members kind).keys ↔
    ref ∈ (a.members kind).keys ∨ ref ∈ (b.members kind).keys
  /-- Its counters are the greater ones. -/
  counters_eq : ∀ kind, t.counters.get kind = max (a.counters.get kind) (b.counters.get kind)

/-- Whether a table says what another one says, and perhaps more. -/
structure Within (a t : MappingTable) : Prop where
  /-- Classes are called alike. -/
  classes : ∀ {name x}, a.classTarget? name = some x → t.classTarget? name = some x
  /-- Members are called alike. -/
  members : ∀ {kind ref x}, a.memberTarget? kind ref = some x → t.memberTarget? kind ref = some x
  /-- No counter is smaller. -/
  counters : ∀ kind, a.counters.get kind ≤ t.counters.get kind

/-- Whether two tables map between the same namespaces, answer every question alike and have one
set of counters. -/
structure SameAnswers (a b : MappingTable) : Prop where
  /-- The questions are of one namespace. -/
  source_eq : a.source = b.source
  /-- The answers are of one namespace. -/
  target_eq : a.target = b.target
  /-- Classes are called alike. -/
  classTarget?_eq : ∀ name, a.classTarget? name = b.classTarget? name
  /-- Members are called alike. -/
  memberTarget?_eq : ∀ kind ref, a.memberTarget? kind ref = b.memberTarget? kind ref
  /-- The counters are the same. -/
  counters_eq : a.counters = b.counters

theorem SameAnswers.symm (h : a.SameAnswers b) : b.SameAnswers a :=
  ⟨h.source_eq.symm, h.target_eq.symm, fun name => (h.classTarget?_eq name).symm,
    fun kind ref => (h.memberTarget?_eq kind ref).symm, h.counters_eq.symm⟩

theorem SameAnswers.trans (h : a.SameAnswers b) (h' : b.SameAnswers c) : a.SameAnswers c :=
  ⟨h.source_eq.trans h'.source_eq, h.target_eq.trans h'.target_eq,
    fun name => (h.classTarget?_eq name).trans (h'.classTarget?_eq name),
    fun kind ref => (h.memberTarget?_eq kind ref).trans (h'.memberTarget?_eq kind ref),
    h.counters_eq.trans h'.counters_eq⟩

/-- Whether two attempts at a table both fail, or lead to tables that answer alike. -/
inductive SameOutcome :
    Except MappingFault MappingTable → Except MappingFault MappingTable → Prop
  /-- Both lead to a table. -/
  | ok {a b : MappingTable} (h : a.SameAnswers b) : SameOutcome (.ok a) (.ok b)
  /-- Both fail. -/
  | error {e e' : MappingFault} : SameOutcome (.error e) (.error e')

/-- Outcomes are the same if one is a success exactly if the other is, and the tables then answer
alike. -/
theorem SameOutcome.of_iff {x y : Except MappingFault MappingTable}
    (hiff : (∃ a, x = .ok a) ↔ ∃ b, y = .ok b)
    (hsame : ∀ {a b}, x = .ok a → y = .ok b → a.SameAnswers b) : SameOutcome x y := by
  cases x with
  | ok a =>
    obtain ⟨b, rfl⟩ := hiff.1 ⟨a, rfl⟩
    exact .ok (hsame rfl rfl)
  | error e =>
    cases y with
    | ok b =>
      obtain ⟨a, ha⟩ := hiff.2 ⟨b, rfl⟩
      cases ha
    | error e' => exact .error

/-! ## Merging entries -/

section Entries

variable {κ α : Type} [DecidableEq κ] [DecidableEq α] {fault : κ → MappingFault}
  {known merged : Dictionary κ α} {pairs : List (κ × α)}

/-- Entries that contradict none that are known are added. -/
theorem exists_mergeEntries (hnodup : (pairs.map Prod.fst).Nodup)
    (hagree : ∀ {k x y}, known.find? k = some x → Pairs.lookup k pairs = some y → x = y) :
    ∃ merged, mergeEntries fault known pairs = .ok merged := by
  induction pairs generalizing known with
  | nil => exact ⟨known, rfl⟩
  | cons pair rest ih =>
    obtain ⟨k, y⟩ := pair
    obtain ⟨hnew, hnodup⟩ := List.nodup_cons.1 hnodup
    -- a key of the rest is not the first one, so it is looked up past the first pair
    have hrest : ∀ {k' y'}, Pairs.lookup k' rest = some y' →
        k' ≠ k ∧ Pairs.lookup k' ((k, y) :: rest) = some y' := by
      intro k' y' hlookup
      have hmem : k' ∈ rest.map Prod.fst := List.mem_map_of_mem (Pairs.mem_of_lookup hlookup)
      have hne : k ≠ k' := fun heq => hnew (heq ▸ hmem)
      exact ⟨Ne.symm hne, by rw [Pairs.lookup, if_neg hne, hlookup]⟩
    have hhead : Pairs.lookup k ((k, y) :: rest) = some y := by rw [Pairs.lookup, if_pos rfl]
    rw [mergeEntries]
    cases hfind : known.find? k with
    | some x =>
      dsimp only
      rw [if_pos (hagree hfind hhead)]
      exact ih hnodup fun hknown hlookup => hagree hknown (hrest hlookup).2
    | none =>
      refine ih hnodup fun hknown hlookup => ?_
      obtain ⟨hne, hlookup⟩ := hrest hlookup
      rw [Dictionary.find?_insert, if_neg (Ne.symm hne)] at hknown
      exact hagree hknown hlookup

/-- Entries that are added contradict none that are known, and stand beside them. -/
theorem of_mergeEntries (hmerged : mergeEntries fault known pairs = .ok merged) :
    (∀ {k x y}, known.find? k = some x → Pairs.lookup k pairs = some y → x = y) ∧
      ∀ k, merged.find? k = (known.find? k).or (Pairs.lookup k pairs) := by
  induction pairs generalizing known with
  | nil =>
    obtain rfl : known = merged := Except.ok.inj hmerged
    exact ⟨fun _ hlookup => absurd hlookup (by simp [Pairs.lookup]), fun k => by
      rw [Pairs.lookup, Option.or_none]⟩
  | cons pair rest ih =>
    obtain ⟨k, y⟩ := pair
    rw [mergeEntries] at hmerged
    cases hfind : known.find? k with
    | some x =>
      rw [hfind] at hmerged
      dsimp only at hmerged
      split at hmerged
      · rename_i hxy
        obtain ⟨hagree, hunion⟩ := ih hmerged
        refine ⟨fun {k' x' y'} hknown hlookup => ?_, fun k' => ?_⟩
        · rw [Pairs.lookup] at hlookup
          split at hlookup
          · rename_i hk
            rw [← hk, hfind] at hknown
            exact (Option.some.inj hknown).symm.trans (hxy.trans (Option.some.inj hlookup))
          · exact hagree hknown hlookup
        · rw [hunion, Pairs.lookup]
          split
          · rename_i hk
            rw [← hk, hfind, Option.some_or, Option.some_or]
          · rfl
      · cases hmerged
    | none =>
      rw [hfind] at hmerged
      obtain ⟨hagree, hunion⟩ := ih hmerged
      have hinsert : ∀ k', k ≠ k' → (known.insert k y).find? k' = known.find? k' := fun k' hk => by
        rw [Dictionary.find?_insert, if_neg hk]
      refine ⟨fun {k' x' y'} hknown hlookup => ?_, fun k' => ?_⟩
      · rw [Pairs.lookup] at hlookup
        split at hlookup
        · rename_i hk
          rw [← hk, hfind] at hknown
          cases hknown
        · rename_i hk
          exact hagree ((hinsert k' hk).trans hknown) hlookup
      · rw [hunion, Pairs.lookup]
        split
        · rename_i hk
          rw [← hk, hfind, Dictionary.find?_insert, if_pos rfl, Option.some_or, Option.none_or]
        · rename_i hk
          rw [hinsert k' hk]

end Entries

/-! ## Merging tables -/

/-- Tables are refused at the start unless they are alike. -/
theorem refused_iff :
    (a.identity || b.identity || a.source != b.source || a.target != b.target) = true ↔
      ¬ a.Alike b := by
  simp only [Bool.or_eq_true, bne_iff_ne]
  constructor
  · rintro (((hleft | hright) | hsource) | htarget) h
    · exact absurd h.left (by rw [hleft]; decide)
    · exact absurd h.right (by rw [hright]; decide)
    · exact hsource h.source_eq
    · exact htarget h.target_eq
  · intro h
    by_contra hnone
    simp only [not_or, Bool.not_eq_true, not_not] at hnone
    exact h ⟨hnone.1.1.1, hnone.1.1.2, hnone.1.2, hnone.2⟩

/-- Tables that are not alike are not merged. -/
theorem merge_of_not_alike (h : ¬ a.Alike b) :
    a.merge b = .error (.namespaceMismatch a.describe b.describe) := by
  rw [merge, if_pos (refused_iff.2 h)]
  rfl

/-- Tables that are alike are merged if they are compatible. -/
theorem exists_merge (h : a.Alike b) (hcompatible : a.Compatible b) : ∃ t, a.merge b = .ok t := by
  have hclass : ∀ {name x y}, a.classes.find? name = some x → b.classes.find? name = some y →
      x = y := by
    intro name x y hx hy
    rw [← classTarget?_of_not_identity h.left] at hx
    rw [← classTarget?_of_not_identity h.right] at hy
    exact hcompatible.classes hx hy
  have hmember : ∀ kind, ∀ {ref x y}, (a.members kind).find? ref = some x →
      (b.members kind).find? ref = some y → x = y := by
    intro kind ref x y hx hy
    rw [← memberTarget?_of_not_identity h.left] at hx
    rw [← memberTarget?_of_not_identity h.right] at hy
    exact hcompatible.members hx hy
  obtain ⟨classes, hclasses⟩ : ∃ d,
      mergeEntries (.duplicateEntry .type) a.classes b.classes.entries = .ok d :=
    exists_mergeEntries b.classes.nodup hclass
  obtain ⟨fields, hfields⟩ : ∃ d, mergeEntries (fun ref => .duplicateEntry .field ref.text)
      a.fields b.fields.entries = .ok d :=
    exists_mergeEntries b.fields.nodup (hmember .field)
  obtain ⟨methods, hmethods⟩ : ∃ d, mergeEntries (fun ref => .duplicateEntry .method ref.text)
      a.methods b.methods.entries = .ok d :=
    exists_mergeEntries b.methods.nodup (hmember .method)
  refine ⟨{ a with classes, fields, methods, counters := a.counters.merge b.counters }, ?_⟩
  rw [merge, if_neg fun hrefused => refused_iff.1 hrefused h]
  simp only [hclasses, hfields, hmethods]
  rfl

/-- A dictionary that answers what two others answer has the keys of both. -/
theorem mem_keys_iff_of_find?_eq {κ α : Type} [DecidableEq κ] {d d' e : Dictionary κ α} {k : κ}
    (h : e.find? k = (d.find? k).or (d'.find? k)) : k ∈ e.keys ↔ k ∈ d.keys ∨ k ∈ d'.keys := by
  rw [← not_iff_not, not_or, ← Dictionary.find?_eq_none_iff, ← Dictionary.find?_eq_none_iff,
    ← Dictionary.find?_eq_none_iff, h, Option.or_eq_none_iff]

/-- What is merged was alike and compatible, and has the entries of both. -/
theorem of_merge (hmerged : a.merge b = .ok t) : a.Alike b ∧ a.Compatible b ∧ a.IsUnion b t := by
  have h : a.Alike b := by
    by_contra hnot
    rw [merge_of_not_alike hnot] at hmerged
    cases hmerged
  rw [merge, if_neg fun hrefused => refused_iff.1 hrefused h] at hmerged
  obtain ⟨classes, hclasses, hmerged⟩ := bind_eq_ok_iff.1 hmerged
  obtain ⟨fields, hfields, hmerged⟩ := bind_eq_ok_iff.1 hmerged
  obtain ⟨methods, hmethods, hmerged⟩ := bind_eq_ok_iff.1 hmerged
  obtain ⟨hagree, hunion⟩ := of_mergeEntries hclasses
  have ht : t.identity = false := Except.ok.inj hmerged ▸ h.left
  have hclass : ∀ name, t.classes.find? name =
      (a.classes.find? name).or (b.classes.find? name) := Except.ok.inj hmerged ▸ hunion
  have hmembers : ∀ kind,
      (∀ {ref x y}, (a.members kind).find? ref = some x → (b.members kind).find? ref = some y →
        x = y) ∧ ∀ ref, (t.members kind).find? ref =
          ((a.members kind).find? ref).or ((b.members kind).find? ref) := by
    obtain rfl := Except.ok.inj hmerged
    intro kind
    cases kind with
    | field => exact of_mergeEntries hfields
    | method => exact of_mergeEntries hmethods
  refine ⟨h, ⟨fun {name x y} hx hy => ?_, fun {kind ref x y} hx hy => ?_⟩, ⟨?_, fun name => ?_,
    fun kind ref => ?_, fun name => mem_keys_iff_of_find?_eq (hclass name),
    fun kind ref => mem_keys_iff_of_find?_eq ((hmembers kind).2 ref), fun kind => ?_⟩⟩
  · rw [classTarget?_of_not_identity h.left] at hx
    rw [classTarget?_of_not_identity h.right] at hy
    exact hagree hx hy
  · rw [memberTarget?_of_not_identity h.left] at hx
    rw [memberTarget?_of_not_identity h.right] at hy
    exact (hmembers kind).1 hx hy
  · exact ⟨h.left, ht, Except.ok.inj hmerged ▸ rfl, Except.ok.inj hmerged ▸ rfl⟩
  · rw [classTarget?_of_not_identity ht, classTarget?_of_not_identity h.left,
      classTarget?_of_not_identity h.right, hclass]
  · rw [memberTarget?_of_not_identity ht, memberTarget?_of_not_identity h.left,
      memberTarget?_of_not_identity h.right, (hmembers kind).2]
  · rw [← Except.ok.inj hmerged, Counters.get_merge]

/-- Tables that are alike are merged exactly if they are compatible. -/
theorem exists_merge_iff (h : a.Alike b) : (∃ t, a.merge b = .ok t) ↔ a.Compatible b :=
  ⟨fun ⟨_, hmerged⟩ => (of_merge hmerged).2.1, exists_merge h⟩

/-! ## The order of tables -/

theorem Alike.symm (h : a.Alike b) : b.Alike a :=
  ⟨h.right, h.left, h.source_eq.symm, h.target_eq.symm⟩

theorem Alike.trans (h : a.Alike b) (h' : b.Alike c) : a.Alike c :=
  ⟨h.left, h'.right, h.source_eq.trans h'.source_eq, h.target_eq.trans h'.target_eq⟩

theorem Compatible.symm (h : a.Compatible b) : b.Compatible a :=
  ⟨fun hx hy => (h.classes hy hx).symm, fun hx hy => (h.members hy hx).symm⟩

/-- A table is compatible with itself. -/
theorem compatible_self (a : MappingTable) : a.Compatible a :=
  ⟨fun hx hy => Option.some.inj (hx.symm.trans hy), fun hx hy => Option.some.inj (hx.symm.trans hy)⟩

/-- What is compatible with a table is compatible with what stands within that. -/
theorem Compatible.of_within (h : t.Compatible c) (ha : a.Within t) : a.Compatible c :=
  ⟨fun hx hy => h.classes (ha.classes hx) hy, fun hx hy => h.members (ha.members hx) hy⟩

/-- If one of two answers that do not differ is known, it is what the first answer or else the
second one says. -/
theorem or_eq_some_of_right {α : Type} {x y : Option α} {v : α}
    (h : ∀ {u v}, x = some u → y = some v → u = v) (hy : y = some v) : x.or y = some v := by
  cases x with
  | none => rw [Option.none_or, hy]
  | some u => rw [Option.some_or, h rfl hy]

/-- Of two answers that do not differ, either can be asked for first. -/
theorem or_comm_of_agree {α : Type} {x y : Option α}
    (h : ∀ {u v}, x = some u → y = some v → u = v) : x.or y = y.or x := by
  cases hy : y with
  | none => rw [Option.or_none, Option.none_or]
  | some v => rw [← hy, or_eq_some_of_right h hy, hy, Option.some_or]

namespace IsUnion

/-- The first table stands within the union. -/
theorem within_left (h : a.IsUnion b t) : a.Within t where
  classes hx := by rw [h.classTarget?_eq, hx, Option.some_or]
  members hx := by rw [h.memberTarget?_eq, hx, Option.some_or]
  counters kind := h.counters_eq kind ▸ Nat.le_max_left ..

/-- The second table stands within the union, if it is compatible with the first. -/
theorem within_right (h : a.IsUnion b t) (hcompatible : a.Compatible b) : b.Within t where
  classes hx := by rw [h.classTarget?_eq, or_eq_some_of_right hcompatible.classes hx]
  members hx := by rw [h.memberTarget?_eq, or_eq_some_of_right hcompatible.members hx]
  counters kind := h.counters_eq kind ▸ Nat.le_max_right ..

/-- The union stands within whatever both tables stand within. -/
theorem within (h : a.IsUnion b t) (ha : a.Within c) (hb : b.Within c) : t.Within c where
  classes hx := by
    rw [h.classTarget?_eq, Option.or_eq_some_iff] at hx
    exact hx.elim ha.classes fun hx => hb.classes hx.2
  members hx := by
    rw [h.memberTarget?_eq, Option.or_eq_some_iff] at hx
    exact hx.elim ha.members fun hx => hb.members hx.2
  counters kind := h.counters_eq kind ▸ Nat.max_le.2 ⟨ha.counters kind, hb.counters kind⟩

/-- A third table is compatible with a union exactly if it is with both parts. -/
theorem compatible_iff (h : a.IsUnion b t) (hcompatible : a.Compatible b) :
    t.Compatible c ↔ a.Compatible c ∧ b.Compatible c := by
  constructor
  · exact fun ht => ⟨ht.of_within h.within_left, ht.of_within (h.within_right hcompatible)⟩
  · rintro ⟨ha, hb⟩
    refine ⟨fun hx hy => ?_, fun hx hy => ?_⟩
    · rw [h.classTarget?_eq, Option.or_eq_some_iff] at hx
      exact hx.elim (ha.classes · hy) fun hx => hb.classes hx.2 hy
    · rw [h.memberTarget?_eq, Option.or_eq_some_iff] at hx
      exact hx.elim (ha.members · hy) fun hx => hb.members hx.2 hy

end IsUnion

/-! ## The laws of merging -/

/-- The order in which two tables are merged does not matter. -/
theorem merge_comm (h : a.Alike b) : SameOutcome (a.merge b) (b.merge a) := by
  refine .of_iff ?_ fun {t u} ht hu => ?_
  · rw [exists_merge_iff h, exists_merge_iff h.symm]
    exact ⟨Compatible.symm, Compatible.symm⟩
  · obtain ⟨-, hcompatible, ht⟩ := of_merge ht
    obtain ⟨-, -, hu⟩ := of_merge hu
    refine ⟨?_, ?_, fun name => ?_, fun kind ref => ?_, Counters.ext_get fun kind => ?_⟩
    · rw [← ht.alike.source_eq, h.source_eq, hu.alike.source_eq]
    · rw [← ht.alike.target_eq, h.target_eq, hu.alike.target_eq]
    · rw [ht.classTarget?_eq, hu.classTarget?_eq, or_comm_of_agree hcompatible.classes]
    · rw [ht.memberTarget?_eq, hu.memberTarget?_eq, or_comm_of_agree hcompatible.members]
    · rw [ht.counters_eq, hu.counters_eq, Nat.max_comm]

/-- How three tables are grouped when they are merged does not matter. -/
theorem merge_assoc (hab : a.Alike b) (hbc : b.Alike c) :
    SameOutcome (a.merge b >>= (·.merge c)) (b.merge c >>= a.merge) := by
  refine .of_iff ?_ fun {t u} ht hu => ?_
  · -- either way all three have to be compatible, two by two
    have hleft : (∃ t, a.merge b >>= (·.merge c) = .ok t) ↔
        a.Compatible b ∧ a.Compatible c ∧ b.Compatible c := by
      simp only [bind_eq_ok_iff]
      constructor
      · rintro ⟨t, s, hs, ht⟩
        obtain ⟨-, hcompatible, hunion⟩ := of_merge hs
        exact ⟨hcompatible, (hunion.compatible_iff hcompatible).1 (of_merge ht).2.1⟩
      · rintro ⟨hcompatible, hboth⟩
        obtain ⟨s, hs⟩ := exists_merge hab hcompatible
        obtain ⟨-, -, hunion⟩ := of_merge hs
        obtain ⟨t, ht⟩ := exists_merge (hunion.alike.symm.trans (hab.trans hbc))
          ((hunion.compatible_iff hcompatible).2 hboth)
        exact ⟨t, s, hs, ht⟩
    have hright : (∃ t, b.merge c >>= a.merge = .ok t) ↔
        b.Compatible c ∧ b.Compatible a ∧ c.Compatible a := by
      simp only [bind_eq_ok_iff]
      constructor
      · rintro ⟨t, s, hs, ht⟩
        obtain ⟨-, hcompatible, hunion⟩ := of_merge hs
        exact ⟨hcompatible, (hunion.compatible_iff hcompatible).1 (of_merge ht).2.1.symm⟩
      · rintro ⟨hcompatible, hboth⟩
        obtain ⟨s, hs⟩ := exists_merge hbc hcompatible
        obtain ⟨-, -, hunion⟩ := of_merge hs
        obtain ⟨t, ht⟩ := exists_merge (hab.trans hunion.alike)
          ((hunion.compatible_iff hcompatible).2 hboth).symm
        exact ⟨t, s, hs, ht⟩
    rw [hleft, hright]
    exact ⟨fun ⟨h, h', h''⟩ => ⟨h'', h.symm, h'.symm⟩, fun ⟨h, h', h''⟩ => ⟨h'.symm, h''.symm, h⟩⟩
  · obtain ⟨s, hs, ht⟩ := bind_eq_ok_iff.1 ht
    obtain ⟨r, hr, hu⟩ := bind_eq_ok_iff.1 hu
    obtain ⟨-, -, hs⟩ := of_merge hs
    obtain ⟨-, -, ht⟩ := of_merge ht
    obtain ⟨-, -, hr⟩ := of_merge hr
    obtain ⟨-, -, hu⟩ := of_merge hu
    have halike : t.Alike u := ht.alike.symm.trans (hs.alike.symm.trans hu.alike)
    refine ⟨halike.source_eq, halike.target_eq, fun name => ?_, fun kind ref => ?_,
      Counters.ext_get fun kind => ?_⟩
    · rw [ht.classTarget?_eq, hs.classTarget?_eq, hu.classTarget?_eq, hr.classTarget?_eq,
        Option.or_assoc]
    · rw [ht.memberTarget?_eq, hs.memberTarget?_eq, hu.memberTarget?_eq, hr.memberTarget?_eq,
        Option.or_assoc]
    · rw [ht.counters_eq, hs.counters_eq, hu.counters_eq, hr.counters_eq, Nat.max_assoc]

/-- A table that is merged with itself answers as before. -/
theorem merge_self (h : a.identity = false) : SameOutcome (a.merge a) (.ok a) := by
  obtain ⟨t, ht⟩ := exists_merge ⟨h, h, rfl, rfl⟩ a.compatible_self
  obtain ⟨-, -, hunion⟩ := of_merge ht
  rw [ht]
  refine .ok ⟨hunion.alike.source_eq.symm, hunion.alike.target_eq.symm, fun name => ?_,
    fun kind ref => ?_, Counters.ext_get fun kind => ?_⟩
  · rw [hunion.classTarget?_eq, Option.or_self]
  · rw [hunion.memberTarget?_eq, Option.or_self]
  · rw [hunion.counters_eq, Nat.max_self]

/-- Merging is the least upper bound of tables between two namespaces, where there is one: tables
are merged exactly if they give one name to every symbol that both know, the merged table has the
entries of both and nothing else, and the order, the grouping and the repetition of tables do not
matter, neither for the answers nor for whether there is a table. The identity, and tables between
other namespaces, are never merged. -/
theorem merge_least_upper_bound (hab : a.Alike b) (hbc : b.Alike c) :
    ((∃ t, a.merge b = .ok t) ↔ a.Compatible b) ∧
      (∀ t, a.merge b = .ok t → a.IsUnion b t ∧ a.Within t ∧ b.Within t ∧
        ∀ u, a.Within u → b.Within u → t.Within u) ∧
      SameOutcome (a.merge b) (b.merge a) ∧
      SameOutcome (a.merge b >>= (·.merge c)) (b.merge c >>= a.merge) ∧
      SameOutcome (a.merge a) (.ok a) ∧
      ∀ x y : MappingTable,
        x.identity = true ∨ y.identity = true ∨ x.source ≠ y.source ∨ x.target ≠ y.target →
          x.merge y = .error (.namespaceMismatch x.describe y.describe) := by
  refine ⟨exists_merge_iff hab, fun t ht => ?_, merge_comm hab, merge_assoc hab hbc,
    merge_self hab.left, fun x y h => merge_of_not_alike fun halike => ?_⟩
  · obtain ⟨-, hcompatible, hunion⟩ := of_merge ht
    exact ⟨hunion, hunion.within_left, hunion.within_right hcompatible, fun u => hunion.within⟩
  · rcases h with hidentity | hidentity | hsource | htarget
    · exact absurd hidentity (by rw [halike.left]; decide)
    · exact absurd hidentity (by rw [halike.right]; decide)
    · exact hsource halike.source_eq
    · exact htarget halike.target_eq

/-- A table with one class. -/
def older : MappingTable where
  source := "official"
  target := "intermediary"
  classes := .ofList [("a", "class_1")]
  counters := ⟨2, 5, 1⟩

/-- A table with that class, another one and a field. -/
def newer : MappingTable where
  source := "official"
  target := "intermediary"
  classes := .ofList [("b", "class_2"), ("a", "class_1")]
  fields := .ofList [(⟨"b", ⟨"f", "La;"⟩⟩, ⟨"class_2", ⟨"field_4", "Lclass_1;"⟩⟩)]
  counters := ⟨3, 1, 1⟩

/-- A table in which the class has another name. -/
def contrary : MappingTable where
  source := "official"
  target := "intermediary"
  classes := .ofList [("a", "class_3")]

/-- What the first two tables say together. -/
def united : MappingTable :=
  { newer with classes := .ofList [("a", "class_1"), ("b", "class_2")], counters := ⟨3, 5, 1⟩ }

theorem merge_least_upper_bound_older_newer :
    older.Alike newer ∧ newer.Alike contrary ∧ older.Compatible newer ∧
      older.IsUnion newer united ∧ newer.merge contrary = .error (.duplicateEntry .type "a") ∧
      SameOutcome (older.merge newer >>= (·.merge contrary))
        (newer.merge contrary >>= older.merge) := by
  have holder : older.Alike newer := by decide
  have hnewer : newer.Alike contrary := by decide
  have hunited : older.merge newer = .ok united := by rfl
  obtain ⟨hiff, hunion, -, hgrouped, -⟩ := merge_least_upper_bound holder hnewer
  exact ⟨holder, hnewer, hiff.1 ⟨united, hunited⟩, (hunion united hunited).1, rfl, hgrouped⟩

end MappingTable

end StableNaming
