import StableNaming.Proofs.Collection.Fold
import StableNaming.Proofs.Mapping.Indexing
import StableNaming.Proofs.Mapping.MatchLines
import StableNaming.Proofs.Text.Utf8

/-!
# The table of a match file

The table of a match file knows exactly the classes and the members of its lines. A member belongs
to the last class line above its own; lines that are about neither classes nor members can stand
anywhere without a difference.
-/

namespace StableNaming

namespace MappingTable

variable {t t' : MappingTable} {name target name' target' : String} {kind kind' : MemberKind}
  {ref ref' found found' : MemberRef}

/-- After a class is added a table answers for it as well. -/
theorem classTarget?_of_insertClass (ht : t.identity = false)
    (h : t.insertClass name target = .ok t') :
    t'.classTarget? name' = some target' ↔
      t.classTarget? name' = some target' ∨ name' = name ∧ target' = target := by
  obtain ⟨heq, hentries⟩ := insertClass_eq_ok_iff.1 h
  have ht' : t'.identity = false := heq ▸ ht
  rw [classTarget?_of_not_identity ht, classTarget?_of_not_identity ht',
    Dictionary.find?_eq_some_iff, Dictionary.find?_eq_some_iff, hentries, List.mem_append,
    List.mem_singleton, Prod.mk.injEq]

theorem memberTarget?_of_insertClass (h : t.insertClass name target = .ok t') :
    t'.memberTarget? kind ref = t.memberTarget? kind ref := by
  rw [(insertClass_eq_ok_iff.1 h).1]
  cases kind <;> rfl

/-- After a member is added a table answers for it as well. -/
theorem memberTarget?_of_insertMember (ht : t.identity = false)
    (h : t.insertMember kind ref found = .ok t') :
    t'.memberTarget? kind' ref' = some found' ↔
      t.memberTarget? kind' ref' = some found' ∨
        kind' = kind ∧ ref' = ref ∧ found' = found := by
  obtain ⟨hsame, hentries⟩ := insertMember_eq_ok_iff.1 h
  have ht' : t'.identity = false := hsame.identity_eq.trans ht
  rw [memberTarget?_of_not_identity ht, memberTarget?_of_not_identity ht',
    Dictionary.find?_eq_some_iff, Dictionary.find?_eq_some_iff, hentries, List.mem_append]
  refine or_congr_right ?_
  split_ifs with hkind <;> simp [hkind]

theorem classTarget?_of_insertMember (h : t.insertMember kind ref found = .ok t') :
    t'.classTarget? name = t.classTarget? name := by
  have hsame := (insertMember_eq_ok_iff.1 h).1
  rw [classTarget?, classTarget?, hsame.identity_eq, hsame.classes_eq]

end MappingTable

namespace Matches

variable {ls : List String} {line : String} {m : ClassMatch} {kind : MemberKind} {p p' : Progress}
  {t : MappingTable}

/-! ## One line -/

/-- What a reader does with a line that it takes. -/
inductive Takes (p : Progress) (line : String) (p' : Progress) : Prop where
  /-- A class is added, and members belong to it from there on. -/
  | classLine {m : ClassMatch} (hline : IsClassLine line m)
    (htable : p.table.insertClass m.new m.old = .ok p'.table) (hcurrent : p'.current = some m)
  /-- A member of the class that members belong to is added. -/
  | memberLine {kind : MemberKind} {old new : MemberKey} {m : ClassMatch}
    (hline : IsMemberLine kind line old new) (hm : p.current = some m)
    (htable : p.table.insertMember kind ⟨m.new, new⟩ ⟨m.old, old⟩ = .ok p'.table)
    (hcurrent : p'.current = p.current)
  /-- Nothing happens. -/
  | passed (hline : IsPassed line) (heq : p' = p)

theorem require_eq_ok_iff {α : Type} {number : Nat} {fault : LineFault} {o : Option α} {a : α} :
    require number fault o = .ok a ↔ o = some a := by
  cases o <;> simp [require]

theorem addLine_of_classLine {number : Nat} {old new : String}
    (hrow : rowOf line = .classLine old new) :
    addLine p (some line, number) = .ok p' ↔ ∃ m : ClassMatch, Quotes old m.old ∧
      Quotes new m.new ∧ p.table.insertClass m.new m.old = .ok p'.table ∧
        p'.current = some m := by
  simp only [addLine, hrow, bind_eq_ok_iff, require_eq_ok_iff, unquote?_eq_some_iff]
  constructor
  · rintro ⟨old', hold, new', hnew, table, htable, hp⟩
    obtain rfl := Except.ok.inj hp
    exact ⟨⟨old', new'⟩, hold, hnew, htable, rfl⟩
  · rintro ⟨m, hold, hnew, htable, hcurrent⟩
    refine ⟨m.old, hold, m.new, hnew, p'.table, htable, congrArg Except.ok ?_⟩
    cases p'
    exact congrArg _ hcurrent.symm

theorem addLine_of_memberLine {number : Nat} {old new : String}
    (hrow : rowOf line = .memberLine kind old new) :
    addLine p (some line, number) = .ok p' ↔ ∃ m oldKey newKey, p.current = some m ∧
      Splits kind old oldKey ∧ Splits kind new newKey ∧
        p.table.insertMember kind ⟨m.new, newKey⟩ ⟨m.old, oldKey⟩ = .ok p'.table ∧
          p'.current = p.current := by
  simp only [addLine, hrow, bind_eq_ok_iff, require_eq_ok_iff, split?_eq_some_iff]
  constructor
  · rintro ⟨m, hm, oldKey, hold, newKey, hnew, table, htable, hp⟩
    obtain rfl := Except.ok.inj hp
    exact ⟨m, oldKey, newKey, hm, hold, hnew, htable, rfl⟩
  · rintro ⟨m, oldKey, newKey, hm, hold, hnew, htable, hcurrent⟩
    refine ⟨m, hm, oldKey, hold, newKey, hnew, p'.table, htable, congrArg Except.ok ?_⟩
    cases p'
    exact congrArg _ hcurrent.symm

/-- A line goes through exactly if it can be taken. -/
theorem addLine_eq_ok_iff {number : Nat} :
    addLine p (some line, number) = .ok p' ↔ Takes p line p' := by
  constructor
  · intro h
    cases hrow : rowOf line with
    | classLine old new =>
      obtain ⟨m, hold, hnew, htable, hcurrent⟩ := (addLine_of_classLine hrow).1 h
      exact .classLine ⟨old, new, rowOf_eq_classLine_iff.1 hrow, hold, hnew⟩ htable hcurrent
    | memberLine kind old new =>
      obtain ⟨m, oldKey, newKey, hm, hold, hnew, htable, hcurrent⟩ :=
        (addLine_of_memberLine hrow).1 h
      exact .memberLine ⟨old, new, rowOf_eq_memberLine_iff.1 hrow, hold, hnew⟩ hm htable hcurrent
    | other =>
      rw [addLine, hrow] at h
      exact .passed (isPassed_iff.2 hrow) (Except.ok.inj h).symm
  · rintro (⟨⟨old, new, hcols, hold, hnew⟩, htable, hcurrent⟩ |
      ⟨⟨old, new, hcols, hold, hnew⟩, hm, htable, hcurrent⟩ | ⟨hline, rfl⟩)
    · exact (addLine_of_classLine (rowOf_eq_classLine_iff.2 hcols)).2
        ⟨_, hold, hnew, htable, hcurrent⟩
    · exact (addLine_of_memberLine (rowOf_eq_memberLine_iff.2 hcols)).2
        ⟨_, _, _, hm, hold, hnew, htable, hcurrent⟩
    · rw [addLine, isPassed_iff.1 hline]
      rfl

/-! ## All lines -/

/-- What has been read before the first line. -/
def start : Progress := { table := { source := newNamespace, target := oldNamespace } }

/-- Whether lines are read to the end. -/
def Reads (ls : List String) (p : Progress) : Prop :=
  ((ls.map some).zipIdx 1).foldlM addLine start = .ok p

theorem reads_nil_iff : Reads [] p ↔ p = start :=
  ⟨fun h => (Except.ok.inj h).symm, fun h => congrArg Except.ok h.symm⟩

theorem reads_concat_iff : Reads (ls ++ [line]) p' ↔ ∃ p, Reads ls p ∧ Takes p line p' := by
  rw [Reads, List.map_append, List.map_singleton, List.zipIdx_append, List.zipIdx_singleton,
    List.foldlM_append, bind_eq_ok_iff]
  refine exists_congr fun p => and_congr_right fun _ => ?_
  rw [List.foldlM_cons, bind_eq_ok_iff]
  simp only [List.foldlM_nil, addLine_eq_ok_iff]
  constructor
  · rintro ⟨p₁, htakes, h⟩
    exact Except.ok.inj h ▸ htakes
  · exact fun h => ⟨p', h, rfl⟩

theorem read_eq_ok_iff {text : String} :
    read (Text.encodeUtf8 text) = .ok t ↔ ∃ p, Reads (Text.lines text) p ∧ p.table = t := by
  rw [read, Text.fileLines_encodeUtf8, readLines, bind_eq_ok_iff]
  refine exists_congr fun p => and_congr_right fun _ => ?_
  exact ⟨Except.ok.inj, congrArg Except.ok⟩

/-! ## What the lines say -/

section Positions

variable {α : Type} {P : List α → α → Prop} {xs before after : List α} {x y : α}

/-- An element of a list with one more at the end is the last one, or stands before it. -/
theorem concat_eq_append_cons_iff : xs ++ [x] = before ++ y :: after ↔
    (xs = before ∧ x = y ∧ after = []) ∨
      ∃ between, after = between ++ [x] ∧ xs = before ++ y :: between := by
  constructor
  · intro h
    rcases List.eq_nil_or_concat after with rfl | ⟨between, last, rfl⟩
    · obtain ⟨hxs, hx⟩ := List.append_inj' h rfl
      exact .inl ⟨hxs, List.singleton_inj.1 hx, rfl⟩
    · rw [List.concat_eq_append] at h ⊢
      rw [← List.cons_append, ← List.append_assoc] at h
      obtain ⟨hxs, hx⟩ := List.append_inj' h rfl
      exact .inr ⟨between, by rw [List.singleton_inj.1 hx], hxs⟩
  · rintro (⟨rfl, rfl, rfl⟩ | ⟨between, rfl, rfl⟩)
    · rfl
    · simp

/-- Whether an element of a list has a property, given the elements before it. -/
def At (P : List α → α → Prop) (xs : List α) : Prop :=
  ∃ before x after, xs = before ++ x :: after ∧ P before x

theorem at_concat : At P (xs ++ [x]) ↔ At P xs ∨ P xs x := by
  simp only [At, concat_eq_append_cons_iff]
  constructor
  · rintro ⟨before, y, after, ⟨rfl, rfl, -⟩ | ⟨between, -, hxs⟩, hy⟩
    · exact .inr hy
    · exact .inl ⟨before, y, between, hxs, hy⟩
  · rintro (⟨before, y, after, hxs, hy⟩ | hx)
    · exact ⟨before, y, after ++ [x], .inr ⟨after, rfl, hxs⟩, hy⟩
    · exact ⟨xs, x, [], .inl ⟨rfl, rfl, rfl⟩, hx⟩

end Positions

/-- Whether a class is that of the last class line. -/
def IsLastClass (ls : List String) (m : ClassMatch) : Prop :=
  ∃ above line below, ls = above ++ line :: below ∧ IsClassLine line m ∧
    ∀ l ∈ below, ¬ HasClassColumns l

/-- What a table has to do with the lines of a match file. -/
structure Records (ls : List String) (t : MappingTable) : Prop where
  /-- The table leads from the new version -/
  source_eq : t.source = newNamespace
  /-- to the old one. -/
  target_eq : t.target = oldNamespace
  /-- It is not the identity. -/
  identity_eq : t.identity = false
  /-- No counters belong to it. -/
  counters_eq : t.counters = {}
  /-- Every line with the columns of a class is about a class, -/
  classLine_of_columns : ∀ line ∈ ls, HasClassColumns line → ∃ m, IsClassLine line m
  /-- and the table answers for the classes of these lines. -/
  classTarget?_iff : ∀ {new old : String}, t.classTarget? new = some old ↔
    ∃ line ∈ ls, IsClassLine line ⟨old, new⟩
  /-- Every line with the columns of a member is about a member, and there is a class above it, -/
  memberLine_of_columns : ∀ {above line below kind}, ls = above ++ line :: below →
    HasMemberColumns kind line → ∃ m old new, IsMemberLine kind line old new ∧ IsLastClass above m
  /-- and the table answers for these members of the last class above each. -/
  memberTarget?_iff : ∀ {kind : MemberKind} {new old : MemberRef},
    t.memberTarget? kind new = some old ↔ At (fun above line =>
      IsMemberLine kind line old.key new.key ∧ IsLastClass above ⟨old.owner, new.owner⟩) ls

/-- What has been read, and the lines that it has been read from. -/
structure Follows (ls : List String) (p : Progress) : Prop where
  /-- The table answers for the lines. -/
  records : Records ls p.table
  /-- Members belong to the last class line. -/
  current_iff : ∀ {m}, p.current = some m ↔ IsLastClass ls m

theorem isLastClass_concat : IsLastClass (ls ++ [line]) m ↔
    IsClassLine line m ∨ ¬ HasClassColumns line ∧ IsLastClass ls m := by
  simp only [IsLastClass, concat_eq_append_cons_iff]
  constructor
  · rintro ⟨above, l, below, ⟨rfl, rfl, -⟩ | ⟨between, rfl, hls⟩, hl, hbelow⟩
    · exact .inl hl
    · exact .inr ⟨hbelow line (by simp), above, l, between, hls, hl,
        fun x hx => hbelow x (List.mem_append_left _ hx)⟩
  · rintro (hline | ⟨hline, above, l, below, hls, hl, hbelow⟩)
    · exact ⟨ls, line, [], .inl ⟨rfl, rfl, rfl⟩, hline, by simp⟩
    · refine ⟨above, l, below ++ [line], .inr ⟨below, rfl, hls⟩, hl, fun x hx => ?_⟩
      rcases List.mem_append.1 hx with hx | hx
      · exact hbelow x hx
      · exact List.mem_singleton.1 hx ▸ hline

/-- A line that does not have the columns of a class leaves the last class, -/
theorem isLastClass_concat_of_not (hnot : ¬ HasClassColumns line) :
    IsLastClass (ls ++ [line]) m ↔ IsLastClass ls m := by
  rw [isLastClass_concat, or_iff_right fun hline => hnot hline.hasClassColumns,
    and_iff_right hnot]

/-- and all classes, as they are. -/
theorem exists_classLine_concat_of_not (hnot : ¬ HasClassColumns line) :
    (∃ l ∈ ls ++ [line], IsClassLine l m) ↔ ∃ l ∈ ls, IsClassLine l m := by
  simp only [List.mem_append, List.mem_singleton, or_and_right, exists_or, exists_eq_left]
  exact or_iff_left fun hline => hnot hline.hasClassColumns

/-- Every line with the columns of a class is about a class if the last one is. -/
theorem Records.classLine_concat (h : Records ls t)
    (hline : HasClassColumns line → ∃ m, IsClassLine line m) :
    ∀ l ∈ ls ++ [line], HasClassColumns l → ∃ m, IsClassLine l m := by
  intro l hl hcols
  rcases List.mem_append.1 hl with hl | hl
  · exact h.classLine_of_columns l hl hcols
  · obtain rfl := List.mem_singleton.1 hl
    exact hline hcols

/-- Every line with the columns of a member is about a member, with a class above it, if the last
one is. -/
theorem Records.memberLine_concat (h : Records ls t)
    (hline : ∀ {kind}, HasMemberColumns kind line →
      ∃ m old new, IsMemberLine kind line old new ∧ IsLastClass ls m)
    {above below : List String} {l : String} (hsplit : ls ++ [line] = above ++ l :: below)
    (hl : HasMemberColumns kind l) :
    ∃ m old new, IsMemberLine kind l old new ∧ IsLastClass above m := by
  rcases concat_eq_append_cons_iff.1 hsplit with ⟨rfl, rfl, -⟩ | ⟨between, -, hls⟩
  · exact hline hl
  · exact h.memberLine_of_columns hls hl

theorem follows_nil : Follows [] start where
  records := {
    source_eq := rfl
    target_eq := rfl
    identity_eq := rfl
    counters_eq := rfl
    classLine_of_columns := fun _ hline => absurd hline List.not_mem_nil
    classTarget?_iff := by
      intro new old
      constructor
      · exact fun h => by cases h
      · rintro ⟨_, hline, -⟩
        exact absurd hline List.not_mem_nil
    memberLine_of_columns := fun hsplit => by simp at hsplit
    memberTarget?_iff := by
      intro kind new old
      constructor
      · exact fun h => by cases kind <;> cases h
      · rintro ⟨_, _, _, hsplit, -⟩
        simp at hsplit }
  current_iff := by
    intro m
    constructor
    · exact fun h => by cases h
    · rintro ⟨_, _, _, hsplit, -⟩
      simp at hsplit

/-- A class line adds a class, to which members belong from there on. -/
theorem Follows.concat_classLine (h : Follows ls p) (hline : IsClassLine line m)
    (htable : p.table.insertClass m.new m.old = .ok p'.table) (hcurrent : p'.current = some m) :
    Follows (ls ++ [line]) p' := by
  have hcols := hline.hasClassColumns
  have hnot : ∀ {kind}, ¬ HasMemberColumns kind line := fun hmember =>
    hmember.not_hasClassColumns hcols
  have heq := (MappingTable.insertClass_eq_ok_iff.1 htable).1
  -- the line is about this class only, so the new answer is the only one that it accounts for
  have hclass : ∀ {m'}, IsClassLine line m' ↔ m' = m :=
    ⟨hline.unique, fun heq => heq ▸ hline⟩
  exact {
    records := {
      source_eq := heq ▸ h.records.source_eq
      target_eq := heq ▸ h.records.target_eq
      identity_eq := heq ▸ h.records.identity_eq
      counters_eq := heq ▸ h.records.counters_eq
      classLine_of_columns := h.records.classLine_concat fun _ => ⟨m, hline⟩
      classTarget?_iff := by
        intro new old
        rw [MappingTable.classTarget?_of_insertClass h.records.identity_eq htable,
          h.records.classTarget?_iff]
        simp only [List.mem_append, List.mem_singleton, or_and_right, exists_or, exists_eq_left]
        rw [hclass, and_comm]
        cases m
        rw [ClassMatch.mk.injEq]
      memberLine_of_columns := h.records.memberLine_concat fun hmember => absurd hmember hnot
      memberTarget?_iff := by
        intro kind new old
        rw [MappingTable.memberTarget?_of_insertClass htable, h.records.memberTarget?_iff,
          at_concat, or_iff_left fun hmember => hnot hmember.1.hasMemberColumns] }
    current_iff := by
      intro m'
      rw [hcurrent, isLastClass_concat, Option.some_inj, hclass,
        or_iff_left fun hlast => hlast.1 hcols, eq_comm] }

/-- A member line adds a member of the last class. -/
theorem Follows.concat_memberLine (h : Follows ls p) {old new : MemberKey}
    (hline : IsMemberLine kind line old new) (hm : p.current = some m)
    (htable : p.table.insertMember kind ⟨m.new, new⟩ ⟨m.old, old⟩ = .ok p'.table)
    (hcurrent : p'.current = p.current) : Follows (ls ++ [line]) p' := by
  have hnot := hline.hasMemberColumns.not_hasClassColumns
  have hlast : ∀ {m'}, IsLastClass ls m' ↔ m' = m := fun {m'} => by
    rw [← h.current_iff, hm, Option.some_inj, eq_comm]
  have hsame := (MappingTable.insertMember_eq_ok_iff.1 htable).1
  exact {
    records := {
      source_eq := hsame.source_eq.trans h.records.source_eq
      target_eq := hsame.target_eq.trans h.records.target_eq
      identity_eq := hsame.identity_eq.trans h.records.identity_eq
      counters_eq := hsame.counters_eq.trans h.records.counters_eq
      classLine_of_columns := h.records.classLine_concat fun hclass => absurd hclass hnot
      classTarget?_iff := by
        intro new old
        rw [MappingTable.classTarget?_of_insertMember htable, h.records.classTarget?_iff,
          exists_classLine_concat_of_not hnot]
      memberLine_of_columns := h.records.memberLine_concat fun hmember =>
        ⟨m, old, new, hline.of_hasMemberColumns hmember, hlast.2 rfl⟩
      memberTarget?_iff := by
        intro kind' new' old'
        rw [MappingTable.memberTarget?_of_insertMember h.records.identity_eq htable,
          h.records.memberTarget?_iff, at_concat, hlast]
        refine or_congr_right ⟨?_, ?_⟩
        · rintro ⟨rfl, rfl, rfl⟩
          exact ⟨hline, rfl⟩
        · rintro ⟨hline', hm'⟩
          obtain ⟨rfl, rfl, rfl⟩ := hline.unique hline'
          rw [← hm']
          exact ⟨rfl, rfl, rfl⟩ }
    current_iff := by
      intro m'
      rw [hcurrent, h.current_iff, isLastClass_concat_of_not hnot] }

/-- Any other line changes nothing. -/
theorem Follows.concat_passed (h : Follows ls p) (hline : IsPassed line) :
    Follows (ls ++ [line]) p where
  records := {
    source_eq := h.records.source_eq
    target_eq := h.records.target_eq
    identity_eq := h.records.identity_eq
    counters_eq := h.records.counters_eq
    classLine_of_columns := h.records.classLine_concat fun hclass => absurd hclass hline.1
    classTarget?_iff := by
      intro new old
      rw [h.records.classTarget?_iff, exists_classLine_concat_of_not hline.1]
    memberLine_of_columns := h.records.memberLine_concat fun hmember =>
      absurd hmember (hline.2 _)
    memberTarget?_iff := by
      intro kind new old
      rw [h.records.memberTarget?_iff, at_concat,
        or_iff_left fun hmember => hline.2 kind hmember.1.hasMemberColumns] }
  current_iff := by
    intro m
    rw [h.current_iff, isLastClass_concat_of_not hline.1]

/-- What has been read stays in step with the lines. -/
theorem Follows.concat (h : Follows ls p) (htakes : Takes p line p') :
    Follows (ls ++ [line]) p' := by
  cases htakes with
  | classLine hline htable hcurrent => exact h.concat_classLine hline htable hcurrent
  | memberLine hline hm htable hcurrent => exact h.concat_memberLine hline hm htable hcurrent
  | passed hline heq => exact heq ▸ h.concat_passed hline

theorem Reads.follows (h : Reads ls p) : Follows ls p := by
  -- lines are taken in order, so the induction is on the last one
  induction ls using List.reverseRecOn generalizing p with
  | nil =>
    obtain rfl := reads_nil_iff.1 h
    exact follows_nil
  | append_singleton ls line ih =>
    obtain ⟨p₀, hreads, htakes⟩ := reads_concat_iff.1 h
    exact (ih hreads).concat htakes

/-! ## Lines that do not matter -/

theorem takes_of_passed (hline : IsPassed line) : Takes p line p' ↔ p' = p := by
  constructor
  · rintro (⟨hclass, -, -⟩ | ⟨hmember, -, -, -⟩ | ⟨-, heq⟩)
    · exact absurd hclass.hasClassColumns hline.1
    · exact absurd hmember.hasMemberColumns (hline.2 _)
    · exact heq
  · exact .passed hline

/-- Lines that are about neither classes nor members can be left out. -/
theorem reads_filter_iff {keep : String → Bool}
    (hkeep : ∀ line, keep line = false → IsPassed line) :
    Reads (ls.filter keep) p ↔ Reads ls p := by
  induction ls using List.reverseRecOn generalizing p with
  | nil => rfl
  | append_singleton ls line ih =>
    rw [List.filter_append, reads_concat_iff]
    cases hline : keep line with
    | true =>
      rw [List.filter_singleton, hline, cond_true, reads_concat_iff]
      exact exists_congr fun p₀ => and_congr_left fun _ => ih
    | false =>
      rw [List.filter_singleton, hline, cond_false, List.append_nil, ih]
      simp only [takes_of_passed (hkeep line hline)]
      simp

/-- The table of a match file answers for the classes and members of its lines, and for nothing
else. Lines that are about neither can be put in and left out anywhere. -/
theorem read_records {text : String} (h : read (Text.encodeUtf8 text) = .ok t) :
    Records (Text.lines text) t ∧
      ∀ (text' : String) (keep : String → Bool), (∀ line, keep line = false → IsPassed line) →
        (Text.lines text').filter keep = (Text.lines text).filter keep →
          read (Text.encodeUtf8 text') = .ok t := by
  obtain ⟨p, hreads, rfl⟩ := read_eq_ok_iff.1 h
  refine ⟨hreads.follows.records, fun text' keep hkeep hlines => ?_⟩
  refine read_eq_ok_iff.2 ⟨p, ?_, rfl⟩
  rw [← reads_filter_iff hkeep, hlines]
  exact (reads_filter_iff hkeep).2 hreads

/-- Two classes with a member each, among lines that are about neither. -/
def interspersed : String :=
  "Matches saved auto, version 2\nc\tLa;\tLx;\n\tf\tb;;La;\tc;;Lx;\n\t\tma\t0\t0\n" ++
    "c\tLf;\tLg;\ncu\tLz;\n\tm\th()V\ti()V\n"

/-- The same without the other lines. -/
def condensed : String :=
  "c\tLa;\tLx;\n\tf\tb;;La;\tc;;Lx;\nc\tLf;\tLg;\n\tm\th()V\ti()V\n"

/-- Members are found under their classes, and the other lines can be left out. -/
theorem read_interspersed :
    ∃ t, read (Text.encodeUtf8 interspersed) = .ok t ∧ Records (Text.lines interspersed) t ∧
      t.memberTarget? .field ⟨"x", "c", "Lx;"⟩ = some ⟨"a", "b", "La;"⟩ ∧
      t.memberTarget? .method ⟨"g", "i", "()V"⟩ = some ⟨"f", "h", "()V"⟩ ∧
      read (Text.encodeUtf8 condensed) = .ok t := by
  obtain ⟨t, ht⟩ := exists_of_isOk (x := read (Text.encodeUtf8 interspersed)) (by decide +kernel)
  obtain ⟨hrecords, hsame⟩ := read_records ht
  have hfound : (read (Text.encodeUtf8 interspersed)).map (fun t =>
      (t.memberTarget? .field ⟨"x", "c", "Lx;"⟩, t.memberTarget? .method ⟨"g", "i", "()V"⟩)) =
        .ok (some ⟨"a", "b", "La;"⟩, some ⟨"f", "h", "()V"⟩) := by
    decide +kernel
  rw [ht] at hfound
  obtain ⟨hfield, hmethod⟩ := Prod.mk.inj (Except.ok.inj hfound)
  refine ⟨t, ht, hrecords, hfield, hmethod, ?_⟩
  refine hsame condensed (fun line => rowOf line != .other) (fun line hline => ?_)
    (by decide +kernel)
  exact isPassed_iff.2 (by simpa using hline)

/-- A class line with a fourth column stands between a class and a method. -/
def crowded : String := "c\tLa;\tLx;\nc\tLf;\tLg;\t1\n\tm\th()V\ti()V\n"

/-- A line that starts like that of a class and has a fourth column is passed over: the method below
it belongs to the class above it. -/
theorem read_crowded :
    ∃ t above between line, read (Text.encodeUtf8 crowded) = .ok t ∧
      Text.lines crowded = [above, between, line] ∧ IsClassLine above ⟨"a", "x"⟩ ∧
      HasColumns between ["c", "Lf;", "Lg;", "1"] ∧
      IsMemberLine .method line ⟨"h", "()V"⟩ ⟨"i", "()V"⟩ ∧
      t.memberTarget? .method ⟨"g", "i", "()V"⟩ = none ∧
      t.memberTarget? .method ⟨"x", "i", "()V"⟩ = some ⟨"a", "h", "()V"⟩ := by
  obtain ⟨t, ht⟩ := exists_of_isOk (x := read (Text.encodeUtf8 crowded)) (by decide +kernel)
  have hfound : (read (Text.encodeUtf8 crowded)).map (fun t =>
      (t.memberTarget? .method ⟨"g", "i", "()V"⟩, t.memberTarget? .method ⟨"x", "i", "()V"⟩)) =
        .ok (none, some ⟨"a", "h", "()V"⟩) := by
    decide +kernel
  rw [ht] at hfound
  obtain ⟨hnone, hsome⟩ := Prod.mk.inj (Except.ok.inj hfound)
  refine ⟨t, "c\tLa;\tLx;", "c\tLf;\tLg;\t1", "\tm\th()V\ti()V", ht, by decide +kernel, ?_, ?_, ?_,
    hnone, hsome⟩
  · exact ⟨"La;", "Lx;", columns_dropTailWhile_eq_iff.1 (by decide +kernel),
      unquote?_eq_some_iff.1 (by decide +kernel), unquote?_eq_some_iff.1 (by decide +kernel)⟩
  · exact columns_dropTailWhile_eq_iff.1 (by decide +kernel)
  · exact ⟨"h()V", "i()V", columns_dropTailWhile_eq_iff.1 (by decide +kernel),
      split?_eq_some_iff.1 (by decide +kernel), split?_eq_some_iff.1 (by decide +kernel)⟩

end Matches

end StableNaming
