import StableNaming.Proofs.Text.Line

/-!
# Where texts are split

What is dropped at the end of a text, which columns a line has and where a text is cut: each is
determined by what the parts make up and by what does not occur in them.
-/

namespace StableNaming.Text

variable {α : Type}

/-- What is left without the elements in front that satisfy `p`. -/
theorem dropWhile_eq_iff {p : α → Bool} {xs ys : List α} :
    xs.dropWhile p = ys ↔
      (∀ y ∈ ys.head?, p y = false) ∧ ∃ front, (∀ x ∈ front, p x = true) ∧ xs = front ++ ys := by
  induction xs with
  | nil =>
    constructor
    · rintro rfl
      exact ⟨by simp, [], by simp, rfl⟩
    · rintro ⟨-, front, -, h⟩
      exact (List.append_eq_nil_iff.1 h.symm).2.symm
  | cons x xs ih =>
    by_cases hx : p x = true
    · rw [List.dropWhile_cons, if_pos hx, ih]
      refine and_congr_right fun hhead => ⟨?_, ?_⟩
      · rintro ⟨front, hfront, rfl⟩
        exact ⟨x :: front, List.forall_mem_cons.2 ⟨hx, hfront⟩, rfl⟩
      · rintro ⟨_ | ⟨y, front⟩, hfront, h⟩
        · rw [List.nil_append] at h
          rw [← h] at hhead
          exact absurd (hhead x rfl) (by simp [hx])
        · exact ⟨front, (List.forall_mem_cons.1 hfront).2, (List.cons.inj h).2⟩
    · rw [List.dropWhile_cons, if_neg hx]
      constructor
      · rintro rfl
        exact ⟨by simpa using hx, [], by simp, rfl⟩
      · rintro ⟨-, _ | ⟨y, front⟩, hfront, h⟩
        · exact h
        · obtain ⟨rfl, -⟩ := List.cons.inj h
          exact absurd (hfront x List.mem_cons_self) hx

/-- What is left without the elements at the end that satisfy `p`. -/
theorem dropTailWhile_eq_iff {p : α → Bool} {xs ys : List α} :
    dropTailWhile p xs = ys ↔
      (∀ y ∈ ys.getLast?, p y = false) ∧ ∃ rear, (∀ x ∈ rear, p x = true) ∧ xs = ys ++ rear := by
  rw [dropTailWhile, List.reverse_eq_iff, dropWhile_eq_iff, List.head?_reverse]
  refine and_congr_right fun _ => ⟨?_, ?_⟩
  · rintro ⟨front, hfront, h⟩
    refine ⟨front.reverse, fun x hx => hfront x (List.mem_reverse.1 hx), ?_⟩
    rw [← List.reverse_reverse xs, h, List.reverse_append, List.reverse_reverse]
  · rintro ⟨rear, hrear, rfl⟩
    exact ⟨rear.reverse, fun x hx => hrear x (List.mem_reverse.1 hx), List.reverse_append⟩

/-- What is left without the elements of one kind at the end. -/
theorem dropTailWhile_beq_eq_iff [DecidableEq α] {a : α} {xs ys : List α} :
    dropTailWhile (· == a) xs = ys ↔
      ys.getLast? ≠ some a ∧ ∃ n, xs = ys ++ List.replicate n a := by
  have hlast : (∀ y ∈ ys.getLast?, (y == a) = false) ↔ ys.getLast? ≠ some a := by
    cases ys.getLast? <;> simp
  rw [dropTailWhile_eq_iff, hlast]
  refine and_congr_right fun _ => ⟨?_, ?_⟩
  · rintro ⟨rear, hrear, rfl⟩
    have hrow : rear = List.replicate rear.length a :=
      List.eq_replicate_iff.2 ⟨rfl, fun x hx => beq_iff_eq.1 (hrear x hx)⟩
    exact ⟨rear.length, congrArg _ hrow⟩
  · rintro ⟨n, rfl⟩
    exact ⟨_, fun x hx => beq_iff_eq.2 (List.eq_of_mem_replicate hx), rfl⟩

/-- What is left without the blanks at the end. -/
theorem trimEnd_eq_iff {s core : String} :
    trimEnd s = core ↔ (∀ c ∈ core.toList.getLast?, isBlank c = false) ∧
      ∃ rear : String, (∀ c ∈ rear.toList, isBlank c = true) ∧ s = core ++ rear := by
  rw [trimEnd, ← String.toList_inj, String.toList_ofList, dropTailWhile_eq_iff]
  refine and_congr_right fun _ => ⟨?_, ?_⟩
  · rintro ⟨rear, hrear, h⟩
    refine ⟨String.ofList rear, by rwa [String.toList_ofList], String.toList_inj.1 ?_⟩
    rw [h, String.toList_append, String.toList_ofList]
  · rintro ⟨rear, hrear, rfl⟩
    exact ⟨rear.toList, hrear, String.toList_append⟩

/-- Nothing is trimmed off a text that does not end in a blank. -/
theorem trimEnd_of_getLast? {s : String} (h : ∀ c ∈ s.toList.getLast?, isBlank c = false) :
    trimEnd s = s :=
  trimEnd_eq_iff.2 ⟨h, "", by simp, String.append_empty.symm⟩

/-- Blanks at the end of a text do not matter to what stands in front, if that does not end in a
blank. -/
theorem prefix_trimEnd_iff {pattern : List Char} {s : String}
    (hpattern : ∀ c ∈ pattern.getLast?, isBlank c = false) :
    pattern <+: (trimEnd s).toList ↔ pattern <+: s.toList := by
  obtain ⟨-, rear, hrear, hs⟩ := trimEnd_eq_iff.1 (Eq.refl (trimEnd s))
  have hchars : s.toList = (trimEnd s).toList ++ rear.toList := by
    rw [← String.toList_append, ← hs]
  rw [hchars]
  refine ⟨fun h => h.trans (List.prefix_append _ _), ?_⟩
  rintro ⟨rest, hrest⟩
  obtain ⟨cs, hcore, -⟩ | ⟨cs, hcs, hblanks⟩ := List.append_eq_append_iff.1 hrest
  · exact ⟨cs, hcore.symm⟩
  · -- what goes beyond the trimmed text are blanks, in which the pattern does not end
    cases hlast : cs.getLast? with
    | none =>
      rw [List.getLast?_eq_none_iff.1 hlast, List.append_nil] at hcs
      exact ⟨[], by rw [hcs, List.append_nil]⟩
    | some c =>
      have hc : isBlank c = true :=
        hrear c (hblanks ▸ List.mem_append_left _ (List.mem_of_getLast? hlast))
      have hend : pattern.getLast? = some c := by
        rw [hcs, List.getLast?_append, hlast, Option.some_or]
      exact absurd ((hpattern c hend).symm.trans hc) Bool.false_ne_true

/-- Whether a text is another one with only blanks around it, which itself starts and ends with no
blank. -/
structure IsTrimmed (s core : String) : Prop where
  /-- Around it there are only blanks. -/
  exists_blanks : ∃ front rear : List Char, (∀ c ∈ front, isBlank c = true) ∧
    (∀ c ∈ rear, isBlank c = true) ∧ s.toList = front ++ core.toList ++ rear
  /-- It does not start with a blank. -/
  head?_not_blank : ∀ c ∈ core.toList.head?, isBlank c = false
  /-- It does not end with a blank. -/
  getLast?_not_blank : ∀ c ∈ core.toList.getLast?, isBlank c = false

/-- A text is trimmed to the part of it that has only blanks around it. -/
theorem trim_eq_iff {s core : String} : trim s = core ↔ IsTrimmed s core := by
  have hchars : trim s = core ↔
      dropTailWhile isBlank (s.toList.dropWhile isBlank) = core.toList := by
    rw [trim, ← String.toList_inj, String.toList_ofList]
  rw [hchars, dropTailWhile_eq_iff]
  constructor
  · rintro ⟨hlast, rear, hrear, h⟩
    obtain ⟨hhead, front, hfront, hs⟩ := dropWhile_eq_iff.1 h
    refine ⟨⟨front, rear, hfront, hrear, hs.trans (List.append_assoc ..).symm⟩, ?_, hlast⟩
    intro c hc
    refine hhead c ?_
    rw [List.head?_append, Option.mem_def.1 hc]
    rfl
  · rintro ⟨⟨front, rear, hfront, hrear, hs⟩, hhead, hlast⟩
    refine ⟨hlast, ?_⟩
    cases hcore : core.toList with
    | nil =>
      -- in front of nothing, all blanks are dropped at once
      refine ⟨[], by simp, dropWhile_eq_iff.2 ⟨by simp, s.toList, fun c hc => ?_, by simp⟩⟩
      rw [hs, hcore, List.append_nil] at hc
      exact (List.mem_append.1 hc).elim (hfront c) (hrear c)
    | cons first cs =>
      rw [hcore] at hs hhead
      refine ⟨rear, hrear, dropWhile_eq_iff.2 ⟨?_, front, hfront, ?_⟩⟩
      · exact hhead
      · rw [hs, List.append_assoc]

/-- Blanks at the end do not matter where a text is trimmed. -/
theorem trim_append {s t : String} (ht : ∀ c ∈ t.toList, isBlank c = true) :
    trim (s ++ t) = trim s := by
  obtain ⟨⟨front, rear, hfront, hrear, hs⟩, hhead, hlast⟩ := trim_eq_iff.1 (Eq.refl (trim s))
  refine trim_eq_iff.2 ⟨⟨front, rear ++ t.toList, hfront, ?_, ?_⟩, hhead, hlast⟩
  · intro c hc
    exact (List.mem_append.1 hc).elim (hrear c) (ht c)
  · rw [String.toList_append, hs, List.append_assoc _ rear]

/-- A text has these columns if it is made up of them and none holds a separator. -/
theorem columns_eq_iff {s : String} {cols : List String} :
    columns '\t' s = cols ↔
      s = "\t".intercalate cols ∧ cols ≠ [] ∧ ∀ col ∈ cols, '\t' ∉ col.toList := by
  constructor
  · rintro rfl
    have hpieces : (columns '\t' s).map String.toList = splitWhere (· == '\t') s.toList := by
      rw [columns, List.map_map]
      refine (List.map_congr_left fun piece _ => String.toList_ofList).trans ?_
      exact List.map_id _
    refine ⟨String.toList_inj.1 ?_, ?_, fun col hcol htab => ?_⟩
    · have hwhole : ['\t'].intercalate (splitWhere (· == '\t') s.toList) = s.toList :=
        intercalate_splitWhere '\t' s.toList
      rw [String.toList_intercalate, hpieces]
      exact hwhole.symm
    · exact fun hnil => splitWhere_ne_nil (· == '\t') s.toList (List.map_eq_nil_iff.1 hnil)
    · have hpiece := List.mem_map_of_mem (f := String.toList) hcol
      rw [hpieces] at hpiece
      simpa using not_of_mem_splitWhere hpiece htab
  · rintro ⟨rfl, hne, htab⟩
    exact columns_intercalate hne htab

/-- A text is cut where the pattern occurs first. -/
theorem cutFirst?_eq_some_iff {pattern s head tail : List Char} (hne : pattern ≠ []) :
    cutFirst? pattern s = some (head, tail) ↔
      s = head ++ pattern ++ tail ∧ ¬ pattern <:+: head ++ pattern.dropLast := by
  have hpos : 0 < pattern.length := List.length_pos_iff.2 hne
  have hbeginning : ∀ head tail, head ++ pattern.dropLast <+: head ++ pattern ++ tail := by
    intro head tail
    rw [List.append_assoc, List.prefix_append_right_inj]
    exact (List.dropLast_prefix _).trans (List.prefix_append _ _)
  induction s generalizing head with
  | nil => simp [cutFirst?, hne]
  | cons c cs ih =>
    rw [cutFirst?]
    split
    · rename_i hstarts
      obtain ⟨rest, hrest⟩ := List.isPrefixOf_iff_prefix.1 hstarts
      rw [← hrest, List.drop_left, Option.some_inj, Prod.mk.injEq]
      constructor
      · rintro ⟨rfl, rfl⟩
        refine ⟨rfl, fun h => ?_⟩
        have hle := h.length_le
        rw [List.nil_append, List.length_dropLast] at hle
        omega
      · rintro ⟨hsplit, hfirst⟩
        -- a pattern in front of the text ends inside any part that is as long as itself
        have hstart : pattern <+: head ++ pattern ++ tail := hsplit ▸ List.prefix_append _ _
        have hshort : ¬ pattern.length ≤ (head ++ pattern.dropLast).length := by
          exact fun hle => hfirst
            (List.prefix_of_prefix_length_le hstart (hbeginning head tail) hle).isInfix
        obtain rfl : head = [] := by
          rw [List.length_append, List.length_dropLast] at hshort
          exact List.eq_nil_of_length_eq_zero (by omega)
        exact ⟨rfl, List.append_cancel_left (hsplit.trans (by simp))⟩
    · rename_i hstarts
      rw [Option.map_eq_some_iff]
      constructor
      · rintro ⟨⟨front, tail⟩, hcut, heq⟩
        obtain ⟨rfl, rfl⟩ := Prod.mk.inj heq
        obtain ⟨rfl, hfirst⟩ := ih.1 hcut
        refine ⟨rfl, fun h => ?_⟩
        rcases List.infix_cons_iff.1 h with hfront | hlater
        · exact hstarts (List.isPrefixOf_iff_prefix.2
            (hfront.trans (hbeginning (c :: front) tail)))
        · exact hfirst hlater
      · rintro ⟨hsplit, hfirst⟩
        cases head with
        | nil =>
          exact absurd (List.isPrefixOf_iff_prefix.2 (hsplit ▸ List.prefix_append _ _)) hstarts
        | cons h head =>
          obtain ⟨rfl, rfl⟩ := List.cons.inj hsplit
          exact ⟨(head, tail), ih.2 ⟨rfl, fun hlater =>
            hfirst (List.infix_cons_iff.2 (.inr hlater))⟩, rfl⟩

end StableNaming.Text
