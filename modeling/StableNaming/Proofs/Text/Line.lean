import StableNaming.Text.Line

/-!
# Reading written lines

Texts that are written as lines, each ended by a line feed, are read back line by
line, and words with single blanks in front of them are read back word by word.
-/

namespace StableNaming.Text

variable {α : Type} {p : α → Bool}

/-- No piece goes beyond a separator. -/
theorem splitWhere_append_cons {x : α} (hx : p x = true) (xs ys : List α) :
    splitWhere p (xs ++ x :: ys) = splitWhere p xs ++ splitWhere p ys := by
  induction xs with
  | nil =>
    rw [List.nil_append, splitWhere, splitWhere, if_pos hx, List.singleton_append]
  | cons y xs ih =>
    obtain ⟨piece, pieces, hxs⟩ := List.exists_cons_of_ne_nil (splitWhere_ne_nil p xs)
    rw [List.cons_append, splitWhere, splitWhere, ih, hxs]
    split <;> rfl

/-- What has no separator is one piece. -/
theorem splitWhere_of_forall {piece : List α} (hpiece : ∀ x ∈ piece, p x = false) :
    splitWhere p piece = [piece] := by
  induction piece with
  | nil => rfl
  | cons y ys ih =>
    obtain ⟨hy, hys⟩ := List.forall_mem_cons.1 hpiece
    rw [splitWhere, if_neg (Bool.not_eq_true _ ▸ hy), ih hys]

/-- A piece ends at the first separator. -/
theorem splitWhere_append {piece : List α} (hpiece : ∀ x ∈ piece, p x = false) {x : α}
    (hx : p x = true) (rest : List α) :
    splitWhere p (piece ++ x :: rest) = piece :: splitWhere p rest := by
  rw [splitWhere_append_cons hx, splitWhere_of_forall hpiece, List.singleton_append]

/-- What does not end in an element stays as it is when that element is dropped. -/
theorem dropOne_eq_self [DecidableEq α] {last : α} {xs : List α} (h : xs.getLast? ≠ some last) :
    dropOne last xs = xs :=
  if_neg h

/-- Pieces that are each ended by a separator are split again, with nothing after the last one. -/
theorem splitWhere_flatMap [DecidableEq α] {feed : α} {ls : List (List α)}
    (h : ∀ l ∈ ls, feed ∉ l) :
    splitWhere (· == feed) (ls.flatMap (· ++ [feed])) = ls ++ [[]] := by
  induction ls with
  | nil => rfl
  | cons l ls ih =>
    obtain ⟨hl, hls⟩ := List.forall_mem_cons.1 h
    have hpiece : ∀ x ∈ l, (x == feed) = false := fun x hx =>
      beq_eq_false_iff_ne.2 fun heq => hl (heq ▸ hx)
    rw [List.flatMap_cons, List.append_assoc, List.singleton_append,
      splitWhere_append hpiece (beq_self_eq_true feed), ih hls, List.cons_append]

/-- Lines that are each ended by a feed are the lines of what they make up. -/
theorem linesWith_flatMap [DecidableEq α] {feed carriage : α} {ls : List (List α)}
    (h : ∀ l ∈ ls, feed ∉ l ∧ l.getLast? ≠ some carriage) :
    linesWith feed carriage (ls.flatMap (· ++ [feed])) = ls := by
  have hkept : ls.map (dropOne carriage) = ls := by
    refine (List.map_congr_left fun l hl => dropOne_eq_self (h l hl).2).trans ?_
    exact List.map_id ls
  rw [linesWith, splitWhere_flatMap fun l hl => (h l hl).1]
  simp [hkept]

/-- Lines that are each ended by a carriage return and a feed are the lines of what they make up,
whatever they end in. -/
theorem linesWith_flatMap_carriage [DecidableEq α] {feed carriage : α} {ls : List (List α)}
    (h : ∀ l ∈ ls, feed ∉ l) (hne : feed ≠ carriage) :
    linesWith feed carriage ((ls.map (· ++ [carriage])).flatMap (· ++ [feed])) = ls := by
  have hended : ∀ l ∈ ls.map (· ++ [carriage]), feed ∉ l := by
    intro l hl
    obtain ⟨l, hmem, rfl⟩ := List.mem_map.1 hl
    simpa [hne] using h l hmem
  rw [linesWith, splitWhere_flatMap hended]
  simp [dropOne, Function.comp_def]

/-- A line of a file is what stands between two line feeds. -/
theorem exists_of_mem_fileLines {bytes : List UInt8} {l : Option String}
    (hl : l ∈ fileLines bytes) : ∃ piece, 10 ∉ piece ∧ decodeUtf8? piece = l := by
  have hpieces : ∀ piece ∈ splitWhere (· == 10) bytes, 10 ∉ piece := fun piece hpiece hfeed =>
    Bool.false_ne_true ((not_of_mem_splitWhere hpiece hfeed).symm.trans (beq_self_eq_true _))
  obtain ⟨piece, hpiece, rfl⟩ := List.mem_map.1 hl
  refine ⟨piece, ?_, rfl⟩
  rw [linesWith, List.mem_append, List.mem_map] at hpiece
  rcases hpiece with ⟨whole, hwhole, rfl⟩ | hrest
  · have hfeed := hpieces whole (List.dropLast_subset _ hwhole)
    rw [dropOne]
    split
    · exact fun hmem => hfeed (List.dropLast_subset _ hmem)
    · exact hfeed
  · rw [Option.mem_toList, Option.filter_eq_some_iff] at hrest
    exact hpieces piece (List.mem_of_getLast? hrest.1)

/-- Lines that stand in files make up a file. -/
theorem exists_fileLines_eq {ls : List (Option String)}
    (h : ∀ l ∈ ls, ∃ bytes, l ∈ fileLines bytes) : ∃ bytes, fileLines bytes = ls := by
  have hpieces : ∃ pieces : List (List UInt8), (∀ piece ∈ pieces, 10 ∉ piece) ∧
      pieces.map decodeUtf8? = ls := by
    induction ls with
    | nil => exact ⟨[], by simp, rfl⟩
    | cons l ls ih =>
      obtain ⟨⟨bytes, hl⟩, hls⟩ := List.forall_mem_cons.1 h
      obtain ⟨piece, hpiece, rfl⟩ := exists_of_mem_fileLines hl
      obtain ⟨pieces, hpieces, rfl⟩ := ih hls
      exact ⟨piece :: pieces, List.forall_mem_cons.2 ⟨hpiece, hpieces⟩, rfl⟩
  obtain ⟨pieces, hpieces, rfl⟩ := hpieces
  exact ⟨_, congrArg (List.map decodeUtf8?) (linesWith_flatMap_carriage hpieces (by decide))⟩

/-- Lines that are written one after the other are read back, as long as none ends in a carriage
return. -/
theorem lines_join {ls : List String}
    (h : ∀ l ∈ ls, '\n' ∉ l.toList ∧ l.toList.getLast? ≠ some '\r') :
    lines (String.join (ls.map (· ++ "\n"))) = ls := by
  have hchars : (String.join (ls.map (· ++ "\n"))).toList =
      (ls.map String.toList).flatMap (· ++ ['\n']) := by
    rw [String.toList_join, List.flatMap_map, List.flatMap_map]
    refine congrArg (List.flatMap · ls) (funext fun l => ?_)
    exact String.toList_append
  have hlines := @linesWith_flatMap Char _ '\n' '\r' (ls.map String.toList) (by
    intro l hl
    obtain ⟨line, hline, rfl⟩ := List.mem_map.1 hl
    exact h line hline)
  rw [lines, hchars, hlines, List.map_map]
  refine (List.map_congr_left fun l _ => String.ofList_toList).trans ?_
  exact List.map_id ls

/-- Columns that are written with separators between them are read back. -/
theorem columns_intercalate {cols : List String} (hne : cols ≠ [])
    (h : ∀ col ∈ cols, '\t' ∉ col.toList) : columns '\t' ("\t".intercalate cols) = cols := by
  have hpiece : ∀ col ∈ cols, ∀ c ∈ col.toList, (c == '\t') = false := fun col hcol c hc =>
    beq_eq_false_iff_ne.2 fun heq => h col hcol (heq ▸ hc)
  have hsplit : splitWhere (· == '\t') (['\t'].intercalate (cols.map String.toList)) =
      cols.map String.toList := by
    induction cols with
    | nil => exact absurd rfl hne
    | cons col cols ih =>
      obtain ⟨hcol, hcols⟩ := List.forall_mem_cons.1 hpiece
      cases cols with
      | nil => rw [List.map_singleton, List.intercalate_singleton, splitWhere_of_forall hcol]
      | cons next cols =>
        have hrest := ih (by simp) (fun c hc => h c (List.mem_cons_of_mem _ hc)) hcols
        rw [List.map_cons, List.map_cons, List.intercalate_cons_cons, List.append_assoc,
          List.singleton_append, splitWhere_append hcol (beq_self_eq_true '\t')]
        exact congrArg _ hrest
  have hchars : ("\t".intercalate cols).toList = ['\t'].intercalate (cols.map String.toList) :=
    String.toList_intercalate
  rw [columns, hchars, hsplit, List.map_map]
  refine (List.map_congr_left fun col _ => String.ofList_toList).trans ?_
  exact List.map_id cols

/-- What stands in a row of columns stands in a column or separates two. -/
theorem mem_intercalate {cols : List String} {c : Char} (hc : c ∈ ("\t".intercalate cols).toList) :
    c = '\t' ∨ ∃ col ∈ cols, c ∈ col.toList := by
  rw [String.toList_intercalate] at hc
  induction cols with
  | nil => exact absurd hc List.not_mem_nil
  | cons col cols ih =>
    cases cols with
    | nil =>
      rw [List.map_singleton, List.intercalate_singleton] at hc
      exact .inr ⟨col, List.mem_cons_self, hc⟩
    | cons next cols =>
      rw [List.map_cons, List.map_cons, List.intercalate_cons_cons, List.mem_append,
        List.mem_append] at hc
      rcases hc with (hc | hc) | hc
      · exact .inr ⟨col, List.mem_cons_self, hc⟩
      · exact .inl (List.mem_singleton.1 hc)
      · obtain htab | ⟨col', hcol', hc⟩ := ih hc
        · exact .inl htab
        · exact .inr ⟨col', List.mem_cons_of_mem _ hcol', hc⟩

/-- A row ends as its last column does. -/
theorem getLast?_intercalate {cols : List String} {col : String} (hcol : col ≠ "")
    (hlast : cols.getLast? = some col) :
    ("\t".intercalate cols).toList.getLast? = col.toList.getLast? := by
  rw [String.toList_intercalate]
  induction cols with
  | nil => cases hlast
  | cons first cols ih =>
    cases cols with
    | nil =>
      obtain rfl : first = col := Option.some.inj hlast
      rw [List.map_singleton, List.intercalate_singleton]
    | cons next cols =>
      rw [List.getLast?_cons_cons] at hlast
      have hrest := ih hlast
      have hne : col.toList ≠ [] := fun hnil => hcol (String.toList_eq_nil_iff.1 hnil)
      have hend := List.getLast?_eq_some_getLast hne
      rw [List.map_cons, List.map_cons, List.intercalate_cons_cons, List.getLast?_append]
      rw [List.map_cons] at hrest
      rw [hrest, hend, Option.some_or]

/-- A row starts as its first column does. -/
theorem head?_intercalate {first : String} {cols : List String} (hfirst : first ≠ "") :
    ("\t".intercalate (first :: cols)).toList.head? = first.toList.head? := by
  have hne : first.toList ≠ [] := fun hnil => hfirst (String.toList_eq_nil_iff.1 hnil)
  have hstart := List.head?_eq_some_head hne
  rw [String.toList_intercalate]
  cases cols with
  | nil => rw [List.map_singleton, List.intercalate_singleton]
  | cons next cols =>
    rw [List.map_cons, List.map_cons, List.intercalate_cons_cons, List.append_assoc,
      List.head?_append, hstart, Option.some_or]

/-- A line that starts with a character that is not blank is not blank. -/
theorem isBlankLine_of_head? {s : String} {c : Char} (hs : s.toList.head? = some c)
    (hc : isBlank c = false) : isBlankLine s = false := by
  obtain ⟨rest, hrest⟩ := List.head?_eq_some_iff.1 hs
  rw [isBlankLine, hrest, List.all_cons, hc, Bool.false_and]

/-- No word goes beyond a blank. -/
theorem words_of_append_cons {s : String} {front rear : List Char} {c : Char}
    (hs : s.toList = front ++ c :: rear) (hc : isBlank c = true) :
    words s = words (String.ofList front) ++ words (String.ofList rear) := by
  rw [words, words, words, hs, String.toList_ofList, String.toList_ofList,
    splitWhere_append_cons hc, List.filter_append, List.map_append]

/-- Blanks hold no word. -/
theorem words_of_forall_blank {cs : List Char} (h : ∀ c ∈ cs, isBlank c = true) :
    words (String.ofList cs) = [] := by
  induction cs with
  | nil => rfl
  | cons c cs ih =>
    obtain ⟨hc, hcs⟩ := List.forall_mem_cons.1 h
    have hs : (String.ofList (c :: cs)).toList = [] ++ c :: cs := String.toList_ofList
    rw [words_of_append_cons hs hc, ih hcs, List.append_nil]
    rfl

/-- Blanks at the end do not matter to the words of a text. -/
theorem words_append_of_forall_blank {s t : String} (ht : ∀ c ∈ t.toList, isBlank c = true) :
    words (s ++ t) = words s := by
  cases hrear : t.toList with
  | nil => rw [String.toList_eq_nil_iff.1 hrear, String.append_empty]
  | cons c cs =>
    rw [hrear] at ht
    obtain ⟨hc, hcs⟩ := List.forall_mem_cons.1 ht
    have hchars : (s ++ t).toList = s.toList ++ c :: cs := by rw [String.toList_append, hrear]
    rw [words_of_append_cons hchars hc, words_of_forall_blank hcs, List.append_nil,
      String.ofList_toList]

/-- Two words with a blank in front of each are read back. -/
theorem words_pair {first second : String} (hfirst : ∀ c ∈ first.toList, isBlank c = false)
    (hsecond : ∀ c ∈ second.toList, isBlank c = false) (hfirstNe : first.toList ≠ [])
    (hsecondNe : second.toList ≠ []) :
    words (" " ++ first ++ " " ++ second) = [first, second] := by
  have hblank : isBlank ' ' = true := by decide
  have hchars : (" " ++ first ++ " " ++ second).toList =
      [] ++ ' ' :: (first.toList ++ ' ' :: second.toList) := by
    simp [String.toList_append]
  rw [words, hchars, splitWhere_append (fun x hx => absurd hx List.not_mem_nil) hblank,
    splitWhere_append hfirst hblank, splitWhere_of_forall hsecond]
  simp [hfirstNe, hsecondNe]

end StableNaming.Text
