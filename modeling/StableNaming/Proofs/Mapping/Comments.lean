import StableNaming.Proofs.Mapping.CounterFile
import StableNaming.Proofs.Mapping.TinyOrder

/-!
# Comments

A line after the header that starts with `#` holds no symbol. Without the mark of a counter it is
passed over. With the mark, the words after it have to be a kind and a number, which raise a
counter; otherwise the file is not read. The mark is looked for letter by letter: a line in which
it is only the beginning of a longer word has it all the same.
-/

namespace StableNaming

namespace Counters

open Text

variable {line : String} {kind : SymbolKind} {n : UInt64}

/-! ## Lines with the mark -/

/-- Whether a line has the mark and goes on with a letter of the same word. -/
def RunsOn (line : String) : Prop :=
  ∃ c rest, line = mark ++ rest ∧ rest.toList.head? = some c ∧ isBlank c = false

theorem RunsOn.isMarked (h : RunsOn line) : IsMarked line := by
  obtain ⟨-, rest, hline, -⟩ := h
  exact ⟨rest, hline⟩

/-- A line has the mark only if its words start like those of the mark, or if the second one goes
on after the mark. -/
theorem IsMarked.take_words_or_runsOn (h : IsMarked line) :
    (words line).take 2 = ["#", "INTERMEDIARY-COUNTER"] ∨ RunsOn line := by
  obtain ⟨rest, rfl⟩ := h
  have hmark : words mark = ["#", "INTERMEDIARY-COUNTER"] := by decide +kernel
  cases hrest : rest.toList with
  | nil =>
    rw [String.toList_eq_nil_iff.1 hrest, String.append_empty, hmark]
    exact .inl rfl
  | cons c cs =>
    by_cases hc : isBlank c = true
    · have hchars : (mark ++ rest).toList = mark.toList ++ c :: cs := by
        rw [String.toList_append, hrest]
      rw [words_of_append_cons hchars hc, String.ofList_toList, hmark]
      exact .inl rfl
    · exact .inr ⟨c, rest, rfl, by rw [hrest, List.head?_cons], Bool.not_eq_true _ ▸ hc⟩

/-- A counter stays as it is exactly if it is not behind. -/
theorem observe_eq_self_iff {c : Counters} : c.observe kind n = c ↔ n.toNat ≤ c.get kind := by
  constructor
  · intro h
    have hget := c.get_observe kind kind n
    rw [h, if_pos rfl] at hget
    omega
  · intro h
    exact if_neg fun hlt => Nat.not_lt.2 h (UInt64.lt_iff_toNat_lt.1 hlt)

/-- What a comment makes of the counters of the other lines of a file; nothing comes of a line with
the mark and anything but a kind and a number after it. -/
inductive Amends (line : String) (c : Counters) : Counters → Prop
  /-- A line without the mark leaves them. -/
  | remark (h : ¬ IsMarked line) : Amends line c c
  /-- A counter is raised to the number that the line holds. -/
  | counter {kind : SymbolKind} {n : UInt64} (h : CounterLine line kind n) :
      Amends line c (c.observe kind n)

theorem amends_iff {c c' : Counters} : Amends line c c' ↔
    (¬ IsMarked line ∧ c' = c) ∨ ∃ kind n, CounterLine line kind n ∧ c' = c.observe kind n := by
  constructor
  · rintro (hplain | hcounter)
    · exact .inl ⟨hplain, rfl⟩
    · exact .inr ⟨_, _, hcounter, rfl⟩
  · rintro (⟨hplain, rfl⟩ | ⟨kind, n, hcounter, rfl⟩)
    · exact .remark hplain
    · exact .counter hcounter

/-- At most one thing comes of a comment. -/
theorem Amends.unique {c c₁ c₂ : Counters} (h₁ : Amends line c c₁) (h₂ : Amends line c c₂) :
    c₁ = c₂ := by
  cases h₁ with
  | remark hplain =>
    cases h₂ with
    | remark => rfl
    | counter hcounter => exact absurd hcounter.isMarked hplain
  | counter hcounter =>
    cases h₂ with
    | remark hplain => exact absurd hcounter.isMarked hplain
    | counter hcounter' =>
      obtain ⟨rfl, rfl⟩ := hcounter.unique hcounter'
      rfl

/-- The counters stay as they are exactly if the line has no mark, or holds a number that is not
ahead. -/
theorem amends_self_iff {c : Counters} :
    Amends line c c ↔
      (IsMarked line → ∃ kind n, CounterLine line kind n ∧ n.toNat ≤ c.get kind) := by
  simp only [amends_iff, and_true, eq_comm (a := c), observe_eq_self_iff]
  exact imp_iff_not_or.symm

end Counters

namespace Tiny

open Text Counters

variable {a b comment header : String} {lines lines' front before after : List (Option String)}
  {namespaces : List String} {contents contents' : List Content} {c : Content} {i j width : Nat}
  {counters counters' : Counters} {entries : List Entry} {t t' : MappingTable}
  {bytes bytes' : List UInt8}

/-! ## One more line -/

/-- What a line does to the counters of a file. -/
def Content.raise : Content → Counters → Counters
  | .counter kind n, counters => counters.observe kind n
  | _, counters => counters

/-- One more line says something, in a file that says something without it. -/
theorem says_insert_iff {line : Option String}
    (hlayout : Layout lines front header (before ++ after))
    (hlayout' : Layout lines' front header (before ++ line :: after)) :
    Says lines' namespaces contents' ↔ ∃ c, contentOf? namespaces.length line = some c ∧
      Says lines namespaces (before.filterMap (contentOf? namespaces.length) ++
        after.filterMap (contentOf? namespaces.length)) ∧
      contents' = before.filterMap (contentOf? namespaces.length) ++
        c :: after.filterMap (contentOf? namespaces.length) := by
  constructor
  · intro h
    obtain ⟨hheader, hsome, rfl⟩ := h.of_layout hlayout'
    obtain ⟨hbefore, hline, hafter⟩ := by
      simpa only [List.forall_mem_append, List.forall_mem_cons] using hsome
    obtain ⟨c, hc⟩ := Option.isSome_iff_exists.1 hline
    refine ⟨c, hc, ⟨front, header, _, hlayout, hheader, ?_, List.filterMap_append.symm⟩, ?_⟩
    · exact List.forall_mem_append.2 ⟨hbefore, hafter⟩
    · rw [List.filterMap_append, List.filterMap_cons_some hc]
  · rintro ⟨c, hc, h, rfl⟩
    obtain ⟨hheader, hsome, -⟩ := h.of_layout hlayout
    obtain ⟨hbefore, hafter⟩ := List.forall_mem_append.1 hsome
    refine ⟨front, header, _, hlayout', hheader, ?_, ?_⟩
    · refine List.forall_mem_append.2 ⟨hbefore, List.forall_mem_cons.2 ⟨?_, hafter⟩⟩
      rw [hc]
      rfl
    · rw [List.filterMap_append, List.filterMap_cons_some hc]

/-- Wherever it stands, a line does to the counters what it does to those of the other lines. -/
theorem countersIn_insert (contents contents' : List Content) (c : Content) :
    countersIn (contents ++ c :: contents') = c.raise (countersIn (contents ++ contents')) := by
  have hperm : (contents ++ c :: contents').Perm (contents ++ contents' ++ [c]) :=
    List.perm_middle.trans (List.perm_append_singleton _ _).symm
  rw [countersIn_perm hperm, countersIn, countersIn, countersOf, countersOf, List.map_append,
    List.foldl_append]
  cases c <;> rfl

/-- A line without a symbol enters nothing. -/
theorem entriesIn_insert (hc : c.row? = none) (contents contents' : List Content) (i j : Nat) :
    entriesIn (contents ++ c :: contents') i j = entriesIn (contents ++ contents') i j := by
  rw [entriesIn, entriesIn, rowsIn, rowsIn, List.filterMap_append, List.filterMap_append,
    List.filterMap_cons_none hc]

/-- Tables of the same symbols differ in their counters. -/
theorem tabulates_iff_counters (counters : Counters) : Tabulates a b counters' entries t' ↔
    ∃ t, Tabulates a b counters entries t ∧ t' = { t with counters := counters' } := by
  constructor
  · rintro ⟨hsource, htarget, hidentity, hcounters, hclasses, hmembers⟩
    refine ⟨{ t' with counters := counters }, ⟨hsource, htarget, hidentity, rfl, hclasses, ?_⟩, ?_⟩
    · intro kind
      rw [← hmembers kind]
      cases kind <;> rfl
    · rw [← hcounters]
  · rintro ⟨t, ⟨hsource, htarget, hidentity, -, hclasses, hmembers⟩, rfl⟩
    refine ⟨hsource, htarget, hidentity, rfl, hclasses, fun kind => ?_⟩
    rw [← hmembers kind]
    cases kind <;> rfl

/-- The table of a file with one more line without a symbol is that of the other lines, with what
the line does to their counters. -/
theorem tabulates_insert_iff (hc : c.row? = none) :
    Tabulates a b (countersIn (contents ++ c :: contents'))
        (entriesIn (contents ++ c :: contents') i j) t' ↔
      ∃ t, Tabulates a b (countersIn (contents ++ contents'))
        (entriesIn (contents ++ contents') i j) t ∧
        t' = { t with counters := c.raise t.counters } := by
  rw [entriesIn_insert hc, countersIn_insert,
    tabulates_iff_counters (countersIn (contents ++ contents'))]
  refine exists_congr fun t => and_congr_right fun ht => ?_
  rw [ht.counters_eq]

/-! ## Comments -/

/-- What a comment says decides what it does to counters. -/
theorem amends_iff_contentOf? (hcomment : comment.toList.head? = some '#') :
    Amends comment counters counters' ↔
      ∃ c, contentOf? width (some comment) = some c ∧ counters' = c.raise counters := by
  have hblank : isBlankLine comment = false := isBlankLine_of_head? hcomment (by decide)
  rw [contentOf?, hblank, if_neg Bool.false_ne_true, if_pos hcomment, amends_iff]
  simp only [← parseLine_eq_ok_none_iff, ← parseLine_eq_ok_some_iff]
  cases Counters.parseLine comment with
  | error fault => simp
  | ok counter =>
    cases counter with
    | none => simp [Content.raise]
    | some counter => simp [Content.raise, Prod.ext_iff]

/-- A comment holds no symbol. -/
theorem row?_of_contentOf?_comment (hcomment : comment.toList.head? = some '#')
    (hc : contentOf? width (some comment) = some c) : c.row? = none := by
  have hblank : isBlankLine comment = false := isBlankLine_of_head? hcomment (by decide)
  rw [contentOf?, hblank, if_neg Bool.false_ne_true, if_pos hcomment] at hc
  split at hc
  · exact Option.some.inj hc ▸ rfl
  · exact Option.some.inj hc ▸ rfl
  · cases hc

/-- A file with one more comment is read exactly if it is read without it and something comes of
the comment; the tables differ at most in what comes of it for the counters. -/
theorem read_commented_eq_ok_iff (hlayout : Layout (fileLines bytes) front header (before ++ after))
    (hlayout' : Layout (fileLines bytes') front header (before ++ some comment :: after))
    (hcomment : comment.toList.head? = some '#') :
    read a b bytes' = .ok t' ↔ ∃ t counters, read a b bytes = .ok t ∧
      Amends comment t.counters counters ∧ t' = { t with counters := counters } := by
  rw [read, read, readLines_eq_ok_iff]
  simp only [readLines_eq_ok_iff]
  constructor
  · rintro ⟨namespaces, contents', i, j, hsays', hi, hj, ht'⟩
    obtain ⟨c, hc, hsays, rfl⟩ := (says_insert_iff hlayout hlayout').1 hsays'
    obtain ⟨t, ht, rfl⟩ := (tabulates_insert_iff (row?_of_contentOf?_comment hcomment hc)).1 ht'
    exact ⟨t, _, ⟨namespaces, _, i, j, hsays, hi, hj, ht⟩,
      (amends_iff_contentOf? hcomment).2 ⟨c, hc, rfl⟩, rfl⟩
  · rintro ⟨t, counters, ⟨namespaces, contents, i, j, hsays, hi, hj, ht⟩, hamends, rfl⟩
    obtain ⟨c, hc, rfl⟩ := (amends_iff_contentOf? hcomment).1 hamends
    obtain ⟨-, -, rfl⟩ := hsays.of_layout hlayout
    rw [List.filterMap_append] at hsays ht
    have hsays' := (says_insert_iff hlayout hlayout').2 ⟨c, hc, hsays, rfl⟩
    exact ⟨namespaces, _, i, j, hsays', hi, hj,
      (tabulates_insert_iff (row?_of_contentOf?_comment hcomment hc)).2 ⟨t, ht, rfl⟩⟩

/-- A comment does not matter exactly if it has no mark, or holds a number that is not ahead of the
counters of the file. -/
theorem read_commented_congr_iff
    (hlayout : Layout (fileLines bytes) front header (before ++ after))
    (hlayout' : Layout (fileLines bytes') front header (before ++ some comment :: after))
    (hcomment : comment.toList.head? = some '#') :
    (∀ t, read a b bytes' = .ok t ↔ read a b bytes = .ok t) ↔
      ∀ t, read a b bytes = .ok t → IsMarked comment →
        ∃ kind n, CounterLine comment kind n ∧ n.toNat ≤ t.counters.get kind := by
  simp only [read_commented_eq_ok_iff hlayout hlayout' hcomment, ← amends_self_iff]
  constructor
  · intro h t ht
    obtain ⟨t₀, counters, ht₀, hamends, heq⟩ := (h t).2 ht
    obtain rfl : t = t₀ := Except.ok.inj (ht.symm.trans ht₀)
    have hcounters : t.counters = counters := congrArg MappingTable.counters heq
    rwa [← hcounters] at hamends
  · intro h t
    constructor
    · rintro ⟨t₀, counters, ht₀, hamends, rfl⟩
      rwa [← (h t₀ ht₀).unique hamends]
    · exact fun ht => ⟨t, t.counters, ht, h t ht, rfl⟩

/-- A line that starts with `#` but not with the words of the mark of a counter does not matter,
wherever it stands after the header, unless its second word goes on after the mark. Then what
follows the mark has to be a kind and a number, and the line matters exactly if it is not, or if the
number is ahead of the counters of the other lines. -/
theorem remark_inert_iff
    (hlayout : Layout (fileLines bytes) front header (before ++ after))
    (hlayout' : Layout (fileLines bytes') front header (before ++ some comment :: after))
    (hcomment : comment.toList.head? = some '#') :
    (∀ t', read a b bytes' = .ok t' ↔ ∃ t counters, read a b bytes = .ok t ∧
      Amends comment t.counters counters ∧ t' = { t with counters := counters }) ∧
    ((words comment).take 2 ≠ ["#", "INTERMEDIARY-COUNTER"] →
      ((∀ t, read a b bytes' = .ok t ↔ read a b bytes = .ok t) ↔
        ∀ t, read a b bytes = .ok t → RunsOn comment →
          ∃ kind n, CounterLine comment kind n ∧ n.toNat ≤ t.counters.get kind)) := by
  refine ⟨fun t' => read_commented_eq_ok_iff hlayout hlayout' hcomment, fun hwords => ?_⟩
  have hmarked : IsMarked comment ↔ RunsOn comment :=
    ⟨fun h => h.take_words_or_runsOn.resolve_left hwords, RunsOn.isMarked⟩
  rw [read_commented_congr_iff hlayout hlayout' hcomment, hmarked]

/-- A file with a class and no comment. -/
def bare : List UInt8 :=
  encodeUtf8 "v1\tofficial\tintermediary\nCLASS\ta\tnet/minecraft/class_1\n"

/-- The file with a comment in which the mark is not set apart from the kind. -/
def unspaced : List UInt8 :=
  encodeUtf8
    "v1\tofficial\tintermediary\n# INTERMEDIARY-COUNTERclass 5\nCLASS\ta\tnet/minecraft/class_1\n"

/-- The file with a comment whose second word starts like that of the mark. -/
def explained : List UInt8 :=
  encodeUtf8 ("v1\tofficial\tintermediary\n# INTERMEDIARY-COUNTERS are kept by hand\n" ++
    "CLASS\ta\tnet/minecraft/class_1\n")

/-- One comment takes the class counter from 1 to 5, and with the other one the file is not read,
although neither has the words of the mark. -/
theorem not_inert_unspaced :
    ∃ header body, Layout (fileLines bare) [] header body ∧
      Layout (fileLines unspaced) [] header (some "# INTERMEDIARY-COUNTERclass 5" :: body) ∧
      Layout (fileLines explained) [] header
        (some "# INTERMEDIARY-COUNTERS are kept by hand" :: body) ∧
      words "# INTERMEDIARY-COUNTERclass 5" = ["#", "INTERMEDIARY-COUNTERclass", "5"] ∧
      (words "# INTERMEDIARY-COUNTERS are kept by hand").take 2 = ["#", "INTERMEDIARY-COUNTERS"] ∧
      ∃ t t', read "official" "intermediary" bare = .ok t ∧
        read "official" "intermediary" unspaced = .ok t' ∧
        t.counters.get .type = 1 ∧ t'.counters.get .type = 5 ∧
        read "official" "intermediary" explained =
          .error (.invalidCounter "# INTERMEDIARY-COUNTERS are kept by hand") := by
  have hone : (read "official" "intermediary" bare).toOption.map (·.counters.get .type) =
      some 1 := by decide +kernel
  have hfive : (read "official" "intermediary" unspaced).toOption.map (·.counters.get .type) =
      some 5 := by decide +kernel
  have hfault : (match read "official" "intermediary" explained with
      | .ok _ => none
      | .error fault => some fault) =
        some (.invalidCounter "# INTERMEDIARY-COUNTERS are kept by hand") := by decide +kernel
  obtain ⟨t, ht, hget⟩ := exists_of_map_toOption hone
  obtain ⟨t', ht', hget'⟩ := exists_of_map_toOption hfive
  refine ⟨"v1\tofficial\tintermediary", (fileLines bare).tail,
    ⟨by decide +kernel, by simp, by decide +kernel⟩,
    ⟨by decide +kernel, by simp, by decide +kernel⟩,
    ⟨by decide +kernel, by simp, by decide +kernel⟩, by decide +kernel, by decide +kernel,
    t, t', ht, ht', hget, hget', ?_⟩
  cases hread : read "official" "intermediary" explained with
  | ok t =>
    rw [hread] at hfault
    cases hfault
  | error fault =>
    rw [hread] at hfault
    exact congrArg Except.error (Option.some.inj hfault)

/-- A file with a class and a counter. -/
def counted : List UInt8 :=
  encodeUtf8 ("v1\tofficial\tintermediary\n# INTERMEDIARY-COUNTER class 7\n" ++
    "CLASS\ta\tnet/minecraft/class_1\n")

/-- The file with a comment that holds a number which is not ahead. -/
def countedTwice : List UInt8 :=
  encodeUtf8 ("v1\tofficial\tintermediary\n# INTERMEDIARY-COUNTER class 7\n" ++
    "CLASS\ta\tnet/minecraft/class_1\n# INTERMEDIARY-COUNTERclass 5\n")

theorem remark_inert_iff_countedTwice :
    ∃ header body, Layout (fileLines counted) [] header body ∧
      Layout (fileLines countedTwice) [] header
        (body ++ [some "# INTERMEDIARY-COUNTERclass 5"]) ∧
      ∃ t, read "official" "intermediary" counted = .ok t ∧
        ∀ t', read "official" "intermediary" countedTwice = .ok t' ↔
          read "official" "intermediary" counted = .ok t' := by
  have hseven : (read "official" "intermediary" counted).toOption.map (·.counters.get .type) =
      some 7 := by decide +kernel
  obtain ⟨t, ht, hget⟩ := exists_of_map_toOption hseven
  have hlayout : Layout (fileLines counted) [] "v1\tofficial\tintermediary"
      ((fileLines counted).tail ++ []) := ⟨by decide +kernel, by simp, by decide +kernel⟩
  have hlayout' : Layout (fileLines countedTwice) [] "v1\tofficial\tintermediary"
      ((fileLines counted).tail ++ some "# INTERMEDIARY-COUNTERclass 5" :: []) :=
    ⟨by decide +kernel, by simp, by decide +kernel⟩
  have hcounter : CounterLine "# INTERMEDIARY-COUNTERclass 5" .type 5 :=
    parseLine_eq_ok_some_iff.1 (by decide +kernel)
  refine ⟨_, _, List.append_nil (fileLines counted).tail ▸ hlayout, hlayout', t, ht,
    ((remark_inert_iff hlayout hlayout' (by decide +kernel)).2 (by decide +kernel)).2 ?_⟩
  intro t' ht' _
  obtain rfl : t = t' := Except.ok.inj (ht.symm.trans ht')
  exact ⟨.type, 5, hcounter, by rw [hget]; decide⟩

end Tiny

end StableNaming
