import StableNaming.Proofs.Mapping.TinyEntries

/-!
# What the lines of a file say

A file has a header, before which there may be blank lines, and lines after it. What a line after
the header says does not depend on the namespaces that are asked for, nor on where the line stands:
nothing, a counter, or a row of names for a symbol. A file is read between two of its namespaces
exactly if every line says something and the rows enter no symbol twice.
-/

namespace StableNaming.Tiny

open Text

/-! ## Rows -/

/-- A line for a symbol: the kind that its first column announces, and the other columns. -/
structure Row where
  /-- The kind of symbol. -/
  kind : SymbolKind
  /-- The columns after the first one. -/
  columns : List String
  deriving Repr, DecidableEq

namespace Row

/-- How many columns stand before the names: a member has an owner and a descriptor. -/
def place (r : Row) : Nat := if r.kind = .type then 0 else 2

/-- The name in a namespace. -/
def name (r : Row) (i : Nat) : String := (r.columns.drop r.place)[i]?.getD ""

/-- The owner of a member, in the first namespace. -/
def owner (r : Row) : String := r.columns[0]?.getD ""

/-- The descriptor of a member, in the first namespace. -/
def desc (r : Row) : String := r.columns[1]?.getD ""

/-- What a symbol is known as where its name is asked for. -/
def known (r : Row) (i : Nat) : String := orBase (r.name i) (r.name 0)

/-- Whether there is a column for every namespace, and for a member a descriptor. -/
def isWhole (width : Nat) (r : Row) : Bool :=
  decide (r.place + width ≤ r.columns.length) &&
    match r.kind with
    | .type => true
    | .field => Descriptor.isField r.desc
    | .method => Descriptor.isMethod r.desc

/-- The symbol with its names in two namespaces. -/
def entry (r : Row) (i j : Nat) : Entry :=
  match r.kind with
  | .type => .classLine (r.name 0) (r.known i) (r.name j)
  | .field => .memberLine .field r.owner r.desc (r.known i) (r.name j)
  | .method => .memberLine .method r.owner r.desc (r.known i) (r.name j)

end Row

/-- A row is taken exactly if it is whole. -/
theorem parseEntry_eq_ok_iff {sel : Selection} {number : Nat} {kind : SymbolKind}
    {columns : List String} {e : Entry} :
    parseEntry sel number kind columns = .ok e ↔
      (⟨kind, columns⟩ : Row).isWhole sel.width = true ∧
        e = (⟨kind, columns⟩ : Row).entry sel.source sel.target := by
  have htaken : ∀ {x : Entry}, (Except.ok x : Except MappingFault Entry) = .ok e ↔
      true = true ∧ e = x := fun {x} =>
    ⟨fun h => ⟨rfl, (Except.ok.inj h).symm⟩, fun h => h.2 ▸ rfl⟩
  have hrefused : ∀ {x : Entry} {fault : MappingFault},
      (Except.error fault : Except MappingFault Entry) = .ok e ↔ false = true ∧ e = x :=
    fun {x fault} => ⟨fun h => (by cases h), fun h => absurd h.1 Bool.false_ne_true⟩
  rw [parseEntry, Row.isWhole, Bool.and_eq_true, decide_eq_true_eq, Row.place]
  dsimp only
  by_cases hshort : columns.length < (if kind = .type then 0 else 2) + sel.width
  · rw [if_pos hshort]
    constructor
    · exact fun h => by cases h
    · exact fun h => absurd h.1.1 (Nat.not_le.2 hshort)
  · rw [if_neg hshort, and_iff_right (Nat.not_lt.1 hshort)]
    cases kind with
    | type => exact htaken
    | field =>
      dsimp only [Descriptor.isField, Row.desc]
      cases Descriptor.checkField (columns[1]?.getD "") with
      | ok u => exact htaken
      | error fault => exact hrefused
    | method =>
      dsimp only [Descriptor.isMethod, Row.desc]
      cases Descriptor.checkMethod (columns[1]?.getD "") with
      | ok u => exact htaken
      | error fault => exact hrefused

/-! ## Lines -/

/-- What a line says. -/
inductive Content where
  /-- Nothing: a blank line or a comment. -/
  | nothing
  /-- A counter. -/
  | counter (kind : SymbolKind) (number : UInt64)
  /-- A symbol, with its names in all namespaces. -/
  | symbol (row : Row)
  deriving Repr, DecidableEq

/-- What a line contributes where two namespaces are asked for. -/
def Content.item (i j : Nat) : Content → Item
  | .nothing => .nothing
  | .counter kind number => .counter kind number
  | .symbol row => .entry (row.entry i j)

/-- The row of a line for a symbol. -/
def Content.row? : Content → Option Row
  | .symbol row => some row
  | _ => none

/-- What a line says in a file with so many namespaces; nothing can be said of a line that is no
text, a counter without a number, an unknown tag, or a row that is not whole. -/
def contentOf? (width : Nat) : Option String → Option Content
  | none => none
  | some line =>
    if isBlankLine line then some .nothing
    else if line.toList.head? = some '#' then
      match Counters.parseLine line with
      | .ok (some (kind, number)) => some (.counter kind number)
      | .ok none => some .nothing
      | .error _ => none
    else
      match Text.columns '\t' line with
      | [] => some .nothing
      | first :: columns =>
        match kindOfTag? first with
        | none => none
        | some kind =>
          if (⟨kind, columns⟩ : Row).isWhole width then some (.symbol ⟨kind, columns⟩) else none

/-- A line is taken exactly if it says something. -/
theorem parseLine_eq_ok_iff {sel : Selection} {line : Option String} {number : Nat} {item : Item} :
    parseLine sel (line, number) = .ok item ↔
      ∃ c, contentOf? sel.width line = some c ∧ item = c.item sel.source sel.target := by
  have hsaid : ∀ {c : Content}, (Except.ok (c.item sel.source sel.target) :
      Except MappingFault Item) = .ok item ↔
        ∃ c', some c = some c' ∧ item = c'.item sel.source sel.target := by
    intro c
    constructor
    · exact fun h => ⟨c, rfl, (Except.ok.inj h).symm⟩
    · rintro ⟨c', hc, rfl⟩
      rw [Option.some.inj hc]
  have hunsaid : ∀ {fault : MappingFault}, (Except.error fault : Except MappingFault Item) =
      .ok item ↔ ∃ c', (none : Option Content) = some c' ∧
        item = c'.item sel.source sel.target := by
    intro fault
    constructor
    · exact fun h => by cases h
    · rintro ⟨c', hc, -⟩
      cases hc
  cases line with
  | none => exact hunsaid
  | some line =>
    rw [parseLine, contentOf?]
    by_cases hblank : isBlankLine line = true
    · rw [if_pos hblank, if_pos hblank]
      exact hsaid (c := .nothing)
    · rw [if_neg hblank, if_neg hblank]
      by_cases hcomment : line.toList.head? = some '#'
      · rw [if_pos hcomment, if_pos hcomment]
        cases Counters.parseLine line with
        | error fault => exact hunsaid
        | ok counter =>
          cases counter with
          | none => exact hsaid (c := .nothing)
          | some counter => exact hsaid (c := .counter counter.1 counter.2)
      · rw [if_neg hcomment, if_neg hcomment]
        cases Text.columns '\t' line with
        | nil => exact hsaid (c := .nothing)
        | cons first columns =>
          dsimp only
          cases kindOfTag? first with
          | none => exact hunsaid
          | some kind =>
            dsimp only
            by_cases hwhole : (⟨kind, columns⟩ : Row).isWhole sel.width = true
            · rw [if_pos hwhole, parseEntry_eq_ok_iff.2 ⟨hwhole, rfl⟩]
              exact hsaid (c := .symbol ⟨kind, columns⟩)
            · rw [if_neg hwhole]
              cases hparse : parseEntry sel number kind columns with
              | error fault => exact hunsaid
              | ok e => exact absurd (parseEntry_eq_ok_iff.1 hparse).1 hwhole

/-- The lines after the header are taken exactly if every one of them says something. -/
theorem mapM_parseLine_eq_ok_iff {sel : Selection} {body : List (Option String)} {number : Nat}
    {items : List Item} :
    (body.zipIdx number).mapM (parseLine sel) = .ok items ↔
      (∀ line ∈ body, (contentOf? sel.width line).isSome = true) ∧
        items = (body.filterMap (contentOf? sel.width)).map (·.item sel.source sel.target) := by
  induction body generalizing number items with
  | nil => exact ⟨fun h => ⟨by simp, (Except.ok.inj h).symm⟩, fun h => h.2 ▸ rfl⟩
  | cons line body ih =>
    rw [List.zipIdx_cons, List.mapM_cons, bind_eq_ok_iff, List.forall_mem_cons]
    simp only [bind_eq_ok_iff, parseLine_eq_ok_iff, ih]
    constructor
    · rintro ⟨item, ⟨c, hc, rfl⟩, items', ⟨hbody, rfl⟩, hitems⟩
      refine ⟨⟨by rw [hc]; rfl, hbody⟩, ?_⟩
      rw [List.filterMap_cons_some hc, List.map_cons]
      exact (Except.ok.inj hitems).symm
    · rintro ⟨⟨hline, hbody⟩, rfl⟩
      obtain ⟨c, hc⟩ := Option.isSome_iff_exists.1 hline
      rw [List.filterMap_cons_some hc, List.map_cons]
      exact ⟨_, ⟨c, hc, rfl⟩, _, ⟨hbody, rfl⟩, rfl⟩

/-! ## Files -/

/-- Whether lines are blank lines, a header and a body. -/
structure Layout (lines front : List (Option String)) (header : String)
    (body : List (Option String)) : Prop where
  /-- These are all lines. -/
  lines_eq : lines = front ++ some header :: body
  /-- Before the header there are only blank lines. -/
  front_blank : ∀ line ∈ front, ∃ s, line = some s ∧ isBlankLine s = true
  /-- The header is not blank. -/
  header_not_blank : isBlankLine header = false

/-- The header is found exactly if there is one. -/
theorem splitHeader_eq_ok_iff {lines : List (Option String)} {number : Nat} {header : String}
    {rest : List (Option String × Nat)} :
    splitHeader (lines.zipIdx number) = .ok (header, rest) ↔
      ∃ front body, Layout lines front header body ∧
        rest = body.zipIdx (number + front.length + 1) := by
  induction lines generalizing number with
  | nil =>
    constructor
    · exact fun h => by cases h
    · rintro ⟨front, body, h, -⟩
      exact absurd h.lines_eq (by simp)
  | cons line lines ih =>
    rw [List.zipIdx_cons]
    cases line with
    | none =>
      constructor
      · exact fun h => by cases h
      · rintro ⟨front, body, h, -⟩
        cases front with
        | nil => cases h.lines_eq
        | cons line front =>
          obtain ⟨s, rfl, -⟩ := h.front_blank line List.mem_cons_self
          cases h.lines_eq
    | some line =>
      -- a blank line stands before the header, and any other line is the header
      rw [splitHeader]
      split
      · rename_i hblank
        rw [ih]
        constructor
        · rintro ⟨front, body, h, rfl⟩
          refine ⟨some line :: front, body, ⟨?_, ?_, h.header_not_blank⟩, ?_⟩
          · rw [h.lines_eq, List.cons_append]
          · exact List.forall_mem_cons.2 ⟨⟨line, rfl, hblank⟩, h.front_blank⟩
          · rw [List.length_cons, Nat.add_right_comm number 1, ← Nat.add_assoc]
        · rintro ⟨front, body, h, rfl⟩
          cases front with
          | nil =>
            obtain ⟨hline, -⟩ := List.cons.inj h.lines_eq
            rw [Option.some.inj hline, h.header_not_blank] at hblank
            cases hblank
          | cons line' front =>
            obtain ⟨-, hlines⟩ := List.cons.inj h.lines_eq
            refine ⟨front, body, ⟨hlines, (List.forall_mem_cons.1 h.front_blank).2,
              h.header_not_blank⟩, ?_⟩
            rw [List.length_cons, Nat.add_right_comm number 1, ← Nat.add_assoc]
      · rename_i hblank
        constructor
        · intro h
          obtain ⟨rfl, rfl⟩ := Prod.mk.inj (Except.ok.inj h)
          exact ⟨[], lines, ⟨rfl, by simp, Bool.eq_false_iff.2 hblank⟩, rfl⟩
        · rintro ⟨front, body, h, rfl⟩
          cases front with
          | nil =>
            obtain ⟨hline, rfl⟩ := List.cons.inj h.lines_eq
            rw [Option.some.inj hline]
            rfl
          | cons line' front =>
            obtain ⟨s, rfl, hs⟩ := h.front_blank line' List.mem_cons_self
            obtain ⟨hline, -⟩ := List.cons.inj h.lines_eq
            rw [Option.some.inj hline] at hblank
            exact absurd hs hblank

/-- Whether a file has these namespaces, and these are the contents of the lines after its
header. -/
structure Says (lines : List (Option String)) (namespaces : List String)
    (contents : List Content) : Prop where
  /-- There is a header with the namespaces, and every line after it says something. -/
  exists_layout : ∃ front header body, Layout lines front header body ∧
    parseHeader header = .ok namespaces ∧
    (∀ line ∈ body, (contentOf? namespaces.length line).isSome = true) ∧
    contents = body.filterMap (contentOf? namespaces.length)

/-- The rows of a file. -/
def rowsIn (contents : List Content) : List Row := contents.filterMap Content.row?

/-- The symbols of a file between two of its namespaces. -/
def entriesIn (contents : List Content) (i j : Nat) : List Entry :=
  (rowsIn contents).map (·.entry i j)

/-- The counters of a file. -/
def countersIn (contents : List Content) : Counters := countersOf (contents.map (·.item 0 0))

theorem entriesOf_map_item (contents : List Content) (i j : Nat) :
    entriesOf (contents.map (·.item i j)) = entriesIn contents i j := by
  rw [entriesOf, entriesIn, rowsIn, List.filterMap_map, List.map_filterMap]
  refine List.filterMap_congr fun c _ => ?_
  cases c <;> rfl

/-- Counters do not depend on the namespaces that are asked for. -/
theorem countersOf_map_item (contents : List Content) (i j : Nat) :
    countersOf (contents.map (·.item i j)) = countersIn contents := by
  rw [countersIn, countersOf, countersOf, List.foldl_map, List.foldl_map]
  congr 1
  funext counters c
  cases c <;> rfl

/-- A file is read between two namespaces exactly if it has both, every line after the header says
something, and the rows enter no symbol twice. -/
theorem readLines_eq_ok_iff {lines : List (Option String)} {source target : String}
    {t : MappingTable} :
    readLines lines source target = .ok t ↔
      ∃ namespaces contents i j, Says lines namespaces contents ∧
        namespaceIndex namespaces source = .ok i ∧ namespaceIndex namespaces target = .ok j ∧
        Tabulates source target (countersIn contents) (entriesIn contents i j) t := by
  rw [readLines]
  simp only [bind_eq_ok_iff, Prod.exists, splitHeader_eq_ok_iff]
  constructor
  · rintro ⟨header, rest, ⟨front, body, hlayout, rfl⟩, namespaces, hheader, i, hi, j, hj, items,
      hitems, htable⟩
    obtain ⟨hsome, rfl⟩ := mapM_parseLine_eq_ok_iff.1 hitems
    rw [entriesOf_map_item, countersOf_map_item] at htable
    exact ⟨namespaces, _, i, j, ⟨front, header, body, hlayout, hheader, hsome, rfl⟩, hi, hj,
      tableOf_eq_ok_iff.1 htable⟩
  · rintro ⟨namespaces, contents, i, j,
      ⟨front, header, body, hlayout, hheader, hsome, rfl⟩, hi, hj, htable⟩
    refine ⟨header, _, ⟨front, body, hlayout, rfl⟩, namespaces, hheader, i, hi, j, hj, _,
      mapM_parseLine_eq_ok_iff.2 ⟨hsome, rfl⟩, ?_⟩
    rw [entriesOf_map_item, countersOf_map_item]
    exact tableOf_eq_ok_iff.2 htable

/-- A file has one header and one body. -/
theorem Layout.unique {lines front front' body body' : List (Option String)}
    {header header' : String} (h : Layout lines front header body)
    (h' : Layout lines front' header' body') :
    front = front' ∧ header = header' ∧ body = body' := by
  have hsplit : splitHeader (lines.zipIdx 0) = .ok (header, body.zipIdx (0 + front.length + 1)) :=
    splitHeader_eq_ok_iff.2 ⟨front, body, h, rfl⟩
  rw [splitHeader_eq_ok_iff.2 ⟨front', body', h', rfl⟩] at hsplit
  obtain ⟨rfl, hrest⟩ := Prod.mk.inj (Except.ok.inj hsplit)
  have hbody := congrArg (List.map Prod.fst) hrest
  rw [List.zipIdx_map_fst, List.zipIdx_map_fst] at hbody
  obtain rfl := hbody
  exact ⟨List.append_cancel_right (h.lines_eq.symm.trans h'.lines_eq), rfl, rfl⟩

/-- What a file says is what the lines after its header say. -/
theorem Says.of_layout {lines front body : List (Option String)} {header : String}
    {namespaces : List String} {contents : List Content} (h : Says lines namespaces contents)
    (hlayout : Layout lines front header body) :
    parseHeader header = .ok namespaces ∧
      (∀ line ∈ body, (contentOf? namespaces.length line).isSome = true) ∧
      contents = body.filterMap (contentOf? namespaces.length) := by
  obtain ⟨front', header', body', hlayout', h⟩ := h
  obtain ⟨-, rfl, rfl⟩ := hlayout.unique hlayout'
  exact h

/-- A file has one list of namespaces and says one thing. -/
theorem Says.unique {lines : List (Option String)} {namespaces namespaces' : List String}
    {contents contents' : List Content} (h : Says lines namespaces contents)
    (h' : Says lines namespaces' contents') : namespaces = namespaces' ∧ contents = contents' := by
  obtain ⟨front, header, body, hlayout, hheader, -, rfl⟩ := h
  obtain ⟨hheader', -, rfl⟩ := h'.of_layout hlayout
  obtain rfl := Except.ok.inj (hheader.symm.trans hheader')
  exact ⟨rfl, rfl⟩

/-! ## The table of rows -/

variable {contents : List Content} {a b : String} {i j : Nat} {counters : Counters}
  {t : MappingTable}

/-- The classes of the first namespace in terms of another one. -/
def namesIn (contents : List Content) (i : Nat) : Dictionary String String :=
  .ofList ((rowsIn contents).filterMap fun r =>
    if r.kind = .type then some (r.name 0, r.known i) else none)

/-- What a member is called in a namespace. -/
def refOf (contents : List Content) (i : Nat) (r : Row) : MemberRef :=
  refIn (namesIn contents i) r.owner r.desc (r.known i)

/-- The rows of a kind of symbol that have a name in the target namespace, without which they enter
nothing. -/
def enteredIn (contents : List Content) (j : Nat) (kind : SymbolKind) : List Row :=
  (rowsIn contents).filter fun r => r.kind = kind ∧ r.name j ≠ ""

theorem Row.known_of_ne_empty {r : Row} (h : r.name j ≠ "") : r.known j = r.name j := if_neg h

theorem sourceNames_entriesIn (contents : List Content) (i j : Nat) :
    sourceNames (entriesIn contents i j) = namesIn contents i := by
  rw [sourceNames, classNames, entriesIn, List.filterMap_map, namesIn]
  refine congrArg Dictionary.ofList (List.filterMap_congr fun r _ => ?_)
  obtain ⟨kind, columns⟩ := r
  cases kind <;> rfl

theorem targetNames_entriesIn (contents : List Content) (i j : Nat) :
    targetNames (entriesIn contents i j) = namesIn contents j := by
  rw [targetNames, classNames, entriesIn, List.filterMap_map, namesIn]
  refine congrArg Dictionary.ofList (List.filterMap_congr fun r _ => ?_)
  obtain ⟨kind, columns⟩ := r
  cases kind <;> rfl

/-- The rows of classes enter what the classes are known as. -/
theorem filterMap_classPair?_entriesIn (contents : List Content) (i j : Nat) :
    (entriesIn contents i j).filterMap classPair? =
      (enteredIn contents j .type).map fun r => (r.known i, r.known j) := by
  rw [entriesIn, enteredIn, List.filterMap_map, ← List.filterMap_eq_map, List.filterMap_filter]
  refine List.filterMap_congr fun r _ => ?_
  rw [Function.comp_apply, Function.comp_apply]
  by_cases hname : r.name j = ""
  · rw [if_neg (by simp [hname]), Row.entry]
    split
    · exact if_pos hname
    · rfl
    · rfl
  · rw [Row.known_of_ne_empty hname, Row.entry]
    split
    · rename_i hkind
      rw [if_pos (by simp [hkind, hname])]
      exact if_neg hname
    · rename_i hkind
      rw [if_neg (by simp [hkind])]
      rfl
    · rename_i hkind
      rw [if_neg (by simp [hkind])]
      rfl

/-- The rows of members enter their references. -/
theorem filterMap_memberPair?_entriesIn (contents : List Content) (i j : Nat) (kind : MemberKind) :
    (entriesIn contents i j).filterMap
        (memberPair? (namesIn contents i) (namesIn contents j) kind) =
      (enteredIn contents j kind.symbol).map fun r => (refOf contents i r, refOf contents j r) := by
  rw [entriesIn, enteredIn, List.filterMap_map, ← List.filterMap_eq_map, List.filterMap_filter]
  refine List.filterMap_congr fun r _ => ?_
  rw [Function.comp_apply, Function.comp_apply]
  have hmember : ∀ kind' : MemberKind, r.kind = kind'.symbol →
      memberPair? (namesIn contents i) (namesIn contents j) kind
        (.memberLine kind' r.owner r.desc (r.known i) (r.name j)) =
          if decide (r.kind = kind.symbol ∧ r.name j ≠ "") = true then
            some (refOf contents i r, refOf contents j r) else none := by
    intro kind' hkind'
    have hsymbol : r.kind = kind.symbol ↔ kind = kind' := by
      rw [hkind']
      cases kind <;> cases kind' <;> decide
    simp only [memberPair?, decide_eq_true_eq, hsymbol]
    by_cases hname : r.name j = ""
    · rw [if_neg fun h => h.1 hname, if_neg fun h => h.2 hname]
    · rw [refOf, refOf, Row.known_of_ne_empty hname]
      exact if_congr and_comm rfl rfl
  rw [Row.entry]
  split
  · rename_i hkind
    rw [if_neg (by cases kind <;> simp [hkind, MemberKind.symbol])]
    rfl
  · rename_i hkind
    exact hmember .field hkind
  · rename_i hkind
    exact hmember .method hkind

/-- The classes of a table are those of the rows. -/
theorem Tabulates.classes_eq_map (h : Tabulates a b counters (entriesIn contents i j) t) :
    t.classes.entries = (enteredIn contents j .type).map fun r => (r.known i, r.known j) := by
  rw [h.classes_eq, filterMap_classPair?_entriesIn]

/-- The members of a table are those of the rows. -/
theorem Tabulates.members_eq_map (h : Tabulates a b counters (entriesIn contents i j) t)
    (kind : MemberKind) :
    (t.members kind).entries =
      (enteredIn contents j kind.symbol).map fun r => (refOf contents i r, refOf contents j r) := by
  rw [h.members_eq, sourceNames_entriesIn, targetNames_entriesIn, filterMap_memberPair?_entriesIn]

/-- What an entered member is called in the source namespace is answered with what it is called in
the target namespace. -/
theorem Tabulates.memberTarget?_refOf (h : Tabulates a b counters (entriesIn contents i j) t)
    {kind : MemberKind} {r : Row} (hr : r ∈ enteredIn contents j kind.symbol) :
    t.memberTarget? kind (refOf contents i r) = some (refOf contents j r) := by
  rw [MappingTable.memberTarget?_of_not_identity h.identity_eq, Dictionary.find?_eq_some_iff,
    h.members_eq_map]
  exact List.mem_map.2 ⟨r, hr, rfl⟩

/-- The members that a table knows are what entered members are called in the source namespace. -/
theorem Tabulates.keys_members_eq (h : Tabulates a b counters (entriesIn contents i j) t)
    (kind : MemberKind) :
    (t.members kind).keys = (enteredIn contents j kind.symbol).map (refOf contents i) := by
  rw [Dictionary.keys, h.members_eq_map, List.map_map]
  rfl

/-- There is a table of rows exactly if no two classes are known as one, and no two members of one
kind have one reference. -/
theorem exists_tabulates_entriesIn_iff :
    (∃ t, Tabulates a b counters (entriesIn contents i j) t) ↔
      ((enteredIn contents j .type).map (·.known i)).Nodup ∧
        ∀ kind : MemberKind, ((enteredIn contents j kind.symbol).map (refOf contents i)).Nodup := by
  rw [exists_tabulates_iff, sourceNames_entriesIn, targetNames_entriesIn,
    filterMap_classPair?_entriesIn, List.map_map]
  simp only [filterMap_memberPair?_entriesIn, List.map_map]
  exact Iff.rfl

end StableNaming.Tiny
