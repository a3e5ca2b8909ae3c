import Mathlib.Data.List.Forall2
import StableNaming.Mapping.Tiny
import StableNaming.Proofs.Mapping.CounterFile
import StableNaming.Proofs.Text.Utf8

/-!
# Reading written symbols

A mapping file is written line by line, and every line is read back as what it was
written for, as long as the texts in its columns hold no separators, the last of them
does not end in what a line end would swallow, and the descriptors are descriptors.
-/

namespace StableNaming

open Text

/-- Whether a text can stand in a column. -/
def Tiny.Plain (text : String) : Prop := ∀ c ∈ text.toList, c ≠ '\t' ∧ c ≠ '\n'

instance (text : String) : Decidable (Tiny.Plain text) :=
  List.decidableBAll (fun c => c ≠ '\t' ∧ c ≠ '\n') text.toList

/-- Whether a text can stand in the last column of a symbol, as the name given to it. -/
structure Tiny.PlainTarget (text : String) : Prop where
  /-- The text holds no separators. -/
  plain : Tiny.Plain text
  /-- An empty column would mean that there is no name. -/
  ne_empty : text ≠ ""
  /-- A carriage return at the end would belong to the line end. -/
  getLast?_ne : text.toList.getLast? ≠ some '\r'

instance (text : String) : Decidable (Tiny.PlainTarget text) :=
  decidable_of_iff (Tiny.Plain text ∧ text ≠ "" ∧ text.toList.getLast? ≠ some '\r')
    ⟨fun h => ⟨h.1, h.2.1, h.2.2⟩, fun h => ⟨h.plain, h.ne_empty, h.getLast?_ne⟩⟩

/-- The check of a descriptor for one kind of members. -/
def Tiny.checkDescriptor : MemberKind → String → Except Descriptor.Fault Unit
  | .field => Descriptor.checkField
  | .method => Descriptor.checkMethod

namespace MappingSet

/-- Whether the line of a member is read back. -/
structure WritableMember (kind : MemberKind) (m : MemberEntry) : Prop where
  /-- The name can stand in a column. -/
  name : Tiny.Plain m.key.name
  /-- The descriptor can stand in a column. -/
  desc : Tiny.Plain m.key.desc
  /-- The descriptor is one. -/
  check_eq : Tiny.checkDescriptor kind m.key.desc = .ok ()
  /-- The name given to the member can stand in the last column. -/
  target : Tiny.PlainTarget m.target

instance (kind : MemberKind) (m : MemberEntry) : Decidable (WritableMember kind m) :=
  decidable_of_iff (Tiny.Plain m.key.name ∧ Tiny.Plain m.key.desc ∧
      (Tiny.checkDescriptor kind m.key.desc).isOk = true ∧ Tiny.PlainTarget m.target) <| by
    have hok : (Tiny.checkDescriptor kind m.key.desc).isOk = true ↔
        Tiny.checkDescriptor kind m.key.desc = .ok () := by
      cases Tiny.checkDescriptor kind m.key.desc <;> simp [Except.isOk, Except.toBool]
    rw [hok]
    exact ⟨fun h => ⟨h.1, h.2.1, h.2.2.1, h.2.2.2⟩, fun h => ⟨h.name, h.desc, h.check_eq, h.target⟩⟩

/-- Whether the lines of a class and its members are read back. -/
structure WritableClass (entry : ClassEntry) : Prop where
  /-- The name can stand in a column. -/
  name : Tiny.Plain entry.name
  /-- The name given to the class can stand in the last column. -/
  target : Tiny.PlainTarget entry.target
  /-- The lines of its fields are read back. -/
  fields : ∀ m ∈ entry.fields, WritableMember .field m
  /-- The lines of its methods are read back. -/
  methods : ∀ m ∈ entry.methods, WritableMember .method m

instance (entry : ClassEntry) : Decidable (WritableClass entry) :=
  decidable_of_iff (Tiny.Plain entry.name ∧ Tiny.PlainTarget entry.target ∧
      (∀ m ∈ entry.fields, WritableMember .field m) ∧ ∀ m ∈ entry.methods, WritableMember .method m)
    ⟨fun h => ⟨h.1, h.2.1, h.2.2.1, h.2.2.2⟩, fun h => ⟨h.name, h.target, h.fields, h.methods⟩⟩

/-- Whether all lines of a set are read back. -/
structure Writable (s : MappingSet) : Prop where
  /-- The namespaces are two. -/
  source_ne_target : s.source ≠ s.target
  /-- The first namespace can stand in a column. -/
  source : Tiny.Plain s.source
  /-- The second namespace can stand in a column. -/
  target : Tiny.Plain s.target
  /-- The second namespace is not empty and does not end in white space. -/
  exists_last : ∃ c, s.target.toList.getLast? = some c ∧ isBlank c = false
  /-- The lines of the classes and members are read back. -/
  classes : ∀ entry ∈ s.classes, WritableClass entry

end MappingSet

namespace Tiny

/-! ## The lines of a set -/

/-- What the line of a member is read as. -/
def memberLineOf (kind : MemberKind) (owner : String) (m : MemberEntry) : Entry :=
  .memberLine kind owner m.key.desc m.key.name m.target

/-- What the lines of a class and its members are read as. -/
def entriesOfClass (entry : ClassEntry) : List Entry :=
  .classLine entry.name entry.name entry.target ::
    (entry.fields.map (memberLineOf .field entry.name) ++
      entry.methods.map (memberLineOf .method entry.name))

/-- What the lines of a set are read as. -/
def itemsOf (s : MappingSet) : List Item :=
  SymbolKind.all.map (fun kind => .counter kind (s.counters.word kind)) ++
    (s.classes.flatMap entriesOfClass).map .entry

/-- The columns of a symbol between the first namespace and the second. -/
def Entry.columns : Entry → List String
  | .classLine base _ target => [tag .type, base, target]
  | .memberLine kind owner desc source target => [tag kind.symbol, owner, desc, source, target]

/-- The header of a set, without its line end. -/
def headerOf (s : MappingSet) : String := "\t".intercalate [version, s.source, s.target]

/-- The lines of a set after the header, without their line ends. -/
def bodyOf (s : MappingSet) : List String :=
  s.counters.lines ++
    (s.classes.flatMap entriesOfClass).map fun e => "\t".intercalate e.columns

/-- A file is its header and the other lines, each with a line end. -/
theorem write_eq_join (s : MappingSet) :
    write s = String.join ((headerOf s :: bodyOf s).map (· ++ "\n")) := by
  have hrows : ∀ entry : ClassEntry, classRows entry =
      (entriesOfClass entry).map fun e => "\t".intercalate e.columns ++ "\n" := by
    intro entry
    rw [classRows, entriesOfClass, List.map_cons, List.map_append, List.map_map, List.map_map]
    rfl
  have hclasses : s.classes.flatMap classRows =
      ((s.classes.flatMap entriesOfClass).map fun e => "\t".intercalate e.columns).map
        (· ++ "\n") := by
    rw [List.map_map, List.map_flatMap]
    exact congrArg (List.flatMap · s.classes) (funext hrows)
  rw [write, hclasses, List.map_cons, bodyOf, List.map_append]
  rfl

/-! ## Reading a line -/

theorem Plain.not_mem_tab {text : String} (h : Plain text) : '\t' ∉ text.toList :=
  fun hmem => (h _ hmem).1 rfl

theorem plain_tag (kind : SymbolKind) : Plain (tag kind) := by
  cases kind <;> decide

theorem tag_ne_empty (kind : SymbolKind) : tag kind ≠ "" := by cases kind <;> decide

theorem plain_version : Plain version := by decide

/-- Whether a class has one name in the first namespace and in the source, and a member a
descriptor. -/
def Entry.Formed : Entry → Prop
  | .classLine base source _ => source = base
  | .memberLine kind _ desc _ _ => checkDescriptor kind desc = .ok ()

/-- Whether the line of a symbol is read back. -/
structure Entry.Readable (e : Entry) : Prop where
  /-- Every text can stand in a column. -/
  plain : ∀ col ∈ e.columns, Plain col
  /-- The last text can stand in the last column. -/
  last : ∃ col, e.columns.getLast? = some col ∧ PlainTarget col
  /-- The columns are those of a symbol. -/
  formed : e.Formed

/-- What is written for a set can be read back. -/
theorem readable_of_writable {s : MappingSet} (h : s.Writable) {e : Entry}
    (he : e ∈ s.classes.flatMap entriesOfClass) : e.Readable := by
  obtain ⟨entry, hentry, he⟩ := List.mem_flatMap.1 he
  have hclass := h.classes entry hentry
  rcases List.mem_cons.1 he with rfl | he
  · refine ⟨?_, ⟨entry.target, rfl, hclass.target⟩, rfl⟩
    rintro col (_ | ⟨_, _ | ⟨_, _ | ⟨_, ⟨⟩⟩⟩⟩)
    · exact plain_tag _
    · exact hclass.name
    · exact hclass.target.plain
  · have hmember : ∀ {kind} {m : MemberEntry}, MappingSet.WritableMember kind m →
        ∀ col ∈ (memberLineOf kind entry.name m).columns, Plain col := by
      rintro kind m hm col (_ | ⟨_, _ | ⟨_, _ | ⟨_, _ | ⟨_, _ | ⟨_, ⟨⟩⟩⟩⟩⟩⟩)
      · exact plain_tag _
      · exact hclass.name
      · exact hm.desc
      · exact hm.name
      · exact hm.target.plain
    rcases List.mem_append.1 he with he | he
    · obtain ⟨m, hm, rfl⟩ := List.mem_map.1 he
      have hwritable := hclass.fields m hm
      exact ⟨hmember hwritable, ⟨m.target, rfl, hwritable.target⟩, hwritable.check_eq⟩
    · obtain ⟨m, hm, rfl⟩ := List.mem_map.1 he
      have hwritable := hclass.methods m hm
      exact ⟨hmember hwritable, ⟨m.target, rfl, hwritable.target⟩, hwritable.check_eq⟩

/-- The columns to which a set is written, read from the first namespace to the second. -/
def written : Selection := ⟨2, 0, 1⟩

theorem kindOfTag?_tag (kind : SymbolKind) : kindOfTag? (tag kind) = some kind := by
  cases kind <;> decide

/-- The name in the first namespace is also the one that stands in for it. -/
theorem orBase_self (name : String) : orBase name name = name := ite_self name

/-- The columns of a class are taken as they stand. -/
theorem parseEntry_class (number : Nat) (source target : String) :
    parseEntry written number .type [source, target] =
      .ok (.classLine source (orBase source source) target) := rfl

/-- The columns of a member are taken as they stand if the second one is a descriptor. -/
theorem parseEntry_member (number : Nat) (kind : MemberKind) (owner desc source target : String) :
    parseEntry written number kind.symbol [owner, desc, source, target] =
      match checkDescriptor kind desc with
      | .ok () => .ok (.memberLine kind owner desc (orBase source source) target)
      | .error fault => .error (.malformed number (.descriptor desc fault)) := by
  cases kind <;> rfl

/-- The columns of a symbol are read back. -/
theorem exists_parseEntry {e : Entry} (h : e.Readable) (number : Nat) :
    ∃ kind columns, e.columns = tag kind :: columns ∧
      parseEntry written number kind columns = .ok e := by
  have hformed := h.formed
  cases e with
  | classLine base source target =>
    obtain rfl : source = base := hformed
    refine ⟨.type, [source, target], rfl, ?_⟩
    rw [parseEntry_class, orBase_self]
  | memberLine kind owner desc source target =>
    have hcheck : checkDescriptor kind desc = .ok () := hformed
    refine ⟨kind.symbol, [owner, desc, source, target], rfl, ?_⟩
    rw [parseEntry_member, hcheck, orBase_self]

/-- The line of a symbol is read back. -/
theorem parseLine_columns {e : Entry} (h : e.Readable) (number : Nat) :
    parseLine written (some ("\t".intercalate e.columns), number) = .ok (.entry e) := by
  obtain ⟨kind, columns, hcolumns, hparse⟩ := exists_parseEntry h number
  have hstart : ("\t".intercalate e.columns).toList.head? = (tag kind).toList.head? := by
    rw [hcolumns]
    exact head?_intercalate (tag_ne_empty kind)
  have hblank : isBlankLine ("\t".intercalate e.columns) = false := by
    cases kind <;> exact isBlankLine_of_head? hstart (by decide)
  have hcomment : ("\t".intercalate e.columns).toList.head? ≠ some '#' := by
    rw [hstart]
    cases kind <;> decide
  have hsplit : Text.columns '\t' ("\t".intercalate e.columns) = tag kind :: columns := by
    rw [columns_intercalate (by rw [hcolumns]; simp) fun col hcol => (h.plain col hcol).not_mem_tab,
      hcolumns]
  rw [parseLine, if_neg (by simp [hblank]), if_neg hcomment, hsplit]
  dsimp only
  rw [kindOfTag?_tag]
  dsimp only
  rw [hparse]
  rfl

/-- The line of a counter is read back. -/
theorem parseLine_counter (c : Counters) (kind : SymbolKind) (number : Nat) :
    parseLine written (some (c.line kind), number) = .ok (.counter kind (c.word kind)) := by
  have hstart : (c.line kind).toList.head? = some '#' := by
    rw [Counters.line, String.append_assoc, String.append_assoc, String.toList_append]
    rfl
  rw [parseLine, if_neg (by simp [isBlankLine_of_head? hstart (by decide)]), if_pos hstart,
    Counters.parseLine_line]
  rfl

/-- Lines that are read as what they were written for are so read one after the other. -/
theorem mapM_parseLine {sel : Selection} {ls : List String} {items : List Item}
    (h : List.Forall₂ (fun l item => ∀ number, parseLine sel (some l, number) = .ok item) ls items)
    (number : Nat) : ((ls.map some).zipIdx number).mapM (parseLine sel) = .ok items := by
  induction h generalizing number with
  | nil => rfl
  | cons hline _ ih =>
    rw [List.map_cons, List.zipIdx_cons, List.mapM_cons, hline, ih]
    rfl

/-- The lines after the header are read back. -/
theorem forall₂_bodyOf {s : MappingSet} (h : s.Writable) :
    List.Forall₂ (fun l item => ∀ number, parseLine written (some l, number) = .ok item)
      (bodyOf s) (itemsOf s) := by
  refine List.rel_append ?_ ?_
  · rw [Counters.lines, List.forall₂_map_left_iff, List.forall₂_map_right_iff, List.forall₂_same]
    exact fun kind _ number => parseLine_counter s.counters kind number
  · rw [List.forall₂_map_left_iff, List.forall₂_map_right_iff, List.forall₂_same]
    exact fun e he number => parseLine_columns (readable_of_writable h he) number

/-! ## Reading the file -/

/-- No line is cut short by its line end. -/
theorem whole_lines {s : MappingSet} (h : s.Writable) {l : String}
    (hl : l ∈ headerOf s :: bodyOf s) :
    '\n' ∉ l.toList ∧ l.toList.getLast? ≠ some '\r' := by
  have hrow : ∀ {cols : List String} (col : String), (∀ col ∈ cols, Plain col) →
      cols.getLast? = some col → col ≠ "" → col.toList.getLast? ≠ some '\r' →
        '\n' ∉ ("\t".intercalate cols).toList ∧
          ("\t".intercalate cols).toList.getLast? ≠ some '\r' := by
    intro cols col hplain hlast hne hend
    rw [getLast?_intercalate hne hlast]
    refine ⟨fun hfeed => ?_, hend⟩
    obtain hbad | ⟨col', hcol', hmem⟩ := mem_intercalate hfeed
    · exact absurd hbad (by decide)
    · exact (hplain col' hcol' _ hmem).2 rfl
  rcases List.mem_cons.1 hl with rfl | hl
  · obtain ⟨c, hc, hblank⟩ := h.exists_last
    refine hrow s.target ?_ rfl (fun hempty => ?_) fun hend => ?_
    · rintro col (_ | ⟨_, _ | ⟨_, _ | ⟨_, ⟨⟩⟩⟩⟩)
      · exact plain_version
      · exact h.source
      · exact h.target
    · rw [hempty] at hc
      cases hc
    · rw [hend, Option.some_inj] at hc
      rw [← hc] at hblank
      exact absurd hblank (by decide)
  · rcases List.mem_append.1 hl with hl | hl
    · obtain ⟨kind, -, rfl⟩ := List.mem_map.1 hl
      obtain ⟨hfeed, hcarriage⟩ := s.counters.not_mem_line kind
      exact ⟨hfeed, fun hlast => hcarriage (List.mem_of_getLast? hlast)⟩
    · obtain ⟨e, he, rfl⟩ := List.mem_map.1 hl
      obtain ⟨hplain, ⟨col, hlast, htarget⟩, -⟩ := readable_of_writable h he
      exact hrow col hplain hlast htarget.ne_empty htarget.getLast?_ne

/-- The header is read back. -/
theorem parseHeader_headerOf {s : MappingSet} (h : s.Writable) :
    parseHeader (headerOf s) = .ok [s.source, s.target] := by
  obtain ⟨c, hc, hblank⟩ := h.exists_last
  have hne : s.target ≠ "" := by
    rintro hempty
    rw [hempty] at hc
    cases hc
  have htrim : trimEnd (headerOf s) = headerOf s := by
    refine trimEnd_of_getLast? fun c' hc' => ?_
    rw [headerOf, getLast?_intercalate hne rfl, hc, Option.mem_some_iff] at hc'
    exact hc' ▸ hblank
  have hsplit : columns '\t' (headerOf s) = [version, s.source, s.target] := by
    refine columns_intercalate (by simp) ?_
    rintro col (_ | ⟨_, _ | ⟨_, _ | ⟨_, ⟨⟩⟩⟩⟩)
    · exact plain_version.not_mem_tab
    · exact h.source.not_mem_tab
    · exact h.target.not_mem_tab
  rw [parseHeader, htrim, hsplit]
  rfl

/-- A written set is read as the table of what its lines say. -/
theorem read_write_eq_tableOf {s : MappingSet} (h : s.Writable) :
    read s.source s.target (encodeUtf8 (write s)) =
      tableOf s.source s.target (countersOf (itemsOf s)) (entriesOf (itemsOf s)) := by
  have hlines : fileLines (encodeUtf8 (write s)) = (headerOf s :: bodyOf s).map some := by
    rw [fileLines_encodeUtf8, write_eq_join, lines_join fun l hl => whole_lines h hl]
  have hheader : isBlankLine (headerOf s) = false :=
    isBlankLine_of_head? (c := 'v') (head?_intercalate (by decide)) (by decide)
  have hsplit : splitHeader (((headerOf s :: bodyOf s).map some).zipIdx 1) =
      .ok (headerOf s, ((bodyOf s).map some).zipIdx 2) := by
    rw [List.map_cons, List.zipIdx_cons, splitHeader, if_neg (by simp [hheader])]
  have hsource : namespaceIndex [s.source, s.target] s.source = .ok 0 := by
    simp [namespaceIndex, List.idxOf?_cons]
  have htarget : namespaceIndex [s.source, s.target] s.target = .ok 1 := by
    simp [namespaceIndex, List.idxOf?_cons, h.source_ne_target]
  have hbody := mapM_parseLine (forall₂_bodyOf h) 2
  rw [read, hlines, readLines, hsplit]
  dsimp only [bind, Except.bind]
  rw [parseHeader_headerOf h]
  dsimp only
  rw [hsource]
  dsimp only
  rw [htarget]
  dsimp only
  rw [show (⟨[s.source, s.target].length, 0, 1⟩ : Selection) = written from rfl, hbody]

/-- The symbols of a written set. -/
theorem entriesOf_itemsOf (s : MappingSet) :
    entriesOf (itemsOf s) = s.classes.flatMap entriesOfClass := by
  rw [entriesOf, itemsOf, List.filterMap_append, List.filterMap_map, List.filterMap_map]
  exact List.filterMap_some

/-- The counters of a written set. -/
theorem countersOf_itemsOf (s : MappingSet) :
    countersOf (itemsOf s) = Counters.merge {} s.counters := by
  rw [countersOf, itemsOf, List.foldl_append, List.foldl_map, List.foldl_map]
  exact List.foldl_fixed _

end Tiny

end StableNaming
