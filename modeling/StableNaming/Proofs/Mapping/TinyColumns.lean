import StableNaming.Proofs.Mapping.TinyRows
import StableNaming.Proofs.Text.Utf8

/-!
# Columns of one file

Every namespace of a file has its own names for the classes of the first namespace, and with them
for the owners and descriptors of members. So a row has one reference in each namespace, the tables
between two namespaces pair the references of the rows, and tables that share a namespace in which
all names are given compose.
-/

namespace StableNaming.Tiny

open MappingTable Text

variable {contents : List Content} {a b c : String} {i j k : Nat} {counters : Counters}
  {t : MappingTable}

/-! ## Tables of columns -/

/-- The rows of one kind of symbol. -/
def rowsOf (contents : List Content) (kind : SymbolKind) : List Row :=
  (rowsIn contents).filter (·.kind = kind)

/-- Whether every symbol of a file has a name in a namespace. -/
def NamesAll (lines : List (Option String)) (target : String) : Prop :=
  ∀ namespaces contents j, Says lines namespaces contents →
    namespaceIndex namespaces target = .ok j → ∀ r ∈ rowsIn contents, r.name j ≠ ""

/-- What a file says decides where it names every symbol. -/
theorem Says.namesAll {lines : List (Option String)} {namespaces : List String}
    (h : Says lines namespaces contents) (hj : namespaceIndex namespaces b = .ok j)
    (hnames : ∀ r ∈ rowsIn contents, r.name j ≠ "") : NamesAll lines b := by
  intro namespaces' contents' j' h' hj'
  obtain ⟨rfl, rfl⟩ := h.unique h'
  obtain rfl : j = j' := Except.ok.inj (hj.symm.trans hj')
  exact hnames

/-- Where all names are given, every row enters something. -/
theorem enteredIn_eq_rowsOf (hj : ∀ r ∈ rowsIn contents, r.name j ≠ "") (kind : SymbolKind) :
    enteredIn contents j kind = rowsOf contents kind := by
  rw [enteredIn, rowsOf]
  refine List.filter_congr fun r hr => ?_
  rw [decide_eq_decide, and_iff_left (hj r hr)]

/-- Whether a table pairs what the rows of a file are called in two of its namespaces. -/
structure OfColumns (contents : List Content) (i j : Nat) (t : MappingTable) : Prop where
  /-- The table answers from its entries. -/
  identity_eq : t.identity = false
  /-- The classes are those of the rows. -/
  classes_eq : t.classes.entries = (rowsOf contents .type).map fun r => (r.known i, r.known j)
  /-- The members are those of the rows. -/
  members_eq : ∀ kind, (t.members kind).entries =
    (rowsOf contents kind.symbol).map fun r => (refOf contents i r, refOf contents j r)

/-- Where all names are given, a file is read as the pairs of two columns. -/
theorem Tabulates.ofColumns (h : Tabulates a b counters (entriesIn contents i j) t)
    (hj : ∀ r ∈ rowsIn contents, r.name j ≠ "") : OfColumns contents i j t where
  identity_eq := h.identity_eq
  classes_eq := by rw [h.classes_eq_map, enteredIn_eq_rowsOf hj]
  members_eq kind := by rw [h.members_eq_map, enteredIn_eq_rowsOf hj]

namespace OfColumns

variable {ab bc ac : MappingTable}

theorem keys_classes_eq (h : OfColumns contents i j t) :
    t.classes.keys = (rowsOf contents .type).map (·.known i) := by
  rw [Dictionary.keys, h.classes_eq, List.map_map]
  rfl

theorem keys_members_eq (h : OfColumns contents i j t) (kind : MemberKind) :
    (t.members kind).keys = (rowsOf contents kind.symbol).map (refOf contents i) := by
  rw [Dictionary.keys, h.members_eq, List.map_map]
  rfl

/-- No two classes are known as one. -/
theorem nodup_classes (h : OfColumns contents i j t) :
    ((rowsOf contents .type).map (·.known i)).Nodup := h.keys_classes_eq ▸ t.classes.nodup

/-- No two members of a kind have one reference. -/
theorem nodup_members (h : OfColumns contents i j t) (kind : MemberKind) :
    ((rowsOf contents kind.symbol).map (refOf contents i)).Nodup :=
  h.keys_members_eq kind ▸ (t.members kind).nodup

theorem classTarget?_eq (h : OfColumns contents i j t) (name : String) :
    t.classTarget? name =
      Pairs.lookup name ((rowsOf contents .type).map fun r => (r.known i, r.known j)) := by
  rw [classTarget?_of_not_identity h.identity_eq, Dictionary.find?, h.classes_eq]

theorem memberTarget?_eq (h : OfColumns contents i j t) (kind : MemberKind) (ref : MemberRef) :
    t.memberTarget? kind ref = Pairs.lookup ref
      ((rowsOf contents kind.symbol).map fun r => (refOf contents i r, refOf contents j r)) := by
  rw [memberTarget?_of_not_identity h.identity_eq, Dictionary.find?, h.members_eq]

/-- A file that is read from one namespace is read from there to every namespace in which all names
are given. -/
theorem exists_tabulates (h : OfColumns contents i j t)
    (hk : ∀ r ∈ rowsIn contents, r.name k ≠ "") (a c : String) (counters : Counters) :
    ∃ t', Tabulates a c counters (entriesIn contents i k) t' := by
  refine exists_tabulates_entriesIn_iff.2 ⟨?_, fun kind => ?_⟩
  · rw [enteredIn_eq_rowsOf hk]
    exact h.nodup_classes
  · rw [enteredIn_eq_rowsOf hk]
    exact h.nodup_members kind

/-- The classes of two tables that share a namespace compose. -/
theorem classTarget?_comp (hab : OfColumns contents i j ab) (hbc : OfColumns contents j k bc)
    (hac : OfColumns contents i k ac) (name : String) :
    ac.classTarget? name = (ab.classTarget? name).bind bc.classTarget? := by
  rw [hac.classTarget?_eq, hab.classTarget?_eq, funext hbc.classTarget?_eq]
  exact (Pairs.lookup_bind_lookup (·.known k) hbc.nodup_classes name).symm

/-- The members of two tables that share a namespace compose. -/
theorem memberTarget?_comp (hab : OfColumns contents i j ab) (hbc : OfColumns contents j k bc)
    (hac : OfColumns contents i k ac) (kind : MemberKind) (ref : MemberRef) :
    ac.memberTarget? kind ref = (ab.memberTarget? kind ref).bind (bc.memberTarget? kind) := by
  rw [hac.memberTarget?_eq, hab.memberTarget?_eq, funext (hbc.memberTarget?_eq kind)]
  exact (Pairs.lookup_bind_lookup (refOf contents k) (hbc.nodup_members kind) ref).symm

/-- Two tables between two namespaces, one each way, undo each other. -/
theorem target?_swap (hab : OfColumns contents i j ab) (hba : OfColumns contents j i bc) :
    (∀ name name', ab.classTarget? name = some name' ↔ bc.classTarget? name' = some name) ∧
      ∀ kind ref ref', ab.memberTarget? kind ref = some ref' ↔
        bc.memberTarget? kind ref' = some ref := by
  refine ⟨fun name name' => ?_, fun kind ref ref' => ?_⟩
  · rw [hab.classTarget?_eq, hba.classTarget?_eq]
    exact Pairs.lookup_eq_some_iff_swap hab.nodup_classes hba.nodup_classes
  · rw [hab.memberTarget?_eq, hba.memberTarget?_eq]
    exact Pairs.lookup_eq_some_iff_swap (hab.nodup_members kind) (hba.nodup_members kind)

end OfColumns

/-! ## Reading a file three times -/

/-- The columns of a file compose: where every symbol has a name in two namespaces `b` and `c`, a
file that is read from `a` to `b` and from `b` to `c` is read from `a` to `c`, with the classes and
members that are known from `a` to `b`, and what a class or a member is called in `c` is what that
which it is called in `b` is called in `c`. If `c` is `a`, the two tables undo each other. -/
theorem exists_read_comp {bytes : List UInt8} {ab bc : MappingTable} (hab : read a b bytes = .ok ab)
    (hbc : read b c bytes = .ok bc) (hb : NamesAll (fileLines bytes) b)
    (hc : NamesAll (fileLines bytes) c) :
    ∃ ac, read a c bytes = .ok ac ∧ ac.classes.keys = ab.classes.keys ∧
      (∀ kind, (ac.members kind).keys = (ab.members kind).keys) ∧
      (∀ name, ac.classTarget? name = (ab.classTarget? name).bind bc.classTarget?) ∧
      (∀ kind ref, ac.memberTarget? kind ref =
        (ab.memberTarget? kind ref).bind (bc.memberTarget? kind)) ∧
      (c = a →
        (∀ name name', ab.classTarget? name = some name' ↔ bc.classTarget? name' = some name) ∧
          ∀ kind ref ref', ab.memberTarget? kind ref = some ref' ↔
            bc.memberTarget? kind ref' = some ref) := by
  obtain ⟨namespaces, contents, i, j, htext, hi, hj, hfirst⟩ := readLines_eq_ok_iff.1 hab
  obtain ⟨namespaces', contents', j', k, htext', hj', hk, hsecond⟩ := readLines_eq_ok_iff.1 hbc
  -- both readings are of one text, so they are of the same rows
  obtain ⟨rfl, rfl⟩ := htext.unique htext'
  obtain rfl : j = j' := Except.ok.inj (hj.symm.trans hj')
  have hnamesk := hc _ _ _ htext hk
  have hij := hfirst.ofColumns (hb _ _ _ htext hj)
  have hjk := hsecond.ofColumns hnamesk
  obtain ⟨ac, htabulates⟩ := hij.exists_tabulates hnamesk a c (countersIn contents)
  have hik := htabulates.ofColumns hnamesk
  refine ⟨ac, readLines_eq_ok_iff.2 ⟨namespaces, contents, i, k, htext, hi, hk, htabulates⟩, ?_,
    fun kind => ?_, hij.classTarget?_comp hjk hik, hij.memberTarget?_comp hjk hik, ?_⟩
  · rw [hik.keys_classes_eq, hij.keys_classes_eq]
  · rw [hik.keys_members_eq, hij.keys_members_eq]
  · rintro rfl
    obtain rfl : i = k := Except.ok.inj (hi.symm.trans hk)
    exact hij.target?_swap hjk

/-- The lines after the header of a file in which a field stands before the classes of its owner and
its descriptor. -/
def sheetBody : List (Option String) :=
  [some "FIELD\ta\t[Lb;\tf\tfield_1\tcount", some "CLASS\tb\tclass_2\tItem",
    some "CLASS\ta\tclass_1\tBlock", some "METHOD\tb\t(La;I)V\tm\tmethod_1\tuse"]

/-- The file of these lines. -/
def sheet : List UInt8 :=
  encodeUtf8 <| "v1\tofficial\tintermediary\tnamed\n" ++
    "FIELD\ta\t[Lb;\tf\tfield_1\tcount\nCLASS\tb\tclass_2\tItem\n" ++
    "CLASS\ta\tclass_1\tBlock\nMETHOD\tb\t(La;I)V\tm\tmethod_1\tuse\n"

theorem exists_read_comp_sheet :
    ∃ ab bc ac, read "official" "intermediary" sheet = .ok ab ∧
      read "intermediary" "named" sheet = .ok bc ∧ NamesAll (fileLines sheet) "intermediary" ∧
      NamesAll (fileLines sheet) "named" ∧ read "official" "named" sheet = .ok ac ∧
      (∀ name, ac.classTarget? name = (ab.classTarget? name).bind bc.classTarget?) ∧
      ∀ kind ref, ac.memberTarget? kind ref =
        (ab.memberTarget? kind ref).bind (bc.memberTarget? kind) := by
  have htext : Says (fileLines sheet) ["official", "intermediary", "named"]
      (sheetBody.filterMap (contentOf? 3)) :=
    ⟨[], "v1\tofficial\tintermediary\tnamed", sheetBody,
      ⟨by decide +kernel, by simp, by decide +kernel⟩, rfl, by decide +kernel, rfl⟩
  obtain ⟨ab, hab⟩ := exists_of_isOk (x := read "official" "intermediary" sheet) (by decide +kernel)
  obtain ⟨bc, hbc⟩ := exists_of_isOk (x := read "intermediary" "named" sheet) (by decide +kernel)
  have hb : NamesAll (fileLines sheet) "intermediary" :=
    htext.namesAll (j := 1) rfl (by decide +kernel)
  have hc : NamesAll (fileLines sheet) "named" := htext.namesAll (j := 2) rfl (by decide +kernel)
  obtain ⟨ac, hac, -, -, hclasses, hmembers, -⟩ := exists_read_comp hab hbc hb hc
  exact ⟨ab, bc, ac, hab, hbc, hb, hc, hac, hclasses, hmembers⟩

end StableNaming.Tiny
