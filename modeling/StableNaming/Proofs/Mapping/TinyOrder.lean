import Mathlib.Algebra.Order.BigOperators.Group.List
import Mathlib.Algebra.Order.Group.Nat
import StableNaming.Proofs.Descriptor.References
import StableNaming.Proofs.Mapping.Merging
import StableNaming.Proofs.Mapping.TinyRows
import StableNaming.Proofs.Text.Line

/-!
# The order of lines

A class may have several lines, which may name it differently, as long as it is entered under each
name once; what the owners and descriptors of members mean is decided by the last of these lines.
So the order of lines does not matter exactly if all lines of a class that an entered member refers
to give it the same names.
-/

namespace StableNaming.Tiny

open MappingTable Text

variable {contents contents' : List Content} {a b : String} {i j : Nat}
  {counters counters' : Counters} {t t' : MappingTable} {r r' m : Row} {kind : MemberKind}

/-! ## References of rows -/

/-- The classes that a member refers to: its owner, and the classes of its descriptor. -/
def Row.references (r : Row) : List String := r.owner :: Descriptor.references r.desc

/-- Whether all lines of a class that an entered member refers to give it the same names. -/
def Agrees (contents : List Content) (i j : Nat) : Prop :=
  ∀ kind : MemberKind, ∀ m ∈ enteredIn contents j kind.symbol, ∀ r ∈ rowsIn contents,
    ∀ r' ∈ rowsIn contents, r.kind = .type → r'.kind = .type → r.name 0 ∈ m.references →
      r.name 0 = r'.name 0 → r.known i = r'.known i ∧ r.known j = r'.known j

/-- Whether a file gives all classes to which members refer one name in each of two namespaces. -/
def Unequivocal (lines : List (Option String)) (source target : String) : Prop :=
  ∀ namespaces contents i j, Says lines namespaces contents →
    namespaceIndex namespaces source = .ok i → namespaceIndex namespaces target = .ok j →
      Agrees contents i j

/-- What a file says decides whether it is unequivocal. -/
theorem Says.unequivocal {lines : List (Option String)} {namespaces : List String}
    (h : Says lines namespaces contents) (hi : namespaceIndex namespaces a = .ok i)
    (hj : namespaceIndex namespaces b = .ok j) (hagrees : Agrees contents i j) :
    Unequivocal lines a b := by
  intro namespaces' contents' i' j' h' hi' hj'
  obtain ⟨rfl, rfl⟩ := h.unique h'
  obtain rfl : i = i' := Except.ok.inj (hi.symm.trans hi')
  obtain rfl : j = j' := Except.ok.inj (hj.symm.trans hj')
  exact hagrees

/-! ## Rows in another order -/

theorem rowsIn_perm (h : contents.Perm contents') : (rowsIn contents).Perm (rowsIn contents') :=
  h.filterMap _

theorem enteredIn_perm (h : contents.Perm contents') (j : Nat) (kind : SymbolKind) :
    (enteredIn contents j kind).Perm (enteredIn contents' j kind) :=
  (rowsIn_perm h).filter _

/-- Counters do not depend on the order of lines. -/
theorem countersIn_perm (h : contents.Perm contents') :
    countersIn contents = countersIn contents' := by
  refine (h.map _).foldl_eq' (fun x _ y _ counters => ?_) _
  cases x <;> cases y <;> first | rfl | exact Counters.observe_comm _ _ _ _ _

/-- The names of a class do not depend on the order of lines if they all give it the same name. -/
theorem find?_namesIn_of_perm (h : contents.Perm contents') {name : String}
    (hone : ∀ r ∈ rowsIn contents, ∀ r' ∈ rowsIn contents, r.kind = .type → r'.kind = .type →
      r.name 0 = name → r'.name 0 = name → r.known i = r'.known i) :
    (namesIn contents i).find? name = (namesIn contents' i).find? name := by
  refine Dictionary.find?_ofList_eq_of_perm ((rowsIn_perm h).filterMap _) fun x x' hx hx' => ?_
  have hrow : ∀ {x}, (name, x) ∈ (rowsIn contents).filterMap (fun r =>
      if r.kind = .type then some (r.name 0, r.known i) else none) →
        ∃ r ∈ rowsIn contents, r.kind = .type ∧ r.name 0 = name ∧ r.known i = x := by
    intro x hx
    obtain ⟨r, hr, hpair⟩ := List.mem_filterMap.1 hx
    split at hpair
    · rename_i hkind
      obtain ⟨hname, hknown⟩ := Prod.mk.inj (Option.some.inj hpair)
      exact ⟨r, hr, hkind, hname, hknown⟩
    · cases hpair
  obtain ⟨r, hr, hkind, hname, rfl⟩ := hrow hx
  obtain ⟨r', hr', hkind', hname', rfl⟩ := hrow hx'
  exact hone r hr r' hr' hkind hkind' hname hname'

/-- A member is called one thing wherever the classes that it refers to are. -/
theorem refIn_congr {names names' : Dictionary String String}
    (h : ∀ name ∈ m.references, names.find? name = names'.find? name) (name : String) :
    refIn names m.owner m.desc name = refIn names' m.owner m.desc name := by
  obtain ⟨howner, hdesc⟩ := List.forall_mem_cons.1 h
  rw [refIn, refIn, howner, Descriptor.rename_congr fun name hname => by rw [hdesc name hname]]

/-- The references of entered members do not depend on the order of lines. -/
theorem refOf_of_perm (h : contents.Perm contents') (hagrees : Agrees contents i j)
    (hm : m ∈ enteredIn contents j kind.symbol) :
    refOf contents i m = refOf contents' i m ∧ refOf contents j m = refOf contents' j m := by
  constructor
  · refine refIn_congr (fun name hname => find?_namesIn_of_perm h ?_) _
    rintro r hr r' hr' hkind hkind' rfl hname'
    exact (hagrees kind m hm r hr r' hr' hkind hkind' hname hname'.symm).1
  · refine refIn_congr (fun name hname => find?_namesIn_of_perm h ?_) _
    rintro r hr r' hr' hkind hkind' rfl hname'
    exact (hagrees kind m hm r hr r' hr' hkind hkind' hname hname'.symm).2

/-- Where lines agree, there is a table of them in every order, and it answers alike. -/
theorem Tabulates.exists_of_perm
    (ht : Tabulates a b (countersIn contents) (entriesIn contents i j) t)
    (h : contents.Perm contents') (hagrees : Agrees contents i j) :
    ∃ t', Tabulates a b (countersIn contents') (entriesIn contents' i j) t' ∧
      t.SameAnswers t' ∧ t.classes.size = t'.classes.size := by
  have hrefs : ∀ kind : MemberKind, (enteredIn contents j kind.symbol).map (refOf contents i) =
      (enteredIn contents j kind.symbol).map (refOf contents' i) := fun kind =>
    List.map_congr_left fun m hm => (refOf_of_perm h hagrees hm).1
  obtain ⟨hclasses, hmembers⟩ := exists_tabulates_entriesIn_iff.1 ⟨t, ht⟩
  have hclasses' := ((enteredIn_perm h j .type).map _).nodup_iff.1 hclasses
  have hmembers' : ∀ kind : MemberKind,
      ((enteredIn contents' j kind.symbol).map (refOf contents' i)).Nodup := fun kind =>
    ((enteredIn_perm h j kind.symbol).map _).nodup_iff.1 (hrefs kind ▸ hmembers kind)
  obtain ⟨t', ht'⟩ : ∃ t', Tabulates a b (countersIn contents') (entriesIn contents' i j) t' :=
    exists_tabulates_entriesIn_iff.2 ⟨hclasses', hmembers'⟩
  -- the tables list the same entries, up to their order
  have hclassPerm : t.classes.entries.Perm t'.classes.entries := by
    rw [ht.classes_eq_map, ht'.classes_eq_map]
    exact (enteredIn_perm h j .type).map _
  have hmemberPerm : ∀ kind, (t.members kind).entries.Perm (t'.members kind).entries := by
    intro kind
    have hpairs : (enteredIn contents j kind.symbol).map
        (fun r => (refOf contents i r, refOf contents j r)) =
          (enteredIn contents j kind.symbol).map
            fun r => (refOf contents' i r, refOf contents' j r) :=
      List.map_congr_left fun m hm => by
        rw [(refOf_of_perm h hagrees hm).1, (refOf_of_perm h hagrees hm).2]
    rw [ht.members_eq_map, ht'.members_eq_map, hpairs]
    exact (enteredIn_perm h j kind.symbol).map _
  refine ⟨t', ht', ⟨?_, ?_, fun name => ?_, fun kind ref => ?_, ?_⟩, hclassPerm.length_eq⟩
  · rw [ht.source_eq, ht'.source_eq]
  · rw [ht.target_eq, ht'.target_eq]
  · rw [classTarget?_of_not_identity ht.identity_eq, classTarget?_of_not_identity ht'.identity_eq,
      Dictionary.find?_eq_of_perm hclassPerm]
  · rw [memberTarget?_of_not_identity ht.identity_eq,
      memberTarget?_of_not_identity ht'.identity_eq, Dictionary.find?_eq_of_perm (hmemberPerm kind)]
  · rw [ht.counters_eq, ht'.counters_eq, countersIn_perm h]

/-! ## Lines that do not agree -/

/-- How great the owner and the descriptor of a member are. -/
def weight (ref : MemberRef) : Nat := rank ref.owner + rank ref.key.desc

/-- Greater names of classes make greater references. -/
theorem weight_refIn_le {names names' : Dictionary String String}
    (hle : ∀ name, rank ((names.find? name).getD name) ≤ rank ((names'.find? name).getD name))
    (owner desc name : String) :
    weight (refIn names owner desc name) ≤ weight (refIn names' owner desc name) :=
  Nat.add_le_add (hle owner) (Descriptor.rank_rename_le hle desc)

/-- A strictly greater name of a class makes references to it strictly greater. -/
theorem weight_refIn_lt {names names' : Dictionary String String}
    (hle : ∀ name, rank ((names.find? name).getD name) ≤ rank ((names'.find? name).getD name))
    {name : String} (hname : name ∈ m.references)
    (hlt : rank ((names.find? name).getD name) < rank ((names'.find? name).getD name))
    (known : String) :
    weight (refIn names m.owner m.desc known) < weight (refIn names' m.owner m.desc known) := by
  rcases List.mem_cons.1 hname with rfl | hname
  · exact Nat.add_lt_add_of_lt_of_le hlt (Descriptor.rank_rename_le hle m.desc)
  · exact Nat.add_lt_add_of_le_of_lt (hle m.owner) (Descriptor.rank_rename_lt hle hname hlt)

/-- Whether two lines are of one class. -/
structure OneClass (r r' : Row) : Prop where
  /-- The first line is of a class. -/
  left : r.kind = .type
  /-- The second line is of a class. -/
  right : r'.kind = .type
  /-- The class is the same. -/
  name_eq : r.name 0 = r'.name 0

namespace OneClass

theorem symm (h : OneClass r r') : OneClass r' r := ⟨h.right, h.left, h.name_eq.symm⟩

/-- At the end of a file, the second of two lines of one class says what the class is called. -/
theorem find?_namesIn (h : OneClass r r') (contents : List Content) (i : Nat) (name : String) :
    (namesIn (contents ++ [.symbol r, .symbol r']) i).find? name =
      if r.name 0 = name then some (r'.known i) else (namesIn contents i).find? name := by
  have hpairs : (rowsIn (contents ++ [.symbol r, .symbol r'])).filterMap (fun r =>
      if r.kind = .type then some (r.name 0, r.known i) else none) =
        (rowsIn contents).filterMap (fun r =>
          if r.kind = .type then some (r.name 0, r.known i) else none) ++
            [(r.name 0, r.known i)] ++ [(r.name 0, r'.known i)] := by
    simp [rowsIn, Content.row?, h.left, h.right, h.name_eq]
  rw [namesIn, hpairs, Dictionary.ofList_concat, Dictionary.ofList_concat, Dictionary.find?_insert,
    Dictionary.find?_insert]
  split <;> rfl

/-- Lines of classes enter no members. -/
theorem enteredIn_eq (h : OneClass r r') (contents : List Content) (j : Nat) (kind : MemberKind) :
    enteredIn (contents ++ [.symbol r, .symbol r']) j kind.symbol =
      enteredIn contents j kind.symbol := by
  have hkind : SymbolKind.type ≠ kind.symbol := by cases kind <;> decide
  simp [enteredIn, rowsIn, Content.row?, h.left, h.right, hkind]

/-- No class is called anything smaller if the greater name comes last. -/
theorem rank_names_le (h : OneClass r r') (hle : rank (r'.known i) ≤ rank (r.known i))
    (contents : List Content) (name : String) :
    rank (((namesIn (contents ++ [.symbol r, .symbol r']) i).find? name).getD name) ≤
      rank (((namesIn (contents ++ [.symbol r', .symbol r]) i).find? name).getD name) := by
  rw [h.find?_namesIn, h.symm.find?_namesIn, h.name_eq]
  split
  · exact hle
  · exact Nat.le_refl _

/-- No member is called anything smaller if the greater name comes last. -/
theorem weight_refOf_le (h : OneClass r r') (hle : rank (r'.known i) ≤ rank (r.known i))
    (contents : List Content) (m : Row) :
    weight (refOf (contents ++ [.symbol r, .symbol r']) i m) ≤
      weight (refOf (contents ++ [.symbol r', .symbol r]) i m) :=
  weight_refIn_le (h.rank_names_le hle contents) _ _ _

/-- Members that refer to the class are called something greater if the strictly greater name comes
last. -/
theorem weight_refOf_lt (h : OneClass r r') (hlt : rank (r'.known i) < rank (r.known i))
    (contents : List Content) (href : r.name 0 ∈ m.references) :
    weight (refOf (contents ++ [.symbol r, .symbol r']) i m) <
      weight (refOf (contents ++ [.symbol r', .symbol r]) i m) := by
  refine weight_refIn_lt (h.rank_names_le (Nat.le_of_lt hlt) contents) href ?_ _
  rw [h.find?_namesIn, h.symm.find?_namesIn, if_pos rfl, if_pos h.name_eq.symm]
  exact hlt

end OneClass

/-- Two tables that answer alike, of a file with two lines of one class at its end and of the same
file with these lines swapped. -/
structure Swapped (contents : List Content) (r r' : Row) (i j : Nat) (t t' : MappingTable) : Prop
    extends OneClass r r' where
  /-- The first table is of the file with the second line last. -/
  tabulates : ∃ a b counters,
    Tabulates a b counters (entriesIn (contents ++ [.symbol r, .symbol r']) i j) t
  /-- The second table is of the file with the first line last. -/
  tabulates' : ∃ a b counters,
    Tabulates a b counters (entriesIn (contents ++ [.symbol r', .symbol r]) i j) t'
  /-- The tables answer alike. -/
  same : t.SameAnswers t'

namespace Swapped

theorem symm (h : Swapped contents r r' i j t t') : Swapped contents r' r i j t' t :=
  ⟨h.toOneClass.symm, h.tabulates', h.tabulates, h.same.symm⟩

/-- The first line calls the class nothing greater in the source namespace than the second line:
otherwise the members of the second table would together be called something greater. -/
theorem rank_source_le (h : Swapped contents r r' i j t t')
    (hm : m ∈ enteredIn contents j kind.symbol) (href : r.name 0 ∈ m.references) :
    rank (r.known i) ≤ rank (r'.known i) := by
  by_contra hgreater
  have hlt : rank (r'.known i) < rank (r.known i) := Nat.lt_of_not_le hgreater
  obtain ⟨a, b, counters, ht⟩ := h.tabulates
  obtain ⟨a', b', counters', ht'⟩ := h.tabulates'
  have hone := h.toOneClass
  -- both tables have the same keys, so the references are the same up to their order
  have hkeys : ((enteredIn contents j kind.symbol).map
      (refOf (contents ++ [.symbol r, .symbol r']) i)).Perm
        ((enteredIn contents j kind.symbol).map
          (refOf (contents ++ [.symbol r', .symbol r]) i)) := by
    have hperm : (t.members kind).keys.Perm (t'.members kind).keys := by
      refine Dictionary.keys_perm_of_find?_eq fun ref => ?_
      rw [← memberTarget?_of_not_identity ht.identity_eq,
        ← memberTarget?_of_not_identity ht'.identity_eq, h.same.memberTarget?_eq]
    rwa [ht.keys_members_eq, ht'.keys_members_eq, hone.enteredIn_eq, hone.symm.enteredIn_eq]
      at hperm
  have hsum := (hkeys.map weight).sum_eq
  rw [List.map_map, List.map_map] at hsum
  exact absurd hsum (Nat.ne_of_lt (List.sum_lt_sum _ _
    (fun m _ => hone.weight_refOf_le (Nat.le_of_lt hlt) contents m)
    ⟨m, hm, hone.weight_refOf_lt hlt contents href⟩))

/-- The first line calls the class nothing greater in the target namespace than the second line, if
both call it the same in the source namespace: otherwise the member would be called something
greater in the second table. -/
theorem rank_target_le (h : Swapped contents r r' i j t t')
    (hm : m ∈ enteredIn contents j kind.symbol) (href : r.name 0 ∈ m.references)
    (hsource : r.known i = r'.known i) : rank (r.known j) ≤ rank (r'.known j) := by
  by_contra hgreater
  have hlt : rank (r'.known j) < rank (r.known j) := Nat.lt_of_not_le hgreater
  obtain ⟨a, b, counters, ht⟩ := h.tabulates
  obtain ⟨a', b', counters', ht'⟩ := h.tabulates'
  have hone := h.toOneClass
  -- in the source namespace nothing changes, so the member is asked for under one reference
  have hkey : refOf (contents ++ [.symbol r, .symbol r']) i m =
      refOf (contents ++ [.symbol r', .symbol r]) i m := by
    refine refIn_congr (fun name _ => ?_) _
    rw [hone.find?_namesIn, hone.symm.find?_namesIn, h.name_eq, hsource]
  have hanswer := ht.memberTarget?_refOf (hone.enteredIn_eq contents j kind ▸ hm)
  have hanswer' := ht'.memberTarget?_refOf (hone.symm.enteredIn_eq contents j kind ▸ hm)
  rw [h.same.memberTarget?_eq, hkey, hanswer'] at hanswer
  exact absurd (congrArg weight (Option.some.inj hanswer).symm)
    (Nat.ne_of_lt (hone.weight_refOf_lt hlt contents href))

/-- Tables answer alike only if the lines agree. -/
theorem known_eq (h : Swapped contents r r' i j t t')
    (hm : m ∈ enteredIn contents j kind.symbol) (href : r.name 0 ∈ m.references) :
    r.known i = r'.known i ∧ r.known j = r'.known j := by
  have href' : r'.name 0 ∈ m.references := h.name_eq ▸ href
  have hsource : r.known i = r'.known i :=
    rank_inj (Nat.le_antisymm (h.rank_source_le hm href) (h.symm.rank_source_le hm href'))
  exact ⟨hsource, rank_inj (Nat.le_antisymm (h.rank_target_le hm href hsource)
    (h.symm.rank_target_le hm href' hsource.symm))⟩

end Swapped

/-! ## Reading lines in another order -/

/-- What lines say in another order. -/
theorem Says.of_perm {lines lines' front body body' : List (Option String)} {header : String}
    {namespaces : List String} (h : Says lines namespaces contents)
    (hlayout : Layout lines front header body) (hlayout' : Layout lines' front header body')
    (hperm : body.Perm body') :
    Says lines' namespaces (body'.filterMap (contentOf? namespaces.length)) ∧
      contents.Perm (body'.filterMap (contentOf? namespaces.length)) := by
  obtain ⟨hheader, hsome, rfl⟩ := h.of_layout hlayout
  exact ⟨⟨front, header, body', hlayout', hheader, fun line hline =>
    hsome line (hperm.mem_iff.2 hline), rfl⟩, hperm.filterMap _⟩

/-- The lines after the header can be put in every order. -/
theorem Layout.exists_of_perm {bytes : List UInt8} {front body body' : List (Option String)}
    {header : String} (h : Layout (fileLines bytes) front header body) (hperm : body.Perm body') :
    ∃ bytes', Layout (fileLines bytes') front header body' := by
  have hlines : ∀ l ∈ front ++ some header :: body', l ∈ fileLines bytes := by
    intro l hl
    rw [h.lines_eq]
    exact ((hperm.cons _).append_left front).mem_iff.2 hl
  obtain ⟨bytes', hbytes'⟩ : ∃ bytes', fileLines bytes' = front ++ some header :: body' :=
    exists_fileLines_eq fun l hl => ⟨bytes, hlines l hl⟩
  exact ⟨bytes', hbytes', h.front_blank, h.header_not_blank⟩

/-- A row stands in a line. -/
theorem exists_line_of_mem_rowsIn {width : Nat} {body : List (Option String)}
    (hr : r ∈ rowsIn (body.filterMap (contentOf? width))) :
    ∃ l ∈ body, contentOf? width l = some (.symbol r) := by
  obtain ⟨c, hc, hrow⟩ := List.mem_filterMap.1 hr
  obtain ⟨l, hl, hcontent⟩ := List.mem_filterMap.1 hc
  refine ⟨l, hl, hcontent.trans (congrArg some ?_)⟩
  cases c with
  | symbol row => rw [Option.some.inj hrow]
  | nothing => cases hrow
  | counter kind number => cases hrow

/-- What two lines at the end say comes last. -/
theorem filterMap_contentOf?_append {width : Nat} {l l' : Option String}
    (hl : contentOf? width l = some (.symbol r)) (hl' : contentOf? width l' = some (.symbol r'))
    (rest : List (Option String)) :
    (rest ++ [l, l']).filterMap (contentOf? width) =
      rest.filterMap (contentOf? width) ++ [.symbol r, .symbol r'] := by
  rw [List.filterMap_append, List.filterMap_cons_some hl, List.filterMap_cons_some hl']
  rfl

/-- Two members of a list can be moved to its end. -/
theorem exists_perm_append_pair {α : Type} {xs : List α} {x y : α} (hx : x ∈ xs) (hy : y ∈ xs)
    (hne : x ≠ y) : ∃ rest, xs.Perm (rest ++ [x, y]) := by
  obtain ⟨front, after, rfl⟩ := List.append_of_mem hx
  have hy : y ∈ front ++ after := by
    rw [List.mem_append, List.mem_cons] at hy
    rw [List.mem_append]
    exact hy.imp_right fun hy => hy.resolve_left (Ne.symm hne)
  obtain ⟨front', after', hothers⟩ := List.append_of_mem hy
  refine ⟨front' ++ after', List.perm_middle.trans ?_⟩
  rw [hothers]
  exact (List.perm_middle.cons x).trans (@List.perm_append_comm _ [x, y] _)

/-- Lines agree if the tables of all their orders answer alike: two lines of one class can be moved
to the end, and swapped there. -/
theorem agrees_of_forall_perm {width : Nat} {body : List (Option String)}
    (h : ∀ body', body.Perm body' → ∃ t' counters, t.SameAnswers t' ∧
      Tabulates a b counters (entriesIn (body'.filterMap (contentOf? width)) i j) t') :
    Agrees (body.filterMap (contentOf? width)) i j := by
  intro kind m hm r hr r' hr' hkind hkind' href hname
  by_cases hne : r = r'
  · rw [hne]
    exact ⟨rfl, rfl⟩
  obtain ⟨l, hl, hline⟩ := exists_line_of_mem_rowsIn hr
  obtain ⟨l', hl', hline'⟩ := exists_line_of_mem_rowsIn hr'
  have hlines : l ≠ l' := by
    rintro rfl
    exact hne (Content.symbol.inj (Option.some.inj (hline.symm.trans hline')))
  obtain ⟨rest, hrest⟩ := exists_perm_append_pair hl hl' hlines
  have hswap : (rest ++ [l, l']).Perm (rest ++ [l', l]) := (List.Perm.swap l' l []).append_left _
  obtain ⟨t₁, counters₁, hsame₁, ht₁⟩ := h _ hrest
  obtain ⟨t₂, counters₂, hsame₂, ht₂⟩ := h _ (hrest.trans hswap)
  rw [filterMap_contentOf?_append hline hline'] at ht₁
  rw [filterMap_contentOf?_append hline' hline] at ht₂
  have hone : OneClass r r' := ⟨hkind, hkind', hname⟩
  have hentered := (enteredIn_perm (hrest.filterMap _) j kind.symbol).mem_iff.1 hm
  rw [filterMap_contentOf?_append hline hline', hone.enteredIn_eq] at hentered
  have hswapped : Swapped (rest.filterMap (contentOf? width)) r r' i j t₁ t₂ :=
    ⟨hone, ⟨a, b, counters₁, ht₁⟩, ⟨a, b, counters₂, ht₂⟩, hsame₁.symm.trans hsame₂⟩
  exact hswapped.known_eq hentered href

/-- The order of the lines after the header does not matter exactly if all lines of a class that an
entered member refers to give it the same names: then every order of the lines is accepted, with the
same counters, as many classes, and the same answers. -/
theorem unequivocal_iff {bytes : List UInt8} {front body : List (Option String)} {header : String}
    (hlayout : Layout (fileLines bytes) front header body) (hread : read a b bytes = .ok t) :
    Unequivocal (fileLines bytes) a b ↔
      ∀ bytes' body', Layout (fileLines bytes') front header body' → body.Perm body' →
        ∃ t', read a b bytes' = .ok t' ∧ t.SameAnswers t' ∧ t.classes.size = t'.classes.size := by
  obtain ⟨namespaces, contents, i, j, htext, hi, hj, ht⟩ := readLines_eq_ok_iff.1 hread
  constructor
  · intro hagrees bytes' body' hlayout' hperm
    obtain ⟨htext', hcontents⟩ := htext.of_perm hlayout hlayout' hperm
    obtain ⟨t', ht', hsame, hsize⟩ := ht.exists_of_perm hcontents (hagrees _ _ _ _ htext hi hj)
    exact ⟨t', readLines_eq_ok_iff.2 ⟨namespaces, _, i, j, htext', hi, hj, ht'⟩, hsame, hsize⟩
  · intro horder
    obtain ⟨-, -, rfl⟩ := htext.of_layout hlayout
    have htable : ∀ body', body.Perm body' → ∃ t' counters, t.SameAnswers t' ∧
        Tabulates a b counters
          (entriesIn (body'.filterMap (contentOf? namespaces.length)) i j) t' := by
      intro body' hperm
      obtain ⟨bytes', hlayout'⟩ := hlayout.exists_of_perm hperm
      obtain ⟨t', hread', hsame, -⟩ := horder bytes' body' hlayout' hperm
      obtain ⟨namespaces', contents', i', j', htext', hi', hj', ht'⟩ :=
        readLines_eq_ok_iff.1 hread'
      obtain ⟨rfl, rfl⟩ := (htext.of_perm hlayout hlayout' hperm).1.unique htext'
      obtain rfl : i = i' := Except.ok.inj (hi.symm.trans hi')
      obtain rfl : j = j' := Except.ok.inj (hj.symm.trans hj')
      exact ⟨t', _, hsame, ht'⟩
    exact htext.unequivocal hi hj (agrees_of_forall_perm htable)

/-- A file with two lines of one class, of which the second gives it a name. -/
def doubled : List UInt8 :=
  encodeUtf8 "v1\tofficial\tintermediary\nCLASS\ta\t\nCLASS\ta\tx\nFIELD\ta\tI\tb\tfield_1\n"

/-- The file with the two lines swapped. -/
def doubledBack : List UInt8 :=
  encodeUtf8 "v1\tofficial\tintermediary\nCLASS\ta\tx\nCLASS\ta\t\nFIELD\ta\tI\tb\tfield_1\n"

/-- The owner of the field is called `x` in one order of the lines, and `a` in the other. -/
theorem not_sameAnswers_doubledBack :
    ∃ header body body', Layout (fileLines doubled) [] header body ∧
      Layout (fileLines doubledBack) [] header body' ∧ body.Perm body' ∧
      ∃ t t', read "official" "intermediary" doubled = .ok t ∧
        read "official" "intermediary" doubledBack = .ok t' ∧ ¬ t.SameAnswers t' := by
  obtain ⟨t, ht⟩ := exists_of_isOk (x := read "official" "intermediary" doubled) (by decide +kernel)
  obtain ⟨t', ht'⟩ := exists_of_isOk (x := read "official" "intermediary" doubledBack)
    (by decide +kernel)
  refine ⟨"v1\tofficial\tintermediary", (fileLines doubled).tail, (fileLines doubledBack).tail,
    ⟨by decide +kernel, by simp, by decide +kernel⟩,
    ⟨by decide +kernel, by simp, by decide +kernel⟩, by decide +kernel,
    t, t', ht, ht', fun hsame => ?_⟩
  have hanswer : (read "official" "intermediary" doubled).toOption.bind
      (·.memberTarget? .field ⟨"a", ⟨"b", "I"⟩⟩) = some ⟨"x", ⟨"field_1", "I"⟩⟩ := by decide +kernel
  have hanswer' : (read "official" "intermediary" doubledBack).toOption.bind
      (·.memberTarget? .field ⟨"a", ⟨"b", "I"⟩⟩) = some ⟨"a", ⟨"field_1", "I"⟩⟩ := by decide +kernel
  rw [ht] at hanswer
  rw [ht'] at hanswer'
  have hfield := (hanswer.symm.trans (hsame.memberTarget?_eq .field _)).trans hanswer'
  exact absurd hfield (by decide)

/-- A file with two lines of one class, which give it the same name. -/
def repeated : List UInt8 :=
  encodeUtf8 "v1\tofficial\tintermediary\nCLASS\ta\t\nCLASS\ta\ta\nFIELD\ta\tI\tb\tfield_1\n"

theorem unequivocal_iff_repeated :
    ∃ header body t, Layout (fileLines repeated) [] header body ∧
      read "official" "intermediary" repeated = .ok t ∧
      ∀ bytes' body', Layout (fileLines bytes') [] header body' → body.Perm body' →
        ∃ t', read "official" "intermediary" bytes' = .ok t' ∧ t.SameAnswers t' ∧
          t.classes.size = t'.classes.size := by
  obtain ⟨t, ht⟩ := exists_of_isOk (x := read "official" "intermediary" repeated)
    (by decide +kernel)
  have hlayout : Layout (fileLines repeated) [] "v1\tofficial\tintermediary"
      (fileLines repeated).tail := ⟨by decide +kernel, by simp, by decide +kernel⟩
  have htext : Says (fileLines repeated) ["official", "intermediary"]
      ((fileLines repeated).tail.filterMap (contentOf? 2)) :=
    ⟨[], _, _, hlayout, rfl, by decide +kernel, rfl⟩
  have hunequivocal : Unequivocal (fileLines repeated) "official" "intermediary" := by
    refine htext.unequivocal (i := 0) (j := 1) rfl rfl fun kind => ?_
    cases kind <;> decide +kernel
  exact ⟨_, _, t, hlayout, ht, (unequivocal_iff hlayout ht).1 hunequivocal⟩

end StableNaming.Tiny
