import StableNaming.Mapping.Matches
import StableNaming.Proofs.Descriptor.Checking
import StableNaming.Proofs.Text.Split

/-!
# Lines of a match file

What a match file says about a class or a member stands in one line, whose columns have a fixed
pattern. The patterns are stated on the text of a line, and the reader recognizes exactly them.
-/

namespace StableNaming.Matches

variable {line text quoted name : String} {cols : List String} {kind kind' : MemberKind}
  {key : MemberKey} {m m' : ClassMatch}

/-- Whether a line has these columns. Carriage returns at its end do not count. -/
structure HasColumns (line : String) (cols : List String) : Prop where
  /-- The columns and carriage returns make up the line, -/
  exists_returns : ∃ n, line.toList = ("\t".intercalate cols).toList ++ List.replicate n '\r'
  /-- all carriage returns at its end are left out, -/
  not_return : ("\t".intercalate cols).toList.getLast? ≠ some '\r'
  /-- the columns are as short as can be, -/
  not_tab : ∀ col ∈ cols, '\t' ∉ col.toList
  /-- and there is one at least. -/
  ne_nil : cols ≠ []

theorem columns_dropTailWhile_eq_iff :
    Text.columns '\t' (String.ofList (Text.dropTailWhile (· == '\r') line.toList)) = cols ↔
      HasColumns line cols := by
  rw [Text.columns_eq_iff, ← String.toList_inj, String.toList_ofList,
    Text.dropTailWhile_beq_eq_iff]
  constructor
  · rintro ⟨⟨hreturn, hreturns⟩, hne, htab⟩
    exact ⟨hreturns, hreturn, htab, hne⟩
  · rintro ⟨hreturns, hreturn, htab, hne⟩
    exact ⟨⟨hreturn, hreturns⟩, hne, htab⟩

/-- A line has one row of columns. -/
theorem HasColumns.unique {cols' : List String} (h : HasColumns line cols)
    (h' : HasColumns line cols') : cols' = cols :=
  (columns_dropTailWhile_eq_iff.2 h').symm.trans (columns_dropTailWhile_eq_iff.2 h)

/-- The letter that stands for a kind of members. -/
def letter : MemberKind → String
  | .field => "f"
  | .method => "m"

theorem rowOf_eq_classLine_iff {old new : String} :
    rowOf line = .classLine old new ↔ HasColumns line ["c", old, new] := by
  rw [← columns_dropTailWhile_eq_iff, rowOf]
  split <;> simp_all

theorem rowOf_eq_memberLine_iff {old new : String} :
    rowOf line = .memberLine kind old new ↔ HasColumns line ["", letter kind, old, new] := by
  rw [← columns_dropTailWhile_eq_iff, rowOf]
  cases kind <;> split <;> simp_all [letter]

/-- Whether a text is a name with one character on either side of it. -/
def Quotes (quoted name : String) : Prop :=
  name ≠ "" ∧ ∃ a b, quoted.toList = a :: (name.toList ++ [b])

theorem unquote?_eq_some_iff : unquote? quoted = some name ↔ Quotes quoted name := by
  have hinner : unquote? quoted = some name ↔
      name ≠ "" ∧ quoted.toList.tail.dropLast = name.toList := by
    rw [unquote?]
    constructor
    · intro h
      split at h
      · cases h
      · rename_i hne
        obtain rfl := Option.some.inj h
        rw [String.toList_ofList]
        exact ⟨fun hempty => hne (String.ofList_eq_empty_iff.1 hempty), rfl⟩
    · rintro ⟨hne, h⟩
      rw [h, if_neg fun hnil => hne (String.toList_eq_nil_iff.1 hnil), String.ofList_toList]
  rw [hinner, Quotes]
  refine and_congr_right fun hne => ?_
  have hchars : name.toList ≠ [] := fun hnil => hne (String.toList_eq_nil_iff.1 hnil)
  constructor
  · intro h
    cases hquoted : quoted.toList with
    | nil => simp [hquoted, hchars.symm] at h
    | cons a rest =>
      rw [hquoted, List.tail_cons] at h
      have hrest : rest ≠ [] := by
        rintro rfl
        exact hchars h.symm
      refine ⟨a, rest.getLast hrest, ?_⟩
      rw [← h, List.dropLast_concat_getLast]
  · rintro ⟨a, b, h⟩
    rw [h, List.tail_cons, List.dropLast_concat]

/-- Whether a text is a member: name and descriptor, which two semicolons separate for a field and
nothing for a method. The name is as short as can be. -/
def Splits : MemberKind → String → MemberKey → Prop
  | .field, text, key => key.name ≠ "" ∧ Descriptor.IsFieldDescriptor key.desc ∧
      text = key.name ++ ";;" ++ key.desc ∧ ¬ [';', ';'] <:+: key.name.toList ++ [';']
  | .method, text, key => key.name ≠ "" ∧ Descriptor.IsMethodDescriptor key.desc ∧
      text = key.name ++ key.desc ∧ '(' ∉ key.name.toList

theorem splitField?_eq_some_iff : splitField? text = some key ↔ Splits .field text key := by
  rw [splitField?, Option.bind_eq_some_iff]
  constructor
  · rintro ⟨⟨front, back⟩, hcut, hkey⟩
    obtain ⟨hwhole, hfirst⟩ := (Text.cutFirst?_eq_some_iff (by simp)).1 hcut
    dsimp only at hkey
    split at hkey
    · rename_i hok
      obtain rfl := Option.some.inj hkey
      refine ⟨fun hempty => hok.1 (String.ofList_eq_empty_iff.1 hempty),
        Descriptor.isField_iff.1 hok.2, ?_, by rwa [String.toList_ofList]⟩
      rw [← String.toList_inj, hwhole]
      simp
    · cases hkey
  · rintro ⟨hne, hdesc, rfl, hfirst⟩
    refine ⟨(key.name.toList, key.desc.toList),
      (Text.cutFirst?_eq_some_iff (by simp)).2 ⟨by simp, hfirst⟩, ?_⟩
    dsimp only
    rw [String.ofList_toList, String.ofList_toList, if_pos]
    exact ⟨fun hnil => hne (String.toList_eq_nil_iff.1 hnil), Descriptor.isField_iff.2 hdesc⟩

theorem splitMethod?_eq_some_iff : splitMethod? text = some key ↔ Splits .method text key := by
  rw [splitMethod?]
  dsimp only
  constructor
  · intro hkey
    split at hkey
    · rename_i hok
      obtain rfl := Option.some.inj hkey
      refine ⟨fun hempty => hok.1 (String.ofList_eq_empty_iff.1 hempty),
        Descriptor.isMethod_iff.1 hok.2, ?_, ?_⟩
      · have hwhole := List.prefix_iff_eq_append.1
          (List.takeWhile_prefix (· ≠ '(') (l := text.toList))
        rw [← String.toList_inj, String.toList_append, String.toList_ofList, String.toList_ofList]
        exact hwhole.symm
      · rw [String.toList_ofList]
        exact fun h => by simpa using List.all_eq_true.1 List.all_takeWhile '(' h
    · cases hkey
  · rintro ⟨hne, hdesc, rfl, hbracket⟩
    obtain ⟨cs, -, hcs⟩ := id hdesc
    -- the descriptor starts with a bracket, so the name ends there and not before
    have hname : (key.name ++ key.desc).toList.takeWhile (· ≠ '(') = key.name.toList := by
      rw [String.toList_append, hcs, List.takeWhile_append_of_pos]
      · simp
      · exact fun c hc => by simpa using fun heq : c = '(' => hbracket (heq ▸ hc)
    rw [hname, String.toList_append, List.drop_left, String.ofList_toList, String.ofList_toList,
      if_pos]
    exact ⟨fun hnil => hne (String.toList_eq_nil_iff.1 hnil), Descriptor.isMethod_iff.2 hdesc⟩

theorem split?_eq_some_iff : split? kind text = some key ↔ Splits kind text key := by
  cases kind with
  | field => exact splitField?_eq_some_iff
  | method => exact splitMethod?_eq_some_iff

/-- Whether a line has the three columns of a class. -/
def HasClassColumns (line : String) : Prop := ∃ old new, HasColumns line ["c", old, new]

/-- Whether a line has the four columns of a member. -/
def HasMemberColumns (kind : MemberKind) (line : String) : Prop :=
  ∃ old new, HasColumns line ["", letter kind, old, new]

/-- Whether a line is about a class: its old and its new name stand quoted in it. -/
def IsClassLine (line : String) (m : ClassMatch) : Prop :=
  ∃ old new, HasColumns line ["c", old, new] ∧ Quotes old m.old ∧ Quotes new m.new

/-- Whether a line is about a member: what it is in the old and in the new version stands in it. -/
def IsMemberLine (kind : MemberKind) (line : String) (old new : MemberKey) : Prop :=
  ∃ oldText newText, HasColumns line ["", letter kind, oldText, newText] ∧
    Splits kind oldText old ∧ Splits kind newText new

/-- Whether a line is about neither a class nor a member. -/
def IsPassed (line : String) : Prop :=
  ¬ HasClassColumns line ∧ ∀ kind, ¬ HasMemberColumns kind line

theorem isPassed_iff : IsPassed line ↔ rowOf line = .other := by
  constructor
  · rintro ⟨hclass, hmember⟩
    cases hrow : rowOf line with
    | classLine old new => exact absurd ⟨old, new, rowOf_eq_classLine_iff.1 hrow⟩ hclass
    | memberLine kind old new =>
      exact absurd ⟨old, new, rowOf_eq_memberLine_iff.1 hrow⟩ (hmember kind)
    | other => rfl
  · intro hrow
    refine ⟨?_, fun kind => ?_⟩
    · rintro ⟨old, new, hcols⟩
      cases hrow.symm.trans (rowOf_eq_classLine_iff.2 hcols)
    · rintro ⟨old, new, hcols⟩
      cases hrow.symm.trans (rowOf_eq_memberLine_iff.2 hcols)

theorem IsClassLine.hasClassColumns (h : IsClassLine line m) : HasClassColumns line := by
  obtain ⟨old, new, hcols, -⟩ := h
  exact ⟨old, new, hcols⟩

theorem IsMemberLine.hasMemberColumns {old new : MemberKey} (h : IsMemberLine kind line old new) :
    HasMemberColumns kind line := by
  obtain ⟨old, new, hcols, -⟩ := h
  exact ⟨old, new, hcols⟩

theorem HasColumns.member_inj {old new old' new' : String}
    (h : HasColumns line ["", letter kind, old, new])
    (h' : HasColumns line ["", letter kind', old', new']) :
    kind' = kind ∧ old' = old ∧ new' = new := by
  have hletter : letter kind' = letter kind ↔ kind' = kind := by
    cases kind <;> cases kind' <;> decide
  simpa [hletter] using h.unique h'

/-- A line is about one class at most, -/
theorem IsClassLine.unique (h : IsClassLine line m) (h' : IsClassLine line m') : m' = m := by
  obtain ⟨old, new, hcols, hold, hnew⟩ := h
  obtain ⟨old', new', hcols', hold', hnew'⟩ := h'
  obtain ⟨rfl, rfl⟩ : old' = old ∧ new' = new := by simpa using hcols.unique hcols'
  rw [← unquote?_eq_some_iff] at hold hnew hold' hnew'
  cases m
  cases m'
  exact congrArg₂ _ (Option.some.inj (hold'.symm.trans hold))
    (Option.some.inj (hnew'.symm.trans hnew))

/-- about one member at most, -/
theorem IsMemberLine.unique {old new old' new' : MemberKey}
    (h : IsMemberLine kind line old new) (h' : IsMemberLine kind' line old' new') :
    kind' = kind ∧ old' = old ∧ new' = new := by
  obtain ⟨oldText, newText, hcols, hold, hnew⟩ := h
  obtain ⟨oldText', newText', hcols', hold', hnew'⟩ := h'
  obtain ⟨rfl, rfl, rfl⟩ := hcols.member_inj hcols'
  rw [← split?_eq_some_iff] at hold hnew hold' hnew'
  exact ⟨rfl, Option.some.inj (hold'.symm.trans hold), Option.some.inj (hnew'.symm.trans hnew)⟩

/-- has the columns of that kind of members only, -/
theorem IsMemberLine.of_hasMemberColumns {old new : MemberKey}
    (h : IsMemberLine kind line old new) (h' : HasMemberColumns kind' line) :
    IsMemberLine kind' line old new := by
  obtain ⟨oldText, newText, hcols, hold, hnew⟩ := h
  obtain ⟨oldText', newText', hcols'⟩ := h'
  obtain ⟨rfl, -, -⟩ := hcols.member_inj hcols'
  exact ⟨oldText, newText, hcols, hold, hnew⟩

/-- and not about a class and a member. -/
theorem HasMemberColumns.not_hasClassColumns (h : HasMemberColumns kind line) :
    ¬ HasClassColumns line := by
  obtain ⟨old, new, hcols⟩ := h
  rintro ⟨old', new', hcols'⟩
  simpa using hcols.unique hcols'

end StableNaming.Matches
