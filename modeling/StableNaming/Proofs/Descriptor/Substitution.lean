import StableNaming.Descriptor.Renaming
import StableNaming.Proofs.Descriptor.Checking

/-!
# Renaming as substitution

Renaming does not look at the grammar of descriptors: it goes from one `L` to the next semicolon. In
a descriptor these are where the references are, so renaming one is putting other names into its
shape: it asks for each class that the shape refers to, once and from left to right, and changes
nothing else. As long as the answers are names, what comes out is a descriptor again, and renaming
twice is renaming once by both.
-/

namespace StableNaming.Descriptor

/-! ## The shape of a descriptor -/

/-- A type. The names of classes may be any texts. -/
inductive FieldType where
  /-- A primitive type, by its letter. -/
  | primitive (letter : { c : Char // c ∈ primitives })
  /-- A class, by its name. -/
  | reference (name : String)
  /-- An array, by the type of its elements. -/
  | array (element : FieldType)

/-- What a descriptor says. -/
inductive Shape where
  /-- The type of a field. -/
  | field (type : FieldType)
  /-- The types of the arguments of a method, and that of its result if it has one. -/
  | method (arguments : List FieldType) (result : Option FieldType)

/-- Whether a text can be the name of a class. -/
def IsClassName (name : String) : Prop := name ≠ "" ∧ ';' ∉ name.toList

namespace FieldType

/-- How a type is written. -/
def chars : FieldType → List Char
  | primitive letter => [letter.1]
  | reference name => 'L' :: (name.toList ++ [';'])
  | array element => '[' :: element.chars

/-- The class that a type refers to, if it does. -/
def names : FieldType → List String
  | primitive _ => []
  | reference name => [name]
  | array element => element.names

variable {m : Type → Type} [Monad m]

/-- Put a name in the place of the one that a type refers to. -/
def mapM (f : String → m String) : FieldType → m FieldType
  | primitive letter => pure (primitive letter)
  | reference name => reference <$> f name
  | array element => array <$> element.mapM f

/-- Put a name in the place of the one that a type refers to, without effects. -/
def map (f : String → String) : FieldType → FieldType
  | primitive letter => primitive letter
  | reference name => reference (f name)
  | array element => array (element.map f)

theorem names_map (f : String → String) (t : FieldType) : (t.map f).names = t.names.map f := by
  induction t with
  | primitive letter => rfl
  | reference name => rfl
  | array element ih => exact ih

theorem map_map (f g : String → String) (t : FieldType) : (t.map f).map g = t.map (g ∘ f) := by
  induction t with
  | primitive letter => rfl
  | reference name => rfl
  | array element ih => exact congrArg array ih

theorem mapM_pure [LawfulMonad m] (f : String → String) (t : FieldType) :
    t.mapM (fun name => (pure (f name) : m String)) = pure (t.map f) := by
  induction t with
  | primitive letter => rfl
  | reference name => exact map_pure reference (f name)
  | array element ih => rw [mapM, ih, map_pure, map]

end FieldType

/-- How the type of a result is written. -/
def resultChars (result : Option FieldType) : List Char := result.elim ['V'] FieldType.chars

namespace Shape

/-- How a descriptor is written. -/
def chars : Shape → List Char
  | field type => type.chars
  | method arguments result =>
    '(' :: (arguments.flatMap FieldType.chars ++ ')' :: resultChars result)

/-- The text of a descriptor. -/
def text (shape : Shape) : String := String.ofList shape.chars

/-- The classes that a descriptor refers to, from left to right. -/
def names : Shape → List String
  | field type => type.names
  | method arguments result =>
    arguments.flatMap FieldType.names ++ result.elim [] FieldType.names

/-- Whether a descriptor is that of a field. -/
def isField : Shape → Bool
  | field _ => true
  | method _ _ => false

variable {m : Type → Type} [Monad m]

/-- Put other names in the places of names, from left to right. -/
def mapM (f : String → m String) : Shape → m Shape
  | field type => field <$> type.mapM f
  | method arguments result => do
    let arguments ← arguments.mapM (FieldType.mapM f)
    let result ← result.mapM (FieldType.mapM f)
    pure (method arguments result)

/-- Put other names in the places of names, without effects. -/
def map (f : String → String) : Shape → Shape
  | field type => field (type.map f)
  | method arguments result =>
    method (arguments.map (FieldType.map f)) (result.map (FieldType.map f))

theorem isField_map (f : String → String) (shape : Shape) :
    (shape.map f).isField = shape.isField := by
  cases shape <;> rfl

theorem names_map (f : String → String) (shape : Shape) :
    (shape.map f).names = shape.names.map f := by
  cases shape with
  | field type => exact type.names_map f
  | method arguments result =>
    rw [map, names, names, List.map_append, List.flatMap_map, List.map_flatMap]
    refine congrArg₂ (· ++ ·)
      (congrArg (List.flatMap · arguments) (funext (FieldType.names_map f))) ?_
    cases result with
    | none => rfl
    | some type => exact type.names_map f

theorem map_map (f g : String → String) (shape : Shape) :
    (shape.map f).map g = shape.map (g ∘ f) := by
  have htypes : FieldType.map g ∘ FieldType.map f = FieldType.map (g ∘ f) :=
    funext (FieldType.map_map f g)
  cases shape with
  | field type => exact congrArg field (type.map_map f g)
  | method arguments result =>
    rw [map, map, map, List.map_map, Option.map_map, htypes]

theorem mapM_pure [LawfulMonad m] (f : String → String) (shape : Shape) :
    shape.mapM (fun name => (pure (f name) : m String)) = pure (shape.map f) := by
  have htypes : FieldType.mapM (fun name => (pure (f name) : m String)) =
      fun t => pure (t.map f) := funext (FieldType.mapM_pure f)
  cases shape with
  | field type => rw [mapM, htypes, map_pure, map]
  | method arguments result =>
    rw [mapM, htypes, List.mapM_pure, pure_bind]
    cases result with
    | none => rw [Option.mapM_none, pure_bind]; rfl
    | some type => rw [Option.mapM_some]; simp [map]

/-- Whether all names are names of classes. -/
def Named (shape : Shape) : Prop := ∀ name ∈ shape.names, IsClassName name

end Shape

/-! ## Shapes and the grammar -/

/-- The types of the grammar are those that are written with names of classes. -/
theorem isType_iff {cs : List Char} :
    IsType cs ↔ ∃ t : FieldType, (∀ name ∈ t.names, IsClassName name) ∧ t.chars = cs := by
  constructor
  · intro h
    induction h with
    | @primitive c hc => exact ⟨.primitive ⟨c, hc⟩, by simp [FieldType.names], rfl⟩
    | @reference name hne hname =>
      refine ⟨.reference (String.ofList name), ?_, ?_⟩
      · intro other hother
        obtain rfl := List.mem_singleton.1 hother
        refine ⟨fun hempty => hne ?_, by rwa [String.toList_ofList]⟩
        simpa using congrArg String.toList hempty
      · rw [FieldType.chars, String.toList_ofList]
    | array _ ih =>
      obtain ⟨t, hnames, rfl⟩ := ih
      exact ⟨.array t, hnames, rfl⟩
  · rintro ⟨t, hnames, rfl⟩
    induction t with
    | primitive letter => exact .primitive letter.2
    | reference name =>
      obtain ⟨hne, hname⟩ := hnames name (List.mem_singleton_self name)
      exact .reference (fun hnil => hne (String.toList_eq_nil_iff.1 hnil)) hname
    | array element ih => exact .array (ih hnames)

theorem isFieldDescriptor_iff {desc : String} :
    IsFieldDescriptor desc ↔ ∃ t, (Shape.field t).Named ∧ (Shape.field t).text = desc := by
  rw [IsFieldDescriptor, isType_iff]
  refine exists_congr fun t => and_congr Iff.rfl ?_
  rw [Shape.text, Shape.chars, ← String.toList_inj, String.toList_ofList]

/-- What follows the opening bracket is written with the types of the arguments and the result. -/
theorem isSignature_iff_exists {cs : List Char} :
    IsSignature cs ↔ ∃ arguments result, (Shape.method arguments result).Named ∧
      cs = arguments.flatMap FieldType.chars ++ ')' :: resultChars result := by
  constructor
  · rintro ⟨arguments, result, harguments, hresult, rfl⟩
    have hall : ∃ types : List FieldType,
        (∀ name ∈ types.flatMap FieldType.names, IsClassName name) ∧
          types.flatMap FieldType.chars = arguments.flatten := by
      induction arguments with
      | nil => exact ⟨[], by simp, rfl⟩
      | cons cs arguments ih =>
        obtain ⟨hcs, hrest⟩ := List.forall_mem_cons.1 harguments
        obtain ⟨t, ht, hcs⟩ := isType_iff.1 hcs
        obtain ⟨types, htypes, hchars⟩ := ih hrest
        refine ⟨t :: types, ?_, by rw [List.flatMap_cons, List.flatten_cons, hchars, hcs]⟩
        rw [List.flatMap_cons]
        exact List.forall_mem_append.2 ⟨ht, htypes⟩
    obtain ⟨types, htypes, hchars⟩ := hall
    rcases hresult with rfl | hresult
    · refine ⟨types, none, ?_, by rw [hchars]; rfl⟩
      exact List.forall_mem_append.2 ⟨htypes, by simp⟩
    · obtain ⟨t, ht, rfl⟩ := isType_iff.1 hresult
      exact ⟨types, some t, List.forall_mem_append.2 ⟨htypes, ht⟩, by rw [hchars]; rfl⟩
  · rintro ⟨arguments, result, hnamed, rfl⟩
    obtain ⟨harguments, hresult⟩ := List.forall_mem_append.1 hnamed
    refine ⟨arguments.map FieldType.chars, resultChars result, ?_, ?_, ?_⟩
    · intro cs hcs
      obtain ⟨t, ht, rfl⟩ := List.mem_map.1 hcs
      exact isType_iff.2 ⟨t, fun name hname =>
        harguments name (List.mem_flatMap.2 ⟨t, ht, hname⟩), rfl⟩
    · cases result with
      | none => exact .inl rfl
      | some t => exact .inr (isType_iff.2 ⟨t, hresult, rfl⟩)
    · rw [List.flatMap_def]

theorem isMethodDescriptor_iff {desc : String} :
    IsMethodDescriptor desc ↔ ∃ arguments result, (Shape.method arguments result).Named ∧
      (Shape.method arguments result).text = desc := by
  rw [IsMethodDescriptor]
  constructor
  · rintro ⟨cs, hcs, hdesc⟩
    obtain ⟨arguments, result, hnamed, rfl⟩ := isSignature_iff_exists.1 hcs
    refine ⟨arguments, result, hnamed, String.toList_inj.1 ?_⟩
    rw [hdesc]
    exact String.toList_ofList
  · rintro ⟨arguments, result, hnamed, rfl⟩
    exact ⟨_, isSignature_iff_exists.2 ⟨arguments, result, hnamed, rfl⟩, String.toList_ofList⟩

theorem checkField_eq_ok_iff {desc : String} :
    checkField desc = .ok () ↔ ∃ t, (Shape.field t).Named ∧ (Shape.field t).text = desc := by
  rw [← isFieldDescriptor_iff, checkField, check_eq_ok_iff, readChars_eq_nothing_iff]
  simp [Due.Takes, Place.Follows, IsFieldDescriptor]

theorem checkMethod_eq_ok_iff {desc : String} :
    checkMethod desc = .ok () ↔ ∃ arguments result, (Shape.method arguments result).Named ∧
      (Shape.method arguments result).text = desc := by
  rw [← isMethodDescriptor_iff, checkMethod, check_eq_ok_iff, readChars_eq_nothing_iff]
  exact Iff.rfl

/-- A type does not start with a bracket of a method. -/
theorem FieldType.head?_chars (t : FieldType) : t.chars.head? ≠ some '(' := by
  cases t with
  | primitive letter =>
    intro h
    have hletter : letter.1 = '(' := Option.some.inj h
    exact absurd (hletter ▸ letter.2) (by decide)
  | reference name => exact fun h => absurd (Option.some.inj h) (by decide)
  | array element => exact fun h => absurd (Option.some.inj h) (by decide)

theorem Shape.text_inj_chars {shape shape' : Shape} (h : shape.text = shape'.text) :
    shape.chars = shape'.chars := by
  rw [← String.toList_inj, text, text, String.toList_ofList, String.toList_ofList] at h
  exact h

/-- A shape with names of classes is that of a descriptor, of a field or of a method as the shape
says. -/
theorem Shape.Named.check {shape : Shape} (h : shape.Named) :
    (checkField shape.text = .ok () ↔ shape.isField = true) ∧
      (checkMethod shape.text = .ok () ↔ shape.isField = false) := by
  rw [checkField_eq_ok_iff, checkMethod_eq_ok_iff]
  cases shape with
  | field t =>
    refine ⟨iff_of_true ⟨t, h, rfl⟩ rfl, iff_of_false ?_ Bool.noConfusion⟩
    rintro ⟨arguments, result, -, htext⟩
    exact t.head?_chars (congrArg List.head? (text_inj_chars htext)).symm
  | method arguments result =>
    refine ⟨iff_of_false ?_ Bool.false_ne_true, iff_of_true ⟨arguments, result, h, rfl⟩ rfl⟩
    rintro ⟨t, -, htext⟩
    exact t.head?_chars (congrArg List.head? (text_inj_chars htext))

/-- Every descriptor has a shape. -/
theorem exists_shape {desc : String} (h : checkField desc = .ok () ∨ checkMethod desc = .ok ()) :
    ∃ shape : Shape, shape.Named ∧ shape.text = desc := by
  rcases h with h | h
  · obtain ⟨t, hshape⟩ := checkField_eq_ok_iff.1 h
    exact ⟨_, hshape⟩
  · obtain ⟨arguments, result, hshape⟩ := checkMethod_eq_ok_iff.1 h
    exact ⟨_, hshape⟩

/-! ## Renaming -/

section Asking

variable {m : Type → Type} [Monad m] {f : String → m (Option String)}

/-- The name that is put in the place of another one, asking for it. -/
def askName (f : String → m (Option String)) (name : String) : m String :=
  (·.getD name) <$> f name

/-- Whether some characters are renamed on their own, in whatever text they stand first. -/
def RenamesTo (f : String → m (Option String)) (cs : List Char) (renamed : m (List Char)) : Prop :=
  ∀ rest, renameCharsM f none (cs ++ rest) = do
    let front ← renamed
    let back ← renameCharsM f none rest
    pure (front ++ back)

/-- The rest of a name is read up to the semicolon. -/
theorem renameCharsM_inside (front name rest : List Char) (hname : ';' ∉ name) :
    renameCharsM f (some front) (name ++ ';' :: rest) = (do
      let answer ← f (String.ofList (front ++ name))
      let back ← renameCharsM f none rest
      pure (answer.elim (front ++ name) String.toList ++ ';' :: back)) := by
  induction name generalizing front with
  | nil => rw [List.nil_append, renameCharsM, if_pos rfl, List.append_nil]
  | cons c name ih =>
    obtain ⟨hc, hname⟩ := not_or.1 (mt List.mem_cons.2 hname)
    rw [List.cons_append, renameCharsM, if_neg (Ne.symm hc), ih _ hname, List.append_assoc,
      List.singleton_append]

variable [LawfulMonad m]

theorem renamesTo_nil : RenamesTo f [] (pure []) := by
  intro rest
  simp

/-- Characters are renamed from left to right. -/
theorem RenamesTo.append {cs cs' : List Char} {x y : m (List Char)} (h : RenamesTo f cs x)
    (h' : RenamesTo f cs' y) :
    RenamesTo f (cs ++ cs') (do let front ← x; let back ← y; pure (front ++ back)) := by
  intro rest
  rw [List.append_assoc, h, h']
  simp only [bind_assoc, pure_bind, List.append_assoc]

/-- A character that starts no reference stays. -/
theorem renamesTo_cons {c : Char} {cs : List Char} {x : m (List Char)} (hc : c ≠ 'L')
    (h : RenamesTo f cs x) : RenamesTo f (c :: cs) ((c :: ·) <$> x) := by
  intro rest
  rw [List.cons_append, renameCharsM, if_neg hc, h]
  simp only [map_eq_pure_bind, bind_assoc, pure_bind, List.cons_append]

/-- A reference is renamed by asking for its name. -/
theorem renamesTo_reference {name : String} (hname : ';' ∉ name.toList) :
    RenamesTo f (FieldType.reference name).chars
      ((fun name => (FieldType.reference name).chars) <$> askName f name) := by
  intro rest
  have hanswer : ∀ answer : Option String,
      answer.elim name.toList String.toList = (answer.getD name).toList := by
    rintro (_ | answer) <;> rfl
  rw [FieldType.chars, List.cons_append, List.append_assoc, List.singleton_append, renameCharsM,
    if_pos rfl, renameCharsM_inside [] name.toList rest hname, askName]
  simp only [List.nil_append, String.ofList_toList, hanswer, map_eq_pure_bind, bind_assoc,
    pure_bind, FieldType.chars, List.cons_append, List.append_assoc]

/-- A type is renamed in its shape. -/
theorem renamesTo_fieldType {t : FieldType} (h : ∀ name ∈ t.names, IsClassName name) :
    RenamesTo f t.chars (FieldType.chars <$> t.mapM (askName f)) := by
  induction t with
  | primitive letter =>
    have hletter : letter.1 ≠ 'L' := fun heq => absurd (heq ▸ letter.2) (by decide)
    have hself := renamesTo_cons (f := f) hletter renamesTo_nil
    rw [map_pure] at hself
    rwa [FieldType.mapM, map_pure]
  | reference name =>
    have hself := renamesTo_reference (f := f) (h name (List.mem_singleton_self name)).2
    rwa [FieldType.mapM, Functor.map_map]
  | array element ih =>
    have hself := renamesTo_cons (by decide : '[' ≠ 'L') (ih h)
    rw [FieldType.mapM, Functor.map_map]
    rwa [Functor.map_map] at hself

/-- The types of arguments are renamed one after the other. -/
theorem renamesTo_arguments {types : List FieldType}
    (h : ∀ name ∈ types.flatMap FieldType.names, IsClassName name) :
    RenamesTo f (types.flatMap FieldType.chars)
      ((·.flatMap FieldType.chars) <$> types.mapM (FieldType.mapM (askName f))) := by
  induction types with
  | nil =>
    rw [List.mapM_nil, map_pure]
    exact renamesTo_nil
  | cons t types ih =>
    rw [List.flatMap_cons] at h
    obtain ⟨ht, htypes⟩ := List.forall_mem_append.1 h
    have hall := (renamesTo_fieldType (f := f) ht).append (ih htypes)
    rw [List.flatMap_cons, List.mapM_cons]
    simp only [map_eq_pure_bind, bind_assoc, pure_bind, List.flatMap_cons] at hall ⊢
    exact hall

theorem renamesTo_result {result : Option FieldType}
    (h : ∀ name ∈ result.elim [] FieldType.names, IsClassName name) :
    RenamesTo f (resultChars result)
      (resultChars <$> result.mapM (FieldType.mapM (askName f))) := by
  cases result with
  | none =>
    have hvoid := renamesTo_cons (f := f) (by decide : 'V' ≠ 'L') renamesTo_nil
    rw [map_pure] at hvoid
    rw [Option.mapM_none, map_pure]
    exact hvoid
  | some t =>
    have hself := renamesTo_fieldType (f := f) h
    rw [Option.mapM_some, Functor.map_map]
    exact hself

/-- A descriptor is renamed in its shape: each name is asked for, from left to right. -/
theorem renameM_text {shape : Shape} (h : shape.Named) :
    renameM f shape.text = Shape.text <$> shape.mapM (askName f) := by
  have hchars : RenamesTo f shape.chars (Shape.chars <$> shape.mapM (askName f)) := by
    cases shape with
    | field t =>
      rw [Shape.mapM, Functor.map_map]
      exact renamesTo_fieldType h
    | method arguments result =>
      obtain ⟨harguments, hresult⟩ := List.forall_mem_append.1 h
      have hclosing := renamesTo_cons (by decide : ')' ≠ 'L') (renamesTo_result (f := f) hresult)
      have hall := renamesTo_cons (by decide : '(' ≠ 'L')
        ((renamesTo_arguments (f := f) harguments).append hclosing)
      rw [Shape.mapM]
      simp only [map_eq_pure_bind, bind_assoc, pure_bind] at hall ⊢
      exact hall
  have hrenamed := hchars []
  rw [List.append_nil] at hrenamed
  rw [renameM, Shape.text, String.toList_ofList, hrenamed]
  simp only [renameCharsM, map_eq_pure_bind, bind_assoc, pure_bind, List.append_nil]
  rfl

/-- Whoever answers no question gets the text back, whatever else happens when questions are
asked. -/
theorem renameM_of_silent (h : ∀ name, f name = (fun _ => none) <$> f name) (desc : String) :
    renameM f desc = (fun _ => desc) <$> renameM f desc := by
  have hchars : ∀ (cs : List Char) (inside : Option (List Char)),
      renameCharsM f inside cs = (fun _ => inside.getD [] ++ cs) <$> renameCharsM f inside cs := by
    intro cs
    induction cs with
    | nil =>
      rintro (_ | name) <;> simp [renameCharsM]
    | cons c cs ih =>
      rintro (_ | name)
      · have hrest :
            (if c = 'L' then some [] else none : Option (List Char)).getD [] ++ cs = cs := by
          split <;> rfl
        rw [renameCharsM, ih, hrest]
        simp
      · rw [renameCharsM]
        split
        · rename_i hc
          rw [h, ih none]
          simp [hc]
        · rw [ih]
          simp
  rw [renameM, hchars]
  simp

end Asking

/-- The name that is put in the place of another one. -/
def answered (f : String → Option String) (name : String) : String := (f name).getD name

/-- Answer by one function after the other. -/
def followedBy (f g : String → Option String) (name : String) : Option String :=
  (f name).elim (g name) fun answer => some (answered g answer)

/-- Answer, and note what has been asked. -/
def noting (f : String → Option String) (name : String) : StateM (List String) (Option String) :=
  fun asked => (f name, asked ++ [name])

variable {f g : String → Option String} {shape : Shape}

theorem answered_followedBy : answered (followedBy f g) = answered g ∘ answered f := by
  funext name
  cases hname : f name with
  | none => simp [answered, followedBy, hname]
  | some answer => simp [answered, followedBy, hname]

theorem rename_text (h : shape.Named) : rename f shape.text = (shape.map (answered f)).text := by
  have hask : askName (fun name => (pure (f name) : Id (Option String))) =
      fun name => pure (answered f name) := rfl
  have hrenamed := renameM_text (f := fun name => (pure (f name) : Id (Option String))) h
  rw [renameM_pure, hask, Shape.mapM_pure, map_pure] at hrenamed
  exact hrenamed

/-- Names are asked for once each, from left to right. -/
theorem run_mapM_noting (asked : List String) :
    (shape.mapM (askName (noting f))).run asked =
      pure (shape.map (answered f), asked ++ shape.names) := by
  have htype : ∀ (t : FieldType) (asked : List String),
      (t.mapM (askName (noting f))).run asked =
        pure (t.map (answered f), asked ++ t.names) := by
    intro t asked
    induction t with
    | primitive letter => rw [FieldType.names, List.append_nil]; rfl
    | reference name => rfl
    | array element ih => rw [FieldType.mapM, StateT.run_map, ih, map_pure]; rfl
  have htypes : ∀ (types : List FieldType) (asked : List String),
      (types.mapM (FieldType.mapM (askName (noting f)))).run asked =
        pure (types.map (FieldType.map (answered f)), asked ++ types.flatMap FieldType.names) := by
    intro types
    induction types with
    | nil => intro asked; simp
    | cons t types ih =>
      intro asked
      rw [List.mapM_cons, StateT.run_bind, htype, pure_bind]
      simp [ih]
  cases shape with
  | field t =>
    rw [Shape.mapM, StateT.run_map, htype, map_pure]
    rfl
  | method arguments result =>
    rw [Shape.mapM, StateT.run_bind, htypes, pure_bind]
    cases result with
    | none => simp [Shape.map, Shape.names]
    | some t => simp [htype, Shape.map, Shape.names]

/-- Names that are answered with names are names. -/
theorem Shape.Named.map_answered (h : shape.Named)
    (hf : ∀ name answer, f name = some answer → IsClassName answer) :
    (shape.map (answered f)).Named := by
  intro name hname
  rw [Shape.names_map] at hname
  obtain ⟨old, hold, rfl⟩ := List.mem_map.1 hname
  cases hanswer : f old with
  | none =>
    rw [answered, hanswer]
    exact h old hold
  | some answer =>
    rw [answered, hanswer]
    exact hf old answer hanswer

/-- Renaming a descriptor puts the answers into its shape: it asks for the names that the descriptor
refers to, once each and from left to right, and changes nothing else. If all answers are names of
classes then the result is a descriptor of the same kind, and to rename it again is to rename once
by both. A text of any kind stays as it is if no question is answered. -/
theorem rename_substitutes :
    (∀ desc, checkField desc = .ok () ∨ checkMethod desc = .ok () →
      ∃ shape : Shape, shape.Named ∧ shape.text = desc ∧
        (∀ {m : Type → Type} [Monad m] [LawfulMonad m] (f : String → m (Option String)),
          renameM f desc = Shape.text <$> shape.mapM (askName f)) ∧
        (∀ f asked, (renameM (noting f) desc).run asked =
          ((shape.map (answered f)).text, asked ++ shape.names)) ∧
        ∀ f, rename f desc = (shape.map (answered f)).text ∧
          ((∀ name answer, f name = some answer → IsClassName answer) →
            (checkField (rename f desc) = .ok () ↔ checkField desc = .ok ()) ∧
            (checkMethod (rename f desc) = .ok () ↔ checkMethod desc = .ok ()) ∧
            ∀ g, rename g (rename f desc) = rename (followedBy f g) desc)) ∧
    (∀ text, rename (fun _ => none) text = text) ∧
    ∀ (text : String) {m : Type → Type} [Monad m] [LawfulMonad m] (f : String → m (Option String)),
      (∀ name, f name = (fun _ => none) <$> f name) →
        renameM f text = (fun _ => text) <$> renameM f text := by
  refine ⟨fun desc hdesc => ?_, rename_eq_self fun _ => rfl,
    fun text m _ _ f hsilent => renameM_of_silent hsilent text⟩
  obtain ⟨shape, hnamed, rfl⟩ := exists_shape hdesc
  refine ⟨shape, hnamed, rfl, fun f => renameM_text hnamed, fun f asked => ?_, fun f => ?_⟩
  · rw [renameM_text hnamed, StateT.run_map, run_mapM_noting]
    rfl
  · refine ⟨rename_text hnamed, fun hf => ?_⟩
    have hrenamed := hnamed.map_answered hf
    rw [rename_text hnamed, hrenamed.check.1, hrenamed.check.2, hnamed.check.1, hnamed.check.2,
      Shape.isField_map]
    refine ⟨Iff.rfl, Iff.rfl, fun g => ?_⟩
    rw [rename_text hrenamed, rename_text hnamed, Shape.map_map, answered_followedBy]

/-- Names that are exchanged. -/
def exchange (name : String) : Option String :=
  if name = "L(" then some "a" else if name = "a" then some "L(" else none

/-- One name is replaced. -/
def replace (name : String) : Option String := if name = "a" then some "b" else none

/-- Letters and brackets inside names start no reference and no method. -/
theorem rename_exchange_letters :
    (checkMethod "(LL(;[La;I)La;" = .ok ()) ∧
      rename exchange "(LL(;[La;I)La;" = "(La;[LL(;I)LL(;" ∧
      rename replace "(La;[LL(;I)LL(;" = rename (followedBy exchange replace) "(LL(;[La;I)La;" ∧
      rename (followedBy exchange replace) "(LL(;[La;I)La;" = "(Lb;[LL(;I)LL(;" := by
  have hdesc : checkMethod "(LL(;[La;I)La;" = .ok () := by decide +kernel
  have hnames : ∀ name answer, exchange name = some answer → IsClassName answer := by
    intro name answer hanswer
    rw [exchange] at hanswer
    split_ifs at hanswer
    · obtain rfl := Option.some.inj hanswer
      exact ⟨by decide, by decide⟩
    · obtain rfl := Option.some.inj hanswer
      exact ⟨by decide, by decide⟩
  obtain ⟨shape, -, -, -, -, hrename⟩ := rename_substitutes.1 _ (.inr hdesc)
  obtain ⟨-, -, htwice⟩ := (hrename exchange).2 hnames
  have honce : rename exchange "(LL(;[La;I)La;" = "(La;[LL(;I)LL(;" := by decide +kernel
  refine ⟨hdesc, honce, ?_, by decide +kernel⟩
  rw [← htwice replace, honce]

end StableNaming.Descriptor
