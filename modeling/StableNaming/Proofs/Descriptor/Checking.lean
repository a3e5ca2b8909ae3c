import Mathlib.Data.List.Basic
import StableNaming.Descriptor.Grammar
import StableNaming.Proofs.Text.Utf8

/-!
# Checking descriptors

The machine that checks descriptors accepts exactly the words of their grammar. Every state that it
can get to has a way to the end, so what it has read is always the beginning of a descriptor, and
what it reports tells a text that is too short from one that is too long and from one that goes
wrong. It goes wrong at a byte: no descriptor has the bytes up to there.
-/

namespace StableNaming.Descriptor

open Text

variable {due due' : Due} {place : Place} {c c' : Char} {cs front rest : List Char}

/-! ## The grammar -/

/-- The types of fields. -/
inductive IsType : List Char → Prop where
  /-- A primitive type is a letter. -/
  | primitive {c : Char} (hc : c ∈ primitives) : IsType [c]
  /-- A class is given by its name, between an `L` and a semicolon. -/
  | reference {name : List Char} (hne : name ≠ []) (hname : ';' ∉ name) :
    IsType ('L' :: (name ++ [';']))
  /-- An array is given by a bracket and the type of its elements. -/
  | array {cs : List Char} (hcs : IsType cs) : IsType ('[' :: cs)

/-- The types of results. -/
def IsResult (cs : List Char) : Prop := cs = ['V'] ∨ IsType cs

/-- What follows the opening bracket of a method descriptor. -/
def IsSignature (cs : List Char) : Prop :=
  ∃ arguments result, (∀ t ∈ arguments, IsType t) ∧ IsResult result ∧
    cs = List.flatten arguments ++ ')' :: result

/-- The descriptors of fields. -/
def IsFieldDescriptor (desc : String) : Prop := IsType desc.toList

/-- The descriptors of methods. -/
def IsMethodDescriptor (desc : String) : Prop :=
  ∃ cs, IsSignature cs ∧ desc.toList = '(' :: cs

/-! ## What completes a descriptor -/

/-- What may follow a type. -/
def Place.Follows : Place → List Char → Prop
  | .argument, cs => IsSignature cs
  | .last, cs => cs = []

/-- What may come next. -/
def Due.Takes : Due → List Char → Prop
  | .opening, cs => ∃ rest, IsSignature rest ∧ cs = '(' :: rest
  | .arguments, cs => IsSignature cs
  | .result, cs => IsResult cs
  | .type place, cs => ∃ t rest, IsType t ∧ place.Follows rest ∧ cs = t ++ rest
  | .className place named, cs =>
    ∃ name rest, (named = false → name ≠ []) ∧ ';' ∉ name ∧ place.Follows rest ∧
      cs = name ++ ';' :: rest
  | .nothing, cs => cs = []

theorem takes_next : place.next.Takes cs ↔ place.Follows cs := by
  cases place <;> exact Iff.rfl

theorem IsType.ne_nil {t : List Char} (h : IsType t) : t ≠ [] := by
  cases h <;> exact List.cons_ne_nil _ _

/-- A signature closes its bracket, or goes on with the type of an argument. -/
theorem isSignature_iff :
    IsSignature cs ↔ (∃ result, IsResult result ∧ cs = ')' :: result) ∨
      (Due.type .argument).Takes cs := by
  constructor
  · rintro ⟨arguments, result, harguments, hresult, rfl⟩
    cases arguments with
    | nil => exact .inl ⟨result, hresult, rfl⟩
    | cons t arguments =>
      obtain ⟨ht, harguments⟩ := List.forall_mem_cons.1 harguments
      refine .inr ⟨t, _, ht, ⟨arguments, result, harguments, hresult, rfl⟩, ?_⟩
      rw [List.flatten_cons, List.append_assoc]
  · rintro (⟨result, hresult, rfl⟩ | ⟨t, rest, ht, hrest, rfl⟩)
    · exact ⟨[], result, by simp, hresult, rfl⟩
    · obtain ⟨arguments, result, harguments, hresult, rfl⟩ := hrest
      refine ⟨t :: arguments, result, List.forall_mem_cons.2 ⟨ht, harguments⟩, hresult, ?_⟩
      rw [List.flatten_cons, List.append_assoc]

/-- A result type is `V`, or a type with nothing after it. -/
theorem isResult_iff : IsResult cs ↔ cs = ['V'] ∨ (Due.type .last).Takes cs := by
  refine or_congr Iff.rfl ⟨fun h => ⟨cs, [], h, rfl, (List.append_nil cs).symm⟩, ?_⟩
  rintro ⟨t, rest, ht, rfl, rfl⟩
  rwa [List.append_nil]

/-- Only where nothing is due may the text end. -/
theorem takes_nil_iff : due.Takes [] ↔ due = .nothing := by
  cases due with
  | opening => simp [Due.Takes]
  | arguments => simp [Due.Takes, IsSignature]
  | result =>
    have hne : ¬ IsType [] := fun h => h.ne_nil rfl
    simp [Due.Takes, IsResult, hne]
  | type place =>
    have hne : ∀ t rest, IsType t → [] ≠ t ++ rest := fun t rest ht h =>
      ht.ne_nil (List.append_eq_nil_iff.1 h.symm).1
    simp only [Due.Takes, reduceCtorEq, iff_false]
    rintro ⟨t, rest, ht, -, h⟩
    exact hne t rest ht h
  | className place named => simp [Due.Takes]
  | nothing => simp [Due.Takes]

/-- The first character of a type decides what is due next. -/
theorem takes_type_cons_iff :
    (Due.type place).Takes (c :: cs) ↔ ∃ due', stepType place c = some due' ∧ due'.Takes cs := by
  constructor
  · rintro ⟨t, rest, ht, hrest, heq⟩
    cases ht with
    | primitive hc =>
      obtain ⟨rfl, rfl⟩ := List.cons.inj heq
      exact ⟨place.next, if_pos hc, takes_next.2 hrest⟩
    | @reference name hne hname =>
      obtain ⟨rfl, rfl⟩ := List.cons.inj heq
      refine ⟨.className place false, rfl, name, rest, fun _ => hne, hname, hrest, ?_⟩
      exact List.append_assoc name [';'] rest
    | @array t ht =>
      obtain ⟨rfl, rfl⟩ := List.cons.inj heq
      exact ⟨.type place, rfl, t, rest, ht, hrest, rfl⟩
  · rintro ⟨due', hstep, htakes⟩
    unfold stepType at hstep
    split_ifs at hstep with hprimitive hreference harray
    · obtain rfl := Option.some.inj hstep
      exact ⟨[c], cs, .primitive hprimitive, takes_next.1 htakes, rfl⟩
    · obtain rfl := Option.some.inj hstep
      obtain ⟨name, rest, hne, hname, hrest, rfl⟩ := htakes
      refine ⟨_, rest, .reference (hne rfl) hname, hrest, ?_⟩
      rw [hreference, List.cons_append, List.append_assoc, List.singleton_append]
    · obtain rfl := Option.some.inj hstep
      obtain ⟨t, rest, ht, hrest, rfl⟩ := htakes
      exact ⟨_, rest, .array ht, hrest, by rw [harray, List.cons_append]⟩

/-- A name goes on up to the semicolon. -/
theorem takes_className_cons_iff {named : Bool} :
    (Due.className place named).Takes (c :: cs) ↔
      ∃ due', step (.className place named) c = some due' ∧ due'.Takes cs := by
  constructor
  · rintro ⟨name, rest, hne, hname, hrest, heq⟩
    cases name with
    | nil =>
      obtain ⟨rfl, rfl⟩ := List.cons.inj heq
      have hnamed : named = true := by
        cases named with
        | true => rfl
        | false => exact absurd rfl (hne rfl)
      exact ⟨place.next, by rw [hnamed]; rfl, takes_next.2 hrest⟩
    | cons d name =>
      obtain ⟨rfl, rfl⟩ := List.cons.inj heq
      obtain ⟨hc, hname⟩ := not_or.1 (mt List.mem_cons.2 hname)
      exact ⟨.className place true, if_neg (Ne.symm hc), name, rest,
        fun h => absurd h.symm Bool.false_ne_true, hname, hrest, rfl⟩
  · rintro ⟨due', hstep, htakes⟩
    rw [step] at hstep
    split_ifs at hstep with hc hnamed
    · obtain rfl := Option.some.inj hstep
      exact ⟨[], cs, fun h => absurd (hnamed.symm.trans h).symm Bool.false_ne_true,
        List.not_mem_nil, takes_next.1 htakes, by rw [hc, List.nil_append]⟩
    · obtain rfl := Option.some.inj hstep
      obtain ⟨name, rest, -, hname, hrest, rfl⟩ := htakes
      refine ⟨c :: name, rest, fun _ => List.cons_ne_nil _ _, ?_, hrest, rfl⟩
      exact fun h => (List.mem_cons.1 h).elim (fun h => hc h.symm) hname

/-- One character is read at a time. -/
theorem takes_cons_iff : due.Takes (c :: cs) ↔ ∃ due', step due c = some due' ∧ due'.Takes cs := by
  cases due with
  | opening =>
    rw [step]
    split_ifs with hc
    · rw [hc]
      simp [Due.Takes]
    · simp [Due.Takes, hc]
  | arguments =>
    rw [step, Due.Takes, isSignature_iff, takes_type_cons_iff]
    split_ifs with hc
    · have hstep : stepType .argument ')' = none := rfl
      rw [hc, hstep]
      simp [Due.Takes]
    · simp [hc]
  | result =>
    rw [step, Due.Takes, isResult_iff, takes_type_cons_iff]
    split_ifs with hc
    · have hstep : stepType .last 'V' = none := rfl
      rw [hc, hstep]
      simp [Due.Takes]
    · simp [hc]
  | type place => exact takes_type_cons_iff
  | className place named => exact takes_className_cons_iff
  | nothing => simp [Due.Takes, step]

/-! ## Reading on -/

/-- What is due after a text. -/
def readChars (due : Due) (cs : List Char) : Option Due := cs.foldlM step due

theorem readChars_append (due : Due) (cs cs' : List Char) :
    readChars due (cs ++ cs') = (readChars due cs).bind (readChars · cs') :=
  List.foldlM_append

/-- What completes a descriptor is read to the end. -/
theorem readChars_eq_nothing_iff : readChars due cs = some .nothing ↔ due.Takes cs := by
  induction cs generalizing due with
  | nil => exact Option.some_inj.trans takes_nil_iff.symm
  | cons c cs ih =>
    rw [readChars, List.foldlM_cons, takes_cons_iff]
    exact Option.bind_eq_some_iff.trans (exists_congr fun due' => and_congr Iff.rfl ih)

/-- After a complete descriptor nothing can be read. -/
theorem readChars_nothing (h : (readChars .nothing cs).isSome) : cs = [] := by
  cases cs with
  | nil => rfl
  | cons c cs => cases h

/-- Something may follow a type. -/
theorem Place.exists_follows (place : Place) : ∃ cs, place.Follows cs := by
  cases place with
  | argument => exact ⟨[')', 'V'], [], ['V'], by simp, .inl rfl, rfl⟩
  | last => exact ⟨[], rfl⟩

/-- Whatever is due can come. -/
theorem exists_takes (due : Due) : ∃ cs, due.Takes cs := by
  cases due with
  | opening =>
    obtain ⟨cs, hcs⟩ := Place.exists_follows .argument
    exact ⟨'(' :: cs, cs, hcs, rfl⟩
  | arguments => exact Place.exists_follows .argument
  | result => exact ⟨['V'], .inl rfl⟩
  | type place =>
    obtain ⟨cs, hcs⟩ := place.exists_follows
    exact ⟨['I'] ++ cs, ['I'], cs, .primitive (by decide), hcs, rfl⟩
  | className place named =>
    obtain ⟨cs, hcs⟩ := place.exists_follows
    exact ⟨['a'] ++ ';' :: cs, ['a'], cs, fun _ => List.cons_ne_nil _ _, by decide, hcs, rfl⟩
  | nothing => exact ⟨[], rfl⟩

/-- What can be read is the beginning of what completes a descriptor. -/
theorem isSome_readChars_iff : (readChars due cs).isSome ↔ ∃ rest, due.Takes (cs ++ rest) := by
  have htakes : ∀ rest, due.Takes (cs ++ rest) ↔ ∃ due', readChars due cs = some due' ∧
      readChars due' rest = some .nothing := fun rest => by
    rw [← readChars_eq_nothing_iff, readChars_append, Option.bind_eq_some_iff]
  constructor
  · intro h
    obtain ⟨due', hdue'⟩ := Option.isSome_iff_exists.1 h
    obtain ⟨rest, hrest⟩ := exists_takes due'
    exact ⟨rest, (htakes rest).2 ⟨due', hdue', readChars_eq_nothing_iff.2 hrest⟩⟩
  · rintro ⟨rest, hrest⟩
    obtain ⟨due', hdue', -⟩ := (htakes rest).1 hrest
    exact Option.isSome_of_eq_some hdue'

/-- A text is read to its end, or up to a character that cannot stand where it does. -/
theorem exists_stop (due : Due) (cs : List Char) :
    (∃ due', readChars due cs = some due') ∨
      ∃ front c rest due', cs = front ++ c :: rest ∧ readChars due front = some due' ∧
        step due' c = none := by
  induction cs generalizing due with
  | nil => exact .inl ⟨due, rfl⟩
  | cons c cs ih =>
    cases hstep : step due c with
    | none => exact .inr ⟨[], c, cs, due, rfl, rfl, hstep⟩
    | some next =>
      have hread : ∀ cs, readChars due (c :: cs) = readChars next cs := fun cs => by
        rw [readChars, List.foldlM_cons, hstep]
        rfl
      rcases ih next with ⟨due', hdue'⟩ | ⟨front, d, rest, due', rfl, hfront, hd⟩
      · exact .inl ⟨due', (hread cs).trans hdue'⟩
      · exact .inr ⟨c :: front, d, rest, due', rfl, (hread front).trans hfront, hd⟩

/-! ## The verdict -/

theorem check_nil : check due [] = if due = .nothing then .ok () else .error .unexpectedEnd := by
  cases due <;> rfl

/-- A character that can be read leaves the verdict to the rest of the text. -/
theorem check_cons_of_step (h : step due c = some due') : check due (c :: cs) = check due' cs := by
  cases due with
  | nothing => cases h
  | _ => simp only [check, h]

/-- A character that cannot be read decides. -/
theorem check_cons_of_stuck (h : step due c = none) :
    check due (c :: cs) =
      .error (if due = .nothing then .trailingData else .unexpectedTag c) := by
  cases due with
  | nothing => rfl
  | _ => simp only [check, h, reduceCtorEq, if_false]

theorem check_append (h : readChars due front = some due') :
    check due (front ++ cs) = check due' cs := by
  induction front generalizing due with
  | nil =>
    obtain rfl := Option.some.inj h
    rfl
  | cons c front ih =>
    rw [readChars, List.foldlM_cons] at h
    obtain ⟨next, hstep, hnext⟩ := Option.bind_eq_some_iff.1 h
    rw [List.cons_append, check_cons_of_step hstep, ih hnext]

/-- The verdict on a text that is read to its end. -/
theorem check_of_readChars (h : readChars due cs = some due') :
    check due cs = if due' = .nothing then .ok () else .error .unexpectedEnd := by
  have hcheck : check due (cs ++ []) = check due' [] := check_append h
  rwa [List.append_nil, check_nil] at hcheck

/-- The verdict on a text that cannot be read to its end. -/
theorem check_of_stuck (h : readChars due front = some due') (hc : step due' c = none) :
    check due (front ++ c :: rest) =
      .error (if due' = .nothing then .trailingData else .unexpectedTag c) :=
  (check_append h).trans (check_cons_of_stuck hc)

theorem readChars_of_stuck (h : readChars due front = some due') (hc : step due' c = none) :
    readChars due (front ++ c :: rest) = none := by
  rw [readChars_append, h, Option.bind_some, readChars, List.foldlM_cons, hc]
  rfl

theorem check_eq_ok_iff : check due cs = .ok () ↔ readChars due cs = some .nothing := by
  rcases exists_stop due cs with ⟨due', h⟩ | ⟨front, c, rest, due', rfl, h, hc⟩
  · rw [check_of_readChars h, h, Option.some_inj]
    split_ifs with hdue <;> simp [hdue]
  · rw [check_of_stuck h hc, readChars_of_stuck h hc]
    simp

theorem isOk_check_iff : (check due cs).isOk = true ↔ due.Takes cs := by
  have hok : (check due cs).isOk = true ↔ check due cs = .ok () := by
    cases check due cs <;> simp [Except.isOk, Except.toBool]
  rw [hok, check_eq_ok_iff, readChars_eq_nothing_iff]

theorem isField_iff {desc : String} : isField desc = true ↔ IsFieldDescriptor desc := by
  rw [isField, checkField, isOk_check_iff]
  constructor
  · rintro ⟨t, rest, ht, rfl, h⟩
    rwa [IsFieldDescriptor, h, List.append_nil]
  · exact fun h => ⟨desc.toList, [], h, rfl, (List.append_nil _).symm⟩

theorem isMethod_iff {desc : String} : isMethod desc = true ↔ IsMethodDescriptor desc := by
  rw [isMethod, checkMethod, isOk_check_iff]
  exact Iff.rfl

theorem check_eq_unexpectedEnd_iff :
    check due cs = .error .unexpectedEnd ↔
      ∃ due', readChars due cs = some due' ∧ due' ≠ .nothing := by
  rcases exists_stop due cs with ⟨due', h⟩ | ⟨front, c, rest, due', rfl, h, hc⟩
  · rw [check_of_readChars h, h]
    split_ifs with hdue <;> simp [hdue]
  · rw [check_of_stuck h hc, readChars_of_stuck h hc]
    split_ifs <;> simp

theorem check_eq_trailingData_iff :
    check due cs = .error .trailingData ↔
      ∃ front c rest, cs = front ++ c :: rest ∧ readChars due front = some .nothing := by
  constructor
  · intro hcheck
    rcases exists_stop due cs with ⟨due', h⟩ | ⟨front, c, rest, due', rfl, h, hc⟩
    · rw [check_of_readChars h] at hcheck
      split_ifs at hcheck
      cases hcheck
    · rw [check_of_stuck h hc] at hcheck
      split_ifs at hcheck with hdue
      · exact ⟨front, c, rest, rfl, hdue ▸ h⟩
      · cases hcheck
  · rintro ⟨front, c, rest, rfl, h⟩
    exact check_of_stuck h rfl

/-! ## Byte by byte -/

/-- What is due after bytes, each of which is taken for a character. -/
def readBytes (due : Due) (bytes : List UInt8) : Option Due :=
  bytes.foldlM (fun due b => step due (Char.ofNat b.toNat)) due

theorem readBytes_append (due : Due) (bytes bytes' : List UInt8) :
    readBytes due (bytes ++ bytes') = (readBytes due bytes).bind (readBytes · bytes') :=
  List.foldlM_append

/-- Characters outside the ASCII range may stand in names only. -/
theorem step_of_not_ascii (hc : 128 ≤ c.toNat) :
    step due c = match due with
      | .className place _ => some (.className place true)
      | _ => none := by
  have hne : ∀ x : Char, x.toNat < 128 → c ≠ x := by
    rintro x hx rfl
    omega
  have htype : ∀ place, stepType place c = none := fun place => by
    have hascii : ∀ x ∈ primitives, x.toNat < 128 := by simp [primitives]
    have hprimitive : c ∉ primitives := fun hmem => hne c (hascii c hmem) rfl
    rw [stepType, if_neg hprimitive, if_neg (hne 'L' (by decide)), if_neg (hne '[' (by decide))]
  cases due with
  | opening => exact if_neg (hne '(' (by decide))
  | arguments => exact (if_neg (hne ')' (by decide))).trans (htype _)
  | result => exact (if_neg (hne 'V' (by decide))).trans (htype _)
  | type place => exact htype place
  | className place named => exact if_neg (hne ';' (by decide))
  | nothing => rfl

theorem toNat_ofNat_byte (b : UInt8) : (Char.ofNat b.toNat).toNat = b.toNat := by
  have hb := b.toNat_lt
  exact toNat_ofNat (.inl (by omega))

/-- A name goes on with each byte of a character outside the ASCII range, and nothing else goes on
with the first of them. -/
theorem readBytes_of_not_ascii {bytes : List UInt8} (hne : bytes ≠ [])
    (hbytes : ∀ b ∈ bytes, 128 ≤ b.toNat) (hc : 128 ≤ c.toNat) :
    readBytes due bytes = step due c := by
  induction bytes generalizing due with
  | nil => exact absurd rfl hne
  | cons b bytes ih =>
    obtain ⟨hb, hbytes⟩ := List.forall_mem_cons.1 hbytes
    have hstep : step due (Char.ofNat b.toNat) = step due c := by
      rw [step_of_not_ascii hc, step_of_not_ascii ((toNat_ofNat_byte b).symm ▸ hb)]
    rw [readBytes, List.foldlM_cons, hstep]
    by_cases hrest : bytes = []
    · rw [hrest]
      exact bind_pure (step due c)
    · have hagain : (step due c).bind (step · c) = step due c := by
        rw [step_of_not_ascii hc]
        cases due with
        | className place named => exact @step_of_not_ascii (.className place true) c hc
        | _ => rfl
      exact (congrArg (Option.bind _) (funext fun next => ih hrest hbytes)).trans hagain

theorem readBytes_utf8EncodeChar (due : Due) (c : Char) :
    readBytes due (String.utf8EncodeChar c) = step due c := by
  by_cases hc : c.toNat < 128
  · have hself : (UInt8.ofNat c.toNat).toNat = c.toNat := by
      rw [UInt8.toNat_ofNat']
      omega
    have hchar : Char.ofNat (UInt8.ofNat c.toNat).toNat = c := by rw [hself, Char.ofNat_toNat]
    rw [utf8EncodeChar_of_ascii hc, readBytes, List.foldlM_cons, hchar]
    exact bind_pure (step due c)
  · have hc := Nat.le_of_not_lt hc
    exact readBytes_of_not_ascii String.utf8EncodeChar_ne_nil (fun b => not_ascii_of_mem hc) hc

/-- Reading the bytes of a text comes to what reading its characters does. -/
theorem readBytes_flatMap (due : Due) (cs : List Char) :
    readBytes due (cs.flatMap String.utf8EncodeChar) = readChars due cs := by
  induction cs generalizing due with
  | nil => rfl
  | cons c cs ih =>
    rw [List.flatMap_cons, readBytes_append, readBytes_utf8EncodeChar, readChars, List.foldlM_cons]
    exact congrArg (Option.bind _) (funext ih)

/-- A character that cannot be read goes wrong with its first byte, which is the one reported. -/
theorem exists_byte_of_step (hc : step due c = none) :
    ∃ b bytes, String.utf8EncodeChar c = b :: bytes ∧ shownTag c = Char.ofNat b.toNat ∧
      readBytes due [b] = none := by
  obtain ⟨b, bytes, hcode⟩ :=
    List.exists_cons_of_ne_nil (@String.utf8EncodeChar_ne_nil c)
  refine ⟨b, bytes, hcode, by rw [shownTag, hcode]; rfl, ?_⟩
  by_cases hascii : c.toNat < 128
  · have hb : String.utf8EncodeChar c = [b] := by
      rw [utf8EncodeChar_of_ascii hascii] at hcode ⊢
      rw [(List.cons.inj hcode).1]
    rw [← hb, readBytes_utf8EncodeChar, hc]
  · have hascii := Nat.le_of_not_lt hascii
    have hb : 128 ≤ b.toNat := not_ascii_of_mem hascii (hcode ▸ List.mem_cons_self)
    rw [readBytes_of_not_ascii (List.cons_ne_nil b []) (by simpa using hb) hascii, hc]

/-! ## What a check says -/

/-- Whether a text is what another one begins with, and shorter. -/
def IsBeginning (front whole : String) : Prop := ∃ rest, rest ≠ "" ∧ front ++ rest = whole

/-- Whether a text goes wrong with a byte: some right text has the bytes before it, and none has
them and the byte. -/
def GoesWrongWith (Right : String → Prop) (desc : String) (b : UInt8) : Prop :=
  ∃ front, front ++ [b] <+: encodeUtf8 desc ∧
    (∃ whole, Right whole ∧ front <+: encodeUtf8 whole) ∧
      ∀ whole, Right whole → ¬ front ++ [b] <+: encodeUtf8 whole

/-- Whether a check tells the right texts from the others, and says what is wrong with these. -/
structure Decides (verdict : String → Except Fault Unit) (Right : String → Prop) : Prop where
  /-- Exactly the right texts pass. -/
  ok_iff (desc : String) : verdict desc = .ok () ↔ Right desc
  /-- A text is too short if it is the beginning of a right one. -/
  unexpectedEnd_iff (desc : String) :
    verdict desc = .error .unexpectedEnd ↔ ∃ whole, Right whole ∧ IsBeginning desc whole
  /-- A text is too long if a right one is its beginning. -/
  trailingData_iff (desc : String) :
    verdict desc = .error .trailingData ↔ ∃ front, Right front ∧ IsBeginning front desc
  /-- Any other text that is not right goes wrong with the byte that is reported. -/
  unexpectedTag (desc : String) (hright : ¬ Right desc)
    (hend : ∀ whole, Right whole → ¬ IsBeginning desc whole)
    (htrailing : ∀ front, Right front → ¬ IsBeginning front desc) :
    ∃ tag b, verdict desc = .error (.unexpectedTag tag) ∧ shownTag tag = Char.ofNat b.toNat ∧
      GoesWrongWith Right desc b

section Verdict

variable {start : Due} {Right : String → Prop} {desc : String}

/-- The texts that are too short stop where something is due. -/
theorem exists_whole_iff (hright : ∀ desc, Right desc ↔ start.Takes desc.toList) :
    (∃ whole, Right whole ∧ IsBeginning desc whole) ↔
      ∃ due, readChars start desc.toList = some due ∧ due ≠ .nothing := by
  constructor
  · rintro ⟨whole, hwhole, rest, hrest, rfl⟩
    rw [hright, ← readChars_eq_nothing_iff, String.toList_append, readChars_append] at hwhole
    obtain ⟨due, hdue, hnothing⟩ := Option.bind_eq_some_iff.1 hwhole
    refine ⟨due, hdue, ?_⟩
    rintro rfl
    have hempty := readChars_nothing (Option.isSome_of_eq_some hnothing)
    exact hrest (String.toList_inj.1 (hempty.trans String.toList_empty.symm))
  · rintro ⟨due, hdue, hne⟩
    obtain ⟨rest, hrest⟩ := exists_takes due
    refine ⟨desc ++ String.ofList rest, ?_, String.ofList rest, ?_, rfl⟩
    · rw [hright, ← readChars_eq_nothing_iff, String.toList_append, String.toList_ofList,
        readChars_append, hdue]
      exact readChars_eq_nothing_iff.2 hrest
    · rintro hempty
      have hnil : rest = [] := by simpa using congrArg String.toList hempty
      exact hne (takes_nil_iff.1 (hnil ▸ hrest))

/-- The texts that are too long go on where nothing is due. -/
theorem exists_front_iff (hright : ∀ desc, Right desc ↔ start.Takes desc.toList) :
    (∃ front, Right front ∧ IsBeginning front desc) ↔
      ∃ front c rest, desc.toList = front ++ c :: rest ∧
        readChars start front = some .nothing := by
  constructor
  · rintro ⟨front, hfront, rest, hrest, rfl⟩
    have hne : rest.toList ≠ [] := fun h =>
      hrest (String.toList_inj.1 (h.trans String.toList_empty.symm))
    obtain ⟨c, cs, hcs⟩ := List.exists_cons_of_ne_nil hne
    refine ⟨front.toList, c, cs, ?_, readChars_eq_nothing_iff.2 ((hright front).1 hfront)⟩
    rw [String.toList_append, hcs]
  · rintro ⟨front, c, rest, hdesc, hread⟩
    refine ⟨String.ofList front, ?_, String.ofList (c :: rest), ?_, ?_⟩
    · rw [hright, String.toList_ofList]
      exact readChars_eq_nothing_iff.1 hread
    · intro hempty
      simpa using congrArg String.toList hempty
    · exact String.toList_inj.1 (by simp [hdesc])

/-- A text that gets stuck goes wrong with the first byte of the character where it does. -/
theorem exists_goesWrongWith (hright : ∀ desc, Right desc ↔ start.Takes desc.toList)
    (hdesc : desc.toList = front ++ c :: rest) (hfront : readChars start front = some due)
    (hc : step due c = none) :
    ∃ b, shownTag c = Char.ofNat b.toNat ∧ GoesWrongWith Right desc b := by
  obtain ⟨b, bytes, hcode, hshown, hb⟩ := exists_byte_of_step hc
  have hbytes : readBytes start (front.flatMap String.utf8EncodeChar ++ [b]) = none := by
    rw [readBytes_append, readBytes_flatMap, hfront]
    exact hb
  refine ⟨b, hshown, front.flatMap String.utf8EncodeChar, ?_, ?_, fun whole hwhole => ?_⟩
  · rw [encodeUtf8_eq_flatMap, hdesc, List.flatMap_append, List.flatMap_cons, hcode]
    exact ⟨bytes ++ rest.flatMap String.utf8EncodeChar, by simp⟩
  · obtain ⟨rest, hrest⟩ := isSome_readChars_iff.1 (Option.isSome_of_eq_some hfront)
    refine ⟨String.ofList (front ++ rest), (hright _).2 (by rwa [String.toList_ofList]), ?_⟩
    rw [encodeUtf8_eq_flatMap, String.toList_ofList, List.flatMap_append]
    exact List.prefix_append _ _
  · rintro ⟨more, hmore⟩
    have hread := readChars_eq_nothing_iff.2 ((hright whole).1 hwhole)
    rw [← readBytes_flatMap, ← encodeUtf8_eq_flatMap, ← hmore, readBytes_append, hbytes] at hread
    cases hread

/-- The machine decides the texts that complete a descriptor from its start. -/
theorem decides_check (hright : ∀ desc, Right desc ↔ start.Takes desc.toList) :
    Decides (fun desc => check start desc.toList) Right where
  ok_iff desc := by rw [hright, ← readChars_eq_nothing_iff, check_eq_ok_iff]
  unexpectedEnd_iff desc := by rw [exists_whole_iff hright, check_eq_unexpectedEnd_iff]
  trailingData_iff desc := by rw [exists_front_iff hright, check_eq_trailingData_iff]
  unexpectedTag desc hnot hend htrailing := by
    rcases exists_stop start desc.toList with ⟨due, h⟩ | ⟨front, c, rest, due, hdesc, h, hc⟩
    · by_cases hdue : due = .nothing
      · exact absurd ((hright desc).2 (readChars_eq_nothing_iff.1 (hdue ▸ h))) hnot
      · obtain ⟨whole, hwhole, hbeginning⟩ := (exists_whole_iff hright).2 ⟨due, h, hdue⟩
        exact absurd hbeginning (hend whole hwhole)
    · have hdue : due ≠ .nothing := by
        rintro rfl
        obtain ⟨short, hshort, hbeginning⟩ :=
          (exists_front_iff hright).2 ⟨front, c, rest, hdesc, h⟩
        exact htrailing short hshort hbeginning
      obtain ⟨b, hshown, hwrong⟩ := exists_goesWrongWith hright hdesc h hc
      refine ⟨c, b, ?_, hshown, hwrong⟩
      rw [hdesc, check_of_stuck h hc, if_neg hdue]

end Verdict

/-- The checks of field and method descriptors decide the grammar, and report what is wrong. -/
theorem decides_checkField_checkMethod :
    Decides checkField IsFieldDescriptor ∧ Decides checkMethod IsMethodDescriptor := by
  refine ⟨decides_check fun desc => ?_, decides_check fun desc => Iff.rfl⟩
  constructor
  · exact fun h => ⟨desc.toList, [], h, rfl, (List.append_nil _).symm⟩
  · rintro ⟨t, rest, ht, rfl, heq⟩
    rwa [IsFieldDescriptor, heq, List.append_nil]

end StableNaming.Descriptor
