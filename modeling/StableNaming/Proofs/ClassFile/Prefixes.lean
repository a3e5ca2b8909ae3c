import StableNaming.Proofs.ClassFile.Reading

/-!
# Class files cut short and followed by more

Every reader takes its bytes in order and asks for more only when it needs them. So a class file is
decided by the bytes that it takes: whatever follows them changes nothing, and without the last of
them the bytes run out, and nothing else is wrong. Likewise any other fault is decided by the bytes
that are there when it is found.
-/

namespace StableNaming

variable {α β : Type}

namespace ByteReader

variable {r : ByteReader α} {f : α → ByteReader β} {front bytes rest : List UInt8} {x : α}

/-- The second of two steps is at fault, if the first one is not. -/
theorem bind_eq_error_iff {e : Except ClassFileFault α} {g : α → Except ClassFileFault β}
    {fault : ClassFileFault} :
    e >>= g = .error fault ↔ e = .error fault ∨ ∃ a, e = .ok a ∧ g a = .error fault := by
  cases e with
  | error fault' =>
    constructor
    · exact fun h => .inl (congrArg Except.error (Except.error.inj h))
    · rintro (h | ⟨a, h, -⟩)
      · exact congrArg Except.error (Except.error.inj h)
      · cases h
  | ok a =>
    constructor
    · exact fun h => .inr ⟨a, rfl, h⟩
    · rintro (h | ⟨a', h, hg⟩)
      · cases h
      · obtain rfl := Except.ok.inj h
        exact hg

/-- Whether the bytes run out on everything that stops before the end of these. -/
def NeedsAll (r : ByteReader α) (front : List UInt8) : Prop :=
  ∀ short more, more ≠ [] → short ++ more = front → r short = .error .unexpectedEnd

/-- A reader that takes nothing needs nothing. -/
theorem needsAll_nil (r : ByteReader α) : NeedsAll r [] := fun _ _ hmore h =>
  absurd (List.append_eq_nil_iff.1 h).2 hmore

/-- What two readers need is what the first one needs, and then what the second one does. -/
theorem NeedsAll.bind {front' : List UInt8} (hr : Reads r front x) (hneeds : NeedsAll r front)
    (hneeds' : NeedsAll (f x) front') : NeedsAll (r >>= f) (front ++ front') := by
  have hsecond : ∀ short more, more ≠ [] → short ++ more = front' →
      (r >>= f) (front ++ short) = .error .unexpectedEnd := fun short more hmore h => by
    rw [bind_apply, hr]
    exact hneeds' short more hmore h
  intro short more hmore h
  rcases List.append_eq_append_iff.1 h with ⟨left, rfl, rfl⟩ | ⟨left, rfl, rfl⟩
  · by_cases hleft : left = []
    · -- the first reader has all its bytes, and the second one has none
      have hnone := hsecond [] front' (by simpa [hleft] using hmore) rfl
      rwa [hleft, List.append_nil, List.append_nil] at hnone
    · rw [bind_apply, hneeds short left hleft rfl]
      rfl
  · exact hsecond left more hmore rfl

/-- Whether a reader takes its bytes in order. -/
structure InOrder (r : ByteReader α) : Prop where
  /-- It takes the bytes that it needs, whatever follows them. -/
  exists_reads {bytes rest : List UInt8} {x : α} (h : r bytes = .ok (x, rest)) :
    ∃ front, front ++ rest = bytes ∧ Reads r front x ∧ NeedsAll r front
  /-- A fault is found in the bytes that are there. -/
  fault_append {bytes : List UInt8} {fault : ClassFileFault} (h : r bytes = .error fault)
    (hfault : fault ≠ .unexpectedEnd) (more : List UInt8) : r (bytes ++ more) = .error fault

theorem inOrder_pure (x : α) : InOrder (pure x : ByteReader α) where
  exists_reads h := by
    cases h
    exact ⟨[], rfl, reads_pure x, needsAll_nil _⟩
  fault_append h := by cases h

theorem inOrder_throw (fault : ClassFileFault) : InOrder (throw fault : ByteReader α) where
  exists_reads h := by cases h
  fault_append h _ _ := by
    cases h
    rfl

theorem inOrder_lift (e : Except ClassFileFault α) : InOrder (liftM e : ByteReader α) := by
  cases e with
  | ok x => exact inOrder_pure x
  | error fault => exact inOrder_throw fault

theorem inOrder_within (r : ByteReader α) (body : List UInt8) : InOrder (within r body) := by
  rw [within_eq]
  exact inOrder_lift _

theorem inOrder_take (n : Nat) : InOrder (take n) where
  exists_reads {bytes rest x} h := by
    rw [take] at h
    split at h
    · rename_i parts hparts
      obtain ⟨hlength, happend⟩ := append_of_splitOff? hparts
      obtain rfl := Except.ok.inj h
      refine ⟨x, happend, hlength ▸ reads_take x, fun short more hmore hshort => ?_⟩
      have hnone : splitOff? n short = none := by
        refine Option.eq_none_iff_forall_ne_some.2 fun parts hparts => ?_
        have hpositive := List.length_pos_iff.2 hmore
        have hsum := congrArg List.length hshort
        have hshort := congrArg List.length (append_of_splitOff? hparts).2
        have hfront := (append_of_splitOff? hparts).1
        rw [List.length_append] at hsum hshort
        simp only at hlength
        omega
      rw [take, hnone]
    · cases h
  fault_append {bytes fault} h hfault more := by
    rw [take] at h
    split at h
    · cases h
    · exact absurd (Except.error.inj h).symm hfault

theorem InOrder.bind (hr : InOrder r) (hf : ∀ x, InOrder (f x)) : InOrder (r >>= f) where
  exists_reads {bytes rest y} h := by
    rw [bind_apply] at h
    obtain ⟨⟨x, middle⟩, hfirst, hsecond⟩ := bind_eq_ok_iff.1 h
    obtain ⟨front, rfl, hreads, hneeds⟩ := hr.exists_reads hfirst
    obtain ⟨front', rfl, hreads', hneeds'⟩ := (hf x).exists_reads hsecond
    exact ⟨front ++ front', List.append_assoc _ _ _, hreads.bind hreads',
      NeedsAll.bind hreads hneeds hneeds'⟩
  fault_append {bytes fault} h hfault more := by
    rw [bind_apply] at h ⊢
    rcases bind_eq_error_iff.1 h with hfirst | ⟨⟨x, middle⟩, hfirst, hsecond⟩
    · rw [hr.fault_append hfirst hfault]
      rfl
    · obtain ⟨front, rfl, hreads, -⟩ := hr.exists_reads hfirst
      rw [List.append_assoc, hreads]
      exact (hf x).fault_append hsecond hfault more

theorem inOrder_number (n : Nat) : InOrder (number n) :=
  (inOrder_take n).bind fun bytes => inOrder_pure (bigEndian bytes)

theorem InOrder.times (hr : InOrder r) (n : Nat) : InOrder (times r n) := by
  induction n with
  | zero => exact inOrder_pure []
  | succ n ih => exact hr.bind fun x => ih.bind fun xs => inOrder_pure (x :: xs)

end ByteReader

open ByteReader

/-! ## Constants -/

namespace Constants

theorem inOrder_skip (length : Nat) (wide : Bool) : InOrder (readConstant.skip length wide) :=
  (inOrder_take length).bind fun _ => inOrder_pure _

theorem inOrder_readConstant (index : Nat) : InOrder (readConstant index) := by
  refine (inOrder_number 1).bind fun tag => ?_
  split
  · refine (inOrder_number 2).bind fun length => (inOrder_take length).bind fun bytes => ?_
    split
    · exact inOrder_pure _
    · exact inOrder_throw _
  · exact (inOrder_number 2).bind fun _nameIndex => inOrder_pure _
  · exact (inOrder_number 2).bind fun _nameIndex => (inOrder_number 2).bind
      fun _descIndex => inOrder_pure _
  -- the other constants are passed over, and unknown ones refused
  all_goals first | exact inOrder_skip _ _ | exact inOrder_throw _

theorem inOrder_readFrom (afterWide : Bool) (index count : Nat) :
    InOrder (readFrom afterWide index count) := by
  induction count generalizing afterWide index with
  | zero => exact inOrder_pure []
  | succ count ih =>
    rw [readFrom]
    split
    · exact (ih _ _).bind fun _rest => inOrder_pure _
    · exact (inOrder_readConstant index).bind fun found => (ih _ _).bind fun _rest => inOrder_pure _

theorem inOrder_read : InOrder Constants.read :=
  (inOrder_number 2).bind fun _count => (inOrder_readFrom _ _ _).bind fun _rest => inOrder_pure _

end Constants

/-! ## The rest of a class file -/

namespace ClassFile

theorem inOrder_readReference (look : Nat → Except ClassFileFault α) :
    InOrder (readReference look) :=
  (inOrder_number 2).bind fun index => inOrder_lift (look index)

theorem inOrder_readBody : InOrder readBody :=
  (inOrder_number 4).bind fun length => inOrder_take length

theorem inOrder_iterate {step : α → ByteReader α} (hstep : ∀ x, InOrder (step x)) (count : Nat)
    (x : α) : InOrder (iterate step count x) := by
  induction count generalizing x with
  | zero => exact inOrder_pure x
  | succ count ih => exact (hstep x).bind fun x => ih x

theorem inOrder_readMemberAttribute (constants : Constants) (signature : Option String) :
    InOrder (readMemberAttribute constants signature) := by
  refine (inOrder_number 2).bind fun nameIndex => inOrder_readBody.bind fun bytes =>
    (inOrder_lift _).bind fun name => ?_
  split
  · exact (inOrder_within _ bytes).bind fun found => inOrder_pure _
  · exact inOrder_pure _

theorem inOrder_readMember (constants : Constants) : InOrder (readMember constants) :=
  (inOrder_number 2).bind fun _access => (inOrder_readReference _).bind fun _name =>
    (inOrder_readReference _).bind fun _desc => (inOrder_number 2).bind fun attributes =>
      (inOrder_iterate (inOrder_readMemberAttribute constants) attributes none).bind
        fun _signature => inOrder_pure _

theorem inOrder_readMembers (constants : Constants) : InOrder (readMembers constants) :=
  (inOrder_number 2).bind fun count => (inOrder_readMember constants).times count

theorem inOrder_readAttribute (constants : Constants) (file : ClassFile) :
    InOrder (readAttribute constants file) := by
  refine (inOrder_readReference _).bind fun name => inOrder_readBody.bind fun bytes => ?_
  split_ifs
  · exact (inOrder_within _ bytes).bind fun signature => inOrder_pure _
  · exact inOrder_within _ bytes
  · exact inOrder_within _ bytes
  · exact inOrder_pure file

theorem inOrder_readHead (constants : Constants) : InOrder (readHead constants) :=
  (inOrder_number 2).bind fun _access => (inOrder_number 2).bind fun thisIndex =>
    (inOrder_number 2).bind fun superIndex => (inOrder_lift (constants.className thisIndex)).bind
      fun _name => (inOrder_number 2).bind fun interfaces =>
        ((inOrder_readReference _).times interfaces).bind fun _interfaces =>
          (inOrder_readMembers constants).bind fun _fields =>
            (inOrder_readMembers constants).bind fun _methods =>
              (inOrder_lift (Constants.optional constants.className superIndex)).bind
                fun _superName => inOrder_pure _

theorem inOrder_readAttributes (constants : Constants) (file : ClassFile) :
    InOrder (readAttributes constants file) :=
  (inOrder_number 2).bind fun count => inOrder_iterate (inOrder_readAttribute constants) count file

theorem inOrder_readContents : InOrder readContents :=
  (inOrder_number 2).bind fun _minor => (inOrder_number 2).bind fun _major =>
    Constants.inOrder_read.bind fun constants => (inOrder_readHead constants).bind fun file =>
      inOrder_readAttributes constants file

theorem inOrder_read : InOrder ClassFile.read := by
  rw [read_eq]
  refine (inOrder_number 4).bind fun found => ?_
  split_ifs
  · exact inOrder_readContents
  · exact inOrder_throw _

/-- Bytes that hold a class file begin with the ones that are taken: with these the class file is
the same whatever follows, and with fewer the bytes run out. Any other fault stays as it is,
whatever follows. -/
theorem decode_front (bytes : List UInt8) :
    (∀ file, decode bytes = .ok file → ∃ n ≤ bytes.length,
      (∀ k ≥ n, decode (bytes.take k) = .ok file ∧
        ∀ more, decode (bytes.take k ++ more) = .ok file) ∧
      ∀ k < n, decode (bytes.take k) = .error .unexpectedEnd) ∧
    ∀ fault, decode bytes = .error fault → fault ≠ .unexpectedEnd →
      ∀ more, decode (bytes ++ more) = .error fault := by
  constructor
  · intro file h
    obtain ⟨rest, hread⟩ := decode_eq_ok_iff.1 h
    obtain ⟨front, rfl, hreads, hneeds⟩ := inOrder_read.exists_reads hread
    have hmore : ∀ more, decode (front ++ more) = .ok file := fun more =>
      decode_eq_ok_iff.2 ⟨more, hreads more⟩
    refine ⟨front.length, by simp, fun k hk => ?_, fun k hk => ?_⟩
    · rw [List.take_append, List.take_of_length_le hk]
      exact ⟨hmore _, fun more => by rw [List.append_assoc, hmore]⟩
    · rw [List.take_append_of_le_length (Nat.le_of_lt hk), decode_eq_error_iff]
      refine hneeds _ (front.drop k) ?_ (List.take_append_drop k front)
      rw [ne_eq, List.drop_eq_nil_iff]
      omega
  · intro fault h hfault more
    rw [decode_eq_error_iff] at h ⊢
    exact inOrder_read.fault_append h hfault more

/-- A class named `A`, with a byte after it. -/
def letterAndByte : List UInt8 :=
  preamble 0 52 3 ++
    [1, 0, 1, 0x41, 7, 0, 1, 0, 0x21, 0, 2, 0, 0, 0, 0, 0, 0, 0, 0, 0, 0, 0xFF]

/-- A class file that does not take all bytes, and bytes that begin with another number. -/
theorem decode_front_letterAndByte :
    (decode letterAndByte = .ok { name := "A", access := ⟨0x21⟩ } ∧
      ∃ n ≤ letterAndByte.length,
        (∀ k ≥ n, decode (letterAndByte.take k) = .ok { name := "A", access := ⟨0x21⟩ } ∧
          ∀ more, decode (letterAndByte.take k ++ more) =
            .ok { name := "A", access := ⟨0x21⟩ }) ∧
        ∀ k < n, decode (letterAndByte.take k) = .error .unexpectedEnd) ∧
    decode [0, 0, 0, 1] = .error (.invalidMagic 1) ∧
      ∀ more, decode ([0, 0, 0, 1] ++ more) = .error (.invalidMagic 1) := by
  have hletter : decode letterAndByte = .ok { name := "A", access := ⟨0x21⟩ } := by decide +kernel
  have hmagic : decode [0, 0, 0, 1] = .error (.invalidMagic 1) := by decide +kernel
  exact ⟨⟨hletter, (decode_front letterAndByte).1 _ hletter⟩, hmagic,
    (decode_front [0, 0, 0, 1]).2 _ hmagic (by decide)⟩

end ClassFile

end StableNaming
