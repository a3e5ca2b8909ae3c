import Mathlib.Algebra.Order.Group.Nat
import Mathlib.Data.List.Basic
import StableNaming.ClassFile.Decode
import StableNaming.Proofs.Collection.Fold

/-!
# What readers take

A reader that takes some bytes gives the same value whatever follows them. Readers one after the
other take what each of them takes, in that order; a number is taken from its bytes.
-/

namespace StableNaming

namespace ByteReader

variable {α β : Type} {r : ByteReader α} {f : α → ByteReader β} {front front' : List UInt8} {x : α}
  {y : β} {n width : Nat}

/-- Whether a reader takes these bytes off whatever begins with them, and gives the value. -/
def Reads (r : ByteReader α) (front : List UInt8) (x : α) : Prop :=
  ∀ rest, r (front ++ rest) = .ok (x, rest)

/-- The second of two readers goes on where the first one stops. -/
theorem bind_apply (r : ByteReader α) (f : α → ByteReader β) (bytes : List UInt8) :
    (r >>= f) bytes = r bytes >>= fun result => f result.1 result.2 :=
  rfl

/-- Making a value of what is read takes no bytes. -/
theorem bind_pure_apply (r : ByteReader α) (g : α → β) (bytes : List UInt8) :
    (r >>= fun x => pure (g x)) bytes = (r bytes).map fun result => (g result.1, result.2) := by
  rw [bind_apply]
  cases r bytes <;> rfl

/-- Reading bytes of their own takes none of the others. -/
theorem within_eq (r : ByteReader α) (body : List UInt8) :
    within r body = liftM ((r body).map Prod.fst) := by
  unfold within
  cases r body <;> rfl

theorem reads_pure (x : α) : Reads (pure x) [] x := fun _ => rfl

/-- What follows the bytes of the first reader is left to the second one. -/
theorem Reads.bind_append (hr : Reads r front x) (f : α → ByteReader β) (rest : List UInt8) :
    (r >>= f) (front ++ rest) = f x rest := by
  rw [bind_apply, hr]
  rfl

/-- A fault of the first reader ends the second one. -/
theorem bind_of_eq_error {bytes : List UInt8} {fault : ClassFileFault}
    (h : r bytes = .error fault) (f : α → ByteReader β) : (r >>= f) bytes = .error fault := by
  rw [bind_apply, h]
  rfl

theorem Reads.bind (hr : Reads r front x) (hf : Reads (f x) front' y) :
    Reads (r >>= f) (front ++ front') y := by
  intro rest
  rw [List.append_assoc, hr.bind_append]
  exact hf rest

/-- A reader that takes nothing leaves everything to the next one. -/
theorem Reads.bind_nil (hr : Reads r [] x) (hf : Reads (f x) front y) : Reads (r >>= f) front y :=
  hr.bind hf

/-- The last reader may take nothing. -/
theorem Reads.bind_last (hr : Reads r front x) (hf : Reads (f x) [] y) :
    Reads (r >>= f) front y := by
  have h := hr.bind hf
  rwa [List.append_nil] at h

/-- A value made of what is read. -/
theorem Reads.map (hr : Reads r front x) (g : α → β) :
    Reads (r >>= fun x => pure (g x)) front (g x) :=
  hr.bind_last (f := fun x => pure (g x)) (reads_pure (g x))

theorem reads_lift {e : Except ClassFileFault α} (he : e = .ok x) :
    Reads (liftM e : ByteReader α) [] x := by
  intro rest
  rw [he]
  rfl

/-- Bytes of its own are taken by a reader, and none of the others. -/
theorem Reads.within (hr : Reads r front x) : Reads (within r front) [] x := by
  have h := hr []
  rw [List.append_nil] at h
  rw [within_eq, h]
  exact reads_lift rfl

theorem reads_take (front : List UInt8) : Reads (take front.length) front front := by
  intro rest
  rw [take, splitOff?_append]

/-- One reader after the other takes the bytes of a row of values. -/
theorem reads_times {parts : List (List UInt8)} {xs : List α}
    (h : List.Forall₂ (Reads r) parts xs) : Reads (times r xs.length) parts.flatten xs := by
  induction h with
  | nil => exact reads_pure []
  | cons hpart _ ih => exact hpart.bind (ih.map _)

/-! ## Numbers -/

/-- The bytes of a number, most significant byte first. -/
def bytesOf : Nat → Nat → List UInt8
  | 0, _ => []
  | width + 1, n => bytesOf width (n / 256) ++ [UInt8.ofNat n]

@[simp] theorem length_bytesOf (width n : Nat) : (bytesOf width n).length = width := by
  induction width generalizing n with
  | zero => rfl
  | succ width ih => rw [bytesOf, List.length_append, ih, List.length_singleton]

theorem bigEndian_concat (bytes : List UInt8) (b : UInt8) :
    bigEndian (bytes ++ [b]) = bigEndian bytes * 256 + b.toNat := by
  rw [bigEndian, List.foldl_append]
  rfl

/-- A number that has room in its bytes is what they denote. -/
theorem bigEndian_bytesOf (h : n < 256 ^ width) : bigEndian (bytesOf width n) = n := by
  induction width generalizing n with
  | zero =>
    have hzero : n = 0 := by simpa using h
    rw [hzero]
    rfl
  | succ width ih =>
    have hhigh : n / 256 < 256 ^ width := by
      rw [Nat.pow_succ] at h
      exact Nat.div_lt_of_lt_mul (Nat.mul_comm _ _ ▸ h)
    rw [bytesOf, bigEndian_concat, ih hhigh, UInt8.toNat_ofNat']
    omega

theorem reads_number (h : n < 256 ^ width) : Reads (number width) (bytesOf width n) n := by
  have htake := (reads_take (bytesOf width n)).map bigEndian
  rwa [length_bytesOf, bigEndian_bytesOf h] at htake

theorem reads_u1 (h : n < 256) : Reads u1 (bytesOf 1 n) n := reads_number h

theorem reads_u2 (h : n < 65536) : Reads u2 (bytesOf 2 n) n := reads_number h

theorem reads_u4 (h : n < 4294967296) : Reads u4 (bytesOf 4 n) n := reads_number h

end ByteReader

/-! ## The parts of a class file -/

namespace ClassFile

open ByteReader

variable {bytes : List UInt8} {file : ClassFile} {fault : ClassFileFault}

/-- Read what stands between the constants and the attributes. -/
def readHead (constants : Constants) : ByteReader ClassFile := do
  let access ← u2
  let thisIndex ← u2
  let superIndex ← u2
  let name ← constants.className thisIndex
  let interfaceCount ← u2
  let interfaces ← times (readReference constants.className) interfaceCount
  let fields ← readMembers constants
  let methods ← readMembers constants
  let superName ← Constants.optional constants.className superIndex
  pure { name, access := ⟨UInt16.ofNat access⟩, superName, interfaces, fields, methods }

/-- Read the attributes of a class. -/
def readAttributes (constants : Constants) (file : ClassFile) : ByteReader ClassFile := do
  let attributes ← u2
  iterate (readAttribute constants) attributes file

/-- Read what follows the number that every class file starts with. -/
def readContents : ByteReader ClassFile := do
  let _minorVersion ← u2
  let _majorVersion ← u2
  let constants ← Constants.read
  let file ← readHead constants
  readAttributes constants file

theorem reads_body {body : List UInt8} (h : body.length < 4294967296) :
    Reads readBody (bytesOf 4 body.length ++ body) body :=
  (reads_u4 h).bind (reads_take body)

/-- A class file is the number, and then its contents. -/
theorem read_eq : ClassFile.read = u4 >>= fun found =>
    if found = magic then readContents else throw (.invalidMagic found) := by
  unfold ClassFile.read readContents readHead readAttributes
  simp only [bind_assoc, pure_bind]
  refine congrArg (bind u4) (funext fun found => ?_)
  by_cases hfound : found = magic
  · rw [if_pos hfound, if_neg (not_not_intro hfound)]
  · rw [if_neg hfound, if_pos hfound]
    rfl

theorem decode_eq_ok_iff :
    decode bytes = .ok file ↔ ∃ rest, ClassFile.read bytes = .ok (file, rest) := by
  rw [decode]
  cases ClassFile.read bytes with
  | error fault => simp [Except.map]
  | ok result => simp [Except.map, Prod.ext_iff]

theorem decode_eq_error_iff :
    decode bytes = .error fault ↔ ClassFile.read bytes = .error fault := by
  rw [decode]
  cases ClassFile.read bytes <;> simp [Except.map]

/-- What stands before the constants: the number, two numbers of a version, and the number of
indices. -/
def preamble (minor major count : Nat) : List UInt8 :=
  bytesOf 4 magic ++ (bytesOf 2 minor ++ (bytesOf 2 major ++ bytesOf 2 count))

/-- The parts of a class file are read one after the other, and nothing after them. -/
theorem decode_of_reads {minor major count : Nat} {entries members attributes : List UInt8}
    {constants : Constants} {head : ClassFile} (hminor : minor < 65536) (hmajor : major < 65536)
    (hconstants : Reads Constants.read (bytesOf 2 count ++ entries) constants)
    (hhead : Reads (readHead constants) members head)
    (hattributes : Reads (readAttributes constants head) attributes file)
    (trailing : List UInt8) :
    decode (preamble minor major count ++ (entries ++ (members ++ attributes)) ++ trailing) =
      .ok file := by
  have hcontents : Reads readContents (bytesOf 2 minor ++ (bytesOf 2 major ++
      ((bytesOf 2 count ++ entries) ++ (members ++ attributes)))) file :=
    (reads_u2 hminor).bind ((reads_u2 hmajor).bind (hconstants.bind (hhead.bind hattributes)))
  have hmagic : Reads u4 (bytesOf 4 magic) magic := reads_u4 (by decide)
  have hread := hcontents trailing
  simp only [List.append_assoc] at hread
  refine decode_eq_ok_iff.2 ⟨trailing, ?_⟩
  rw [read_eq, preamble]
  simp only [List.append_assoc]
  rw [hmagic.bind_append, if_pos rfl, hread]

end ClassFile

end StableNaming
