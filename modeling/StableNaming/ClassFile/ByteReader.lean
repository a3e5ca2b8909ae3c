import StableNaming.ClassFile.Fault

/-!
# Reading bytes

A reader consumes a prefix of the bytes that are left and gives a value, or it
fails. Numbers are unsigned and big-endian.
-/

namespace StableNaming

/-- A step that consumes bytes. -/
abbrev ByteReader := StateT (List UInt8) (Except ClassFileFault)

namespace ByteReader

/-- Split off the first `n` elements, if there are that many. -/
def splitOff? {α : Type} : Nat → List α → Option (List α × List α)
  | 0, xs => some ([], xs)
  | _ + 1, [] => none
  | n + 1, x :: xs => (splitOff? n xs).map fun parts => (x :: parts.1, parts.2)

theorem splitOff?_append {α : Type} (xs ys : List α) :
    splitOff? xs.length (xs ++ ys) = some (xs, ys) := by
  induction xs with
  | nil => rfl
  | cons x xs ih => simp [splitOff?, ih]

theorem append_of_splitOff? {α : Type} {n : Nat} {xs : List α} {parts : List α × List α}
    (h : splitOff? n xs = some parts) : parts.1.length = n ∧ parts.1 ++ parts.2 = xs := by
  induction n generalizing xs parts with
  | zero =>
    simp only [splitOff?, Option.some.injEq] at h
    simp [← h]
  | succ n ih =>
    cases xs with
    | nil => simp [splitOff?] at h
    | cons x xs =>
      obtain ⟨tail, htail, rfl⟩ := Option.map_eq_some_iff.1 h
      simp [ih htail]

/-- Consume exactly `n` bytes. -/
def take (n : Nat) : ByteReader (List UInt8) := fun bytes =>
  match splitOff? n bytes with
  | some parts => .ok parts
  | none => .error .unexpectedEnd

/-- The number that a row of bytes denotes, most significant byte first. -/
def bigEndian (bytes : List UInt8) : Nat :=
  bytes.foldl (fun n b => n * 256 + b.toNat) 0

/-- Consume a number of `n` bytes. -/
def number (n : Nat) : ByteReader Nat := do
  let bytes ← take n
  pure (bigEndian bytes)

/-- Consume a one-byte number. -/
def u1 : ByteReader Nat := number 1

/-- Consume a two-byte number. -/
def u2 : ByteReader Nat := number 2

/-- Consume a four-byte number. -/
def u4 : ByteReader Nat := number 4

/-- Run a reader `n` times. -/
def times {α : Type} (reader : ByteReader α) : Nat → ByteReader (List α)
  | 0 => pure []
  | n + 1 => do
    let x ← reader
    let xs ← times reader n
    pure (x :: xs)

/-- Run a reader on bytes of its own; what it leaves of them is ignored. -/
def within {α : Type} (reader : ByteReader α) (bytes : List UInt8) : ByteReader α := do
  match reader bytes with
  | .ok result => pure result.1
  | .error fault => throw fault

end ByteReader

end StableNaming
