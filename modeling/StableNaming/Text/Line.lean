import StableNaming.Text.Split

/-!
# Lines

A line ends at a line feed, and one carriage return directly before the line
feed belongs to the line end. What follows the last line feed is a line of its
own unless it is empty, and keeps its carriage return. A file is read as bytes;
a line that is not UTF-8 is a fault only when the reader gets to it, so lines
are handed out as `Option String`.
-/

namespace StableNaming.Text

/-- Drop one `last` at the end. -/
def dropOne {α : Type} [DecidableEq α] (last : α) (xs : List α) : List α :=
  if xs.getLast? = some last then xs.dropLast else xs

/-- The lines of a sequence with the given line feed and carriage return. -/
def linesWith {α : Type} [DecidableEq α] (feed carriage : α) (xs : List α) : List (List α) :=
  let pieces := splitWhere (· == feed) xs
  let rest := pieces.getLast?.filter (· ≠ [])
  pieces.dropLast.map (dropOne carriage) ++ rest.toList

/-- The lines of a text. -/
def lines (s : String) : List String :=
  (linesWith '\n' '\r' s.toList).map String.ofList

/-- Decode bytes that must be UTF-8 throughout. -/
def decodeUtf8? (bytes : List UInt8) : Option String :=
  String.fromUTF8? ⟨bytes.toArray⟩

/-- The UTF-8 bytes of a text. -/
def encodeUtf8 (s : String) : List UInt8 :=
  s.toUTF8.data.toList

/-- Decoding takes exactly the bytes of a text. -/
theorem decodeUtf8?_eq_some_iff {bytes : List UInt8} {s : String} :
    decodeUtf8? bytes = some s ↔ bytes = encodeUtf8 s := by
  constructor
  · intro h
    simp only [decodeUtf8?, String.fromUTF8?] at h
    split at h
    · simp only [Option.some.injEq] at h
      rw [← h]
      simp [encodeUtf8, String.fromUTF8]
    · simp at h
  · rintro rfl
    have h : (⟨(encodeUtf8 s).toArray⟩ : ByteArray) = s.toUTF8 := by simp [encodeUtf8]
    rw [decodeUtf8?, h]
    simp only [String.fromUTF8?, String.toUTF8_eq_toByteArray, dif_pos s.isValidUTF8]
    rfl

/-- The lines of a file, each decoded on its own; `none` is a line that is not UTF-8. -/
def fileLines (bytes : List UInt8) : List (Option String) :=
  (linesWith 10 13 bytes).map decodeUtf8?

end StableNaming.Text
