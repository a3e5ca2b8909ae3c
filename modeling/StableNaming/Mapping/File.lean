import StableNaming.Mapping.Fault

/-!
# Files

A file is its bytes, or nothing if it does not exist. A reader of bytes becomes
a reader of files: what is missing or no text is unreadable.
-/

namespace StableNaming

/-- The content of a file that may not exist. -/
abbrev File := Option (List UInt8)

/-- Read a file with a reader of bytes. -/
def File.readWith {α : Type} (read : List UInt8 → Except MappingFault α) :
    File → Except MappingFault α
  | none => .error .unreadable
  | some bytes =>
    match read bytes with
    | .error .invalidText => .error .unreadable
    | outcome => outcome

end StableNaming
