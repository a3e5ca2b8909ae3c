import StableNaming.Symbol.Access

/-!
# Faults in class files and archives

Why bytes are no class file, and why an archive yields no class files.
-/

namespace StableNaming

/-- Why bytes are no class file. -/
inductive ClassFileFault where
  /-- The bytes stop before the class file is complete. -/
  | unexpectedEnd
  /-- The first four bytes are not those of a class file. -/
  | invalidMagic (found : Nat)
  /-- A constant has an unknown tag. -/
  | unsupportedConstant (tag : Nat)
  /-- No constant of the required kind stands at the index. -/
  | invalidConstantIndex (index : Nat)
  /-- The text constant at the index is not well formed. -/
  | invalidText (index : Nat)
  deriving Repr, DecidableEq

/-- The report of a fault. -/
def ClassFileFault.message : ClassFileFault → String
  | .unexpectedEnd => "unexpected end of class file"
  | .invalidMagic found =>
    "invalid class file magic header 0x" ++ String.ofList (Access.hexDigits 8 found)
  | .unsupportedConstant tag => "unsupported constant pool tag " ++ toString tag
  | .invalidConstantIndex index => "invalid constant pool index " ++ toString index
  | .invalidText index =>
    "malformed modified UTF-8 in constant pool entry " ++ toString index

/-- Why an archive yields no class files. -/
inductive ArchiveFault where
  /-- There is no such file. -/
  | missing
  /-- The file is no archive. -/
  | notAnArchive
  /-- An entry of the archive is no class file. -/
  | classFile (entry : String) (fault : ClassFileFault)
  deriving Repr, DecidableEq

/-- The report of a fault that concerns an entry. -/
def ArchiveFault.message : ArchiveFault → String
  | .missing => "no such archive"
  | .notAnArchive => "not an archive"
  | .classFile entry fault => "class parse error in " ++ entry ++ ": " ++ fault.message

end StableNaming
