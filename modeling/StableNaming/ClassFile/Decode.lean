import StableNaming.ClassFile.Record
import StableNaming.ClassFile.Constants

/-!
# Decoding class files

The layout of a class file, field by field. Attributes that no name depends on
are passed over by their length, and so is whatever follows the class file.
-/

namespace StableNaming.ClassFile

open ByteReader

/-- The number that every class file starts with. -/
def magic : Nat := 0xCAFEBABE

/-- Read a two-byte index and look it up. -/
def readReference {α : Type} (look : Nat → Except ClassFileFault α) : ByteReader α := do
  let index ← u2
  look index

/-- Read the body of an attribute, with its length in front. -/
def readBody : ByteReader (List UInt8) := do
  let length ← u4
  take length

/-- Read one attribute of a member; a signature replaces the one found so far. -/
def readMemberAttribute (constants : Constants) (signature : Option String) :
    ByteReader (Option String) := do
  let nameIndex ← u2
  let bytes ← readBody
  let name ← constants.text nameIndex
  if name = "Signature" then
    let found ← within (readReference constants.text) bytes
    pure (some found)
  else
    pure signature

/-- Pass a value through `count` readers. -/
def iterate {α : Type} (reader : α → ByteReader α) : Nat → α → ByteReader α
  | 0, x => pure x
  | count + 1, x => do
    let x ← reader x
    iterate reader count x

/-- Read a field or method. -/
def readMember (constants : Constants) : ByteReader Member := do
  let access ← u2
  let name ← readReference constants.text
  let desc ← readReference constants.text
  let attributes ← u2
  let signature ← iterate (readMemberAttribute constants) attributes none
  pure ⟨⟨name, desc⟩, ⟨UInt16.ofNat access⟩, signature⟩

/-- Read members with their number in front. -/
def readMembers (constants : Constants) : ByteReader (List Member) := do
  let count ← u2
  times (readMember constants) count

/-- Read an entry of the list of inner classes. Only the entry for the class itself
counts; it says which class declares it, and under which name. -/
def readInnerClass (constants : Constants) (file : ClassFile) : ByteReader ClassFile := do
  let innerIndex ← u2
  let outerIndex ← u2
  let nameIndex ← u2
  let _access ← u2
  let inner ← constants.className innerIndex
  if inner = file.name then
    let declaring ← Constants.optional constants.className outerIndex
    let innerName ← Constants.optional constants.text nameIndex
    pure { file with declaring, innerName }
  else
    pure file

/-- Read the list of inner classes. -/
def readInnerClasses (constants : Constants) (file : ClassFile) : ByteReader ClassFile := do
  let count ← u2
  iterate (readInnerClass constants) count file

/-- Read where the class is enclosed. The method is looked up before the class. -/
def readEnclosure (constants : Constants) (file : ClassFile) : ByteReader ClassFile := do
  let classIndex ← u2
  let methodIndex ← u2
  let method ← Constants.optional constants.memberKey methodIndex
  let className ← constants.className classIndex
  pure { file with enclosure := some { className, method } }

/-- Read one attribute of the class. -/
def readAttribute (constants : Constants) (file : ClassFile) : ByteReader ClassFile := do
  let name ← readReference constants.text
  let bytes ← readBody
  if name = "Signature" then
    let signature ← within (readReference constants.text) bytes
    pure { file with signature := some signature }
  else if name = "InnerClasses" then
    within (readInnerClasses constants file) bytes
  else if name = "EnclosingMethod" then
    within (readEnclosure constants file) bytes
  else
    pure file

/-- Read a class file. -/
def read : ByteReader ClassFile := do
  let found ← u4
  if found ≠ magic then throw (.invalidMagic found)
  let _minorVersion ← u2
  let _majorVersion ← u2
  let constants ← Constants.read
  let access ← u2
  let thisIndex ← u2
  let superIndex ← u2
  let name ← constants.className thisIndex
  let interfaceCount ← u2
  let interfaces ← times (readReference constants.className) interfaceCount
  let fields ← readMembers constants
  let methods ← readMembers constants
  let superName ← Constants.optional constants.className superIndex
  let file : ClassFile :=
    { name, access := ⟨UInt16.ofNat access⟩, superName, interfaces, fields, methods }
  let attributes ← u2
  iterate (readAttribute constants) attributes file

/-- Decode the class file that the bytes start with. -/
def decode (bytes : List UInt8) : Except ClassFileFault ClassFile :=
  (read bytes).map Prod.fst

end StableNaming.ClassFile
