import StableNaming.ClassFile.Decode

/-!
# Archives of class files

An archive is a list of named entries. The class files of the default version
count; descriptions of modules and packages do not.
-/

namespace StableNaming

/-- An archive as found on disk. -/
inductive Archive where
  /-- There is no file. -/
  | missing
  /-- The file is no archive. -/
  | unrecognised
  /-- Named entries in archive order. -/
  | entries (all : List (String × List UInt8))

namespace Archive

/-- Whether `s` begins with `start`. -/
def startsWith (start s : String) : Bool := start.toList.isPrefixOf s.toList

/-- Whether `s` finishes with `finish`. -/
def endsWith (finish s : String) : Bool := finish.toList.isSuffixOf s.toList

/-- Whether an entry is to be read as a class file. -/
def isClassEntry (name : String) : Bool :=
  endsWith ".class" name && !startsWith "META-INF/versions/" name &&
    name != "module-info.class" && !endsWith "/module-info.class" name &&
    !endsWith "package-info.class" name

/-- Decode one entry. -/
def decodeEntry (entry : String × List UInt8) : Except ArchiveFault ClassFile :=
  match ClassFile.decode entry.2 with
  | .ok file => .ok file
  | .error fault => .error (.classFile entry.1 fault)

/-- The class files of an archive, in archive order; the first fault wins. -/
def classFiles : Archive → Except ArchiveFault (List ClassFile)
  | missing => .error .missing
  | unrecognised => .error .notAnArchive
  | entries all => (all.filter fun entry => isClassEntry entry.1).mapM decodeEntry

end Archive

end StableNaming
