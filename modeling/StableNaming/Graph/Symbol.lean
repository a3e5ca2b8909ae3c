import StableNaming.ClassFile.Record
import StableNaming.Collection.KeyMap
import StableNaming.Symbol.Name

/-!
# Symbols of a class graph

A class graph numbers its classes and its methods. Classes refer to methods by
number, so that several classes can hold one and the same method; edges of the
hierarchy are class names, so that they can point outside the graph.
-/

namespace StableNaming

/-- The number of a class in its graph. -/
abbrev ClassId := Nat

/-- The number of a method in its graph. -/
abbrev MethodId := Nat

/-- A method, as shared by the classes that hold it. -/
structure MethodSymbol extends Member where
  /-- The class whose class file declares the method. -/
  owner : String
  /-- The classes that share the method, by name; empty if there is only one. -/
  related : List String := []
  deriving Repr, DecidableEq, Inhabited

/-- A class of the graph. A class that is only known as the container of others has
no members and is not loaded. -/
structure ClassSymbol where
  /-- Name of the class. -/
  name : String
  /-- Whether a class file describes the class. -/
  loaded : Bool := false
  /-- Access flags. -/
  access : Access := {}
  /-- The generic signature. -/
  signature : Option String := none
  /-- Name of the super class. -/
  superName : Option String := none
  /-- Names of the interfaces. -/
  interfaces : List String := []
  /-- Classes of the graph whose super class this is. -/
  subclasses : List String := []
  /-- Classes of the graph that list this one among their interfaces. -/
  implementers : List String := []
  /-- The class that declares this one as a member. -/
  declaring : Option String := none
  /-- The name inside the container. -/
  innerName : Option String := none
  /-- Where a local or anonymous class is defined. -/
  enclosure : Option Enclosure := none
  /-- Declared fields. -/
  fields : KeyMap Member := .empty
  /-- Declared methods. -/
  methods : KeyMap MethodId := .empty
  /-- The class that contains this one. -/
  outer : Option ClassId := none
  /-- The classes that this one contains. -/
  inner : List ClassId := []
  deriving Repr, DecidableEq

instance : Inhabited ClassSymbol := ⟨{ name := "" }⟩

namespace ClassSymbol

/-- The last segment of the name. -/
def simpleName (c : ClassSymbol) : String := simpleSegment c.name

/-- Defined inside a body, without a name. -/
def isAnonymous (c : ClassSymbol) : Bool := c.enclosure.isSome && c.innerName.isNone

/-- Defined inside a body, with a name. -/
def isLocal (c : ClassSymbol) : Bool := c.enclosure.isSome && c.innerName.isSome

/-- Whether the class is an interface. -/
def isInterface (c : ClassSymbol) : Bool := c.access.isInterface

/-- The super class followed by the interfaces. -/
def supertypeNames (c : ClassSymbol) : List String := c.superName.toList ++ c.interfaces

/-- The subclasses followed by the implementers. -/
def subtypeNames (c : ClassSymbol) : List String := c.subclasses ++ c.implementers

/-- The head of the declaration: the name, the super class and the interfaces. -/
def heading (c : ClassSymbol) : String :=
  let superPart := c.superName.elim "" (" extends " ++ ·)
  let keyword := if c.isInterface then " extends " else " implements "
  let interfacePart :=
    if c.interfaces = [] then "" else keyword ++ ", ".intercalate c.interfaces
  c.name ++ superPart ++ interfacePart

/-- Take over what a class file says; its methods have the numbers from `first` on. Of
members with the same key the last counts. -/
def load (c : ClassSymbol) (file : ClassFile) (first : MethodId) : ClassSymbol :=
  { c with
    loaded := true
    access := file.access
    signature := file.signature
    superName := file.superName
    interfaces := file.interfaces
    declaring := file.declaring
    innerName := file.innerName
    enclosure := file.enclosure
    fields := .ofList (file.fields.map fun m => (m.key, m))
    methods := .ofList (file.methods.mapIdx fun i m => (m.key, first + i)) }

end ClassSymbol

end StableNaming
