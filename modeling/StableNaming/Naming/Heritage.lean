import StableNaming.Graph.Family
import StableNaming.Mapping.Table

/-!
# Carrying names over

A symbol may have been named before, in two ways: an earlier mapping of the same
classes knows it, or a match file leads to a symbol of an old version that an
earlier mapping knows. Only generated names are carried over. A symbol that the
first way knows under another name was renamed on purpose, and the second way is
not tried.
-/

namespace StableNaming

/-- What one way says about a symbol. -/
inductive Carried where
  /-- It does not know the symbol, or the symbol keeps its name. -/
  | missing
  /-- It knows a generated name. -/
  | generated (name : String)
  /-- It knows a name that is not generated. -/
  | renamed (name : String)
  deriving Repr, DecidableEq

namespace Carried

/-- Judge what was found for a symbol that is called `name`. -/
def judge (kind : SymbolKind) (name : String) : Option String → Carried
  | none => missing
  | some found =>
    if found = name then missing
    else if kind.isGenerated (innermostName found) then generated found
    else renamed found

/-- The name to carry over. -/
def name? : Carried → Option String
  | generated name => some name
  | _ => none

end Carried

/-- Where names can be carried over from. -/
structure Heritage where
  /-- An earlier mapping of the same classes. -/
  prior : MappingTable := .theIdentity
  /-- From the classes to those of an old version. -/
  matched : MappingTable := .theIdentity
  /-- The mapping of the old version. -/
  old : MappingTable := .theIdentity
  /-- The old version. -/
  oldGraph : ClassGraph
  /-- Its hierarchy. -/
  oldHierarchy : Hierarchy oldGraph := oldGraph.hierarchy

namespace Heritage

/-- What the table says about a member. -/
def judgeMember (t : MappingTable) (kind : MemberKind) (ref : MemberRef) : Carried :=
  Carried.judge kind.symbol ref.key.name ((t.memberTarget? kind ref).map fun m => m.key.name)

/-- The name to carry over to a class. -/
def className? (h : Heritage) (name : String) : Option String :=
  match Carried.judge .type name (h.prior.classTarget? name) with
  | .missing =>
    (h.matched.classTarget? name).bind fun old =>
      (Carried.judge .type old (h.old.classTarget? old)).name?
  | carried => carried.name?

/-- The member of the old version that a member corresponds to. A member that is not
matched itself has the same name in the matched class. -/
def oldMember? (h : Heritage) (kind : MemberKind) (ref : MemberRef) : Option MemberRef :=
  (h.matched.memberTarget? kind ref).or <|
    (h.matched.classTarget? ref.owner).map fun owner =>
      ⟨owner, ⟨ref.key.name, h.matched.mapDescriptor ref.key.desc⟩⟩

/-- The name to carry over to a field. -/
def fieldName? (h : Heritage) (ref : MemberRef) : Option String :=
  match judgeMember h.prior .field ref with
  | .missing =>
    (h.oldMember? .field ref).bind fun old => (judgeMember h.old .field old).name?
  | carried => carried.name?

/-- What the old mapping says about the family of an old method. The mapping may know
the method at another class of the family only. -/
def judgeFamily (h : Heritage) (ref : MemberRef) : Carried :=
  match h.oldHierarchy.idOf? ref.owner with
  | none => .missing
  | some id =>
    let judged := (h.oldHierarchy.family id ref.key).map fun member =>
      judgeMember h.old .method ⟨h.oldGraph.nameAt member, ref.key⟩
    (judged.find? (· ≠ .missing)).getD .missing

/-- What the old mapping says about an old method, by itself or by its family. -/
def judgeOldMethod (h : Heritage) (ref : MemberRef) : Carried :=
  match judgeMember h.old .method ref with
  | .missing => h.judgeFamily ref
  | carried => carried

/-- The name to carry over to a method, with the member under which it was found. -/
def methodName? (h : Heritage) (ref : MemberRef) : Option (String × MemberRef) :=
  match judgeMember h.prior .method ref with
  | .missing =>
    (h.oldMember? .method ref).bind fun old =>
      (h.judgeOldMethod old).name?.map fun name => (name, old)
  | carried => carried.name?.map fun name => (name, ref)

end Heritage

end StableNaming
