import Mathlib.Data.List.Forall2
import StableNaming.Proofs.ClassFile.TextConstants

/-!
# Assembling class files

An assembler enters the constants that it needs as it goes, texts and classes once each, and writes
down their indices. Whatever it enters later, an index goes on to stand for the same constant, so
that what is written can be read with the constants that there are at the end.
-/

namespace StableNaming.Assembly

open ByteReader Constants ModifiedUtf8 ClassFile

variable {α β ω ω' : Type}

/-! ## Constants that are entered -/

/-- A constant as it is entered. -/
inductive Entry where
  /-- A text. -/
  | text (s : String)
  /-- A class, by the index of its name. -/
  | classRef (nameIndex : Nat)
  /-- A member, by the indices of its name and its descriptor. -/
  | memberRef (nameIndex descIndex : Nat)
  /-- A number of eight bytes, which takes two indices. -/
  | wide (number : Nat)
  deriving Repr, DecidableEq

/-- The constant that is read from an entry. -/
def Entry.constant : Entry → Constant
  | .text s => .text s
  | .classRef nameIndex => .classRef nameIndex
  | .memberRef nameIndex descIndex => .memberRef nameIndex descIndex
  | .wide _ => .other

/-- Whether an entry takes two indices. -/
def Entry.isWide : Entry → Bool
  | .wide _ => true
  | _ => false

/-- The text that is entered, where it is one. -/
def Entry.text? : Entry → Option String
  | .text s => some s
  | _ => none

/-- What stands at the indices of an entry. -/
def Entry.constants (entry : Entry) : Constants :=
  entry.constant :: if entry.isWide then [.other] else []

/-- The bytes of an entry, with this spelling of texts. -/
def Entry.bytes (spell : String → List UInt8) : Entry → List UInt8
  | .text s => textConstant (spell s)
  | .classRef nameIndex => bytesOf 1 7 ++ bytesOf 2 nameIndex
  | .memberRef nameIndex descIndex => bytesOf 1 12 ++ (bytesOf 2 nameIndex ++ bytesOf 2 descIndex)
  | .wide number => bytesOf 1 5 ++ bytesOf 8 number

/-- Whether the indices in an entry are below a bound. -/
def Entry.Below (bound : Nat) : Entry → Prop
  | .classRef nameIndex => nameIndex < bound
  | .memberRef nameIndex descIndex => nameIndex < bound ∧ descIndex < bound
  | _ => True

/-- The entries so far. -/
abbrev Pool := List Entry

/-- What stands at the indices; at index 0 there is nothing. -/
def Pool.constants (pool : Pool) : Constants := .other :: pool.flatMap Entry.constants

/-- Whether entries refer to each other only. -/
def Pool.IsClosed (pool : Pool) : Prop := ∀ entry ∈ pool, entry.Below pool.constants.length

/-- A step that may enter constants. -/
abbrev Assembler := StateM Pool

/-- Enter a constant; it gets the next index. -/
def enter (entry : Entry) : Assembler Nat := fun pool =>
  (pool.constants.length, pool ++ [entry])

/-- The index of a constant, which is entered if it is not there. -/
def share (entry : Entry) : Assembler Nat := fun pool =>
  match pool.constants.idxOf? entry.constant with
  | some index => (index, pool)
  | none => enter entry pool

/-- The index of a text. -/
def text (s : String) : Assembler Nat := share (.text s)

/-- The index of a class. -/
def classRef (name : String) : Assembler Nat := do
  let nameIndex ← text name
  share (.classRef nameIndex)

/-- The index of a member; it is entered anew each time. -/
def memberRef (key : MemberKey) : Assembler Nat := do
  let nameIndex ← text key.name
  let descIndex ← text key.desc
  enter (.memberRef nameIndex descIndex)

/-- The index of what may be missing, which is then 0. -/
def optionally (index : α → Assembler Nat) : Option α → Assembler Nat
  | none => pure 0
  | some x => index x

/-! ## Indices keep their meaning -/

variable {pool final : Pool} {entry : Entry} {constants : Constants} {i bound : Nat}

theorem mem_texts {s : String} : s ∈ pool.filterMap Entry.text? ↔ Entry.text s ∈ pool := by
  rw [List.mem_filterMap]
  constructor
  · intro h
    obtain ⟨entry, hentry, hs⟩ := h
    cases entry with
    | text t => exact Option.some.inj hs ▸ hentry
    | classRef nameIndex => cases hs
    | memberRef nameIndex descIndex => cases hs
    | wide number => cases hs
  · exact fun h => ⟨Entry.text s, h, rfl⟩

theorem Entry.Below.mono {bound' : Nat} (h : entry.Below bound) (hle : bound ≤ bound') :
    entry.Below bound' := by
  cases entry with
  | text s => trivial
  | classRef nameIndex => exact Nat.lt_of_lt_of_le h hle
  | memberRef nameIndex descIndex =>
    exact h.imp (Nat.lt_of_lt_of_le · hle) (Nat.lt_of_lt_of_le · hle)
  | wide number => trivial

theorem constants_concat (pool : Pool) (entry : Entry) :
    Pool.constants (pool ++ [entry]) = pool.constants ++ entry.constants := by
  simp [Pool.constants]

theorem constants_prefix (h : pool <+: final) : pool.constants <+: final.constants := by
  obtain ⟨rest, rfl⟩ := h
  exact ⟨rest.flatMap Entry.constants, by simp [Pool.constants]⟩

/-- What stands at an index stays there. -/
theorem getElem?_of_prefix {constant : Constant} (h : pool <+: final)
    (hi : pool.constants[i]? = some constant) : final.constants[i]? = some constant := by
  obtain ⟨rest, hrest⟩ := constants_prefix h
  rw [← hrest, List.getElem?_append_left (List.getElem?_eq_some_iff.1 hi).1, hi]

theorem getElem?_enter (h : pool ++ [entry] <+: final) :
    final.constants[pool.constants.length]? = some entry.constant := by
  refine getElem?_of_prefix h ?_
  rw [constants_concat, List.getElem?_append_right (Nat.le_refl _), Nat.sub_self]
  rfl

/-- An entry that refers to what is there keeps the pool closed. -/
theorem Pool.IsClosed.concat (h : pool.IsClosed) (hentry : entry.Below pool.constants.length) :
    Pool.IsClosed (pool ++ [entry]) := by
  have hle : pool.constants.length ≤ (Pool.constants (pool ++ [entry])).length := by
    rw [constants_concat, List.length_append]
    exact Nat.le_add_right _ _
  intro e he
  rcases List.mem_append.1 he with he | he
  · exact (h e he).mono hle
  · exact (List.mem_singleton.1 he ▸ hentry).mono hle

/-- Whether a step, from these entries on, enters constants that refer to each other, and gives what
has a property by the constants that there are at the end. -/
def GivesFrom (pool : Pool) (step : Assembler ω) (P : Constants → ω → Prop) : Prop :=
  (step pool).2.IsClosed ∧ pool <+: (step pool).2 ∧
    ∀ final : Pool, (step pool).2 <+: final → P final.constants (step pool).1

/-- Whether a step does so from any entries on. -/
def Gives (step : Assembler ω) (P : Constants → ω → Prop) : Prop :=
  ∀ pool : Pool, pool.IsClosed → GivesFrom pool step P

variable {P : Constants → ω → Prop} {Q : Constants → ω' → Prop} {step : Assembler ω}

theorem gives_pure {x : ω} (h : ∀ constants, P constants x) : Gives (pure x) P :=
  fun pool hpool => ⟨hpool, List.prefix_refl pool, fun _ _ => h _⟩

/-- What the first step gives keeps its property while the second one goes on. -/
theorem Gives.bind {next : ω → Assembler ω'} (hstep : Gives step P)
    (hnext : ∀ x, Gives (next x) fun constants y => P constants x → Q constants y) :
    Gives (step >>= next) Q := by
  intro pool hpool
  obtain ⟨hclosed, hprefix, hgives⟩ := hstep pool hpool
  obtain ⟨hclosed', hprefix', hgives'⟩ := hnext (step pool).1 (step pool).2 hclosed
  refine ⟨hclosed', hprefix.trans hprefix', fun final hfinal => ?_⟩
  exact hgives' final hfinal (hgives final (hprefix'.trans hfinal))

theorem GivesFrom.imp {P' : Constants → ω → Prop} (h : GivesFrom pool step P)
    (himp : ∀ (final : Pool) x, P final.constants x → P' final.constants x) :
    GivesFrom pool step P' :=
  ⟨h.1, h.2.1, fun final hfinal => himp final _ (h.2.2 final hfinal)⟩

/-- A value made of what a step gives. -/
theorem Gives.map (h : Gives step P) (g : ω → ω')
    (hg : ∀ constants x, P constants x → Q constants (g x)) :
    Gives (step >>= fun x => pure (g x)) Q :=
  h.bind fun x => gives_pure fun constants => hg constants x

/-- One step after the other, for each element of a list. -/
theorem gives_mapM {f : α → Assembler ω} {P : α → Constants → ω → Prop} {xs : List α}
    (h : ∀ x ∈ xs, Gives (f x) (P x)) :
    Gives (xs.mapM f) fun constants ys => List.Forall₂ (fun x y => P x constants y) xs ys := by
  induction xs with
  | nil =>
    rw [List.mapM_nil]
    exact gives_pure fun _ => .nil
  | cons x xs ih =>
    obtain ⟨hx, hxs⟩ := List.forall_mem_cons.1 h
    rw [List.mapM_cons]
    exact hx.bind fun y => (ih hxs).map (y :: ·) fun constants ys hys hy => .cons hy hys

/-! ## What the indices stand for -/

/-- A constant that is entered stands at its index. -/
theorem givesFrom_enter (hpool : pool.IsClosed) (hentry : entry.Below pool.constants.length) :
    GivesFrom pool (enter entry) fun constants i => constants[i]? = some entry.constant :=
  ⟨hpool.concat hentry, List.prefix_append pool [entry], fun _ => getElem?_enter⟩

/-- A constant that is shared stands at its index, which it may have had before. -/
theorem givesFrom_share (hpool : pool.IsClosed) (hentry : entry.Below pool.constants.length) :
    GivesFrom pool (share entry) fun constants i => constants[i]? = some entry.constant := by
  unfold GivesFrom share
  cases hindex : pool.constants.idxOf? entry.constant with
  | none => exact givesFrom_enter hpool hentry
  | some i =>
    -- it was entered before, possibly for something else
    refine ⟨hpool, List.prefix_refl pool, fun final hfinal => getElem?_of_prefix hfinal ?_⟩
    obtain ⟨hi, hfound, -⟩ := List.findIdx?_eq_some_iff_getElem.1 hindex
    rw [List.getElem?_eq_getElem hi, eq_of_beq hfound]

/-- Whether an index stands for something. -/
structure StandsFor (look : Constants → Nat → Except ClassFileFault α) (x : α)
    (constants : Constants) (i : Nat) : Prop where
  /-- It is not the index that stands for nothing. -/
  ne_zero : i ≠ 0
  /-- It is the index of a constant. -/
  lt_length : i < constants.length
  /-- This is found there. -/
  look_eq : look constants i = .ok x

/-- Whether an index stands for what may be missing. -/
structure MayStandFor (look : Constants → Nat → Except ClassFileFault α) (x? : Option α)
    (constants : Constants) (i : Nat) : Prop where
  /-- It is the index of a constant, if it is not 0. -/
  le_length : i ≤ constants.length
  /-- This is found there, or it is 0. -/
  optional_eq : Constants.optional (look constants) i = .ok x?

/-- What is found at an index other than 0. -/
theorem standsFor_of_getElem? {look : Constants → Nat → Except ClassFileFault α} {x : α}
    {constant : Constant} (hconstant : constant ≠ .other)
    (h : final.constants[i]? = some constant) (hlook : look final.constants i = .ok x) :
    StandsFor look x final.constants i where
  ne_zero := by
    rintro rfl
    exact hconstant (Option.some.inj h).symm
  lt_length := (List.getElem?_eq_some_iff.1 h).1
  look_eq := hlook

theorem text_of_getElem? {s : String} (h : constants[i]? = some (.text s)) :
    constants.text i = .ok s := by
  rw [Constants.text, h]

theorem className_of_getElem? {nameIndex : Nat} {name : String}
    (h : constants[i]? = some (.classRef nameIndex)) (hname : constants.text nameIndex = .ok name) :
    constants.className i = .ok name := by
  rw [Constants.className, h]
  exact hname

theorem memberKey_of_getElem? {nameIndex descIndex : Nat} {key : MemberKey}
    (h : constants[i]? = some (.memberRef nameIndex descIndex))
    (hname : constants.text nameIndex = .ok key.name)
    (hdesc : constants.text descIndex = .ok key.desc) : constants.memberKey i = .ok key := by
  rw [Constants.memberKey, h]
  simp only [hname, hdesc]
  rfl

theorem gives_text (s : String) : Gives (text s) (StandsFor Constants.text s) := by
  intro pool hpool
  have hbelow : (Entry.text s).Below pool.constants.length := trivial
  refine (givesFrom_share hpool hbelow).imp fun final i h => ?_
  exact standsFor_of_getElem? Constant.noConfusion h (text_of_getElem? h)

theorem gives_classRef (name : String) :
    Gives (classRef name) (StandsFor Constants.className name) := by
  intro pool hpool
  obtain ⟨hclosed, hprefix, hname⟩ := gives_text name pool hpool
  have hbelow : (Entry.classRef (text name pool).1).Below (text name pool).2.constants.length :=
    (hname _ (List.prefix_refl _)).lt_length
  obtain ⟨hclosed', hprefix', hshare⟩ := givesFrom_share hclosed hbelow
  refine ⟨hclosed', hprefix.trans hprefix', fun final hfinal => ?_⟩
  have hat := hshare final hfinal
  have hfound := (hname final (hprefix'.trans hfinal)).look_eq
  exact standsFor_of_getElem? Constant.noConfusion hat (className_of_getElem? hat hfound)

theorem gives_memberRef (key : MemberKey) :
    Gives (memberRef key) (StandsFor Constants.memberKey key) := by
  intro pool hpool
  obtain ⟨hclosed, hprefix, hname⟩ := gives_text key.name pool hpool
  obtain ⟨hclosed', hprefix', hdesc⟩ := gives_text key.desc _ hclosed
  have hbelow : (Entry.memberRef (text key.name pool).1
      (text key.desc (text key.name pool).2).1).Below
        (text key.desc (text key.name pool).2).2.constants.length :=
    ⟨(hname _ hprefix').lt_length, (hdesc _ (List.prefix_refl _)).lt_length⟩
  obtain ⟨hclosed'', hprefix'', henter⟩ := givesFrom_enter hclosed' hbelow
  refine ⟨hclosed'', hprefix.trans (hprefix'.trans hprefix''), fun final hfinal => ?_⟩
  have hat := henter final hfinal
  have hlater := hprefix''.trans hfinal
  exact standsFor_of_getElem? Constant.noConfusion hat
    (memberKey_of_getElem? hat (hname final (hprefix'.trans hlater)).look_eq
      (hdesc final hlater).look_eq)

/-- What may be missing is found at its index, or index 0 says that it is missing. -/
theorem gives_optionally {index : α → Assembler Nat}
    {look : Constants → Nat → Except ClassFileFault α} (h : ∀ x, Gives (index x) (StandsFor look x))
    (x? : Option α) : Gives (optionally index x?) (MayStandFor look x?) := by
  cases x? with
  | none => exact gives_pure fun constants => ⟨Nat.zero_le constants.length, rfl⟩
  | some x =>
    refine fun pool hpool => (h x pool hpool).imp fun final i hi =>
      ⟨Nat.le_of_lt hi.lt_length, ?_⟩
    rw [Constants.optional, if_neg hi.ne_zero, hi.look_eq]
    rfl

/-! ## Writing -/

/-- Write the attributes of a field or method: the signature, where there is one. -/
def writeSignature : Option String → Assembler (List UInt8)
  | none => pure (bytesOf 2 0)
  | some signature => do
    let label ← text "Signature"
    let index ← text signature
    pure (bytesOf 2 1 ++ (bytesOf 2 label ++ (bytesOf 4 2 ++ bytesOf 2 index)))

/-- Write a field or method. -/
def writeMember (member : Member) : Assembler (List UInt8) := do
  let name ← text member.key.name
  let desc ← text member.key.desc
  let attributes ← writeSignature member.signature
  pure (bytesOf 2 member.access.bits.toNat ++ (bytesOf 2 name ++ (bytesOf 2 desc ++ attributes)))

/-- Write members, with their number in front. -/
def writeMembers (members : List Member) : Assembler (List UInt8) := do
  let parts ← members.mapM writeMember
  pure (bytesOf 2 members.length ++ parts.flatten)

/-- Write what stands between the constants and the attributes. -/
def writeHead (file : ClassFile) : Assembler (List UInt8) := do
  let name ← classRef file.name
  let superName ← optionally classRef file.superName
  let interfaces ← file.interfaces.mapM classRef
  let fields ← writeMembers file.fields
  let methods ← writeMembers file.methods
  pure (bytesOf 2 file.access.bits.toNat ++ (bytesOf 2 name ++ (bytesOf 2 superName ++
    (bytesOf 2 interfaces.length ++ (interfaces.flatMap (bytesOf 2) ++ (fields ++ methods))))))

/-- An attribute of a class. -/
inductive Attribute where
  /-- The signature. -/
  | signature (s : String)
  /-- The entry of the class in the list of inner classes. -/
  | innerClass (name : String) (declaring innerName : Option String) (access : Access)
  /-- Where the class is enclosed. -/
  | enclosure (e : Enclosure)
  /-- One that no name depends on. -/
  | extra (name : String) (body : List UInt8)

/-- The name of an attribute. -/
def Attribute.name : Attribute → String
  | .signature _ => "Signature"
  | .innerClass .. => "InnerClasses"
  | .enclosure _ => "EnclosingMethod"
  | .extra name _ => name

/-- The names of the attributes that names depend on. -/
def knownAttributes : List String := ["Signature", "InnerClasses", "EnclosingMethod"]

/-- Write the body of an attribute. -/
def Attribute.writeBody : Attribute → Assembler (List UInt8)
  | .signature s => do
    let index ← text s
    pure (bytesOf 2 index)
  | .innerClass name declaring innerName access => do
    let inner ← classRef name
    let outer ← optionally classRef declaring
    let simple ← optionally text innerName
    pure (bytesOf 2 1 ++ (bytesOf 2 inner ++ (bytesOf 2 outer ++ (bytesOf 2 simple ++
      bytesOf 2 access.bits.toNat))))
  | .enclosure e => do
    let className ← classRef e.className
    let method ← optionally memberRef e.method
    pure (bytesOf 2 className ++ bytesOf 2 method)
  | .extra _ body => pure body

/-- An attribute as it is written: the index of its name, and its body. -/
structure Block where
  /-- Index of the name. -/
  nameIndex : Nat
  /-- The body. -/
  body : List UInt8

/-- The bytes of an attribute. -/
def Block.bytes (block : Block) : List UInt8 :=
  bytesOf 2 block.nameIndex ++ (bytesOf 4 block.body.length ++ block.body)

/-- Write an attribute, its body before its name. -/
def Attribute.write (a : Attribute) : Assembler Block := do
  let body ← a.writeBody
  let nameIndex ← text a.name
  pure ⟨nameIndex, body⟩

/-- The attributes that say what a record says. -/
def attributesOf (file : ClassFile) : List Attribute :=
  (file.signature.map .signature).toList ++
    (if file.declaring.isSome ∨ file.innerName.isSome ∨ file.enclosure.isSome then
      [.innerClass file.name file.declaring file.innerName file.access] else []) ++
    (file.enclosure.map .enclosure).toList

/-- What is left open when a class file is assembled. -/
structure Layout where
  /-- The bytes of texts. -/
  spell : String → List UInt8
  /-- Attributes that no name depends on, by name and body. -/
  extras : List (String × List UInt8)
  /-- The order in which attributes are written. -/
  arrange : List Block → List Block
  /-- Texts are spelled in one of their encodings, each in any. -/
  isEncoding_spell (s : String) : IsEncoding (spell s) s
  /-- The attributes are none of those that names depend on. -/
  not_known : ∀ extra ∈ extras, extra.1 ∉ knownAttributes
  /-- All attributes are written, once each. -/
  arrange_perm (blocks : List Block) : (arrange blocks).Perm blocks

namespace Layout

variable (layout : Layout) (file : ClassFile)

/-- All attributes of a class file. -/
def attributes : List Attribute :=
  attributesOf file ++ layout.extras.map fun extra => .extra extra.1 extra.2

/-- Write all but the constants. -/
def write : Assembler (List UInt8 × List Block) := do
  let head ← writeHead file
  let blocks ← (layout.attributes file).mapM Attribute.write
  pure (head, blocks)

/-- What is entered before anything else. -/
def start : Pool := [.wide 42]

/-- The constants of the class file. -/
def entries : Pool := (layout.write file start).2

/-- The bytes of the class file. -/
def assemble : List UInt8 :=
  let written := layout.write file start
  preamble 0 52 written.2.constants.length ++ (written.2.flatMap (Entry.bytes layout.spell) ++
    (written.1.1 ++ (bytesOf 2 written.1.2.length ++
      (layout.arrange written.1.2).flatMap Block.bytes)))

/-- Texts in UTF-8, no other attributes, and all in the order in which they are entered. -/
def plain : Layout where
  spell := Text.encodeUtf8
  extras := []
  arrange := id
  isEncoding_spell _ := .inl rfl
  not_known := by decide
  arrange_perm := .refl

example : plain.assemble { name := "A", access := ⟨0x21⟩ } =
    [0xCA, 0xFE, 0xBA, 0xBE, 0, 0, 0, 52, 0, 5,
      5, 0, 0, 0, 0, 0, 0, 0, 42, 1, 0, 1, 0x41, 7, 0, 3,
      0, 0x21, 0, 4, 0, 0, 0, 0, 0, 0, 0, 0, 0, 0] := by
  decide +kernel

/-- Whether everything has room in the bytes for its number or length. -/
structure Fits : Prop where
  /-- The interfaces are counted in two bytes, -/
  interfaces : file.interfaces.length < 65536
  /-- the fields, -/
  fields : file.fields.length < 65536
  /-- the methods, -/
  methods : file.methods.length < 65536
  /-- the attributes, -/
  attributes : (layout.attributes file).length < 65536
  /-- and the indices. -/
  indices : (layout.entries file).constants.length < 65536
  /-- Texts have a length of two bytes, -/
  texts : ∀ s ∈ (layout.entries file).filterMap Entry.text?, (layout.spell s).length < 65536
  /-- and bodies of attributes one of four bytes. -/
  bodies : ∀ extra ∈ layout.extras, extra.2.length < 4294967296

end Layout

end StableNaming.Assembly
