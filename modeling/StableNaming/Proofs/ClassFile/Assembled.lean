import Mathlib.Data.List.Perm.Basic
import StableNaming.Proofs.ClassFile.Assembly

/-!
# Reading assembled class files

A class file is assembled from its record: first the head with its members, then the attributes,
among which there may be some that no name depends on. Every part is read back with the constants
that there are at the end, and attributes in whatever order come to the same record.
-/

namespace StableNaming.Assembly

open ByteReader Constants ModifiedUtf8 ClassFile

variable {pool final : Pool} {entry : Entry} {constants : Constants} {file : ClassFile} {i : Nat}

/-! ## Reading the constants -/

theorem reads_entry {spell : String → List UInt8} (hspell : ∀ s, IsEncoding (spell s) s)
    (hbelow : entry.Below 65536) (htext : ∀ s, entry = .text s → (spell s).length < 65536)
    (i : Nat) : Reads (readConstant i) (entry.bytes spell) (entry.constant, entry.isWide) := by
  cases entry with
  | text s => exact (accepts_iff (htext s rfl)).2 (decode?_of_isEncoding (hspell s))
  | classRef nameIndex =>
    have hread := (reads_u2 hbelow).map fun nameIndex => (Constant.classRef nameIndex, false)
    exact (reads_u1 (by decide)).bind hread
  | memberRef nameIndex descIndex =>
    have hread := (reads_u2 hbelow.2).map fun descIndex =>
      (Constant.memberRef nameIndex descIndex, false)
    exact (reads_u1 (by decide)).bind ((reads_u2 hbelow.1).bind hread)
  | wide number =>
    have hread := (reads_take (bytesOf 8 number)).map fun _ => (Constant.other, true)
    rw [length_bytesOf] at hread
    exact (reads_u1 (by decide)).bind hread

/-- Entries are read one after the other, the second index of a wide one without any bytes. -/
theorem reads_entries {spell : String → List UInt8} (hspell : ∀ s, IsEncoding (spell s) s)
    {entries : Pool} (hbelow : ∀ entry ∈ entries, entry.Below 65536)
    (htext : ∀ s, Entry.text s ∈ entries → (spell s).length < 65536) (i : Nat) :
    Reads (readFrom false i (entries.flatMap Entry.constants).length)
      (entries.flatMap (Entry.bytes spell)) (entries.flatMap Entry.constants) := by
  induction entries generalizing i with
  | nil => exact reads_pure []
  | cons entry entries ih =>
    obtain ⟨hentry, hbelow⟩ := List.forall_mem_cons.1 hbelow
    have hread := reads_entry hspell hentry
      (fun s hs => htext s (hs ▸ List.mem_cons_self)) i
    have hrest := ih hbelow (fun s hs => htext s (List.mem_cons_of_mem entry hs))
    intro rest
    rw [List.flatMap_cons, List.flatMap_cons, List.append_assoc, Entry.constants]
    cases hwide : entry.isWide with
    | false =>
      rw [hwide] at hread
      simp only [Bool.false_eq_true, if_false, List.singleton_append, List.length_cons]
      rw [readFrom_append hread, hrest (i + 1) rest]
      rfl
    | true =>
      rw [hwide] at hread
      simp only [if_true, List.cons_append, List.nil_append, List.length_cons]
      rw [readFrom_append hread, readFrom_afterWide, hrest (i + 1 + 1) rest]
      rfl

/-- The entries are read as what stands at their indices, behind the index that stands for
nothing. -/
theorem reads_constants {spell : String → List UInt8} (hspell : ∀ s, IsEncoding (spell s) s)
    (hclosed : pool.IsClosed) (hlength : pool.constants.length < 65536)
    (htext : ∀ s, Entry.text s ∈ pool → (spell s).length < 65536) :
    Reads Constants.read (bytesOf 2 pool.constants.length ++ pool.flatMap (Entry.bytes spell))
      pool.constants := by
  have hbelow : ∀ entry ∈ pool, entry.Below 65536 := fun entry hentry =>
    (hclosed entry hentry).mono (Nat.le_of_lt hlength)
  have hread := (reads_entries hspell hbelow htext 1).map fun rest => Constant.other :: rest
  exact (reads_u2 hlength).bind hread

/-! ## Reading members -/

section Index

variable {α : Type} {look : Constants → Nat → Except ClassFileFault α} {x : α} {x? : Option α}

theorem StandsFor.reads_u2 (h : StandsFor look x constants i) (hlength : constants.length < 65536) :
    Reads u2 (bytesOf 2 i) i :=
  ByteReader.reads_u2 (Nat.lt_trans h.lt_length hlength)

theorem MayStandFor.reads_u2 (h : MayStandFor look x? constants i)
    (hlength : constants.length < 65536) : Reads u2 (bytesOf 2 i) i :=
  ByteReader.reads_u2 (Nat.lt_of_le_of_lt h.le_length hlength)

theorem reads_reference (h : StandsFor look x constants i) (hlength : constants.length < 65536) :
    Reads (readReference (look constants)) (bytesOf 2 i) x :=
  (h.reads_u2 hlength).bind_last (reads_lift h.look_eq)

end Index

/-- Whether a step writes bytes that are read as a value, if the indices have room. -/
def Writes {α : Type} (step : Assembler (List UInt8)) (reader : Constants → ByteReader α) (x : α) :
    Prop :=
  Gives step fun constants bytes => constants.length < 65536 → Reads (reader constants) bytes x

/-- The attributes of a field or method are read as its signature, or as none. -/
theorem writes_writeSignature (signature : Option String) :
    Writes (writeSignature signature)
      (fun constants => u2 >>= fun count => iterate (readMemberAttribute constants) count none)
      signature := by
  cases signature with
  | none =>
    exact gives_pure fun constants _ => (reads_u2 (by decide)).bind_last (reads_pure none)
  | some signature =>
    refine (gives_text "Signature").bind fun label => (gives_text signature).map _ ?_
    intro constants index hindex hlabel hlength
    have hroom : (bytesOf 2 index).length < 4294967296 := by
      rw [length_bytesOf]
      decide
    have hbody := reads_body hroom
    rw [length_bytesOf] at hbody
    have hsignature := (reads_reference hindex hlength).within.map some
    have hattribute : Reads (readMemberAttribute constants none)
        (bytesOf 2 label ++ (bytesOf 4 2 ++ bytesOf 2 index)) (some signature) :=
      (hlabel.reads_u2 hlength).bind
        (hbody.bind_last ((reads_lift hlabel.look_eq).bind_nil hsignature))
    exact (reads_u2 (by decide)).bind (hattribute.bind_last (reads_pure (some signature)))

theorem ofNat_bits (access : Access) : (⟨UInt16.ofNat access.bits.toNat⟩ : Access) = access := by
  rw [UInt16.ofNat_toNat]

theorem writes_writeMember (member : Member) : Writes (writeMember member) readMember member := by
  refine (gives_text member.key.name).bind fun name => (gives_text member.key.desc).bind fun desc =>
    (writes_writeSignature member.signature).map _ ?_
  intro constants attributes hattributes hdesc hname hlength
  have hsignature := (hattributes hlength).map fun signature =>
    (⟨member.key, ⟨UInt16.ofNat member.access.bits.toNat⟩, signature⟩ : Member)
  rw [bind_assoc] at hsignature
  have hread : Reads (readMember constants) (bytesOf 2 member.access.bits.toNat ++
      (bytesOf 2 name ++ (bytesOf 2 desc ++ attributes)))
      ⟨member.key, ⟨UInt16.ofNat member.access.bits.toNat⟩, member.signature⟩ :=
    (reads_u2 member.access.bits.toNat_lt).bind
      ((reads_reference hname hlength).bind ((reads_reference hdesc hlength).bind hsignature))
  rwa [ofNat_bits] at hread

theorem writes_writeMembers {members : List Member} (h : members.length < 65536) :
    Writes (writeMembers members) readMembers members := by
  refine (gives_mapM fun member _ => writes_writeMember member).map _ ?_
  intro constants parts hparts hlength
  have hread : List.Forall₂ (Reads (readMember constants)) parts members :=
    (hparts.imp fun _ _ hmember => hmember hlength).flip
  exact (reads_u2 h).bind (reads_times hread)

/-- What is known of a class before its attributes are read. -/
def bare (file : ClassFile) : ClassFile :=
  { file with signature := none, declaring := none, innerName := none, enclosure := none }

/-- What stands before the attributes is read back; the super class is looked up last. -/
theorem writes_writeHead (hinterfaces : file.interfaces.length < 65536)
    (hfields : file.fields.length < 65536) (hmethods : file.methods.length < 65536) :
    Writes (writeHead file) readHead (bare file) := by
  refine (gives_classRef file.name).bind fun name =>
    (gives_optionally gives_classRef file.superName).bind fun superName =>
    (gives_mapM fun interface _ => gives_classRef interface).bind fun interfaces =>
    (writes_writeMembers hfields).bind fun fields => (writes_writeMembers hmethods).map _ ?_
  intro constants methods hmethodsRead hfieldsRead hparts hsuper hname hlength
  have hinterfacesRead : Reads (times (readReference constants.className) file.interfaces.length)
      (interfaces.flatMap (bytesOf 2)) file.interfaces := by
    refine reads_times ?_
    rw [List.forall₂_map_left_iff]
    exact (hparts.imp fun _ _ hindex => reads_reference hindex hlength).flip
  have hend := (reads_lift hsuper.optional_eq).map fun superName =>
    ({ bare file with access := ⟨UInt16.ofNat file.access.bits.toNat⟩, superName } : ClassFile)
  have hread : Reads (readHead constants) (bytesOf 2 file.access.bits.toNat ++
      (bytesOf 2 name ++ (bytesOf 2 superName ++ (bytesOf 2 interfaces.length ++
        (interfaces.flatMap (bytesOf 2) ++ (fields ++ methods))))))
      { bare file with access := ⟨UInt16.ofNat file.access.bits.toNat⟩ } := by
    rw [← hparts.length_eq]
    exact (reads_u2 file.access.bits.toNat_lt).bind
      ((hname.reads_u2 hlength).bind ((hsuper.reads_u2 hlength).bind
        ((reads_lift hname.look_eq).bind_nil ((reads_u2 hinterfaces).bind
          (hinterfacesRead.bind ((hfieldsRead hlength).bind ((hmethodsRead hlength).bind_last
            hend)))))))
  rwa [ofNat_bits] at hread

/-! ## Reading attributes -/

/-- Put what an attribute says into a record. -/
def Attribute.apply : Attribute → ClassFile → ClassFile
  | .signature s, file => { file with signature := some s }
  | .innerClass name declaring innerName _, file =>
    if name = file.name then { file with declaring, innerName } else file
  | .enclosure e, file => { file with enclosure := some e }
  | .extra .., file => file

/-- Whether an attribute that no name depends on is one, and its length has room. -/
def Attribute.IsSound : Attribute → Prop
  | .extra name body => name ∉ knownAttributes ∧ body.length < 4294967296
  | _ => True

/-- Read an attribute whose name and body are known. -/
def readNamed (constants : Constants) (file : ClassFile) (name : String) (body : List UInt8) :
    ByteReader ClassFile :=
  if name = "Signature" then do
    let signature ← within (readReference constants.text) body
    pure { file with signature := some signature }
  else if name = "InnerClasses" then
    within (readInnerClasses constants file) body
  else if name = "EnclosingMethod" then
    within (readEnclosure constants file) body
  else
    pure file

theorem readAttribute_eq (constants : Constants) (file : ClassFile) :
    readAttribute constants file = readReference constants.text >>= fun name =>
      readBody >>= readNamed constants file name :=
  rfl

theorem readNamed_innerClasses (constants : Constants) (file : ClassFile) (body : List UInt8) :
    readNamed constants file "InnerClasses" body =
      within (readInnerClasses constants file) body := by
  rw [readNamed, if_neg (by decide), if_pos rfl]

theorem readNamed_enclosure (constants : Constants) (file : ClassFile) (body : List UInt8) :
    readNamed constants file "EnclosingMethod" body =
      within (readEnclosure constants file) body := by
  rw [readNamed, if_neg (by decide), if_neg (by decide), if_pos rfl]

theorem readNamed_of_notMem {name : String} (h : name ∉ knownAttributes) (constants : Constants)
    (file : ClassFile) (body : List UInt8) : readNamed constants file name body = pure file := by
  simp only [knownAttributes, List.mem_cons, List.not_mem_nil, or_false, not_or] at h
  rw [readNamed, if_neg h.1, if_neg h.2.1, if_neg h.2.2]

/-- The entry of a class in the list of inner classes counts for that class only. -/
theorem reads_innerClass {inner outer simple : Nat} {name : String}
    {declaring innerName : Option String} (hlength : constants.length < 65536)
    (hinner : StandsFor Constants.className name constants inner)
    (houter : MayStandFor Constants.className declaring constants outer)
    (hsimple : MayStandFor Constants.text innerName constants simple)
    (access : Access) (file : ClassFile) :
    Reads (readInnerClass constants file) (bytesOf 2 inner ++ (bytesOf 2 outer ++
      (bytesOf 2 simple ++ bytesOf 2 access.bits.toNat)))
      ((Attribute.innerClass name declaring innerName access).apply file) := by
  refine (hinner.reads_u2 hlength).bind ((houter.reads_u2 hlength).bind
    ((hsimple.reads_u2 hlength).bind
      ((reads_u2 access.bits.toNat_lt).bind_last ((reads_lift hinner.look_eq).bind_nil ?_))))
  rw [Attribute.apply]
  by_cases hname : name = file.name
  · rw [if_pos hname, if_pos hname]
    exact (reads_lift houter.optional_eq).bind_nil ((reads_lift hsimple.optional_eq).map _)
  · rw [if_neg hname, if_neg hname]
    exact reads_pure file

theorem reads_enclosure {classIndex methodIndex : Nat} {e : Enclosure}
    (hlength : constants.length < 65536)
    (hclass : StandsFor Constants.className e.className constants classIndex)
    (hmethod : MayStandFor Constants.memberKey e.method constants methodIndex)
    (file : ClassFile) :
    Reads (readEnclosure constants file) (bytesOf 2 classIndex ++ bytesOf 2 methodIndex)
      ((Attribute.enclosure e).apply file) := by
  have hfound := (reads_lift hclass.look_eq).map fun className =>
    ({ file with enclosure := some { className, method := e.method } } : ClassFile)
  exact (hclass.reads_u2 hlength).bind
    ((hmethod.reads_u2 hlength).bind_last ((reads_lift hmethod.optional_eq).bind_nil hfound))

/-- The body of an attribute has room, and is read into whatever record there is. -/
theorem gives_writeBody {a : Attribute} (ha : a.IsSound) :
    Gives a.writeBody fun constants body => constants.length < 65536 →
      body.length < 4294967296 ∧
        ∀ file, Reads (readNamed constants file a.name body) [] (a.apply file) := by
  cases a with
  | signature s =>
    refine (gives_text s).map _ ?_
    intro constants index hindex hlength
    refine ⟨by rw [length_bytesOf]; decide, fun file => ?_⟩
    exact (reads_reference hindex hlength).within.map fun signature =>
      { file with signature := some signature }
  | innerClass name declaring innerName access =>
    refine (gives_classRef name).bind fun inner =>
      (gives_optionally gives_classRef declaring).bind fun outer =>
      (gives_optionally gives_text innerName).map _ ?_
    intro constants simple hsimple houter hinner hlength
    refine ⟨by simp only [List.length_append, length_bytesOf]; decide, fun file => ?_⟩
    have hentry := reads_innerClass hlength hinner houter hsimple access file
    rw [Attribute.name, readNamed_innerClasses]
    exact ((reads_u2 (by decide)).bind (hentry.bind_last (reads_pure _))).within
  | enclosure e =>
    refine (gives_classRef e.className).bind fun className =>
      (gives_optionally gives_memberRef e.method).map _ ?_
    intro constants method hmethod hclass hlength
    refine ⟨by simp only [List.length_append, length_bytesOf]; decide, fun file => ?_⟩
    rw [Attribute.name, readNamed_enclosure]
    exact (reads_enclosure hlength hclass hmethod file).within
  | extra name body =>
    refine gives_pure fun constants hlength => ⟨ha.2, fun file => ?_⟩
    rw [Attribute.name, readNamed_of_notMem ha.1]
    exact reads_pure file

/-- An attribute is read by its name, which is written before the body but entered after it. -/
theorem gives_write {a : Attribute} (ha : a.IsSound) :
    Gives a.write fun constants block => constants.length < 65536 →
      ∀ file, Reads (readAttribute constants file) block.bytes (a.apply file) := by
  refine (gives_writeBody ha).bind fun body => (gives_text a.name).map _ ?_
  intro constants nameIndex hname hbody hlength file
  obtain ⟨hroom, hread⟩ := hbody hlength
  rw [readAttribute_eq]
  exact (reads_reference hname hlength).bind ((reads_body hroom).bind_last (hread file))

/-- A value is passed through one reader after the other. -/
theorem reads_iterate {α β : Type} {reader : β → ByteReader β} {step : α → β → β}
    {parts : List (List UInt8)} {xs : List α}
    (h : List.Forall₂ (fun part x => ∀ y, Reads (reader y) part (step x y)) parts xs) (y : β) :
    Reads (iterate reader xs.length y) parts.flatten (xs.foldl (fun y x => step x y) y) := by
  induction h generalizing y with
  | nil => exact reads_pure y
  | cons hpart _ ih => exact (hpart y).bind (ih (step _ y))

/-! ## The order of attributes -/

/-- Whether a record says what an attribute says. -/
def Attribute.Describes (file : ClassFile) : Attribute → Prop
  | .signature s => file.signature = some s
  | .innerClass name declaring innerName _ =>
    name = file.name ∧ declaring = file.declaring ∧ innerName = file.innerName
  | .enclosure e => file.enclosure = some e
  | .extra .. => True

/-- Attributes of one record may be read in either order: two of one kind say the same. -/
theorem apply_comm {a b : Attribute} (ha : a.Describes file) (hb : b.Describes file)
    (f : ClassFile) : b.apply (a.apply f) = a.apply (b.apply f) := by
  unfold Attribute.Describes at ha hb
  cases a <;> cases b <;> grind [Attribute.apply]

theorem describes_of_mem {a : Attribute} (ha : a ∈ attributesOf file) : a.Describes file := by
  unfold attributesOf at ha
  simp only [List.mem_append, Option.mem_toList, Option.map_eq_some_iff, List.mem_ite_nil_right,
    List.mem_singleton] at ha
  obtain (⟨s, hs, rfl⟩ | ⟨-, rfl⟩) | ⟨e, he, rfl⟩ := ha
  · exact hs
  · exact ⟨rfl, rfl, rfl⟩
  · exact he

/-- The attributes of a record say all that is missing before they are read. -/
theorem foldl_attributesOf (file : ClassFile) :
    (attributesOf file).foldl (fun f a => a.apply f) (bare file) = file := by
  obtain ⟨name, access, signature, superName, interfaces, declaring, innerName, enclosure, fields,
    methods⟩ := file
  cases signature <;> cases declaring <;> cases innerName <;> cases enclosure <;>
    simp [attributesOf, bare, Attribute.apply]

namespace Layout

variable {layout : Layout}

theorem isSound_of_mem (h : layout.Fits file) {a : Attribute}
    (ha : a ∈ layout.attributes file) : a.IsSound := by
  rcases List.mem_append.1 ha with ha | ha
  · have hdescribes := describes_of_mem ha
    cases a with
    | extra name body => exact absurd ha (by simp [attributesOf])
    | _ => trivial
  · obtain ⟨extra, hextra, rfl⟩ := List.mem_map.1 ha
    exact ⟨layout.not_known extra hextra, h.bodies extra hextra⟩

theorem describes_of_mem_attributes {a : Attribute} (ha : a ∈ layout.attributes file) :
    a.Describes file := by
  rcases List.mem_append.1 ha with ha | ha
  · exact describes_of_mem ha
  · obtain ⟨extra, -, rfl⟩ := List.mem_map.1 ha
    trivial

/-- Attributes that no name depends on change nothing. -/
theorem foldl_attributes (layout : Layout) (file : ClassFile) :
    (layout.attributes file).foldl (fun f a => a.apply f) (bare file) = file := by
  rw [attributes, List.foldl_append, foldl_attributesOf, List.foldl_map]
  exact List.foldl_fixed layout.extras

/-- In whatever order attributes of a record are read, they come to the record. -/
theorem foldl_of_perm {arranged : List Attribute}
    (hperm : arranged.Perm (layout.attributes file)) :
    arranged.foldl (fun f a => a.apply f) (bare file) = file := by
  have hcomm : ∀ a ∈ arranged, ∀ b ∈ arranged, ∀ f, b.apply (a.apply f) = a.apply (b.apply f) :=
    fun a ha b hb => apply_comm (describes_of_mem_attributes (hperm.subset ha))
      (describes_of_mem_attributes (hperm.subset hb))
  rw [hperm.foldl_eq' hcomm, foldl_attributes]

theorem reads_blocks {blocks : List Block} (hlength : (layout.attributes file).length < 65536)
    (h : List.Forall₂ (fun a block => ∀ f, Reads (readAttribute constants f) (Block.bytes block)
      (Attribute.apply a f)) (layout.attributes file) blocks) :
    Reads (readAttributes constants (bare file))
      (bytesOf 2 blocks.length ++ (layout.arrange blocks).flatMap Block.bytes) file := by
  -- the attributes in the order of their blocks
  obtain ⟨arranged, hall, hperm⟩ := List.perm_comp_forall₂ (layout.arrange_perm blocks) h.flip
  have hparts : List.Forall₂ (fun part a => ∀ f, Reads (readAttribute constants f) part
      (Attribute.apply a f)) ((layout.arrange blocks).map Block.bytes) arranged :=
    List.forall₂_map_left_iff.2 hall
  have hread := reads_iterate hparts (bare file)
  rw [foldl_of_perm hperm, hperm.length_eq, h.length_eq] at hread
  exact (reads_u2 (h.length_eq ▸ hlength)).bind hread

/-- A class file that is assembled is read back, whatever follows it. -/
theorem decode_assemble (h : layout.Fits file) (trailing : List UInt8) :
    decode (layout.assemble file ++ trailing) = .ok file := by
  have hhead := writes_writeHead h.interfaces h.fields h.methods
  have hblocks := gives_mapM fun a ha => gives_write (isSound_of_mem h ha)
  have hwrite : Gives (layout.write file) fun constants written => constants.length < 65536 →
      Reads (readHead constants) written.1 (bare file) ∧
        List.Forall₂ (fun a block => ∀ f, Reads (readAttribute constants f) (Block.bytes block)
          (Attribute.apply a f)) (layout.attributes file) written.2 :=
    hhead.bind fun head => hblocks.map _ fun constants blocks hall hread hlength =>
      ⟨hread hlength, hall.imp fun _ _ hblock => hblock hlength⟩
  have hstart : start.IsClosed := fun entry hentry => by
    rw [List.mem_singleton.1 hentry]
    trivial
  -- the constants at the end are those that the bytes in front are read as
  obtain ⟨hclosed, -, hgives⟩ := hwrite start hstart
  obtain ⟨hheadRead, hall⟩ := hgives _ (List.prefix_refl _) h.indices
  have hconstants := reads_constants layout.isEncoding_spell hclosed h.indices fun s hs =>
    h.texts s (mem_texts.2 hs)
  have hattributes := reads_blocks h.attributes hall
  exact decode_of_reads (by decide) (by decide) hconstants hheadRead hattributes trailing

/-- The modified encoding, and attributes that no name depends on between the others. -/
def shuffled : Layout where
  spell := encode
  extras := [("SourceFile", [0, 1]), ("Deprecated", [])]
  arrange blocks := blocks.drop 2 ++ blocks.take 2
  isEncoding_spell _ := .inr rfl
  not_known := by decide
  arrange_perm blocks := List.perm_append_comm.trans (.of_eq (List.take_append_drop 2 blocks))

/-- A local class with NUL and a character beyond the sixteen-bit range in its names. -/
def localClass : ClassFile where
  name := "A$1\u0000"
  access := ⟨0x21⟩
  signature := some "TT;"
  superName := some "A"
  interfaces := ["I", "I"]
  innerName := some "😀"
  enclosure := some { className := "A", method := some ⟨"m", "()V"⟩ }
  fields := [⟨⟨"f", "I"⟩, ⟨2⟩, none⟩]
  methods := [⟨⟨"😀", "()V"⟩, ⟨1⟩, some "TT;"⟩]

theorem decode_assemble_shuffled : shuffled.Fits localClass ∧
    ∀ trailing, decode (shuffled.assemble localClass ++ trailing) = .ok localClass := by
  have hfits : shuffled.Fits localClass :=
    { interfaces := by decide
      fields := by decide
      methods := by decide
      attributes := by decide
      indices := by decide +kernel
      texts := by decide +kernel
      bodies := by decide }
  exact ⟨hfits, fun trailing => decode_assemble hfits trailing⟩

end Layout

end StableNaming.Assembly
