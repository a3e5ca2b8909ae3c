import Mathlib.Data.List.Forall2
import StableNaming.Proofs.ClassFile.Reading
import StableNaming.Proofs.Text.Utf8

/-!
# The encodings of text constants

The modified encoding of a text is made of its code units of 16 bits, each of which has one shortest
group of bytes, except that NUL takes two. The reader of text constants goes by the length that the
first byte of a group announces and by the low bits of the others, so besides UTF-8 it accepts all
groups that come to the code units of a text. These are the modified encoding of the text exactly
if every group is the one of its code unit.
-/

namespace StableNaming

namespace ModifiedUtf8

open Text

variable {c : Char} {cs : List Char} {us : List Nat} {u : Nat} {bytes group : List UInt8}
  {s t : String}

/-! ## Code units of characters -/

/-- The code units of a character: itself, or two surrogates. -/
def unitsOf (c : Char) : List Nat :=
  if c.toNat < 0x10000 then [c.toNat]
  else [0xD800 + (c.toNat - 0x10000) / 0x400, 0xDC00 + (c.toNat - 0x10000) % 0x400]

theorem lt_of_mem_unitsOf (hu : u ∈ unitsOf c) : u < 0x10000 := by
  have hc : c.toNat < 0x110000 := by
    have hvalid : c.toNat < 0xD800 ∨ 0xDFFF < c.toNat ∧ c.toNat < 0x110000 := c.valid
    omega
  unfold unitsOf at hu
  split_ifs at hu with hsmall
  · rw [List.mem_singleton.1 hu]
    exact hsmall
  · simp only [List.mem_cons, List.not_mem_nil, or_false] at hu
    omega

theorem charsOfUnits?_cons (hu : u < 0xD800 ∨ 0xE000 ≤ u) (us : List Nat) :
    charsOfUnits? (u :: us) = (charsOfUnits? us).map (Char.ofNat u :: ·) := by
  rw [charsOfUnits?.eq_def]
  exact if_pos hu

theorem charsOfUnits?_pair {v : Nat} (hu : 0xD800 ≤ u ∧ u < 0xDC00) (hv : 0xDC00 ≤ v ∧ v < 0xE000)
    (us : List Nat) :
    charsOfUnits? (u :: v :: us) = (charsOfUnits? us).map
      (Char.ofNat (0x10000 + (u - 0xD800) * 0x400 + (v - 0xDC00)) :: ·) := by
  rw [charsOfUnits?.eq_def]
  simp only
  rw [if_neg (by omega), if_pos hu.2, if_pos hv]

/-- A character is read from its code units. -/
theorem charsOfUnits?_append (c : Char) (us : List Nat) :
    charsOfUnits? (unitsOf c ++ us) = (charsOfUnits? us).map (c :: ·) := by
  have hvalid : c.toNat < 0xD800 ∨ 0xDFFF < c.toNat ∧ c.toNat < 0x110000 := c.valid
  unfold unitsOf
  split_ifs with hsmall
  · rw [List.singleton_append, charsOfUnits?_cons (by omega), Char.ofNat_toNat]
  · have hsum : 0x10000 + (0xD800 + (c.toNat - 0x10000) / 0x400 - 0xD800) * 0x400 +
        (0xDC00 + (c.toNat - 0x10000) % 0x400 - 0xDC00) = c.toNat := by omega
    rw [List.cons_append, List.singleton_append, charsOfUnits?_pair (by omega) (by omega), hsum,
      Char.ofNat_toNat]

theorem charsOfUnits?_flatMap (cs : List Char) : charsOfUnits? (cs.flatMap unitsOf) = some cs := by
  induction cs with
  | nil => rfl
  | cons c cs ih => rw [List.flatMap_cons, charsOfUnits?_append, ih, Option.map_some]

/-- Code units that are read as characters are the code units of these. -/
theorem eq_of_charsOfUnits? (hus : ∀ u ∈ us, u < 0x10000) (h : charsOfUnits? us = some cs) :
    us = cs.flatMap unitsOf := by
  fun_induction charsOfUnits? us generalizing cs with
  | case1 =>
    obtain rfl := Option.some.inj h
    rfl
  | case2 u us hu ih =>
    obtain ⟨cs, hcs, rfl⟩ := Option.map_eq_some_iff.1 h
    obtain ⟨hlt, hus⟩ := List.forall_mem_cons.1 hus
    have hself : (Char.ofNat u).toNat = u := toNat_ofNat (hu.imp id fun h => by omega)
    rw [List.flatMap_cons, unitsOf, hself, if_pos hlt, ← ih hus hcs, List.singleton_append]
  | case3 => cases h
  | case4 u hnot hhigh v us hv ih =>
    obtain ⟨cs, hcs, rfl⟩ := Option.map_eq_some_iff.1 h
    obtain ⟨-, hus⟩ := List.forall_mem_cons.1 hus
    obtain ⟨-, hus⟩ := List.forall_mem_cons.1 hus
    have hself : (Char.ofNat (0x10000 + (u - 0xD800) * 0x400 + (v - 0xDC00))).toNat =
        0x10000 + (u - 0xD800) * 0x400 + (v - 0xDC00) := toNat_ofNat (.inr (by omega))
    have hlead : 0xD800 + (0x10000 + (u - 0xD800) * 0x400 + (v - 0xDC00) - 0x10000) / 0x400 =
        u := by omega
    have htrail : 0xDC00 + (0x10000 + (u - 0xD800) * 0x400 + (v - 0xDC00) - 0x10000) % 0x400 =
        v := by omega
    rw [List.flatMap_cons, unitsOf, hself, if_neg (by omega), hlead, htrail, ← ih hus hcs,
      List.cons_append, List.singleton_append]
  | case5 => cases h
  | case6 => cases h

/-! ## Groups of bytes -/

/-- The shortest bytes of a code unit, two for NUL. -/
def groupOf (u : Nat) : List UInt8 :=
  if 0 < u ∧ u < 0x80 then [UInt8.ofNat u]
  else if u < 0x800 then [UInt8.ofNat (0xC0 + u / 64), UInt8.ofNat (0x80 + u % 64)]
  else
    [UInt8.ofNat (0xE0 + u / 4096), UInt8.ofNat (0x80 + u / 64 % 64), UInt8.ofNat (0x80 + u % 64)]

/-- The modified encoding of a text. -/
def encode (s : String) : List UInt8 := (s.toList.flatMap unitsOf).flatMap groupOf

/-- The code unit that a group of bytes comes to. -/
inductive Spells : List UInt8 → Nat → Prop where
  /-- A byte of the ASCII range is a code unit by itself. -/
  | one (b : UInt8) (hb : b.toNat < 0x80) : Spells [b] b.toNat
  /-- Two bytes, by the bits that are left after `110` and after any two bits. -/
  | two (b c : UInt8) (hb : b.toNat / 32 = 6) : Spells [b, c] (b.toNat % 32 * 64 + c.toNat % 64)
  /-- Three bytes, by the bits that are left after `1110` and twice after any two bits. -/
  | three (b c d : UInt8) (hb : b.toNat / 16 = 14) :
    Spells [b, c, d] (b.toNat % 16 * 4096 + c.toNat % 64 * 64 + d.toNat % 64)

theorem Spells.lt (h : Spells group u) : u < 0x10000 := by
  cases h <;> omega

theorem lt_of_forall₂_spells {groups : List (List UInt8)} (h : List.Forall₂ Spells groups us) :
    ∀ u ∈ us, u < 0x10000 := by
  induction h with
  | nil => simp
  | cons hspells _ ih => exact List.forall_mem_cons.2 ⟨hspells.lt, ih⟩

theorem spells_one (hu : u < 0x80) : Spells [UInt8.ofNat u] u := by
  have hself : (UInt8.ofNat u).toNat = u := UInt8.toNat_ofNat'.trans (Nat.mod_eq_of_lt (by omega))
  have h := Spells.one (UInt8.ofNat u) (by omega)
  rwa [hself] at h

theorem spells_two (hu : u < 0x800) :
    Spells [UInt8.ofNat (0xC0 + u / 64), UInt8.ofNat (0x80 + u % 64)] u := by
  have hlead : (UInt8.ofNat (0xC0 + u / 64)).toNat = 0xC0 + u / 64 :=
    UInt8.toNat_ofNat'.trans (Nat.mod_eq_of_lt (by omega))
  have hnext : (UInt8.ofNat (0x80 + u % 64)).toNat = 0x80 + u % 64 :=
    UInt8.toNat_ofNat'.trans (Nat.mod_eq_of_lt (by omega))
  have h := Spells.two (UInt8.ofNat (0xC0 + u / 64)) (UInt8.ofNat (0x80 + u % 64)) (by omega)
  have hself : (0xC0 + u / 64) % 32 * 64 + (0x80 + u % 64) % 64 = u := by omega
  rwa [hlead, hnext, hself] at h

theorem spells_three (hu : u < 0x10000) :
    Spells [UInt8.ofNat (0xE0 + u / 4096), UInt8.ofNat (0x80 + u / 64 % 64),
      UInt8.ofNat (0x80 + u % 64)] u := by
  have hlead : (UInt8.ofNat (0xE0 + u / 4096)).toNat = 0xE0 + u / 4096 :=
    UInt8.toNat_ofNat'.trans (Nat.mod_eq_of_lt (by omega))
  have hnext : (UInt8.ofNat (0x80 + u / 64 % 64)).toNat = 0x80 + u / 64 % 64 :=
    UInt8.toNat_ofNat'.trans (Nat.mod_eq_of_lt (by omega))
  have hlast : (UInt8.ofNat (0x80 + u % 64)).toNat = 0x80 + u % 64 :=
    UInt8.toNat_ofNat'.trans (Nat.mod_eq_of_lt (by omega))
  have h := Spells.three (UInt8.ofNat (0xE0 + u / 4096)) (UInt8.ofNat (0x80 + u / 64 % 64))
    (UInt8.ofNat (0x80 + u % 64)) (by omega)
  have hself : (0xE0 + u / 4096) % 16 * 4096 + (0x80 + u / 64 % 64) % 64 * 64 +
      (0x80 + u % 64) % 64 = u := by omega
  rwa [hlead, hnext, hlast, hself] at h

/-- A code unit is spelled by its shortest bytes. -/
theorem spells_groupOf (hu : u < 0x10000) : Spells (groupOf u) u := by
  unfold groupOf
  split_ifs with hone htwo
  · exact spells_one hone.2
  · exact spells_two htwo
  · exact spells_three hu

/-- A group is read as the code unit that it spells. -/
theorem codeUnits?_append (h : Spells group u) (bytes : List UInt8) :
    codeUnits? (group ++ bytes) = (codeUnits? bytes).map (u :: ·) := by
  cases h with
  | one b hb =>
    rw [List.singleton_append, codeUnits?.eq_def]
    exact if_pos hb
  | two b c hb =>
    rw [List.cons_append, List.singleton_append, codeUnits?.eq_def]
    simp only
    rw [if_neg (by omega), if_pos hb]
  | three b c d hb =>
    rw [List.cons_append, List.cons_append, List.singleton_append, codeUnits?.eq_def]
    simp only
    rw [if_neg (by omega), if_neg (by omega), if_pos hb]

/-- Bytes are read as code units exactly if they are made of groups that spell these. -/
theorem codeUnits?_eq_some_iff :
    codeUnits? bytes = some us ↔
      ∃ groups, List.Forall₂ Spells groups us ∧ groups.flatten = bytes := by
  constructor
  · intro h
    fun_induction codeUnits? bytes generalizing us with
    | case1 =>
      obtain rfl := Option.some.inj h
      exact ⟨[], .nil, rfl⟩
    | case2 b bytes hb ih =>
      obtain ⟨us, hus, rfl⟩ := Option.map_eq_some_iff.1 h
      obtain ⟨groups, hgroups, rfl⟩ := ih hus
      exact ⟨[b] :: groups, .cons (.one b hb) hgroups, rfl⟩
    | case3 => cases h
    | case4 b hone htwo c bytes ih =>
      obtain ⟨us, hus, rfl⟩ := Option.map_eq_some_iff.1 h
      obtain ⟨groups, hgroups, rfl⟩ := ih hus
      exact ⟨[b, c] :: groups, .cons (.two b c htwo) hgroups, rfl⟩
    | case5 b hone htwo hthree c d bytes ih =>
      obtain ⟨us, hus, rfl⟩ := Option.map_eq_some_iff.1 h
      obtain ⟨groups, hgroups, rfl⟩ := ih hus
      exact ⟨[b, c, d] :: groups, .cons (.three b c d hthree) hgroups, rfl⟩
    | case6 => cases h
    | case7 => cases h
  · rintro ⟨groups, hgroups, rfl⟩
    induction hgroups with
    | nil => rfl
    | cons hspells _ ih => rw [List.flatten_cons, codeUnits?_append hspells, ih, Option.map_some]

/-! ## What is accepted -/

/-- Whether bytes are made of groups for the code units of a text. -/
def IsGrouped (bytes : List UInt8) (s : String) : Prop :=
  ∃ groups, List.Forall₂ Spells groups (s.toList.flatMap unitsOf) ∧ groups.flatten = bytes

/-- Whether bytes are what their code units are encoded as. -/
def WellGrouped (bytes : List UInt8) : Prop :=
  ∀ us, codeUnits? bytes = some us → us.flatMap groupOf = bytes

/-- Whether bytes are one of the two encodings of a text. -/
def IsEncoding (bytes : List UInt8) (s : String) : Prop := bytes = encodeUtf8 s ∨ bytes = encode s

theorem isGrouped_iff : IsGrouped bytes s ↔ codeUnits? bytes = some (s.toList.flatMap unitsOf) :=
  codeUnits?_eq_some_iff.symm

/-- The reader of groups reads the groups of a text as the text. -/
theorem isGrouped_iff_bind :
    IsGrouped bytes s ↔ (codeUnits? bytes).bind charsOfUnits? = some s.toList := by
  rw [isGrouped_iff, Option.bind_eq_some_iff]
  constructor
  · exact fun h => ⟨_, h, charsOfUnits?_flatMap s.toList⟩
  · rintro ⟨us, hus, hchars⟩
    obtain ⟨groups, hgroups, -⟩ := codeUnits?_eq_some_iff.1 hus
    rw [hus, eq_of_charsOfUnits? (lt_of_forall₂_spells hgroups) hchars]

theorem isGrouped_encode (s : String) : IsGrouped (encode s) s := by
  refine ⟨(s.toList.flatMap unitsOf).map groupOf, ?_, List.flatMap_def.symm⟩
  rw [List.forall₂_map_left_iff, List.forall₂_same]
  intro u hu
  obtain ⟨c, -, hu⟩ := List.mem_flatMap.1 hu
  exact spells_groupOf (lt_of_mem_unitsOf hu)

example : encode "\u0000😀" = [0xC0, 0x80, 0xED, 0xA0, 0xBD, 0xED, 0xB8, 0x80] := by
  decide +kernel

/-- UTF-8 spells a character of 16 bits. -/
theorem spells_utf8EncodeChar (hc : c.toNat < 0x10000) :
    Spells (String.utf8EncodeChar c) c.toNat := by
  have hval : c.val.toNat = c.toNat := rfl
  unfold String.utf8EncodeChar
  simp only [hval]
  have hnext : c.toNat % 0x40 + 0x80 = 0x80 + c.toNat % 64 := Nat.add_comm _ _
  split_ifs with hone htwo
  · exact spells_one (by omega)
  · have hlead : c.toNat / 64 % 0x20 + 0xC0 = 0xC0 + c.toNat / 64 := by omega
    rw [hlead, hnext]
    exact spells_two (by omega)
  · have hlead : c.toNat / 4096 % 0x10 + 0xE0 = 0xE0 + c.toNat / 4096 := by omega
    have hmiddle : c.toNat / 64 % 0x40 + 0x80 = 0x80 + c.toNat / 64 % 64 := Nat.add_comm _ _
    rw [hlead, hmiddle, hnext]
    exact spells_three hc
  · omega

/-- UTF-8 writes other characters with a first byte that begins no group. -/
theorem codeUnits?_utf8EncodeChar (hc : 0x10000 ≤ c.toNat) (bytes : List UInt8) :
    codeUnits? (String.utf8EncodeChar c ++ bytes) = none := by
  have hvalid : c.toNat < 0xD800 ∨ 0xDFFF < c.toNat ∧ c.toNat < 0x110000 := c.valid
  have hval : c.val.toNat = c.toNat := rfl
  have hlead : (UInt8.ofNat (c.toNat / 262144 % 0x08 + 0xF0)).toNat =
      c.toNat / 262144 % 0x08 + 0xF0 := by
    rw [UInt8.toNat_ofNat']
    omega
  unfold String.utf8EncodeChar
  simp only [hval]
  rw [if_neg (by omega), if_neg (by omega), if_neg (by omega), List.cons_append,
    codeUnits?.eq_def]
  simp only
  rw [if_neg (by omega), if_neg (by omega), if_neg (by omega)]

/-- Where UTF-8 is read in groups, these come to the code units of the text. -/
theorem eq_of_codeUnits?_flatMap (h : codeUnits? (cs.flatMap String.utf8EncodeChar) = some us) :
    us = cs.flatMap unitsOf := by
  induction cs generalizing us with
  | nil => exact (Option.some.inj h).symm
  | cons c cs ih =>
    rw [List.flatMap_cons] at h
    by_cases hc : c.toNat < 0x10000
    · rw [codeUnits?_append (spells_utf8EncodeChar hc)] at h
      obtain ⟨us, hus, rfl⟩ := Option.map_eq_some_iff.1 h
      rw [List.flatMap_cons, unitsOf, if_pos hc, ih hus, List.singleton_append]
    · rw [codeUnits?_utf8EncodeChar (Nat.le_of_not_lt hc)] at h
      cases h

/-- UTF-8 is not taken for the groups of another text. -/
theorem IsGrouped.eq_of_utf8 (h : IsGrouped (encodeUtf8 t) s) : s = t := by
  rw [isGrouped_iff, encodeUtf8_eq_flatMap] at h
  have hsame := congrArg charsOfUnits? (eq_of_codeUnits?_flatMap h)
  rw [charsOfUnits?_flatMap, charsOfUnits?_flatMap] at hsame
  exact String.toList_inj.1 (Option.some.inj hsame)

/-- A text constant is accepted exactly if it is UTF-8 or made of groups for a text. -/
theorem decode?_eq_some_iff :
    decode? bytes = some s ↔ bytes = encodeUtf8 s ∨ IsGrouped bytes s := by
  rw [decode?, Option.or_eq_some_iff, decodeUtf8?_eq_some_iff, Option.map_eq_some_iff]
  have hgroups : (∃ cs, (codeUnits? bytes).bind charsOfUnits? = some cs ∧ String.ofList cs = s) ↔
      IsGrouped bytes s := by
    rw [isGrouped_iff_bind]
    constructor
    · rintro ⟨cs, hcs, rfl⟩
      rw [hcs, String.toList_ofList]
    · exact fun h => ⟨s.toList, h, String.ofList_toList⟩
  rw [hgroups]
  constructor
  · exact Or.imp_right And.right
  · rintro (h | h)
    · exact .inl h
    · cases hutf8 : decodeUtf8? bytes with
      | none => exact .inr ⟨rfl, h⟩
      | some t =>
        have ht := decodeUtf8?_eq_some_iff.1 hutf8
        rw [ht] at h ⊢
        rw [h.eq_of_utf8]
        exact .inl rfl

/-- Both encodings of a text are read as the text. -/
theorem decode?_of_isEncoding (h : IsEncoding bytes s) : decode? bytes = some s := by
  rw [decode?_eq_some_iff]
  rcases h with rfl | rfl
  · exact .inl rfl
  · exact .inr (isGrouped_encode s)

/-- Everything that is read as a text is an encoding of it, exactly if bytes that are not UTF-8 are
refused or well grouped. -/
theorem isEncoding_of_decode?_iff :
    (∀ s, decode? bytes = some s → IsEncoding bytes s) ↔
      (∃ s, bytes = encodeUtf8 s) ∨ (∀ s, ¬ IsGrouped bytes s) ∨ WellGrouped bytes := by
  constructor
  · intro h
    by_contra hnot
    obtain ⟨hutf8, hnot⟩ := not_or.1 hnot
    obtain ⟨hsome, hnot⟩ := not_or.1 hnot
    obtain ⟨s, hs⟩ := not_forall_not.1 hsome
    rcases h s (decode?_eq_some_iff.2 (.inr hs)) with hencode | hencode
    · exact hutf8 ⟨s, hencode⟩
    · refine hnot fun us hus => ?_
      rw [isGrouped_iff] at hs
      rw [Option.some.inj (hus.symm.trans hs)]
      exact hencode.symm
  · rintro h s hs
    rcases decode?_eq_some_iff.1 hs with hs | hs
    · exact .inl hs
    · rcases h with ⟨t, ht⟩ | hnone | hwell
      · rw [ht] at hs ⊢
        exact .inl (hs.eq_of_utf8 ▸ rfl)
      · exact absurd hs (hnone s)
      · exact .inr (hwell _ (isGrouped_iff.1 hs)).symm

end ModifiedUtf8

/-! ## Text constants in a class file -/

open ByteReader ModifiedUtf8 Text

variable {front rest bytes content : List UInt8} {constant : Constant} {wide : Bool}
  {i count minor major : Nat} {s : String}

namespace Constants

/-- A text constant. -/
def textConstant (content : List UInt8) : List UInt8 :=
  bytesOf 1 1 ++ (bytesOf 2 content.length ++ content)

/-- Whether bytes are the constants up to an index. -/
inductive Precedes : List UInt8 → Nat → Prop where
  /-- The constants begin at index 1. -/
  | start : Precedes [] 1
  /-- A constant takes an index, -/
  | narrow {front bytes : List UInt8} {i : Nat} {constant : Constant} (h : Precedes front i)
    (hreads : Reads (readConstant i) bytes (constant, false)) : Precedes (front ++ bytes) (i + 1)
  /-- and a wide one takes two. -/
  | wide {front bytes : List UInt8} {i : Nat} {constant : Constant} (h : Precedes front i)
    (hreads : Reads (readConstant i) bytes (constant, true)) : Precedes (front ++ bytes) (i + 2)

/-- A constant is followed by the others, from the next index on. -/
theorem readFrom_append {k : Nat} (h : Reads (readConstant i) bytes (constant, wide))
    (rest : List UInt8) :
    readFrom false i (k + 1) (bytes ++ rest) =
      (readFrom wide (i + 1) k rest).map fun result => (constant :: result.1, result.2) := by
  rw [readFrom, if_neg Bool.false_ne_true, h.bind_append]
  exact bind_pure_apply (readFrom wide (i + 1) k) (constant :: ·) rest

/-- The second index of a wide constant takes no bytes. -/
theorem readFrom_afterWide (i k : Nat) (rest : List UInt8) :
    readFrom true i (k + 1) rest =
      (readFrom false (i + 1) k rest).map fun result => (.other :: result.1, result.2) := by
  rw [readFrom, if_pos rfl, bind_pure_apply]

/-- The constants before an index are read, and the others after them. -/
theorem Precedes.exists_readFrom (h : Precedes front i) (hi : i < count) :
    ∃ before, ∀ rest, readFrom false 1 (count - 1) (front ++ rest) =
      (readFrom false i (count - i) rest).map fun result => (before ++ result.1, result.2) := by
  induction h with
  | start =>
    refine ⟨[], fun rest => ?_⟩
    rw [List.nil_append]
    cases readFrom false 1 (count - 1) rest <;> rfl
  | @narrow front bytes i constant _ hreads ih =>
    obtain ⟨before, hbefore⟩ := ih (by omega)
    refine ⟨before ++ [constant], fun rest => ?_⟩
    have hcount : count - i = count - (i + 1) + 1 := by omega
    rw [List.append_assoc, hbefore, hcount, readFrom_append hreads]
    cases readFrom false (i + 1) (count - (i + 1)) rest with
    | error fault => rfl
    | ok result => simp [Except.map]
  | @wide front bytes i constant _ hreads ih =>
    obtain ⟨before, hbefore⟩ := ih (by omega)
    refine ⟨before ++ [constant, .other], fun rest => ?_⟩
    have hcount : count - i = count - (i + 2) + 1 + 1 := by omega
    rw [List.append_assoc, hbefore, hcount, readFrom_append hreads, readFrom_afterWide]
    cases readFrom false (i + 1 + 1) (count - (i + 2)) rest with
    | error fault => rfl
    | ok result => simp [Except.map]

/-- A text constant is read as the text that its content decodes to, or else reported with its
index. -/
theorem readConstant_textConstant (hcontent : content.length < 65536) (i : Nat)
    (rest : List UInt8) :
    readConstant i (textConstant content ++ rest) =
      (decode? content).elim (.error (.invalidText i)) fun s => .ok ((.text s, false), rest) := by
  have htag : Reads u1 (bytesOf 1 1) 1 := reads_u1 (by decide)
  rw [textConstant, readConstant, List.append_assoc, htag.bind_append, List.append_assoc]
  refine ((reads_u2 hcontent).bind_append _ _).trans ?_
  refine ((reads_take content).bind_append _ _).trans ?_
  cases decode? content <;> rfl

/-- Whether a text constant with this content is accepted at an index, as this text. -/
def Accepts (i : Nat) (content : List UInt8) (s : String) : Prop :=
  Reads (readConstant i) (textConstant content) (.text s, false)

theorem accepts_iff (hcontent : content.length < 65536) :
    Accepts i content s ↔ decode? content = some s := by
  unfold Accepts Reads
  simp only [readConstant_textConstant hcontent]
  cases decode? content with
  | none => simp
  | some t => simp

end Constants

namespace ClassFile

open Constants

/-- A fault in the constants is the fault of the class file. -/
theorem decode_preamble {fault : ClassFileFault} (hminor : minor < 65536) (hmajor : major < 65536)
    (hcount : count < 65536) (h : readFrom false 1 (count - 1) rest = .error fault) :
    decode (preamble minor major count ++ rest) = .error fault := by
  have hmagic : Reads u4 (bytesOf 4 magic) magic := reads_u4 (by decide)
  rw [decode_eq_error_iff, read_eq, preamble, List.append_assoc, hmagic.bind_append, if_pos rfl,
    readContents, List.append_assoc, (reads_u2 hminor).bind_append, List.append_assoc,
    (reads_u2 hmajor).bind_append]
  refine bind_of_eq_error ?_ _
  rw [Constants.read, (reads_u2 hcount).bind_append]
  exact bind_of_eq_error h _

/-- A text constant is accepted exactly as the text that it is the UTF-8 of or that its groups come
to, and otherwise the class file is refused with the index of the constant. So every content that is
no encoding of a text is refused, and every other one read as a text that it encodes, exactly if the
content is UTF-8, or does not come to a text, or has the shortest groups throughout. -/
theorem decode_textConstant (hfront : Precedes front i) (hi : i < count) (hcount : count < 65536)
    (hminor : minor < 65536) (hmajor : major < 65536) (hcontent : content.length < 65536) :
    (∀ s, Accepts i content s ↔ content = encodeUtf8 s ∨ IsGrouped content s) ∧
    ((∀ s, ¬ Accepts i content s) → ∀ rest,
      decode (preamble minor major count ++ (front ++ (textConstant content ++ rest))) =
        .error (.invalidText i)) ∧
    ((∀ s, Accepts i content s → IsEncoding content s) ∧
      ((∀ s, ¬ IsEncoding content s) → ∀ rest,
        decode (preamble minor major count ++ (front ++ (textConstant content ++ rest))) =
          .error (.invalidText i)) ↔
      (∃ s, content = encodeUtf8 s) ∨ (∀ s, ¬ IsGrouped content s) ∨ WellGrouped content) := by
  have hrefused : (∀ s, ¬ Accepts i content s) → ∀ rest,
      decode (preamble minor major count ++ (front ++ (textConstant content ++ rest))) =
        .error (.invalidText i) := by
    intro hnot rest
    have hnone : decode? content = none := by
      refine Option.eq_none_iff_forall_ne_some.2 fun s hs => ?_
      exact hnot s ((accepts_iff hcontent).2 hs)
    obtain ⟨before, hbefore⟩ := hfront.exists_readFrom hi
    obtain ⟨k, hk⟩ : ∃ k, count - i = k + 1 := ⟨count - i - 1, by omega⟩
    have hfault : readFrom false i (k + 1) (textConstant content ++ rest) =
        .error (.invalidText i) := by
      rw [readFrom, if_neg Bool.false_ne_true]
      refine bind_of_eq_error ?_ _
      rw [readConstant_textConstant hcontent, hnone, Option.elim_none]
    refine decode_preamble hminor hmajor hcount ?_
    rw [hbefore, hk, hfault]
    rfl
  refine ⟨fun s => (accepts_iff hcontent).trans decode?_eq_some_iff, hrefused, ?_⟩
  rw [← isEncoding_of_decode?_iff]
  simp only [accepts_iff hcontent] at hrefused ⊢
  constructor
  · exact And.left
  · exact fun h => ⟨h, fun hnot => hrefused fun s hs => hnot s (h s hs)⟩

/-- A byte that begins no group, in the constant after one that is a text. -/
theorem decode_textConstant_stray :
    Precedes (textConstant [0x62]) 2 ∧ (∀ s, ¬ IsEncoding [0xFF] s) ∧
      ∀ rest, decode (preamble 0 52 3 ++ (textConstant [0x62] ++ (textConstant [0xFF] ++ rest))) =
        .error (.invalidText 2) := by
  have hletter : Accepts 1 [0x62] "b" :=
    (accepts_iff (by decide)).2 (decode?_of_isEncoding (.inl (by decide)))
  have hfront : Precedes ([] ++ textConstant [0x62]) 2 := .narrow .start hletter
  rw [List.nil_append] at hfront
  have hnone : decode? [0xFF] = none := by decide
  have hrefused : ∀ s, ¬ IsEncoding [0xFF] s := fun s hs => by
    rw [decode?_of_isEncoding hs] at hnone
    cases hnone
  have hgroups : ∀ s, ¬ IsGrouped [0xFF] s := fun s hs => by
    rw [decode?_eq_some_iff.2 (.inr hs)] at hnone
    cases hnone
  have hlaw := @decode_textConstant _ [0xFF] _ 3 0 52 hfront (by decide) (by decide) (by decide)
    (by decide) (by decide)
  exact ⟨hfront, hrefused, (hlaw.2.2.2 (.inr (.inl hgroups))).2 hrefused⟩

/-- A class with a text constant as its name. -/
def namedBy (content : List UInt8) : List UInt8 :=
  preamble 0 52 3 ++ (textConstant content ++
    [7, 0, 1, 0, 0x21, 0, 2, 0, 0, 0, 0, 0, 0, 0, 0, 0, 0])

/-- The first byte announces a second one, for which the letter `A` is taken. What is read has
neither encoding in these bytes. -/
theorem letter_swallowed :
    Accepts 1 [0xC3, 0x41] "\u00C1" ∧ (∀ s, ¬ IsEncoding [0xC3, 0x41] s) ∧
      decode (namedBy [0xC3, 0x41]) = .ok { name := "\u00C1", access := ⟨0x21⟩ } := by
  have hdecode : decode? [0xC3, 0x41] = some "\u00C1" := by decide +kernel
  refine ⟨(accepts_iff (by decide)).2 hdecode, fun s hs => ?_, by decide +kernel⟩
  obtain rfl := Option.some.inj ((decode?_of_isEncoding hs).symm.trans hdecode)
  rcases hs with hs | hs
  · exact absurd hs (by decide +kernel)
  · exact absurd hs (by decide +kernel)

end ClassFile

end StableNaming
