import StableNaming.Proofs.Graph.Reordering

/-!
# Initializers among joined methods

Joining goes by keys and access flags only, so it does not tell initializers from other methods. A
class comes to hold the method of the first of its kin by name, and keeps its own method exactly if
it is the first one itself. All classes keep their initializers exactly if no class inherits from
two that declare the same one.
-/

namespace StableNaming

open Relation

namespace ClassFile

variable {file : ClassFile} {key : MemberKey} {m : Member}

/-- What is declared under a key is a method with this key. -/
theorem mem_of_method? (h : file.method? key = some m) : m ∈ file.methods ∧ m.key = key := by
  obtain ⟨m', hm', heq⟩ := List.mem_map.1 (KeyMap.mem_of_find?_ofList h)
  obtain ⟨rfl, rfl⟩ := Prod.mk.inj heq
  exact ⟨hm', rfl⟩

/-- Of methods with distinct keys each one is declared. -/
theorem method?_eq_some_iff (hkeys : (file.methods.map (·.key)).Nodup) :
    file.method? key = some m ↔ m ∈ file.methods ∧ m.key = key := by
  constructor
  · exact mem_of_method?
  · rintro ⟨hm, rfl⟩
    obtain ⟨before, after, hsplit⟩ := List.append_of_mem hm
    rw [hsplit, List.map_append, List.map_cons] at hkeys
    refine KeyMap.find?_ofList_eq_some_iff.2
      ⟨before.map fun m => (m.key, m), after.map fun m => (m.key, m), by simp [hsplit], ?_⟩
    intro pair hpair heq
    obtain ⟨m', hm', rfl⟩ := List.mem_map.1 hpair
    exact (List.nodup_cons.1 (List.nodup_append.1 hkeys).2.1).1
      (List.mem_map.2 ⟨m', hm', heq⟩)

end ClassFile

namespace ClassGraph

variable {g : ClassGraph} {c first : ClassId} {key : MemberKey} {m m' : Member}

/-- Whether a class holds a method that another one declares, or the class itself. -/
def HoldsFrom (g : ClassGraph) (c owner : ClassId) (m : Member) : Prop :=
  ∃ symbol, g.methodIn? c m.key = some symbol ∧ symbol.owner = g.nameAt owner ∧
    symbol.toMember = m

/-- Whether no kin of a class come before another class by name. -/
def IsFirst (g : ClassGraph) (key : MemberKey) (c first : ClassId) : Prop :=
  ∀ d, g.Kindred key c d → g.nameAt first ≤ g.nameAt d

/-- What takes no part in dispatch has no kin but itself. -/
theorem Kindred.eq_of_not_overridable {x y : ClassId} (h : g.Kindred key x y)
    (hx : g.overridable key x = false) : y = x := by
  rcases h.cases_head with heq | ⟨z, hlinked, -⟩
  · exact heq.symm
  · exact absurd hlinked.1 (hx ▸ Bool.false_ne_true)

namespace Unjoined

/-- The family of a method, whatever its access flags are, is the kin of its class. -/
theorem mem_family_iff_kindred_of_slot? (h : g.Unjoined) {own : MethodId} {d : ClassId}
    (hslot : g.slot? c key = some own) :
    d ∈ g.hierarchy.family c key ↔ g.Kindred key c d := by
  cases hc : g.overridable key c with
  | true => exact h.mem_family_iff_kindred hc
  | false =>
    obtain ⟨symbol, hsymbol, -⟩ := h.own hslot
    rw [family_of_not_overridable hslot hsymbol hc, List.mem_singleton]
    constructor
    · rintro rfl
      exact .refl
    · exact fun hd => hd.eq_of_not_overridable hc

/-- After joining a class holds the method of the first of its kin. -/
theorem exists_first (h : g.Unjoined) {own : MethodId} (hslot : g.slot? c key = some own) :
    ∃ first symbol related, g.Kindred key c first ∧ g.IsFirst key c first ∧
      g.methodIn? first key = some symbol ∧ symbol.owner = g.nameAt first ∧
      g.join.methodIn? c key = some { symbol with related } := by
  obtain ⟨first, rest, m, hfamily, hm, hjoined⟩ := h.exists_leader hslot
  obtain ⟨symbol, hsymbol, -, howner, -⟩ := h.own hm
  have hordered := hfamily ▸ h.pairwise_family c key
  refine ⟨first, symbol, g.joinedNames g.families m symbol, ?_, fun d hd => ?_, ?_, howner, ?_⟩
  · rw [← h.mem_family_iff_kindred_of_slot? hslot, hfamily]
    exact List.mem_cons_self
  · rw [← h.mem_family_iff_kindred_of_slot? hslot, hfamily] at hd
    rcases List.mem_cons.1 hd with rfl | hd
    · exact String.le_refl _
    · exact String.not_lt.1 (String.lt_asymm ((List.pairwise_cons.1 hordered).1 d hd))
  · rw [methodIn?, hm, Option.bind_some, hsymbol]
  · rw [methodIn?, hjoined, Option.bind_some, methodAt?_join, hsymbol, Option.map_some]

end Unjoined

end ClassGraph

namespace GraphBuilder

open ClassGraph

variable {files : List ClassFile} {file : ClassFile} {c : ClassId} {key : MemberKey} {m : Member}

/-- A class holds the method that the first of its kin by name declares. -/
theorem exists_first_build (hc : c < (build files).size)
    (hfile : ClassFile.named? files ((build files).nameAt c) = some file)
    (hm : file.method? key = some m) :
    ∃ first, (build files).Kindred key c first ∧ (build files).IsFirst key c first ∧
      ∃ file' m', ClassFile.named? files ((build files).nameAt first) = some file' ∧
        file'.method? key = some m' ∧ m'.key = key ∧ (build files).HoldsFrom c first m' := by
  have hunjoined := unjoined_unjoined files
  have hname : ∀ x, (unjoined files).nameAt x = (build files).nameAt x := fun x =>
    (nameAt_build files x).symm
  have hdeclares := declares_build hc key
  rw [hfile, Option.bind_some, hm, Option.isSome_some, declares, build_eq_join, slot?_join,
    Option.isSome_map, Option.isSome_iff_exists] at hdeclares
  obtain ⟨own, hslot⟩ := hdeclares
  obtain ⟨first, symbol, related, hkindred, hfirst, hsymbol, howner, hheld⟩ :=
    hunjoined.exists_first hslot
  rw [← hunjoined.kindred_join, ← build_eq_join] at hkindred
  have hkin : (build files).IsFirst key c first := by
    intro d hd
    rw [build_eq_join, hunjoined.kindred_join] at hd
    rw [← hname, ← hname]
    exact hfirst d hd
  have hlt : first < (build files).size := by
    obtain ⟨m, hm, -⟩ := Option.bind_eq_some_iff.1 hsymbol
    exact size_build files ▸ lt_size_of_slot? hm
  have hfound := (described_unjoined hlt).methodIn?_eq key
  rw [hsymbol, Option.map_some, eq_comm, Option.bind_eq_some_iff] at hfound
  obtain ⟨file', hfile', hm'⟩ := hfound
  have hkey := (ClassFile.mem_of_method? hm').2
  refine ⟨first, hkindred, hkin, file', symbol.toMember, hfile', hm', hkey, ?_⟩
  rw [← build_eq_join, ← hkey] at hheld
  exact ⟨_, hheld, howner.trans (hname first), rfl⟩

/-- A class keeps the method of its own class file exactly if it is the first of its kin. -/
theorem holdsFrom_self_iff (hc : c < (build files).size)
    (hfile : ClassFile.named? files ((build files).nameAt c) = some file)
    (hm : file.method? key = some m) :
    (build files).HoldsFrom c c m ↔ (build files).IsFirst key c c := by
  obtain ⟨first, hkindred, hfirst, file', m', hfile', hm', hkey', hheld⟩ :=
    exists_first_build hc hfile hm
  obtain ⟨symbol, hsymbol, howner, hmember⟩ := hheld
  constructor
  · rintro ⟨symbol', hsymbol', howner', -⟩
    rw [hkey', ← (ClassFile.mem_of_method? hm).2, hsymbol', Option.some_inj] at hsymbol
    intro d hd
    rw [← howner', hsymbol, howner]
    exact hfirst d hd
  · intro hself
    have hsame : (build files).nameAt first = (build files).nameAt c :=
      String.le_antisymm (hfirst c .refl) (hself first hkindred)
    rw [hsame, hfile, Option.some_inj] at hfile'
    rw [← hfile', hm, Option.some_inj] at hm'
    rw [← hm'] at hsymbol hmember
    exact ⟨symbol, hsymbol, howner.trans hsame, hmember⟩

/-- Whether in the graph of class files every class holds the initializers of its own class file. -/
def KeepsInitializers (files : List ClassFile) : Prop :=
  ∀ file ∈ files, ∀ m ∈ file.methods, m.key.isInitializer = true →
    ∀ c < (build files).size, (build files).nameAt c = file.name → (build files).HoldsFrom c c m

section Distinct

variable (hnames : (files.map (·.name)).Nodup)
  (hkeys : ∀ file ∈ files, (file.methods.map (·.key)).Nodup)
include hnames hkeys

/-- What class files with distinct names and keys declare is what counts for their classes. -/
theorem declared_iff : (ClassFile.named? files ((build files).nameAt c) = some file ∧
    file.method? key = some m) ↔
      file ∈ files ∧ file.name = (build files).nameAt c ∧ m ∈ file.methods ∧ m.key = key := by
  rw [ClassFile.named?_eq_some_iff hnames, and_assoc]
  exact and_congr_right fun hfile => and_congr_right fun _ =>
    ClassFile.method?_eq_some_iff (hkeys file hfile)

/-- All classes keep their initializers exactly if no two classes are linked under the key of one,
that is, if no class inherits from two that declare the same one neither private nor static. -/
theorem keepsInitializers_iff : KeepsInitializers files ↔
    ∀ k : MemberKey, k.isInitializer = true → ∀ x y, (build files).Linked k x y → x = y := by
  have hfinished := finished_build files
  constructor
  · intro hkeeps k hk x y hlinked
    have hfirst : ∀ {z}, (build files).overridable k z = true → (build files).IsFirst k z z := by
      intro z hz
      have hlt := lt_size_of_overridable hz
      rw [overridable_build hlt, Option.any_eq_true] at hz
      obtain ⟨m, hfound, -⟩ := hz
      obtain ⟨file, hfile, hm⟩ := Option.bind_eq_some_iff.1 hfound
      obtain ⟨hmem, hname, hmethod, rfl⟩ := (declared_iff hnames hkeys).1 ⟨hfile, hm⟩
      exact (holdsFrom_self_iff hlt hfile hm).1 (hkeeps file hmem m hmethod hk z hlt hname.symm)
    have hle := hfirst hlinked.1 y (.single hlinked)
    have hge := hfirst hlinked.2.1 x (.single hlinked.symm)
    exact hfinished.names (lt_size_of_overridable hlinked.1) (lt_size_of_overridable hlinked.2.1)
      (String.le_antisymm hle hge)
  · intro hlinked file hfile m hm hk c hc hname
    obtain ⟨hfound, hmethod⟩ := (declared_iff hnames hkeys).2 ⟨hfile, hname.symm, hm, rfl⟩
    refine (holdsFrom_self_iff hc hfound hmethod).2 fun d hd => ?_
    -- where links lead nowhere else, neither do chains of them
    obtain rfl : d = c := by
      induction hd with
      | refl => rfl
      | tail _ hstep ih => exact ((hlinked m.key hk _ _ hstep).symm.trans ih)
    exact String.le_refl _

end Distinct

/-- Joining treats the methods of all keys alike, initializers among them: every class holds the
method that the first of its kin by name declares, with its owner, access flags and signature, and
its own one exactly if it is the first itself. Private and static methods have no other kin. -/
theorem holdsFrom_build {files : List ClassFile} (hnames : (files.map (·.name)).Nodup)
    (hkeys : ∀ file ∈ files, (file.methods.map (·.key)).Nodup) :
    (∀ file ∈ files, ∀ m ∈ file.methods, ∃ c < (build files).size,
      (build files).nameAt c = file.name ∧
      (∃ first, (build files).Kindred m.key c first ∧ (build files).IsFirst m.key c first ∧
        ∃ file' ∈ files, file'.name = (build files).nameAt first ∧
          ∃ m' ∈ file'.methods, m'.key = m.key ∧ (build files).HoldsFrom c first m') ∧
      ((build files).HoldsFrom c c m ↔ (build files).IsFirst m.key c c) ∧
      (m.access.isPrivateOrStatic = true → (build files).HoldsFrom c c m)) ∧
    (KeepsInitializers files ↔
      ∀ k : MemberKey, k.isInitializer = true → ∀ x y, (build files).Linked k x y → x = y) := by
  refine ⟨fun file hfile m hm => ?_, keepsInitializers_iff hnames hkeys⟩
  obtain ⟨c, hc, hname⟩ := exists_nameAt_build hfile
  obtain ⟨hfound, hmethod⟩ := (declared_iff hnames hkeys).2 ⟨hfile, hname.symm, hm, rfl⟩
  have hself := holdsFrom_self_iff hc hfound hmethod
  refine ⟨c, hc, hname, ?_, hself, fun haccess => hself.2 fun d hd => ?_⟩
  · obtain ⟨first, hkindred, hfirst, file', m', hfile', hm', -, hheld⟩ :=
      exists_first_build hc hfound hmethod
    obtain ⟨hmem, hname', hmethod', hkey⟩ := (declared_iff hnames hkeys).1 ⟨hfile', hm'⟩
    exact ⟨first, hkindred, hfirst, file', hmem, hname', m', hmethod', hkey, hheld⟩
  · have hclosed : (build files).overridable m.key c = false := by
      rw [overridable_build hc, hfound, Option.bind_some, hmethod, Option.any_some, haccess,
        Bool.not_true]
    obtain rfl := hd.eq_of_not_overridable hclosed
    exact String.le_refl _

/-- The initializer of a class. -/
def publicInit : Member := { key := ⟨"<init>", "()V"⟩, access := ⟨1⟩ }

/-- That of a subclass, with other access flags and a signature. -/
def protectedInit : Member :=
  { key := ⟨"<init>", "()V"⟩, access := ⟨4⟩, signature := some "<T:Ljava/lang/Object;>()V" }

/-- The class and its subclass. -/
def derivedFiles : List ClassFile :=
  [{ name := "a", methods := [publicInit] },
    { name := "b", superName := some "a", methods := [protectedInit] }]

theorem nameAt_derivedFiles : (build derivedFiles).nameAt 1 = "b" := by decide +kernel

/-- The subclass holds the initializer of the class, and not its own. -/
theorem not_holdsFrom_derivedFiles : ¬ (build derivedFiles).HoldsFrom 1 1 protectedInit := by
  have hheld : (build derivedFiles).methodIn? 1 protectedInit.key =
      some { toMember := publicInit, owner := "a", related := ["a", "b"] } := by
    decide +kernel
  rintro ⟨symbol, hsymbol, howner, -⟩
  rw [hheld, Option.some_inj] at hsymbol
  rw [← hsymbol, nameAt_derivedFiles] at howner
  exact absurd howner (by decide)

/-- So there is kin that comes before it by name. -/
theorem not_isFirst_derivedFiles :
    (derivedFiles.map (·.name)).Nodup ∧ (∀ file ∈ derivedFiles, (file.methods.map (·.key)).Nodup) ∧
      ¬ (build derivedFiles).IsFirst protectedInit.key 1 1 := by
  have hnames : (derivedFiles.map (·.name)).Nodup := by decide
  have hkeys : ∀ file ∈ derivedFiles, (file.methods.map (·.key)).Nodup := by decide
  obtain ⟨c, hc, hname, -, hself, -⟩ := (holdsFrom_build hnames hkeys).1
    { name := "b", superName := some "a", methods := [protectedInit] } (by simp [derivedFiles])
    protectedInit (by simp)
  obtain rfl : c = 1 := (finished_build derivedFiles).names hc (by decide +kernel)
    (hname.trans nameAt_derivedFiles.symm)
  exact ⟨hnames, hkeys, fun hfirst => not_holdsFrom_derivedFiles (hself.2 hfirst)⟩

/-- A subclass with an initializer of the same descriptor loses its own. -/
theorem not_keepsInitializers_derivedFiles :
    (derivedFiles.map (·.name)).Nodup ∧ (∀ file ∈ derivedFiles, (file.methods.map (·.key)).Nodup) ∧
      ¬ KeepsInitializers derivedFiles := by
  refine ⟨by decide, by decide, fun hkeeps => not_holdsFrom_derivedFiles ?_⟩
  exact hkeeps _ (List.mem_cons_of_mem _ List.mem_cons_self) protectedInit List.mem_cons_self
    (by decide) 1 (by decide +kernel) nameAt_derivedFiles

end GraphBuilder

end StableNaming
