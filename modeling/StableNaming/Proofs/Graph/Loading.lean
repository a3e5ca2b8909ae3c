import StableNaming.Proofs.Graph.Closure

/-!
# Classes and their class files

In a finished graph a class is what its class file says, and of several class files
with one name the first counts. A class without a class file has a name and a place
in the nesting, and nothing else.
-/

namespace StableNaming

namespace KeyMap

variable {α β γ : Type}

/-- Changing every value of a list changes the values of its map. -/
theorem ofList_map (f : α → β) (pairs : List (MemberKey × α)) :
    ofList (pairs.map fun pair => (pair.1, f pair.2)) = (ofList pairs).mapValues fun _ => f := by
  have hinsert : ∀ (m : KeyMap α) (pair : MemberKey × α),
      (m.insert pair.1 pair.2).mapValues (fun _ => f) =
        (m.mapValues fun _ => f).insert pair.1 (f pair.2) := by
    intro m pair
    refine ext_find? fun k => ?_
    rw [find?_mapValues, find?_insert, find?_insert, find?_mapValues]
    split <;> rfl
  have hfold : ∀ m : KeyMap α,
      (pairs.map fun pair => (pair.1, f pair.2)).foldl (fun m pair => m.insert pair.1 pair.2)
          (m.mapValues fun _ => f) =
        (pairs.foldl (fun m pair => m.insert pair.1 pair.2) m).mapValues fun _ => f := by
    induction pairs with
    | nil => exact fun m => rfl
    | cons pair pairs ih =>
      intro m
      rw [List.map_cons, List.foldl_cons, List.foldl_cons, ← hinsert]
      exact ih _
  exact hfold empty

end KeyMap

namespace ClassFile

/-- The class file that counts for a class: the first one with its name. -/
def named? (files : List ClassFile) (name : String) : Option ClassFile :=
  files.find? fun file => file.name = name

theorem name_of_named? {files : List ClassFile} {name : String} {file : ClassFile}
    (h : named? files name = some file) : file.name = name := by
  have hname := List.find?_some h
  exact of_decide_eq_true hname

/-- A class file that comes last counts only if there is none with its name yet. -/
theorem named?_concat (files : List ClassFile) (file : ClassFile) (name : String) :
    named? (files ++ [file]) name =
      (named? files name).or (if file.name = name then some file else none) := by
  rw [named?, List.find?_append, List.find?_singleton]
  simp only [decide_eq_true_eq]
  rfl

/-- The method that a class file declares under a key; of several the last. -/
def method? (file : ClassFile) (key : MemberKey) : Option Member :=
  (KeyMap.ofList (file.methods.map fun m => (m.key, m))).find? key

/-- A class that is loaded has a number under the key of every method, and no other numbers. -/
theorem find?_methods_load (file : ClassFile) (c : ClassSymbol) (first : MethodId)
    (key : MemberKey) :
    ∃ found : Option (MethodId × Member), (c.load file first).methods.find? key = found.map (·.1) ∧
      file.method? key = found.map (·.2) ∧
      ∀ number m, found = some (number, m) →
        ∃ i, number = first + i ∧ file.methods[i]? = some m := by
  obtain ⟨pairs, hpairs⟩ : ∃ pairs : List (MemberKey × MethodId × Member),
      pairs = file.methods.mapIdx fun i m => (m.key, first + i, m) := ⟨_, rfl⟩
  have hnumbers : (c.load file first).methods =
      (KeyMap.ofList pairs).mapValues fun _ => Prod.fst := by
    rw [← KeyMap.ofList_map, hpairs]
    exact congrArg KeyMap.ofList (List.ext_getElem (by simp) (by simp))
  have hmembers : KeyMap.ofList (file.methods.map fun m => (m.key, m)) =
      (KeyMap.ofList pairs).mapValues fun _ => Prod.snd := by
    rw [← KeyMap.ofList_map, hpairs]
    exact congrArg KeyMap.ofList (List.ext_getElem (by simp) (by simp))
  refine ⟨(KeyMap.ofList pairs).find? key, ?_, ?_, fun number m hfound => ?_⟩
  · rw [hnumbers, KeyMap.find?_mapValues]
  · rw [method?, hmembers, KeyMap.find?_mapValues]
  · have hmem := KeyMap.mem_of_find?_ofList hfound
    rw [hpairs] at hmem
    obtain ⟨i, hi, heq⟩ := List.mem_mapIdx.1 hmem
    obtain ⟨-, hnumber, hm⟩ := by simpa only [Prod.mk.injEq] using heq
    exact ⟨i, hnumber.symm, by rw [List.getElem?_eq_getElem hi, hm]⟩

end ClassFile

/-- A class by itself, without the numbers of its methods. -/
def ClassSymbol.outline (c : ClassSymbol) : ClassSymbol := { c.alone with methods := .empty }

theorem ClassSymbol.enclosure_outline (c : ClassSymbol) : c.outline.enclosure = c.enclosure := rfl

namespace ClassGraph

variable {g g' : ClassGraph} {files : List ClassFile}

/-- What a class with a name is by itself, given its class file, if there is one, and all methods of
the graph. -/
inductive Described (methods : Array MethodSymbol) (name : String) :
    Option ClassFile → ClassSymbol → Prop where
  /-- Without a class file only the name is known. -/
  | bare : Described methods name none { name }
  /-- The class takes over what its class file says, and the graph has the methods. -/
  | loaded {file : ClassFile} {first : MethodId} :
    (∀ i m, file.methods[i]? = some m →
      methods[first + i]? = some { toMember := m, owner := file.name }) →
      Described methods name (some file) (({ name } : ClassSymbol).load file first)

/-- Whether a class is loaded can be told from whether it has a class file. -/
theorem Described.loaded_eq {methods : Array MethodSymbol} {name : String}
    {file? : Option ClassFile} {c : ClassSymbol} (h : Described methods name file? c) :
    c.loaded = file?.isSome := by
  cases h <;> rfl

/-- More methods change nothing. -/
theorem Described.append {methods : Array MethodSymbol} {name : String}
    {file? : Option ClassFile} {c : ClassSymbol} (h : Described methods name file? c)
    (more : Array MethodSymbol) : Described (methods ++ more) name file? c := by
  cases h with
  | bare => exact .bare
  | loaded hmethods =>
    refine .loaded fun i m hm => ?_
    have hfound := hmethods i m hm
    rw [Array.getElem?_append_left (Array.getElem?_eq_some_iff.1 hfound).1]
    exact hfound

/-- Whether the classes of a graph are those of class files and their containers. -/
structure HoldsFiles (g : ClassGraph) (files : List ClassFile) : Prop where
  /-- Each class is what its class file says. -/
  described : ∀ id < g.size, Described g.methods (g.nameAt id)
    (ClassFile.named? files (g.nameAt id)) (g.classAt id).alone
  /-- Each class file has a class. -/
  found : ∀ file ∈ files, ∃ id < g.size, g.nameAt id = file.name

/-- Without class files there are no classes. -/
theorem HoldsFiles.empty : HoldsFiles {} [] where
  described id hid := absurd hid (Nat.not_lt_zero id)
  found _ hfile := absurd hfile List.not_mem_nil

/-- Classes of which only the names are known have no class files. -/
theorem HoldsFiles.extended (h : g.HoldsFiles files) {bound : Nat} (hextended : Extended g g' bound)
    (hnames : g'.DistinctNames) : g'.HoldsFiles files where
  described id hid := by
    rw [hextended.methods_eq]
    by_cases hold : id < g.size
    · rw [hextended.nameAt_eq id hold, hextended.alone_eq id hold]
      exact h.described id hold
    · have hle := Nat.le_of_not_lt hold
      rw [hextended.new_eq id hle hid]
      cases hnamed : ClassFile.named? files (g'.nameAt id) with
      | none => exact .bare
      | some file =>
        obtain ⟨old, hold', hname⟩ := h.found file (List.mem_of_find?_eq_some hnamed)
        have hname' := (hextended.nameAt_eq old hold').trans
          (hname.trans (ClassFile.name_of_named? hnamed))
        have hlt := Nat.lt_of_lt_of_le hold' hextended.size_le
        exact absurd (hnames hlt hid hname' ▸ hold') hold
  found file hfile := by
    obtain ⟨id, hid, hname⟩ := h.found file hfile
    exact ⟨id, Nat.lt_of_lt_of_le hid hextended.size_le, (hextended.nameAt_eq id hid).trans hname⟩

/-- When a class file has been added, only its class can be another one than before. -/
theorem HoldsFiles.concat (h : g.HoldsFiles files) (hnames : g.DistinctNames) {file : ClassFile}
    {id : ClassId} (hid : id < g.size) (hfile : g.nameAt id = file.name)
    (hsize : g'.size = g.size) (hname : ∀ x, g'.nameAt x = g.nameAt x)
    (hself : Described g'.methods file.name (ClassFile.named? (files ++ [file]) file.name)
      (g'.classAt id).alone)
    (hother : ∀ x < g.size, x ≠ id → Described g'.methods (g.nameAt x)
      (ClassFile.named? files (g.nameAt x)) (g'.classAt x).alone) :
    g'.HoldsFiles (files ++ [file]) where
  described x hx := by
    rw [hsize] at hx
    rw [hname]
    by_cases hx' : x = id
    · rw [hx', hfile]
      exact hself
    · have hne : file.name ≠ g.nameAt x := fun heq => hx' (hnames hx hid (hfile.trans heq).symm)
      rw [ClassFile.named?_concat, if_neg hne, Option.or_none]
      exact hother x hx hx'
  found file' hfile' := by
    have hold : ∃ x < g.size, g.nameAt x = file'.name := by
      rcases List.mem_append.1 hfile' with hfile' | hfile'
      · exact h.found file' hfile'
      · rw [List.mem_singleton.1 hfile']
        exact ⟨id, hid, hfile⟩
    obtain ⟨x, hx, hfile'⟩ := hold
    exact ⟨x, hsize ▸ hx, (hname x).trans hfile'⟩

/-- A second class file for one class does not count. -/
theorem HoldsFiles.skip (h : g.HoldsFiles files) (hnames : g.DistinctNames) {file : ClassFile}
    {id : ClassId} (hid : id < g.size) (hfile : g.nameAt id = file.name)
    (hloaded : (g.classAt id).loaded = true) : g.HoldsFiles (files ++ [file]) := by
  have hself := h.described id hid
  rw [hfile] at hself
  refine h.concat hnames hid hfile rfl (fun x => rfl) ?_ fun x hx _ => h.described x hx
  obtain ⟨first, hfirst⟩ := Option.isSome_iff_exists.1 (hself.loaded_eq.symm.trans hloaded)
  rw [ClassFile.named?_concat, hfirst, Option.some_or, ← hfirst]
  exact hself

/-- The first class file for a class says what the class is. -/
theorem HoldsFiles.load (h : g.HoldsFiles files) (hnames : g.DistinctNames) {file : ClassFile}
    {id : ClassId} (hid : id < g.size) (hfile : g.nameAt id = file.name)
    (hloaded : (g.classAt id).loaded = false)
    (hg' : g' = { (g.modifyClass id fun c => c.load file g.methods.size) with
      methods := g.methods ++ (file.methods.map fun m =>
        { toMember := m, owner := file.name : MethodSymbol }).toArray }) :
    g'.HoldsFiles (files ++ [file]) := by
  obtain ⟨declared, hdeclared⟩ : ∃ declared : Array MethodSymbol, declared =
    (file.methods.map fun m => { toMember := m, owner := file.name : MethodSymbol }).toArray :=
      ⟨_, rfl⟩
  rw [← hdeclared] at hg'
  have hclass : ∀ x, g'.classAt x =
      if x = id ∧ x < g.size then (g.classAt x).load file g.methods.size else g.classAt x := by
    rw [hg']
    exact classAt_load g id _ _
  have hmethods : g'.methods = g.methods ++ declared := by rw [hg']
  have hsize : g'.size = g.size := by
    rw [hg']
    exact size_modifyClass g id _
  refine h.concat hnames hid hfile hsize (fun x => ?_) ?_ fun x hx hne => ?_
  · rw [nameAt, hclass]
    split <;> rfl
  · have hself := h.described id hid
    rw [hfile] at hself
    have hnone := hself.loaded_eq.symm.trans hloaded
    rw [Option.isSome_eq_false_iff, Option.isNone_iff_eq_none] at hnone
    rw [hnone] at hself
    rw [ClassFile.named?_concat, hnone, Option.none_or, if_pos rfl, hclass, if_pos ⟨rfl, hid⟩,
      hmethods]
    have halone : ((g.classAt id).load file g.methods.size).alone =
        ({ name := file.name } : ClassSymbol).load file g.methods.size := by
      rw [← hfile]
      rfl
    rw [halone]
    refine .loaded fun i m hm => ?_
    rw [Array.getElem?_append_right (Nat.le_add_right _ _), Nat.add_sub_cancel_left, hdeclared]
    simp [hm]
  · rw [hclass, if_neg fun hbad => hne hbad.1, hmethods]
    exact (h.described x hx).append declared

/-- Adding a class file adds what it says, unless its class has one already. -/
theorem HoldsFiles.addClass (h : g.HoldsFiles files) (hgrowing : g.Growing) (file : ClassFile) :
    (g.addClass file).2.HoldsFiles (files ++ [file]) := by
  have hensured := ensured_ensureClass hgrowing.names hgrowing.forest file.name
  have hgrown := h.extended hensured.extended hensured.names
  unfold ClassGraph.addClass
  generalize g.ensureClass file.name = result at hensured hgrown
  obtain ⟨id, grown⟩ := result
  dsimp only at hensured hgrown ⊢
  split
  · rename_i hloaded
    exact hgrown.skip hensured.names hensured.lt_size hensured.nameAt_eq hloaded
  · rename_i hloaded
    exact hgrown.load hensured.names hensured.lt_size hensured.nameAt_eq
      (by simpa using hloaded) rfl

/-- Classes that differ in their places only are described alike. -/
theorem HoldsFiles.congr (h : g.HoldsFiles files) (hsize : g'.size = g.size)
    (hmethods : g'.methods = g.methods)
    (halone : ∀ id, (g'.classAt id).alone = (g.classAt id).alone) :
    g'.HoldsFiles files := by
  have hname : ∀ id, g'.nameAt id = g.nameAt id := by
    intro id
    have hname := congrArg ClassSymbol.name (halone id)
    exact hname
  refine ⟨fun id hid => ?_, fun file hfile => ?_⟩
  · rw [hmethods, hname, halone]
    exact h.described id (hsize ▸ hid)
  · obtain ⟨id, hid, hfound⟩ := h.found file hfile
    exact ⟨id, hsize ▸ hid, (hname id).trans hfound⟩

/-- The method of a class is the one that its class file declares. -/
theorem Described.methodIn?_eq {id : ClassId} {file? : Option ClassFile}
    (h : Described g.methods (g.nameAt id) file? (g.classAt id).alone) (key : MemberKey) :
    (g.methodIn? id key).map MethodSymbol.toMember = file?.bind (·.method? key) := by
  have hslot : g.slot? id key = (g.classAt id).alone.methods.find? key := rfl
  rw [methodIn?, hslot]
  generalize (g.classAt id).alone = c at h
  cases h with
  | bare => rfl
  | @loaded file first hmethods =>
    obtain ⟨found, hnumber, hmember, hfound⟩ :=
      file.find?_methods_load { name := g.nameAt id } first key
    rw [hnumber, Option.bind_some, hmember]
    cases found with
    | none => rfl
    | some pair =>
      obtain ⟨i, hi, hm⟩ := hfound pair.1 pair.2 rfl
      have hsymbol := hmethods i pair.2 hm
      rw [← hi] at hsymbol
      rw [Option.map_some, Option.bind_some, methodAt?, hsymbol]
      rfl

end ClassGraph

namespace GraphBuilder

open ClassGraph

/-- Adding class files adds what they say. -/
theorem holdsFiles_foldl_addClass (files : List ClassFile) {b : GraphBuilder}
    {done : List ClassFile} (hgrowing : b.draft.Growing) (h : b.draft.HoldsFiles done) :
    (files.foldl (fun (b : GraphBuilder) file => (b.addClass file).2) b).draft.HoldsFiles
      (done ++ files) := by
  induction files generalizing b done with
  | nil =>
    rw [List.append_nil]
    exact h
  | cons file files ih =>
    have hrest := ih (b := (b.addClass file).2) (hgrowing.addClass file) (h.addClass hgrowing file)
    rwa [List.append_assoc] at hrest

/-- Before its methods are joined, the graph of class files has what they say. -/
theorem holdsFiles_unjoined (files : List ClassFile) : (unjoined files).HoldsFiles files := by
  have hdraft := holdsFiles_foldl_addClass files .empty .empty
  have hrelated := hdraft.congr (size_relate _) rfl fun id => by
    rw [classAt_relate]
    rfl
  have hsame := SameButNested.nestAll
    (files.foldl (fun (b : GraphBuilder) file => (b.addClass file).2) {}).draft.relate
  refine hrelated.congr hsame.size_eq hsame.methods_eq fun id => ?_
  rw [unjoined, hsame.classAt_eq]
  rfl

variable {files : List ClassFile} {id : ClassId}

/-- Every class file has a class. -/
theorem exists_nameAt_build {file : ClassFile} (hfile : file ∈ files) :
    ∃ id < (build files).size, (build files).nameAt id = file.name := by
  obtain ⟨id, hid, hname⟩ := (holdsFiles_unjoined files).found file hfile
  exact ⟨id, size_build files ▸ hid, (nameAt_build files id).trans hname⟩

section Class

variable (hid : id < (build files).size)
include hid

theorem described_unjoined :
    Described (unjoined files).methods ((unjoined files).nameAt id)
      (ClassFile.named? files ((build files).nameAt id)) ((unjoined files).classAt id).alone := by
  rw [nameAt_build]
  exact (holdsFiles_unjoined files).described id (size_build files ▸ hid)

/-- A class is loaded if it has a class file. -/
theorem loaded_build : ((build files).classAt id).loaded =
    (ClassFile.named? files ((build files).nameAt id)).isSome := by
  rw [← (described_unjoined hid).loaded_eq, build_eq_join, classAt_join]
  rfl

/-- What is said of a class, but for the numbers of its methods, is what its class file says. -/
theorem outline_build : ((build files).classAt id).outline =
    (ClassFile.named? files ((build files).nameAt id)).elim { name := (build files).nameAt id }
      fun file => (({ name := (build files).nameAt id } : ClassSymbol).load file 0).outline := by
  have houtline : ((build files).classAt id).outline =
      ((unjoined files).classAt id).alone.outline := by
    rw [build_eq_join, classAt_join]
    rfl
  have hdescribed := described_unjoined hid
  rw [houtline, nameAt_build]
  rw [nameAt_build] at hdescribed
  generalize ((unjoined files).classAt id).alone = c at hdescribed
  generalize ClassFile.named? files ((unjoined files).nameAt id) = file? at hdescribed
  cases hdescribed <;> rfl

/-- A class without a class file has nothing but its name. -/
theorem outline_build_of_not_loaded (hloaded : ((build files).classAt id).loaded = false) :
    ((build files).classAt id).outline = { name := (build files).nameAt id } := by
  have hnone := (loaded_build hid).symm.trans hloaded
  rw [Option.isSome_eq_false_iff, Option.isNone_iff_eq_none] at hnone
  rw [outline_build hid, hnone]
  rfl

/-- A class declares what its class file declares. -/
theorem declares_build (key : MemberKey) : (build files).declares id key =
    ((ClassFile.named? files ((build files).nameAt id)).bind (·.method? key)).isSome := by
  have hmethod := (described_unjoined hid).methodIn?_eq key
  rw [← hmethod, Option.isSome_map, declares, build_eq_join, slot?_join, Option.isSome_map,
    methodIn?]
  cases hslot : (unjoined files).slot? id key with
  | none => rfl
  | some m =>
    obtain ⟨symbol, hsymbol, -⟩ := (unjoined_unjoined files).own hslot
    rw [Option.bind_some, hsymbol]
    rfl

/-- Whether a method takes part in dispatch is what the class file says. -/
theorem overridable_build (key : MemberKey) : (build files).overridable key id =
    ((ClassFile.named? files ((build files).nameAt id)).bind (·.method? key)).any fun m =>
      !m.access.isPrivateOrStatic := by
  rw [← (described_unjoined hid).methodIn?_eq key, build_eq_join,
    (unjoined_unjoined files).overridable_join, Option.any_map]
  rfl

end Class

/-- Only classes with class files hold methods. -/
theorem loaded_of_slot? {key : MemberKey} {m : MethodId}
    (h : (build files).slot? id key = some m) : ((build files).classAt id).loaded = true := by
  have hid := lt_size_of_slot? h
  have hdeclares := declares_build hid key
  rw [declares, h, Option.isSome_some] at hdeclares
  rw [loaded_build hid]
  cases hfile : ClassFile.named? files ((build files).nameAt id) with
  | none =>
    rw [hfile] at hdeclares
    cases hdeclares
  | some file => rfl

end GraphBuilder

end StableNaming
