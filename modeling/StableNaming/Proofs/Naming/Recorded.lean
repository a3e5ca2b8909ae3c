import StableNaming.Proofs.Mapping.Indexing
import StableNaming.Proofs.Naming.Generation

/-!
# What the table of a run records

The mapping set of a run has a table. After a run that carries nothing over, a
later run that reads the table recognises the name of every class, of every field
and of every family, unless a symbol happened to be called like its new name.
-/

namespace StableNaming

namespace NamingTask

variable {task : NamingTask} {c : NamingContext}

/-! ## Entries -/

/-- The entry of a field has its decided name or the name that it keeps. -/
theorem of_fieldEntryIn {id : ClassId} {f : Member} {entry : MemberEntry}
    (h : task.fieldEntryIn c id f = some entry) :
    entry.key = f.key ∧
      (c.fieldNames.find? ⟨task.graph.nameAt id, f.key⟩ = some entry.target ∨
        entry.target = f.key.name) := by
  rw [fieldEntryIn] at h
  split at h
  · obtain ⟨name, hname, rfl⟩ := Option.map_eq_some_iff.1 h
    exact ⟨rfl, .inl hname⟩
  · rw [keptEntry] at h
    split at h
    · rw [← Option.some.inj h]
      exact ⟨rfl, .inr rfl⟩
    · cases h

/-- The entry of a method has its decided name or the name that it keeps. -/
theorem of_methodEntryIn {id : ClassId} {slot : MemberKey × MethodId} {entry : MemberEntry}
    (h : task.methodEntryIn c id slot = some entry) :
    entry.key = slot.1 ∧
      (c.methodNames.find? slot.2 = some entry.target ∨ entry.target = slot.1.name) := by
  rw [methodEntryIn] at h
  split at h
  · cases h
  · split at h
    · cases h
    · split at h
      · obtain ⟨name, hname, rfl⟩ := Option.map_eq_some_iff.1 h
        exact ⟨rfl, .inl hname⟩
      · rw [keptEntry] at h
        split at h
        · rw [← Option.some.inj h]
          exact ⟨rfl, .inr rfl⟩
        · cases h

theorem name_of_classEntryIn {id : ClassId} {entry : ClassEntry}
    (h : task.classEntryIn c id = some entry) : entry.name = task.graph.nameAt id := by
  rw [classEntryIn] at h
  split at h
  · rw [← Option.some.inj h]
  · cases h

/-- No symbol stands twice in the set of a run. -/
theorem unambiguous_setIn (hgraph : task.graph.Finished) (c : NamingContext) :
    (task.setIn c).Unambiguous := by
  have hwalk : (task.graph.walk.map task.graph.nameAt).Nodup := by
    refine (hgraph.forest.nodup_walk hgraph.names).map_on fun x hx y hy heq => ?_
    exact hgraph.names ((hgraph.forest.mem_walk_iff hgraph.names).1 hx)
      ((hgraph.forest.mem_walk_iff hgraph.names).1 hy) heq
  have hmembers : ∀ entry ∈ (task.setIn c).classes, ∃ id,
      entry.fields = (task.graph.classAt id).fields.values.filterMap (task.fieldEntryIn c id) ∧
      entry.methods =
        (task.graph.classAt id).methods.entries.filterMap (task.methodEntryIn c id) := by
    intro entry hentry
    obtain ⟨id, -, hid⟩ := List.mem_filterMap.1 hentry
    rw [classEntryIn] at hid
    split at hid
    · rw [← Option.some.inj hid]
      exact ⟨id, rfl, rfl⟩
    · cases hid
  refine ⟨Collection.nodup_map_filterMap _ hwalk fun id entry => name_of_classEntryIn,
    fun entry hentry => ?_, fun entry hentry => ?_⟩
  · obtain ⟨id, hfields, -⟩ := hmembers entry hentry
    have hkeys : (task.graph.classAt id).fields.values.map Member.key =
        (task.graph.classAt id).fields.keys := by
      rw [KeyMap.values, KeyMap.keys, List.map_map]
      refine List.map_congr_left fun e he => ?_
      exact hgraph.fields (KeyMap.find?_eq_some_iff.2 he)
    rw [hfields]
    refine Collection.nodup_map_filterMap Member.key ?_ fun f entry h => (of_fieldEntryIn h).1
    rw [hkeys]
    exact KeyMap.nodup_keys _
  · obtain ⟨id, -, hmethods⟩ := hmembers entry hentry
    rw [hmethods]
    exact Collection.nodup_map_filterMap Prod.fst (KeyMap.nodup_keys _)
      fun slot entry h => (of_methodEntryIn h).1

/-! ## Answers -/

section Answers

variable {t : MappingTable} (hgraph : task.graph.Finished) (ht : (task.setIn c).Answers t)
  {id : ClassId} (hid : id < task.graph.size) (hloaded : (task.graph.classAt id).loaded = true)
include hgraph

include hid hloaded in
/-- A class with a class file has an entry. -/
theorem exists_entry :
    ∃ entry ∈ (task.setIn c).classes, task.classEntryIn c id = some entry := by
  have hentry : (task.classEntryIn c id).isSome = true := by
    rw [classEntryIn, if_pos hloaded]
    rfl
  obtain ⟨entry, hentry⟩ := Option.isSome_iff_exists.1 hentry
  have hwalk : id ∈ task.graph.walk := (hgraph.forest.mem_walk_iff hgraph.names).2 hid
  exact ⟨entry, List.mem_filterMap.2 ⟨id, hwalk, hentry⟩, hentry⟩

include hid in
/-- The entry that has the name of a class is that of the class. -/
theorem eq_classEntryIn_of_name_eq {entry : ClassEntry}
    (hentry : entry ∈ (task.setIn c).classes) (hname : entry.name = task.graph.nameAt id) :
    task.classEntryIn c id = some entry := by
  obtain ⟨id', hwalk, hentry'⟩ := List.mem_filterMap.1 hentry
  have hid' : id' < task.graph.size := (hgraph.forest.mem_walk_iff hgraph.names).1 hwalk
  rw [name_of_classEntryIn hentry'] at hname
  rw [← hgraph.names hid' hid hname]
  exact hentry'

include hid in
/-- The set of a run finds the entry of each class. -/
theorem find?_setIn (c : NamingContext) :
    (task.setIn c).find? (task.graph.nameAt id) = task.classEntryIn c id := by
  cases hentry : task.classEntryIn c id with
  | none =>
    refine List.find?_eq_none.2 fun entry hmem hname => ?_
    rw [eq_classEntryIn_of_name_eq hgraph hid hmem (beq_iff_eq.1 hname)] at hentry
    cases hentry
  | some entry =>
    have hwalk : id ∈ task.graph.walk := (hgraph.forest.mem_walk_iff hgraph.names).2 hid
    have hmem : entry ∈ (task.setIn c).classes := List.mem_filterMap.2 ⟨id, hwalk, hentry⟩
    cases hfind : (task.setIn c).find? (task.graph.nameAt id) with
    | none =>
      have hnone := List.find?_eq_none.1 hfind entry hmem
      exact absurd (beq_iff_eq.2 (name_of_classEntryIn hentry)) hnone
    | some found =>
      have hname := List.find?_some hfind
      have hfound := eq_classEntryIn_of_name_eq hgraph hid (List.mem_of_find?_eq_some hfind)
        (beq_iff_eq.1 hname)
      exact hfound.symm.trans hentry

include hid hloaded in
/-- The set of a run has the names of the classes with class files. -/
theorem map_target_find?_setIn {name : String}
    (hname : c.classNames.find? (task.graph.nameAt id) = some name) :
    ((task.setIn c).find? (task.graph.nameAt id)).map ClassEntry.target = some name := by
  rw [find?_setIn hgraph hid, classEntryIn, if_pos hloaded, Option.map_some]
  dsimp only
  rw [hname, Option.getD_some]

include ht

include hid hloaded in
/-- The table answers with the name of a class. -/
theorem classTarget?_of_answers {name : String}
    (hname : c.classNames.find? (task.graph.nameAt id) = some name) :
    t.classTarget? (task.graph.nameAt id) = some name := by
  obtain ⟨entry, hmem, hentry⟩ := exists_entry hgraph hid hloaded
  refine ht.classTarget?_iff.2 ⟨entry, hmem, name_of_classEntryIn hentry, ?_⟩
  rw [classEntryIn, if_pos hloaded] at hentry
  rw [← Option.some.inj hentry]
  dsimp only
  rw [hname, Option.getD_some]

include hid hloaded in
/-- The table answers with the name of a field. -/
theorem fieldTarget?_of_answers {f : Member} (hf : f ∈ (task.graph.classAt id).fields.values)
    (hneed : task.chain.needsFieldName (task.graph.classAt id) f = .ok true) {name : String}
    (hname : c.fieldNames.find? ⟨task.graph.nameAt id, f.key⟩ = some name) :
    (t.memberTarget? .field ⟨task.graph.nameAt id, f.key⟩).map (·.key.name) = some name := by
  obtain ⟨entry, hmem, hentry⟩ := exists_entry hgraph hid hloaded
  refine ht.fieldTarget?_iff.2 ⟨entry, hmem, name_of_classEntryIn hentry, ?_⟩
  rw [classEntryIn, if_pos hloaded] at hentry
  rw [← Option.some.inj hentry]
  refine List.mem_filterMap.2 ⟨f, hf, ?_⟩
  rw [fieldEntryIn, hneed]
  dsimp only
  rw [hname, Option.map_some]

/-- The table answers with the name of a method where its family starts. -/
theorem methodTarget?_of_answers {key : MemberKey} {method : MethodId} {symbol : MethodSymbol}
    (hstarts : task.Starts id key method symbol)
    (hneed : task.chain.needsMethodName (task.graph.classAt id) symbol = .ok true) {name : String}
    (hname : c.methodNames.find? method = some name) :
    (t.memberTarget? .method ⟨task.graph.nameAt id, key⟩).map (·.key.name) = some name := by
  have hid := ClassGraph.lt_size_of_slot? hstarts.slot
  obtain ⟨entry, hmem, hentry⟩ := exists_entry hgraph hid hstarts.loaded
  refine ht.methodTarget?_iff.2 ⟨entry, hmem, name_of_classEntryIn hentry, ?_⟩
  rw [classEntryIn, if_pos hstarts.loaded] at hentry
  rw [← Option.some.inj hentry]
  refine List.mem_filterMap.2 ⟨(key, method), KeyMap.find?_eq_some_iff.1 hstarts.slot, ?_⟩
  rw [methodEntryIn]
  dsimp only
  rw [hstarts.not_initializer, hstarts.source, if_neg (by decide), hstarts.declared]
  dsimp only
  rw [hneed]
  dsimp only
  rw [hname, Option.map_some]

/-- What the table answers for a method is a decided name of its class, or the name that it
keeps. -/
theorem of_methodTarget? {ref : MemberRef} {found : String}
    (h : (t.memberTarget? .method ref).map (·.key.name) = some found) :
    (∃ id < task.graph.size, task.graph.nameAt id = ref.owner ∧
      ∃ method, task.graph.slot? id ref.key = some method ∧
        c.methodNames.find? method = some found) ∨ found = ref.key.name := by
  obtain ⟨entry, hmem, howner, hmethod⟩ := ht.methodTarget?_iff.1 h
  obtain ⟨id, hwalk, hentry⟩ := List.mem_filterMap.1 hmem
  have hid : id < task.graph.size := (hgraph.forest.mem_walk_iff hgraph.names).1 hwalk
  have hname := name_of_classEntryIn hentry
  rw [classEntryIn] at hentry
  split at hentry
  · rw [← Option.some.inj hentry] at hmethod
    obtain ⟨slot, hslot, hslotEntry⟩ := List.mem_filterMap.1 hmethod
    obtain ⟨hkey, hdecided⟩ := of_methodEntryIn hslotEntry
    dsimp only at hkey hdecided
    rw [hkey]
    exact hdecided.imp_left fun hdecided => ⟨id, hid, hname.symm.trans howner, slot.2,
      KeyMap.find?_eq_some_iff.2 hslot, hdecided⟩
  · cases hentry

include hid in
/-- For a method of a class the decided name is that of the method that the class holds. -/
theorem of_methodTarget?_eq_some {key : MemberKey} {name : String}
    (h : (t.memberTarget? .method ⟨task.graph.nameAt id, key⟩).map (·.key.name) = some name) :
    (∃ method, task.graph.slot? id key = some method ∧ c.methodNames.find? method = some name) ∨
      name = key.name := by
  refine (of_methodTarget? hgraph ht h).imp_left ?_
  rintro ⟨id', hid', hname, hdecided⟩
  rw [← hgraph.names hid' hid hname]
  exact hdecided

end Answers

/-! ## Names that are recognised -/

/-- Whether a path is empty or ends in a slash, as the package of a class should. -/
def IsPackage (path : String) : Prop := path = "" ∨ path.toList.getLast? = some packageMark

instance (path : String) : Decidable (IsPackage path) :=
  inferInstanceAs (Decidable (path = "" ∨ path.toList.getLast? = some packageMark))

theorem IsPackage.endsSegment {path : String} (h : IsPackage path) : EndsSegment path := by
  rcases h with rfl | hlast
  · exact endsSegment_empty
  · obtain ⟨front, hfront⟩ := List.getLast?_eq_some_iff.1 hlast
    have hpath : path = String.ofList front ++ "/" := by
      rw [← String.ofList_toList (s := path), hfront, String.ofList_append]
      rfl
    rw [hpath]
    exact endsSegment_slash _

/-- What stands in front of the generated name of a class is a place and digits. -/
theorem exists_classNameStart_eq {id : ClassId} {parent : Option String}
    (hpackage : IsPackage (task.chain.packageFor (task.graph.classAt id))) :
    ∃ place digits, EndsSegment place ∧ (∀ ch ∈ digits.toList, ch.isDigit = true) ∧
      task.classNameStart (task.graph.classAt id) parent = place ++ digits := by
  refine ⟨parent.elim (task.chain.packageFor (task.graph.classAt id)) (· ++ "$"),
    if (task.graph.classAt id).isLocal then leadingDigits (task.graph.classAt id).simpleName
    else "",
    ?_, ?_, rfl⟩
  · cases parent with
    | none => exact hpackage.endsSegment
    | some parent => exact endsSegment_dollar parent
  · intro ch hch
    split at hch
    · exact isDigit_of_mem_leadingDigits hch
    · exact absurd hch List.not_mem_nil

/-- A name that could have been made up for a class is carried over as it is. -/
theorem carriedClassName_eq_self {id : ClassId} {parent : Option String} {found : String} {n : Nat}
    (hpackage : IsPackage (task.chain.packageFor (task.graph.classAt id)))
    (hfound : found = task.classNameStart (task.graph.classAt id) parent ++
      SymbolKind.type.generatedName n) :
    task.carriedClassName (task.graph.classAt id) parent found = found := by
  obtain ⟨place, digits, hplace, hdigits, hstart⟩ := exists_classNameStart_eq hpackage
  rw [carriedClassName]
  split
  · rfl
  · rw [hfound, hstart, SymbolKind.dropLeadingDigits_innermostName hplace hdigits]

/-- Whether a table is that of a run that carries nothing over and after which no symbol with a
name that is made up was called so before. -/
structure Remembered (task : NamingTask) (start : Counters) (c : NamingContext)
    (t : MappingTable) : Prop where
  /-- The graph is a finished one. -/
  graph : task.graph.Finished
  /-- Packages are empty or end in a slash. -/
  packages : ∀ id < task.graph.size, IsPackage (task.chain.packageFor (task.graph.classAt id))
  /-- Nothing is carried over. -/
  minted : task.OnlyMinted start c
  /-- Members with names need them. -/
  grounded : task.Grounded c
  /-- Everything is decided. -/
  settled : ∀ id < task.graph.size, task.ClassSettled c id
  /-- The table is that of the run. -/
  answers : (task.setIn c).Answers t
  /-- No class was called like its new name. -/
  type_ne : ∀ id < task.graph.size, task.classDecision id = .ok true →
    c.classNames.find? (task.graph.nameAt id) ≠ some (task.graph.nameAt id)
  /-- No field was. -/
  field_ne : ∀ id < task.graph.size, ∀ f ∈ (task.graph.classAt id).fields.values,
    c.fieldNames.find? ⟨task.graph.nameAt id, f.key⟩ ≠ some f.key.name
  /-- No method was. -/
  method_ne : ∀ id key method, task.graph.slot? id key = some method →
    c.methodNames.find? method ≠ some key.name

/-- Whether a table records the names of all classes, too: only those with a class file are in
it. -/
structure Recorded (task : NamingTask) (start : Counters) (c : NamingContext)
    (t : MappingTable) : Prop extends Remembered task start c t where
  /-- Every class has a class file. -/
  loaded : ∀ id < task.graph.size, (task.graph.classAt id).loaded = true

namespace Remembered

variable {start : Counters} {t : MappingTable} (h : task.Remembered start c t)
include h

/-- The table has the counters with which the run ended. -/
theorem get_counters_eq (hone : ∀ kind, 1 ≤ start.get kind) (kind : SymbolKind) :
    t.counters.get kind = c.counters.get kind := by
  have hkind := h.answers.counters_eq kind
  have hle := (hone kind).trans (h.minted.start_le kind)
  rw [hkind]
  exact Nat.max_eq_right hle

/-- The name of a class with a class file is recognised, and its number has been passed. -/
theorem judge_type {id : ClassId} (hid : id < task.graph.size)
    (hloaded : (task.graph.classAt id).loaded = true)
    (hneed : task.classDecision id = .ok true) :
    ∃ name n, c.classNames.find? (task.graph.nameAt id) = some name ∧
      name = task.classNameStart (task.graph.classAt id) (task.parentName c id) ++
        SymbolKind.type.generatedName n ∧
      Carried.judge .type (task.graph.nameAt id) (t.classTarget? (task.graph.nameAt id)) =
        .generated name ∧
      ∀ m, SymbolKind.type.suffix? name = some m → m < c.counters.get .type := by
  obtain ⟨name, hname⟩ := (h.settled id hid).name
  obtain ⟨n, -, hlt, heq⟩ := (h.minted.type hid hname).minted hneed
  obtain ⟨place, digits, hplace, hdigits, hstart⟩ :=
    @exists_classNameStart_eq task id (task.parentName c id) (h.packages id hid)
  have hne : name ≠ task.graph.nameAt id := fun hsame =>
    h.type_ne id hid hneed (hsame ▸ hname)
  refine ⟨name, n, hname, heq, ?_, fun m hm => ?_⟩
  · rw [classTarget?_of_answers h.graph h.answers hid hloaded hname]
    refine Carried.judge_generated hne ?_
    rw [heq, hstart]
    exact SymbolKind.isGenerated_innermostName hplace hdigits .type n
  · rw [heq, hstart, SymbolKind.suffix?_generatedName hplace hdigits] at hm
    split at hm
    · rw [← Option.some.inj hm]
      exact hlt
    · cases hm

omit h in
/-- A generated name of a member is recognised. -/
theorem isGenerated_generatedName (kind : SymbolKind) (n : Nat) :
    kind.isGenerated (innermostName (kind.generatedName n)) = true := by
  have hgenerated := @SymbolKind.isGenerated_innermostName "" "" endsSegment_empty
    (fun ch hch => absurd hch List.not_mem_nil) kind n
  rwa [String.append_empty, String.empty_append] at hgenerated

omit h in
theorem lt_of_suffix?_generatedName {kind : SymbolKind} {n m next : Nat} (hlt : n < next)
    (hm : kind.suffix? (kind.generatedName n) = some m) : m < next := by
  have hsuffix := @SymbolKind.suffix?_generatedName "" "" endsSegment_empty
    (fun ch hch => absurd hch List.not_mem_nil) kind n
  rw [String.append_empty, String.empty_append, hm] at hsuffix
  split at hsuffix
  · rw [Option.some.inj hsuffix]
    exact hlt
  · cases hsuffix

/-- The name of a field is recognised, and its number has been passed. -/
theorem judge_field {id : ClassId} (hid : id < task.graph.size)
    (hloaded : (task.graph.classAt id).loaded = true) {f : Member}
    (hf : f ∈ (task.graph.classAt id).fields.values)
    (hneed : task.chain.needsFieldName (task.graph.classAt id) f = .ok true) :
    ∃ name, c.fieldNames.find? ⟨task.graph.nameAt id, f.key⟩ = some name ∧
      Heritage.judgeMember t .field ⟨task.graph.nameAt id, f.key⟩ = .generated name ∧
      ∀ m, SymbolKind.field.suffix? name = some m → m < c.counters.get .field := by
  obtain ⟨need, hneed', hnamed⟩ := (h.settled id hid).fields hloaded f hf
  rw [hneed, Except.ok.injEq] at hneed'
  obtain ⟨name, hname⟩ := hnamed hneed'.symm
  obtain ⟨n, -, hlt, heq⟩ := h.minted.field hname
  have hne : name ≠ f.key.name := fun hsame => h.field_ne id hid f hf (hsame ▸ hname)
  refine ⟨name, hname, ?_, fun m hm => ?_⟩
  · rw [Heritage.judgeMember,
      fieldTarget?_of_answers h.graph h.answers hid hloaded hf hneed hname]
    refine Carried.judge_generated hne ?_
    rw [heq]
    exact isGenerated_generatedName .field n
  · rw [heq] at hm
    exact lt_of_suffix?_generatedName hlt hm

/-- The number of the name of a method has been passed. -/
theorem lt_of_suffix?_method {method : MethodId} {name : String}
    (hname : c.methodNames.find? method = some name) {m : Nat}
    (hm : SymbolKind.method.suffix? name = some m) : m < c.counters.get .method := by
  obtain ⟨n, -, hlt, heq⟩ := h.minted.method hname
  rw [heq] at hm
  exact lt_of_suffix?_generatedName hlt hm

/-- The name of a method is recognised where its family starts. -/
theorem judge_method {id : ClassId} {key : MemberKey} {method : MethodId} {symbol : MethodSymbol}
    (hstarts : task.Starts id key method symbol)
    (hneed : task.chain.needsMethodName (task.graph.classAt id) symbol = .ok true) {name : String}
    (hname : c.methodNames.find? method = some name) :
    Heritage.judgeMember t .method ⟨task.graph.nameAt id, key⟩ = .generated name := by
  obtain ⟨n, -, -, heq⟩ := h.minted.method hname
  have hne : name ≠ key.name := fun hsame =>
    h.method_ne id key method hstarts.slot (hsame ▸ hname)
  rw [Heritage.judgeMember, methodTarget?_of_answers h.graph h.answers hstarts hneed hname]
  refine Carried.judge_generated hne ?_
  rw [heq]
  exact isGenerated_generatedName .method n

/-- No class of a family is known under another name than that of its method. -/
theorem judge_method_eq_or {id : ClassId} {key : MemberKey} {method : MethodId}
    (hslot : task.graph.slot? id key = some method) {name : String}
    (hname : c.methodNames.find? method = some name) :
    Heritage.judgeMember t .method ⟨task.graph.nameAt id, key⟩ = .missing ∨
      Heritage.judgeMember t .method ⟨task.graph.nameAt id, key⟩ = .generated name := by
  have hid := ClassGraph.lt_size_of_slot? hslot
  rw [Heritage.judgeMember]
  cases htarget : (t.memberTarget? .method ⟨task.graph.nameAt id, key⟩).map (·.key.name) with
  | none => exact .inl rfl
  | some found =>
    rcases of_methodTarget?_eq_some h.graph h.answers hid htarget with ⟨own, hown, hfound⟩ | rfl
    · obtain rfl : own = method := Option.some.inj (hown.symm.trans hslot)
      obtain rfl : found = name := Option.some.inj (hfound.symm.trans hname)
      obtain ⟨n, -, -, heq⟩ := h.minted.method hname
      refine .inr (Carried.judge_generated (fun hsame => ?_) ?_)
      · exact h.method_ne id key own hslot (hsame ▸ hname)
      · rw [heq]
        exact isGenerated_generatedName .method n
    · exact .inl (Carried.judge_self _ _)

/-- An old method that has a name is recognised at every class that holds it: by itself, or else by
the class where its family starts. -/
theorem judgeOldMethod_eq {heritage : Heritage} (hold : heritage.old = t)
    (holdGraph : heritage.oldGraph = task.graph) {id : ClassId} {key : MemberKey}
    {method : MethodId} (hslot : task.graph.slot? id key = some method) {name : String}
    (hname : c.methodNames.find? method = some name) :
    heritage.judgeOldMethod ⟨task.graph.nameAt id, key⟩ = .generated name := by
  obtain ⟨prior, matched, old, oldGraph, oldHierarchy⟩ := heritage
  subst hold holdGraph
  rw [Heritage.judgeOldMethod]
  rcases h.judge_method_eq_or hslot hname with hmissing | hgenerated
  · dsimp only
    rw [hmissing]
    dsimp only
    rw [Heritage.judgeFamily]
    dsimp only
    rw [Hierarchy.idOf?_eq, h.graph.names.idOf?_nameAt (ClassGraph.lt_size_of_slot? hslot)]
    dsimp only
    obtain ⟨first, key', symbol, hstarts, hneed⟩ := h.grounded.method hname
    obtain ⟨rfl, -⟩ := (h.graph.slot_eq_iff hslot hstarts.slot).1 rfl
    have hfirst := h.judge_method hstarts hneed hname
    cases hfind : ((oldHierarchy.family id key).map fun member =>
        Heritage.judgeMember old .method ⟨task.graph.nameAt member, key⟩).find? (· ≠ .missing) with
    | none =>
      have hmem := (h.graph.mem_family_iff_holds oldHierarchy hslot).2 hstarts.slot
      have hnone := List.find?_eq_none.1 hfind _ (List.mem_map_of_mem hmem)
      rw [hfirst] at hnone
      simp at hnone
    | some judged =>
      have hfound := List.find?_some hfind
      obtain ⟨x, hx, rfl⟩ := List.mem_map.1 (List.mem_of_find?_eq_some hfind)
      have hx := (h.graph.mem_family_iff_holds oldHierarchy hslot).1 hx
      rcases h.judge_method_eq_or hx hname with hmissing | hgenerated
      · rw [hmissing] at hfound
        exact absurd hfound (by decide)
      · exact hgenerated
  · dsimp only
    rw [hgenerated]

end Remembered

end NamingTask

/-! ## After a run -/

namespace Generator

open NamingM

variable {ρ : Type}

/-- Whether every class, field and method of the graph with a name that is not kept has another
name than before. -/
structure Renames (gen : Generator ρ) : Prop where
  /-- Classes that need names get other names. -/
  type : ∀ id < gen.task.graph.size, gen.task.classDecision id = .ok true →
    gen.className? (gen.task.graph.nameAt id) ≠ some (gen.task.graph.nameAt id)
  /-- Fields that get names get other names. -/
  field : ∀ id < gen.task.graph.size, ∀ f ∈ (gen.task.graph.classAt id).fields.values,
    gen.fieldName? ⟨gen.task.graph.nameAt id, f.key⟩ ≠ some f.key.name
  /-- Methods that get names get other names. -/
  method : ∀ id < gen.task.graph.size, ∀ slot ∈ (gen.task.graph.classAt id).methods.entries,
    gen.methodName? ⟨gen.task.graph.nameAt id, slot.1⟩ ≠ some slot.1.name

instance (gen : Generator ρ) : Decidable gen.Renames :=
  decidable_of_iff
    ((∀ id < gen.task.graph.size, gen.task.classDecision id = .ok true →
      gen.className? (gen.task.graph.nameAt id) ≠ some (gen.task.graph.nameAt id)) ∧
    (∀ id < gen.task.graph.size, ∀ f ∈ (gen.task.graph.classAt id).fields.values,
      gen.fieldName? ⟨gen.task.graph.nameAt id, f.key⟩ ≠ some f.key.name) ∧
    ∀ id < gen.task.graph.size, ∀ slot ∈ (gen.task.graph.classAt id).methods.entries,
      gen.methodName? ⟨gen.task.graph.nameAt id, slot.1⟩ ≠ some slot.1.name)
    ⟨fun h => ⟨h.1, h.2.1, h.2.2⟩, fun h => ⟨h.type, h.field, h.method⟩⟩

/-- After a run that carries nothing over, the table of the mapping set has the names of the run. -/
theorem exists_remembered [PatternEngine] [ConflictResolver ρ] {files : List ClassFile}
    {config : NamingConfig} {policies : List NamingPolicy} {counters : Counters} {resolver : ρ}
    {counterFile : Option File} {first last : Generator ρ} {set : MappingSet}
    (hfirst : fresh (GraphBuilder.build files) config policies counters resolver counterFile =
      .ok first)
    (hrun : first.generate = (.ok set, last))
    (hpackages : ∀ id < (GraphBuilder.build files).size,
      NamingTask.IsPackage (first.task.chain.packageFor ((GraphBuilder.build files).classAt id)))
    (hrenames : last.Renames) :
    ∃ c table, set = first.task.setIn c ∧ set.toTable = .ok table ∧
      last = { first with context := c, resolver := last.resolver }.storeCounters ∧
      first.task.Remembered first.startCounters c table := by
  obtain ⟨t, hsucceeds, hlast⟩ := exists_succeeds_of_generate hrun
  have hgraph := GraphBuilder.finished_build files
  rw [← graph_of_fresh hfirst] at hgraph hpackages
  obtain ⟨-, hsettled, hset⟩ := NamingTask.of_succeeds_run hgraph hsucceeds
  have hminted := onlyMinted_of_fresh hfirst hgraph hsucceeds
  have hgrounded := grounded_of_fresh hfirst hgraph hsucceeds
  obtain ⟨table, htable, hanswers⟩ :=
    (NamingTask.unambiguous_setIn hgraph t.context).toTable
  have htask : last.task = first.task := by rw [hlast]; rfl
  have hcontext : last.context = t.context := by rw [hlast]; rfl
  refine ⟨t.context, table, hset, hset ▸ htable, ?_, hgraph, hpackages, hminted,
    hgrounded, hsettled, hanswers, fun id hid hneed => ?_, fun id hid f hf => ?_,
    fun id key method hslot => ?_⟩
  · rw [hlast]
    rfl
  · have htype := hrenames.type id
    rw [className?, hcontext, htask] at htype
    exact htype hid hneed
  · have hfield := hrenames.field id
    rw [htask] at hfield
    have hname := hfield hid f hf
    rwa [fieldName?, hcontext] at hname
  · have hmethod := hrenames.method id
    have hid := ClassGraph.lt_size_of_slot? hslot
    have hgraphs : last.task.graph = first.task.graph := by rw [htask]
    rw [hgraphs] at hmethod
    have hne := hmethod hid (key, method) (KeyMap.find?_eq_some_iff.1 hslot)
    rw [methodName?_nameAt hgraphs hgraph.names hid, hslot, Option.bind_some, hcontext] at hne
    exact hne

/-- If every class has a class file, it records all names. -/
theorem exists_recorded [PatternEngine] [ConflictResolver ρ] {files : List ClassFile}
    {config : NamingConfig} {policies : List NamingPolicy} {counters : Counters} {resolver : ρ}
    {counterFile : Option File} {first last : Generator ρ} {set : MappingSet}
    (hfirst : fresh (GraphBuilder.build files) config policies counters resolver counterFile =
      .ok first)
    (hrun : first.generate = (.ok set, last))
    (hloaded : ∀ id < (GraphBuilder.build files).size,
      ((GraphBuilder.build files).classAt id).loaded = true)
    (hpackages : ∀ id < (GraphBuilder.build files).size,
      NamingTask.IsPackage (first.task.chain.packageFor ((GraphBuilder.build files).classAt id)))
    (hrenames : last.Renames) :
    ∃ c table, set = first.task.setIn c ∧ set.toTable = .ok table ∧
      last = { first with context := c, resolver := last.resolver }.storeCounters ∧
      first.task.Recorded first.startCounters c table := by
  obtain ⟨c, table, hset, htable, hlast, hremembered⟩ :=
    exists_remembered hfirst hrun hpackages hrenames
  rw [← graph_of_fresh hfirst] at hloaded
  exact ⟨c, table, hset, htable, hlast, hremembered, hloaded⟩

end Generator

end StableNaming
