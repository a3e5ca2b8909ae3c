import StableNaming.Proofs.Graph.Renaming
import StableNaming.Proofs.Mapping.Targets
import StableNaming.Proofs.Naming.Emission
import StableNaming.Proofs.Naming.Lifetime
import StableNaming.Proofs.Policy.Engine

/-!
# Graphs renamed with the table of their own run

A run gives one name to all classes that share a method, but its table has a line for the
method only where its family starts. Renaming looks a method up at all classes that share
it, so it finds the line wherever it stands, and every class gets the name that the
generator answers. Where a class is defined is looked up at one class only: there the line
is found only if the family starts at that class.
-/

namespace StableNaming

/-- If all answers of a search are read as one value, so is its result, provided that the value
is the default one when there is no answer. -/
theorem elim_findSome?_eq {α β γ : Type} {f : α → Option β} {read : β → γ} {default value : γ}
    {xs : List α} (hall : ∀ x ∈ xs, ∀ b, f x = some b → read b = value)
    (hsome : (∃ x ∈ xs, (f x).isSome = true) ∨ default = value) :
    (xs.findSome? f).elim default read = value := by
  cases hfind : xs.findSome? f with
  | none =>
    refine hsome.resolve_left ?_
    rintro ⟨x, hx, hanswer⟩
    rw [List.findSome?_eq_none_iff.1 hfind x hx] at hanswer
    cases hanswer
  | some b =>
    obtain ⟨x, hx, hb⟩ := List.exists_of_findSome?_eq_some hfind
    exact hall x hx b hb

namespace NamingTask

open ClassGraph

/-- Whether a table is that of a run after which everything is settled, and which policies decide
about methods by the method alone. -/
structure Tabled (task : NamingTask) (c : NamingContext) (t : MappingTable) : Prop where
  /-- The graph is a finished one. -/
  graph : task.graph.Finished
  /-- Methods name their classes. -/
  holders : task.graph.NamesHolders
  /-- Only classes with class files hold methods. -/
  loaded : ∀ {id : ClassId} {key : MemberKey} {m : MethodId},
    task.graph.slot? id key = some m → (task.graph.classAt id).loaded = true
  /-- Members with names need them. -/
  grounded : task.Grounded c
  /-- Everything is decided. -/
  settled : ∀ id < task.graph.size, task.ClassSettled c id
  /-- The table is that of the run. -/
  toTable : (task.setIn c).toTable = .ok t
  /-- It answers what the run says. -/
  answers : (task.setIn c).Answers t
  /-- All classes that share a method need a name for it, or none does. -/
  alike : ∀ symbol, ∃ need, ∀ id,
    task.chain.needsMethodName (task.graph.classAt id) symbol = .ok need

namespace Tabled

variable {task : NamingTask} {c : NamingContext} {t : MappingTable} (h : task.Tabled c t)
  {id : ClassId} {key : MemberKey} {m : MethodId}
include h

/-! ## Lines -/

/-- The table answers for the methods of a class that have lines. -/
theorem methodTarget?_iff (hid : id < task.graph.size) {name : String} :
    (t.memberTarget? .method ⟨task.graph.nameAt id, key⟩).map (·.key.name) = some name ↔
      ∃ m, task.graph.slot? id key = some m ∧
        task.methodEntryIn c id (key, m) = some ⟨key, name⟩ := by
  rw [h.answers.methodTarget?_iff]
  exact hasLine_setIn_iff h.graph hid h.loaded

/-- What the table answers for a method of a class is what its line says. -/
theorem methodTarget?_eq (hslot : task.graph.slot? id key = some m) :
    (t.memberTarget? .method ⟨task.graph.nameAt id, key⟩).map (·.key.name) =
      (task.methodEntryIn c id (key, m)).map MemberEntry.target := by
  refine Option.ext fun name => ?_
  rw [h.methodTarget?_iff (lt_size_of_slot? hslot), Option.map_eq_some_iff]
  constructor
  · rintro ⟨m', hslot', hline⟩
    obtain rfl : m' = m := Option.some.inj (hslot'.symm.trans hslot)
    exact ⟨_, hline, rfl⟩
  · rintro ⟨line, hline, rfl⟩
    obtain ⟨hkey, -⟩ := of_methodEntryIn hline
    dsimp only at hkey
    exact ⟨m, hslot, by rw [hline, ← hkey]⟩

/-- A line for a method says what its family is called now. -/
theorem target_of_methodEntryIn (hslot : task.graph.slot? id key = some m) {line : MemberEntry}
    (hline : task.methodEntryIn c id (key, m) = some line) :
    line.target = (c.methodNames.find? m).getD key.name := by
  obtain ⟨symbol, hsymbol, -⟩ := h.graph.symbol_of_slot hslot
  obtain ⟨need, hneed⟩ := h.alike symbol
  rw [methodEntryIn] at hline
  split at hline
  · cases hline
  · rw [hsymbol] at hline
    dsimp only at hline
    rw [hneed] at hline
    cases need with
    | true =>
      obtain ⟨name, hname, rfl⟩ := Option.map_eq_some_iff.1 hline
      rw [hname]
      rfl
    | false =>
      -- a name would show that the method needs one at another class
      have hnone : c.methodNames.find? m = none := by
        refine Option.eq_none_iff_forall_ne_some.2 fun name hname => ?_
        obtain ⟨x, key', symbol', hstarts, hneed'⟩ := h.grounded.method hname
        obtain rfl := Option.some.inj (hsymbol.symm.trans hstarts.declared)
        rw [hneed] at hneed'
        cases hneed'
      dsimp only at hline
      rw [keptEntry] at hline
      split at hline
      · rw [← Option.some.inj hline, hnone]
        rfl
      · cases hline

/-- Where the family of a method that has a name starts, there is a line. -/
theorem methodEntryIn_of_isSource (hslot : task.graph.slot? id key = some m)
    (hsource : task.hierarchy.isSource id key = true) {name : String}
    (hname : c.methodNames.find? m = some name) :
    task.methodEntryIn c id (key, m) = some ⟨key, name⟩ := by
  obtain ⟨x, key', symbol, hstarts, hneed⟩ := h.grounded.method hname
  obtain ⟨rfl, -⟩ := (h.graph.slot_eq_iff hslot hstarts.slot).1 rfl
  obtain ⟨need, halike⟩ := h.alike symbol
  rw [halike] at hneed
  rw [methodEntryIn]
  dsimp only
  rw [hstarts.not_initializer, hsource, if_neg (by decide), hstarts.declared]
  dsimp only
  rw [halike, Except.ok.inj hneed]
  dsimp only
  rw [hname]
  rfl

/-- The name that renaming gives to a method: searching all classes that share the method finds
what the method is called now. -/
theorem renamedSlotKey_eq (hslot : task.graph.slot? id key = some m) :
    task.graph.renamedSlotKey t (key, m) =
      ⟨(c.methodNames.find? m).getD key.name, t.mapDescriptor key.desc⟩ := by
  obtain ⟨symbol, hsymbol, rfl⟩ := h.graph.symbol_of_slot hslot
  have hholders := h.holders hslot hsymbol
  rw [renamedSlotKey]
  dsimp only
  rw [hsymbol, Option.map_some, Option.getD_some, renameMethod]
  dsimp only
  rw [ClassGraph.renamedKey]
  congr 1
  refine elim_findSome?_eq (fun owner howner target htarget => ?_) ?_
  · obtain ⟨x, hx, rfl⟩ := (hholders owner).1 howner
    have hline := h.methodTarget?_eq hx
    rw [htarget, Option.map_some, eq_comm, Option.map_eq_some_iff] at hline
    obtain ⟨line, hline, hname⟩ := hline
    rw [← hname]
    exact h.target_of_methodEntryIn hx hline
  · cases hname : c.methodNames.find? m with
    | none => exact .inr rfl
    | some name =>
      obtain ⟨x, hx, hsource⟩ := task.hierarchy.exists_isSource h.graph hslot
      refine .inl ⟨_, (hholders _).2 ⟨x, hx, rfl⟩, ?_⟩
      have hline := h.methodTarget?_eq hx
      rw [h.methodEntryIn_of_isSource hx hsource hname, Option.map_some] at hline
      obtain ⟨target, htarget, -⟩ := Option.map_eq_some_iff.1 hline
      rw [htarget]
      rfl

/-- The key that renaming finds for a method at one of its classes only. -/
theorem renamedKey_method_eq_iff (hslot : task.graph.slot? id key = some m) :
    renamedKey t .method [task.graph.nameAt id] key = task.graph.renamedSlotKey t (key, m) ↔
      task.hierarchy.isSource id key = true ∨ c.methodNames.find? m = none ∨
        c.methodNames.find? m = some key.name := by
  have hfound : (renamedKey t .method [task.graph.nameAt id] key).name =
      ((task.methodEntryIn c id (key, m)).map MemberEntry.target).getD key.name := by
    rw [← h.methodTarget?_eq hslot, ClassGraph.renamedKey, List.findSome?_cons]
    cases t.memberTarget? .method ⟨task.graph.nameAt id, key⟩ <;> rfl
  have hname : renamedKey t .method [task.graph.nameAt id] key =
        task.graph.renamedSlotKey t (key, m) ↔
      ((task.methodEntryIn c id (key, m)).map MemberEntry.target).getD key.name =
        (c.methodNames.find? m).getD key.name := by
    rw [h.renamedSlotKey_eq hslot, ← hfound, MemberKey.mk.injEq]
    exact and_iff_left rfl
  rw [hname]
  cases hsource : task.hierarchy.isSource id key with
  | true =>
    refine iff_of_true ?_ (.inl rfl)
    cases hdecided : c.methodNames.find? m with
    | some name => rw [h.methodEntryIn_of_isSource hslot hsource hdecided]; rfl
    | none =>
      cases hline : task.methodEntryIn c id (key, m) with
      | none => rfl
      | some line =>
        have htarget := h.target_of_methodEntryIn hslot hline
        rw [hdecided] at htarget
        exact htarget
  | false =>
    have hline : task.methodEntryIn c id (key, m) = none := by
      rw [methodEntryIn]
      dsimp only
      rw [hsource, if_pos (by simp)]
    rw [hline]
    cases c.methodNames.find? m with
    | none => simp
    | some name => simp [eq_comm]

/-! ## Fields and classes -/

/-- The table answers for the fields of a class that have lines. -/
theorem fieldTarget?_iff (hid : id < task.graph.size)
    (hloaded : (task.graph.classAt id).loaded = true) {name : String} :
    (t.memberTarget? .field ⟨task.graph.nameAt id, key⟩).map (·.key.name) = some name ↔
      ∃ f, (task.graph.classAt id).fields.find? key = some f ∧
        task.fieldEntryIn c id f = some ⟨key, name⟩ := by
  rw [h.answers.fieldTarget?_iff]
  constructor
  · rintro ⟨entry, hmem, hname, hline⟩
    have hentry := eq_classEntryIn_of_name_eq h.graph hid hmem hname
    rw [classEntryIn, if_pos hloaded] at hentry
    rw [← Option.some.inj hentry] at hline
    obtain ⟨f, hf, hline⟩ := List.mem_filterMap.1 hline
    obtain ⟨rfl, -⟩ := of_fieldEntryIn hline
    exact ⟨f, h.graph.fields.mem_values_iff.1 hf, hline⟩
  · rintro ⟨f, hf, hline⟩
    obtain ⟨entry, hmem, hentry⟩ := exists_entry h.graph hid hloaded
    refine ⟨entry, hmem, name_of_classEntryIn hentry, ?_⟩
    rw [classEntryIn, if_pos hloaded] at hentry
    rw [← Option.some.inj hentry]
    exact List.mem_filterMap.2
      ⟨f, List.mem_map_of_mem (KeyMap.find?_eq_some_iff.1 hf), hline⟩

/-- A line for a field says what the field is called now. -/
theorem target_of_fieldEntryIn (hid : id < task.graph.size)
    (hloaded : (task.graph.classAt id).loaded = true) {f : Member}
    (hf : (task.graph.classAt id).fields.find? key = some f) {line : MemberEntry}
    (hline : task.fieldEntryIn c id f = some line) :
    line.target = (c.fieldNames.find? ⟨task.graph.nameAt id, key⟩).getD key.name := by
  obtain rfl := h.graph.fields hf
  have hmem := h.graph.fields.mem_values_iff.2 hf
  obtain ⟨need, hneed, -⟩ := (h.settled id hid).fields hloaded f hmem
  rw [fieldEntryIn, hneed] at hline
  cases need with
  | true =>
    obtain ⟨name, hname, rfl⟩ := Option.map_eq_some_iff.1 hline
    rw [hname]
    rfl
  | false =>
    have hnone : c.fieldNames.find? ⟨task.graph.nameAt id, f.key⟩ = none := by
      refine Option.eq_none_iff_forall_ne_some.2 fun name hname => ?_
      rw [h.grounded.needsFieldName_eq h.graph hid hmem hname] at hneed
      cases hneed
    dsimp only at hline
    rw [keptEntry] at hline
    split at hline
    · rw [← Option.some.inj hline, hnone]
      rfl
    · cases hline

/-- The key that renaming gives to a field. -/
theorem renamedKey_field_eq (hid : id < task.graph.size)
    (hloaded : (task.graph.classAt id).loaded = true) {f : Member}
    (hf : (task.graph.classAt id).fields.find? key = some f) :
    renamedKey t .field [task.graph.nameAt id] key =
      ⟨(c.fieldNames.find? ⟨task.graph.nameAt id, key⟩).getD key.name,
        t.mapDescriptor key.desc⟩ := by
  obtain rfl := h.graph.fields hf
  have hmem := h.graph.fields.mem_values_iff.2 hf
  rw [ClassGraph.renamedKey]
  congr 1
  refine elim_findSome?_eq (fun owner howner target htarget => ?_) ?_
  · rw [List.mem_singleton.1 howner] at htarget
    obtain ⟨f', hf', hline⟩ := (h.fieldTarget?_iff hid hloaded).1 (by rw [htarget]; rfl)
    exact h.target_of_fieldEntryIn hid hloaded hf' hline
  · cases hname : c.fieldNames.find? ⟨task.graph.nameAt id, f.key⟩ with
    | none => exact .inr rfl
    | some name =>
      refine .inl ⟨_, List.mem_singleton_self _, ?_⟩
      have htarget := fieldTarget?_of_answers h.graph h.answers hid hloaded hmem
        (h.grounded.needsFieldName_eq h.graph hid hmem hname) hname
      obtain ⟨target, htarget, -⟩ := Option.map_eq_some_iff.1 htarget
      rw [htarget]
      rfl

/-- A class with a class file is renamed as the run says. -/
theorem classNames_find?_eq (hid : id < task.graph.size)
    (hloaded : (task.graph.classAt id).loaded = true) :
    c.classNames.find? (task.graph.nameAt id) = some ((task.graph.rename t).nameAt id) := by
  obtain ⟨name, hname⟩ := (h.settled id hid).name
  have htarget := classTarget?_of_answers h.graph h.answers hid hloaded hname
  rw [nameAt_rename t hid, MappingTable.renameClass, htarget, hname]
  rfl

/-- Whatever the table answers for a member is about a class of the graph with a class file, and
the answer is about the renamed class. -/
theorem exists_of_memberTarget? {kind : MemberKind} {ref target : MemberRef}
    (htarget : t.memberTarget? kind ref = some target) :
    ∃ id < task.graph.size, (task.graph.classAt id).loaded = true ∧
      ref = ⟨task.graph.nameAt id, ref.key⟩ ∧
      target = ⟨(task.graph.rename t).nameAt id,
        ⟨target.key.name, t.mapDescriptor ref.key.desc⟩⟩ := by
  obtain ⟨⟨entry, hmem, hname, howner⟩, hdesc⟩ :=
    MappingSet.of_memberTarget?_toTable h.toTable htarget
  obtain ⟨id, hwalk, hentry⟩ := List.mem_filterMap.1 hmem
  have hid : id < task.graph.size := (h.graph.forest.mem_walk_iff h.graph.names).1 hwalk
  have hsame := name_of_classEntryIn hentry
  rw [classEntryIn] at hentry
  split at hentry
  · rename_i hloaded
    refine ⟨id, hid, hloaded, by rw [← hsame, hname], ?_⟩
    rw [← hdesc]
    have howner' : target.owner = (task.graph.rename t).nameAt id := by
      rw [← howner, ← Option.some.inj hentry]
      dsimp only
      rw [h.classNames_find?_eq hid hloaded, Option.getD_some]
    rw [← howner']
  · cases hentry

/-- Whatever the table answers for a method is the new key of a method that a class holds. -/
theorem exists_of_methodTarget? {ref target : MemberRef}
    (htarget : t.memberTarget? .method ref = some target) :
    ∃ id m, task.graph.slot? id ref.key = some m ∧
      target = ⟨(task.graph.rename t).nameAt id, task.graph.renamedSlotKey t (ref.key, m)⟩ := by
  obtain ⟨id, hid, -, href, hspelled⟩ := h.exists_of_memberTarget? htarget
  have hname : (t.memberTarget? .method ref).map (·.key.name) = some target.key.name := by
    rw [htarget]
    rfl
  rw [href, h.methodTarget?_iff hid] at hname
  obtain ⟨m, hslot, hline⟩ := hname
  refine ⟨id, m, hslot, ?_⟩
  rw [h.renamedSlotKey_eq hslot, ← h.target_of_methodEntryIn hslot hline]
  exact hspelled

/-- Whatever the table answers for a field is the new key of a field of a class. -/
theorem exists_of_fieldTarget? {ref target : MemberRef}
    (htarget : t.memberTarget? .field ref = some target) :
    ∃ id < task.graph.size, (task.graph.classAt id).loaded = true ∧ ∃ f,
      (task.graph.classAt id).fields.find? ref.key = some f ∧
      target = ⟨(task.graph.rename t).nameAt id,
        (renameField t (task.graph.nameAt id) f).key⟩ := by
  obtain ⟨id, hid, hloaded, href, hspelled⟩ := h.exists_of_memberTarget? htarget
  have hname : (t.memberTarget? .field ref).map (·.key.name) = some target.key.name := by
    rw [htarget]
    rfl
  rw [href, h.fieldTarget?_iff hid hloaded] at hname
  obtain ⟨f, hf, hline⟩ := hname
  refine ⟨id, hid, hloaded, f, hf, ?_⟩
  have hkey : (renameField t (task.graph.nameAt id) f).key =
      renamedKey t .field [task.graph.nameAt id] ref.key := by
    rw [renameField, h.graph.fields hf]
  rw [hkey, h.renamedKey_field_eq hid hloaded hf,
    ← h.target_of_fieldEntryIn hid hloaded hf hline]
  exact hspelled

end Tabled

end NamingTask

/-! ## Answers and renamed graphs -/

namespace Generator

open ClassGraph

variable {ρ : Type}

/-- The name decided for a member. -/
def memberName? (gen : Generator ρ) : MemberKind → MemberRef → Option String
  | .field, ref => gen.fieldName? ref
  | .method, ref => gen.methodName? ref

/-- The key of a member by the answers of a generator, with a descriptor in terms of a table. A
member without an answer keeps its name. -/
def answeredKey (gen : Generator ρ) (t : MappingTable) (kind : MemberKind) (ref : MemberRef) :
    MemberKey :=
  ⟨(gen.memberName? kind ref).getD ref.key.name, t.mapDescriptor ref.key.desc⟩

/-- Whether the answers of a generator give no two classes one name, and no two fields and no two
methods of a class one key. -/
structure TellsApart (gen : Generator ρ) (g : ClassGraph) (t : MappingTable) : Prop where
  /-- Classes have different names. -/
  type : (g.ids.map fun id => gen.className? (g.nameAt id)).Nodup
  /-- The fields of a class have different keys. -/
  field : ∀ id < g.size, ((g.classAt id).fields.keys.map fun key =>
    gen.answeredKey t .field ⟨g.nameAt id, key⟩).Nodup
  /-- The methods of a class have different keys. -/
  method : ∀ id < g.size, ((g.classAt id).methods.keys.map fun key =>
    gen.answeredKey t .method ⟨g.nameAt id, key⟩).Nodup

instance (gen : Generator ρ) (g : ClassGraph) (t : MappingTable) :
    Decidable (gen.TellsApart g t) :=
  decidable_of_iff
    ((g.ids.map fun id => gen.className? (g.nameAt id)).Nodup ∧
      (∀ id < g.size, ((g.classAt id).fields.keys.map fun key =>
        gen.answeredKey t .field ⟨g.nameAt id, key⟩).Nodup) ∧
      ∀ id < g.size, ((g.classAt id).methods.keys.map fun key =>
        gen.answeredKey t .method ⟨g.nameAt id, key⟩).Nodup)
    ⟨fun h => ⟨h.1, h.2.1, h.2.2⟩, fun h => ⟨h.type, h.field, h.method⟩⟩

/-- Whether renaming a graph with a table does what a generator answers. -/
structure AgreesWith (gen : Generator ρ) (g : ClassGraph) (t : MappingTable) : Prop where
  /-- Every class has the name that is answered for it. -/
  type : ∀ id < g.size, gen.className? (g.nameAt id) = some ((g.rename t).nameAt id)
  /-- Every class has the fields that it had, under the keys that are answered for them. -/
  field : ∀ id < g.size, ∀ k f', ((g.rename t).classAt id).fields.find? k = some f' ↔
    ∃ key f, (g.classAt id).fields.find? key = some f ∧
      k = gen.answeredKey t .field ⟨g.nameAt id, key⟩ ∧ f' = { f with key := k }
  /-- Every class holds the methods that it held, under the keys that are answered for them. -/
  slot : ∀ id k m, (g.rename t).slot? id k = some m ↔
    ∃ key, g.slot? id key = some m ∧ k = gen.answeredKey t .method ⟨g.nameAt id, key⟩
  /-- A method has the key that is answered at any class that holds it. -/
  method : ∀ id key m, g.slot? id key = some m →
    ∃ symbol, (g.rename t).methodAt? m = some symbol ∧
      symbol.key = gen.answeredKey t .method ⟨g.nameAt id, key⟩
  /-- The descriptors of all methods are mapped. -/
  methodDesc : ∀ m, ((g.rename t).methodAt? m).map (·.key.desc) =
    (g.methodAt? m).map fun symbol => t.mapDescriptor symbol.key.desc
  /-- So are those of enclosing methods. -/
  enclosingDesc : ∀ id < g.size,
    (((g.rename t).classAt id).enclosure.bind Enclosure.method).map MemberKey.desc =
      ((g.classAt id).enclosure.bind Enclosure.method).map fun key => t.mapDescriptor key.desc
  /-- The targets of fields are fields of the renamed graph. -/
  fieldTarget : ∀ ref target, t.memberTarget? .field ref = some target →
    ∃ id f, (g.rename t).idOf? target.owner = some id ∧
      ((g.rename t).classAt id).fields.find? target.key = some f
  /-- The targets of methods are methods of the renamed graph. -/
  methodTarget : ∀ ref target, t.memberTarget? .method ref = some target →
    ∃ id m, (g.rename t).idOf? target.owner = some id ∧
      (g.rename t).slot? id target.key = some m

section Tabled

variable {gen : Generator ρ} {t : MappingTable} (h : gen.task.Tabled gen.context t) {id : ClassId}
  {key key' : MemberKey} {m m' : MethodId} {f f' : Member}
include h

/-- Renaming gives a method the key that is answered for it. -/
theorem renamedSlotKey_eq_answeredKey (hslot : gen.task.graph.slot? id key = some m) :
    gen.task.graph.renamedSlotKey t (key, m) =
      gen.answeredKey t .method ⟨gen.task.graph.nameAt id, key⟩ := by
  rw [h.renamedSlotKey_eq hslot, answeredKey, memberName?,
    methodName?_nameAt rfl h.graph.names (lt_size_of_slot? hslot), hslot, Option.bind_some]

/-- Renaming gives a field the key that is answered for it. -/
theorem renameField_eq_answeredKey (hid : id < gen.task.graph.size)
    (hloaded : (gen.task.graph.classAt id).loaded = true)
    (hf : (gen.task.graph.classAt id).fields.find? key = some f) :
    (renameField t (gen.task.graph.nameAt id) f).key =
      gen.answeredKey t .field ⟨gen.task.graph.nameAt id, key⟩ := by
  obtain rfl := h.graph.fields hf
  exact h.renamedKey_field_eq hid hloaded hf

/-- Under different answers, a class holds its methods under the answered keys. -/
theorem slot?_rename_iff_of_tellsApart (hapart : gen.TellsApart gen.task.graph t)
    {k : MemberKey} :
    (gen.task.graph.rename t).slot? id k = some m ↔
      ∃ key, gen.task.graph.slot? id key = some m ∧
        k = gen.answeredKey t .method ⟨gen.task.graph.nameAt id, key⟩ := by
  rw [slot?_rename_eq_some_iff]
  refine exists_congr fun key => and_congr_right fun hslot => ?_
  rw [renamedSlotKey_eq_answeredKey h hslot]
  constructor
  · rintro ⟨rfl, -⟩
    rfl
  · rintro rfl
    refine ⟨rfl, fun key' m' hslot' hlt hsame => ?_⟩
    rw [renamedSlotKey_eq_answeredKey h hslot'] at hsame
    have hkeys := List.inj_on_of_nodup_map (hapart.method id (lt_size_of_slot? hslot))
      (List.mem_map_of_mem (KeyMap.find?_eq_some_iff.1 hslot'))
      (List.mem_map_of_mem (KeyMap.find?_eq_some_iff.1 hslot)) hsame
    exact MemberKey.ne_of_lt hlt hkeys.symm

/-- Under different answers, a class has its fields under the answered keys. -/
theorem find?_fields_rename_iff_of_tellsApart (hapart : gen.TellsApart gen.task.graph t)
    (hid : id < gen.task.graph.size) (hloaded : (gen.task.graph.classAt id).loaded = true)
    {k : MemberKey} :
    ((gen.task.graph.rename t).classAt id).fields.find? k = some f' ↔
      ∃ key f, (gen.task.graph.classAt id).fields.find? key = some f ∧
        k = gen.answeredKey t .field ⟨gen.task.graph.nameAt id, key⟩ ∧
        f' = { f with key := k } := by
  rw [find?_fields_rename_eq_some_iff hid]
  refine exists_congr fun key => exists_congr fun f => and_congr_right fun hf => ?_
  have hkey := renameField_eq_answeredKey h hid hloaded hf
  constructor
  · rintro ⟨rfl, rfl, -⟩
    exact ⟨hkey, rfl⟩
  · rintro ⟨rfl, rfl⟩
    refine ⟨?_, rfl, fun key' f'' hf'' hlt hsame => ?_⟩
    · rw [← hkey]
      rfl
    · rw [renameField_eq_answeredKey h hid hloaded hf''] at hsame
      have hkeys := List.inj_on_of_nodup_map (hapart.field id hid)
        (List.mem_map_of_mem (KeyMap.find?_eq_some_iff.1 hf''))
        (List.mem_map_of_mem (KeyMap.find?_eq_some_iff.1 hf)) hsame
      exact MemberKey.ne_of_lt hlt hkeys.symm

/-- If every class has a class file and the answers tell all symbols apart, renaming does what is
answered. -/
theorem agreesWith_of_tellsApart
    (hloaded : ∀ id < gen.task.graph.size, (gen.task.graph.classAt id).loaded = true)
    (hapart : gen.TellsApart gen.task.graph t) : gen.AgreesWith gen.task.graph t := by
  have htype : ∀ id < gen.task.graph.size, gen.className? (gen.task.graph.nameAt id) =
      some ((gen.task.graph.rename t).nameAt id) :=
    fun id hid => h.classNames_find?_eq hid (hloaded id hid)
  have hnames : (gen.task.graph.rename t).DistinctNames := by
    intro i j hi hj hsame
    rw [size_rename] at hi hj
    refine List.inj_on_of_nodup_map hapart.type (List.mem_range.2 hi) (List.mem_range.2 hj) ?_
    rw [htype i hi, htype j hj, hsame]
  have hidOf : ∀ id < gen.task.graph.size, (gen.task.graph.rename t).idOf?
      ((gen.task.graph.rename t).nameAt id) = some id :=
    fun id hid => hnames.idOf?_nameAt ((size_rename _ t).symm ▸ hid)
  refine
    { type := htype
      field := fun id hid k f' =>
        find?_fields_rename_iff_of_tellsApart h hapart hid (hloaded id hid)
      slot := fun id k m => slot?_rename_iff_of_tellsApart h hapart
      method := fun id key m hslot => ?_
      methodDesc := fun m => ?_
      enclosingDesc := fun id hid => ?_
      fieldTarget := fun ref target htarget => ?_
      methodTarget := fun ref target htarget => ?_ }
  · obtain ⟨symbol, hsymbol, -⟩ := h.graph.symbol_of_slot hslot
    refine ⟨renameMethod t symbol, by rw [methodAt?_rename, hsymbol]; rfl, ?_⟩
    rw [← renamedSlotKey_eq_answeredKey h hslot, renamedSlotKey, hsymbol]
    rfl
  · rw [methodAt?_rename, Option.map_map]
    rfl
  · rw [enclosure_rename t hid]
    cases (gen.task.graph.classAt id).enclosure with
    | none => rfl
    | some e =>
      rw [Option.map_some, Option.bind_some, Option.bind_some, renameEnclosure, Option.map_map]
      rfl
  · obtain ⟨id, hid, hfile, f, hf, rfl⟩ := h.exists_of_fieldTarget? htarget
    refine ⟨id, renameField t (gen.task.graph.nameAt id) f, hidOf id hid, ?_⟩
    exact (find?_fields_rename_iff_of_tellsApart h hapart hid hfile).2
      ⟨ref.key, f, hf, renameField_eq_answeredKey h hid hfile hf, rfl⟩
  · obtain ⟨id, m, hslot, rfl⟩ := h.exists_of_methodTarget? htarget
    refine ⟨id, m, hidOf id (lt_size_of_slot? hslot), ?_⟩
    exact (slot?_rename_iff_of_tellsApart h hapart).2
      ⟨ref.key, hslot, renamedSlotKey_eq_answeredKey h hslot⟩

end Tabled

/-! ## After a run -/

/-- The mapping set of a run without policies has a table that is that of the run. -/
theorem exists_tabled [PatternEngine] [ConflictResolver ρ] {files : List ClassFile}
    {config : NamingConfig} {allowed : MappingTable → Prop} {gen after : Generator ρ}
    {set : MappingSet}
    (harises : Arises (GraphBuilder.build files) config allowed gen)
    (hrun : gen.generate = (.ok set, after)) :
    ∃ t, set.toTable = .ok t ∧ after.task.Tabled after.context t ∧
      after.task.graph = GraphBuilder.build files := by
  have hafter : gen.generate.2 = after := by rw [hrun]
  have hlater : Arises (GraphBuilder.build files) config allowed after := hafter ▸ .generate harises
  obtain ⟨hgraph, -, hpolicies, -, patterns, -, hdefault⟩ := hlater.task_eq
  have hfinished : after.task.graph.Finished := hgraph ▸ GraphBuilder.finished_build files
  have hgrounded := hlater.grounded (GraphBuilder.finished_build files)
  obtain ⟨-, hsettled, hset⟩ :=
    settled_of_generate (harises.task_eq.1 ▸ GraphBuilder.finished_build files) hrun
  obtain ⟨t, ht, hanswers⟩ := (NamingTask.unambiguous_setIn hfinished after.context).toTable
  refine ⟨t, hset ▸ ht, ⟨hfinished, ?_, fun {id key m} hslot => ?_, hgrounded, hsettled, ht,
    hanswers, fun symbol => ?_⟩, hgraph⟩
  · rw [hgraph]
    exact GraphBuilder.namesHolders_build files
  · rw [hgraph] at hslot ⊢
    exact GraphBuilder.loaded_of_slot? hslot
  · exact ⟨_, fun id => PolicyChain.needsMethodName_eq hpolicies hdefault _ symbol⟩

/-- If every class has a class file, renaming the graph with the table of a run without policies
does what the generator answers, whatever tables it has been given, as long as the answers tell
classes and the members of each class apart: classes, fields and methods have the names that are
answered for them, classes that override a method without a line included, descriptors are those
in terms of the table, and every target in the table is a member of the renamed graph. -/
theorem agreesWith_rename [PatternEngine] [ConflictResolver ρ] {files : List ClassFile}
    {config : NamingConfig} {allowed : MappingTable → Prop} {gen after : Generator ρ}
    {set : MappingSet}
    (hloaded : ∀ id < (GraphBuilder.build files).size,
      ((GraphBuilder.build files).classAt id).loaded = true)
    (harises : Arises (GraphBuilder.build files) config allowed gen)
    (hrun : gen.generate = (.ok set, after)) :
    ∃ t, set.toTable = .ok t ∧ (after.TellsApart (GraphBuilder.build files) t →
      after.AgreesWith (GraphBuilder.build files) t) := by
  obtain ⟨t, ht, htabled, hgraph⟩ := exists_tabled harises hrun
  refine ⟨t, ht, ?_⟩
  rw [← hgraph] at hloaded ⊢
  exact agreesWith_of_tellsApart htabled hloaded

/-- Two interfaces that declare a method, a class that implements both, and a subclass that
overrides it. One class is defined in the method of an interface, another one in that of the
subclass. -/
def diamondFiles : List ClassFile :=
  [{ name := "a", methods := [{ key := ⟨"f", "()V"⟩ }] },
    { name := "b", methods := [{ key := ⟨"f", "()V"⟩ }] },
    { name := "c", interfaces := ["a", "b"], fields := [{ key := ⟨"x", "La;"⟩ }],
      methods := [{ key := ⟨"f", "()V"⟩ }, { key := ⟨"g", "()V"⟩ }] },
    { name := "d", superName := some "c",
      methods := [{ key := ⟨"f", "()V"⟩ },
        { key := ⟨"g", "()V"⟩, access := ⟨Access.privateBit⟩ }] },
    { name := "a$1", enclosure := some ⟨"a", some ⟨"f", "()V"⟩⟩ },
    { name := "d$1", enclosure := some ⟨"d", some ⟨"f", "()V"⟩⟩ }]

/-- Both methods of the subclass are renamed as the generator answers, the overriding one and the
private one. -/
theorem agreesWith_diamondFiles :
    ∃ (gen after : Generator Resolver) (set : MappingSet) (t : MappingTable),
      create (GraphBuilder.build diamondFiles) {} .refuse = .ok gen ∧
      gen.generate = (.ok set, after) ∧ set.toTable = .ok t ∧
      after.AgreesWith (GraphBuilder.build diamondFiles) t ∧
      after.answeredKey t .method ⟨"d", ⟨"f", "()V"⟩⟩ = ⟨"method_1", "()V"⟩ ∧
      after.answeredKey t .method ⟨"d", ⟨"g", "()V"⟩⟩ = ⟨"method_3", "()V"⟩ := by
  obtain ⟨gen, set, hgen, hcreate, hrun⟩ :=
    exists_create_generate (GraphBuilder.build diamondFiles) Resolver.refuse (by decide +kernel)
  have hfacts : ∀ t ∈ gen.generate.1.toOption.bind (·.toTable.toOption),
      gen.generate.2.TellsApart (GraphBuilder.build diamondFiles) t ∧
      gen.generate.2.answeredKey t .method ⟨"d", ⟨"f", "()V"⟩⟩ = ⟨"method_1", "()V"⟩ ∧
      gen.generate.2.answeredKey t .method ⟨"d", ⟨"g", "()V"⟩⟩ = ⟨"method_3", "()V"⟩ := by
    cases hgen
    decide +kernel
  have hloaded : ∀ id < (GraphBuilder.build diamondFiles).size,
      ((GraphBuilder.build diamondFiles).classAt id).loaded = true := by decide +kernel
  have harises : Arises (GraphBuilder.build diamondFiles) {} (fun _ => True) gen := .create hcreate
  obtain ⟨t, ht, hagrees⟩ := agreesWith_rename hloaded harises hrun
  obtain ⟨hapart, hoverriding, hprivate⟩ := hfacts t (by rw [hrun]; simp [ht, Except.toOption])
  exact ⟨gen, _, set, t, hcreate, hrun, ht, hagrees hapart, hoverriding, hprivate⟩

end Generator

end StableNaming
