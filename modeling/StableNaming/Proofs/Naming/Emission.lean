import Mathlib.Data.List.Forall2
import StableNaming.Pattern.Engine
import StableNaming.Proofs.Graph.Loading
import StableNaming.Proofs.Naming.Recorded

/-!
# What a run gives entries to

The mapping set of a successful run has one entry for each class with a class file, in
the order of the walk, and in each entry one line for each field that needs a name and
for each method that needs one and overrides nothing, in key order. If symbols that
keep their names get entries too, every field and every method that overrides nothing
has a line.
-/

namespace StableNaming

/-- Whether a set has a line for a method of a class that gives it a name. -/
def MappingSet.HasLine (s : MappingSet) (owner : String) (key : MemberKey) (name : String) :
    Prop :=
  ∃ entry ∈ s.classes, entry.name = owner ∧ ⟨key, name⟩ ∈ entry.methods

instance (s : MappingSet) (owner : String) (key : MemberKey) (name : String) :
    Decidable (s.HasLine owner key name) :=
  inferInstanceAs (Decidable (∃ entry ∈ s.classes, _))

namespace NamingTask

variable {task : NamingTask} {c : NamingContext}

/-- Whether an entry is that of a class and lists what it should. -/
structure Emits (task : NamingTask) (id : ClassId) (entry : ClassEntry) : Prop where
  /-- The entry is that of the class. -/
  name_eq : entry.name = task.graph.nameAt id
  /-- Fields stand once, in key order. -/
  fields_ascending : entry.fields.Pairwise (·.key < ·.key)
  /-- The fields listed are those that need names, or all. -/
  mem_fields_iff : ∀ {key : MemberKey}, (∃ m ∈ entry.fields, m.key = key) ↔
    ∃ f, (task.graph.classAt id).fields.find? key = some f ∧
      (task.config.writeAll = true ∨
        task.chain.needsFieldName (task.graph.classAt id) f = .ok true)
  /-- Methods stand once, in key order. -/
  methods_ascending : entry.methods.Pairwise (·.key < ·.key)
  /-- The methods listed are those at which families start, without initializers, that need
  names, or all of them. -/
  mem_methods_iff : ∀ {key : MemberKey}, (∃ m ∈ entry.methods, m.key = key) ↔
    key.isInitializer = false ∧ task.graph.hierarchy.isSource id key = true ∧
      ∃ symbol, task.graph.methodIn? id key = some symbol ∧
        (task.config.writeAll = true ∨
          task.chain.needsMethodName (task.graph.classAt id) symbol = .ok true)

theorem isSome_keptEntry_iff {key : MemberKey} :
    (task.keptEntry key).isSome = true ↔ task.config.writeAll = true := by
  rw [keptEntry]
  cases task.config.writeAll <;> simp

/-- A field gets a line if it needs a name or if all do. -/
theorem isSome_fieldEntryIn_iff {id : ClassId} {f : Member} (h : task.FieldSettled c id f) :
    (task.fieldEntryIn c id f).isSome = true ↔ task.config.writeAll = true ∨
      task.chain.needsFieldName (task.graph.classAt id) f = .ok true := by
  obtain ⟨need, hneed, hnamed⟩ := h
  rw [fieldEntryIn, hneed]
  cases need with
  | true =>
    obtain ⟨name, hname⟩ := hnamed rfl
    dsimp only
    rw [hname]
    simp
  | false =>
    dsimp only
    rw [isSome_keptEntry_iff]
    simp

/-- A method gets a line if it overrides nothing and needs a name, or if all do. -/
theorem isSome_methodEntryIn_iff {id : ClassId} {slot : MemberKey × MethodId}
    {symbol : MethodSymbol} (hsymbol : task.graph.methodAt? slot.2 = some symbol)
    (h : task.MethodSettled c id slot) :
    (task.methodEntryIn c id slot).isSome = true ↔ slot.1.isInitializer = false ∧
      task.hierarchy.isSource id slot.1 = true ∧ (task.config.writeAll = true ∨
        task.chain.needsMethodName (task.graph.classAt id) symbol = .ok true) := by
  rw [methodEntryIn]
  cases hinit : slot.1.isInitializer with
  | true => simp
  | false =>
    cases hsource : task.hierarchy.isSource id slot.1 with
    | false => simp
    | true =>
      obtain ⟨need, hneed, hnamed⟩ := h hinit hsource symbol hsymbol
      rw [if_neg (by decide), hsymbol]
      dsimp only
      rw [hneed]
      cases need with
      | true =>
        obtain ⟨name, hname⟩ := hnamed rfl
        dsimp only
        rw [hname]
        simp
      | false =>
        dsimp only
        rw [isSome_keptEntry_iff]
        simp

/-- What is listed has the keys of what it is made from. -/
theorem exists_mem_filterMap_iff {α : Type} {f : α → Option MemberEntry} {keyOf : α → MemberKey}
    (hkey : ∀ x m, f x = some m → m.key = keyOf x) {xs : List α} {key : MemberKey} :
    (∃ m ∈ xs.filterMap f, m.key = key) ↔ ∃ x ∈ xs, keyOf x = key ∧ (f x).isSome = true := by
  constructor
  · rintro ⟨m, hm, rfl⟩
    obtain ⟨x, hx, hfx⟩ := List.mem_filterMap.1 hm
    exact ⟨x, hx, (hkey x m hfx).symm, by rw [hfx]; rfl⟩
  · rintro ⟨x, hx, rfl, hsome⟩
    obtain ⟨m, hfx⟩ := Option.isSome_iff_exists.1 hsome
    exact ⟨m, List.mem_filterMap.2 ⟨x, hx, hfx⟩, hkey x m hfx⟩

/-- A settled class with a class file has an entry that lists what it should. -/
theorem exists_emits (hgraph : task.graph.Finished) {id : ClassId}
    (hloaded : (task.graph.classAt id).loaded = true) (h : task.ClassSettled c id) :
    ∃ entry, task.classEntryIn c id = some entry ∧ task.Emits id entry := by
  have hfieldKey : ∀ f m, task.fieldEntryIn c id f = some m → m.key = Member.key f :=
    fun f m hm => (of_fieldEntryIn hm).1
  have hmethodKey : ∀ slot m, task.methodEntryIn c id slot = some m → m.key = Prod.fst slot :=
    fun slot m hm => (of_methodEntryIn hm).1
  have hfields : (task.graph.classAt id).fields.values.Pairwise (Member.key · < Member.key ·) := by
    refine List.pairwise_map.2 ((task.graph.classAt id).fields.ascending.imp_of_mem ?_)
    intro e e' he he' hlt
    rw [hgraph.fields (KeyMap.find?_eq_some_iff.2 he),
      hgraph.fields (KeyMap.find?_eq_some_iff.2 he')]
    exact hlt
  refine ⟨_, by rw [classEntryIn, if_pos hloaded], rfl, ?_, fun {key} => ?_, ?_, fun {key} => ?_⟩
  · exact Collection.pairwise_filterMap_of_key Member.key hfields hfieldKey
  · rw [exists_mem_filterMap_iff hfieldKey]
    refine exists_congr fun f => ?_
    constructor
    · rintro ⟨hf, rfl, hsome⟩
      exact ⟨hgraph.fields.mem_values_iff.1 hf,
        (isSome_fieldEntryIn_iff (h.fields hloaded f hf)).1 hsome⟩
    · rintro ⟨hfind, hneed⟩
      obtain rfl := hgraph.fields hfind
      have hf := hgraph.fields.mem_values_iff.2 hfind
      exact ⟨hf, rfl, (isSome_fieldEntryIn_iff (h.fields hloaded f hf)).2 hneed⟩
  · exact Collection.pairwise_filterMap_of_key Prod.fst (task.graph.classAt id).methods.ascending
      hmethodKey
  · rw [exists_mem_filterMap_iff hmethodKey, Hierarchy.isSource_congr _ task.hierarchy]
    constructor
    · rintro ⟨⟨_, method⟩, hslot, rfl, hsome⟩
      have hfind := KeyMap.find?_eq_some_iff.2 hslot
      obtain ⟨symbol, hsymbol, -⟩ := hgraph.symbol_of_slot hfind
      obtain ⟨hinit, hsource, hneed⟩ :=
        (isSome_methodEntryIn_iff hsymbol (h.methods hloaded _ hslot)).1 hsome
      refine ⟨hinit, hsource, symbol, ?_, hneed⟩
      rw [ClassGraph.methodIn?, ClassGraph.slot?, hfind]
      exact hsymbol
    · rintro ⟨hinit, hsource, symbol, hmethod, hneed⟩
      obtain ⟨method, hfind, hsymbol⟩ := Option.bind_eq_some_iff.1 hmethod
      have hslot := KeyMap.find?_eq_some_iff.1 hfind
      exact ⟨(key, method), hslot, rfl,
        (isSome_methodEntryIn_iff hsymbol (h.methods hloaded _ hslot)).2 ⟨hinit, hsource, hneed⟩⟩

/-- The lines of a run for the methods of a class. -/
theorem hasLine_setIn_iff (hgraph : task.graph.Finished) {id : ClassId}
    (hid : id < task.graph.size) {key : MemberKey}
    (hloaded : ∀ {m}, task.graph.slot? id key = some m → (task.graph.classAt id).loaded = true)
    {name : String} :
    (task.setIn c).HasLine (task.graph.nameAt id) key name ↔
      ∃ m, task.graph.slot? id key = some m ∧
        task.methodEntryIn c id (key, m) = some ⟨key, name⟩ := by
  constructor
  · rintro ⟨entry, hmem, hname, hline⟩
    have hentry := eq_classEntryIn_of_name_eq hgraph hid hmem hname
    rw [classEntryIn] at hentry
    split at hentry
    · rw [← Option.some.inj hentry] at hline
      obtain ⟨⟨key', m⟩, hmem, hline⟩ := List.mem_filterMap.1 hline
      obtain ⟨rfl, -⟩ := of_methodEntryIn hline
      exact ⟨m, KeyMap.find?_eq_some_iff.2 hmem, hline⟩
    · cases hentry
  · rintro ⟨m, hslot, hline⟩
    obtain ⟨entry, hmem, hentry⟩ := exists_entry hgraph hid (hloaded hslot)
    refine ⟨entry, hmem, name_of_classEntryIn hentry, ?_⟩
    rw [classEntryIn, if_pos (hloaded hslot)] at hentry
    rw [← Option.some.inj hentry]
    exact List.mem_filterMap.2 ⟨(key, m), KeyMap.find?_eq_some_iff.1 hslot, hline⟩

/-- The entries of a run are those of the classes with class files. -/
theorem forall₂_emits (hgraph : task.graph.Finished) {ids : List ClassId}
    (h : ∀ id ∈ ids, task.ClassSettled c id) :
    List.Forall₂ task.Emits (ids.filter fun id => (task.graph.classAt id).loaded)
      (ids.filterMap (task.classEntryIn c)) := by
  induction ids with
  | nil => exact .nil
  | cons id ids ih =>
    obtain ⟨hid, hids⟩ := List.forall_mem_cons.1 h
    by_cases hloaded : (task.graph.classAt id).loaded = true
    · obtain ⟨entry, hentry, hemits⟩ := exists_emits hgraph hloaded hid
      rw [List.filter_cons, if_pos hloaded, List.filterMap_cons_some hentry]
      exact .cons hemits (ih hids)
    · have hnone : task.classEntryIn c id = none := by rw [classEntryIn, if_neg hloaded]
      rw [List.filter_cons, if_neg hloaded, List.filterMap_cons_none hnone]
      exact ih hids

end NamingTask

namespace Generator

variable {ρ : Type}

/-- A successful call has exactly one entry for each class with a class file and none for others.
Entries come after those of containers and siblings come, with what they contain, in the order of
their names. Each entry lists exactly the fields and methods that it should, in key order, and the
set has a table. -/
theorem exists_emits_of_generate [ConflictResolver ρ] (files : List ClassFile)
    {gen after : Generator ρ} {set : MappingSet}
    (hgraph : gen.task.graph = GraphBuilder.build files)
    (hrun : gen.generate = (.ok set, after)) :
    (set.classes.map ClassEntry.name).Nodup ∧
    (∀ name, (∃ entry ∈ set.classes, entry.name = name) ↔ ∃ file ∈ files, file.name = name) ∧
    (∃ ids : List ClassId,
      ids.Pairwise (fun x y =>
        gen.task.graph.ComesBefore x y ∧ ¬ gen.task.graph.ComesBefore y x) ∧
      List.Forall₂ gen.task.Emits ids set.classes) ∧
    ∃ t, set.toTable = .ok t := by
  obtain ⟨t, hsucceeds, -⟩ := exists_succeeds_of_generate hrun
  have hfinished : gen.task.graph.Finished := hgraph ▸ GraphBuilder.finished_build files
  obtain ⟨-, hsettled, rfl⟩ := NamingTask.of_succeeds_run hfinished hsucceeds
  have hunambiguous := NamingTask.unambiguous_setIn hfinished t.context
  obtain ⟨table, htable, -⟩ := hunambiguous.toTable
  have hwalk : ∀ id, id ∈ gen.task.graph.walk ↔ id < gen.task.graph.size :=
    fun _ => hfinished.forest.mem_walk_iff hfinished.names
  have hemits : List.Forall₂ gen.task.Emits
      (gen.task.graph.walk.filter fun id => (gen.task.graph.classAt id).loaded)
      (gen.task.setIn t.context).classes :=
    NamingTask.forall₂_emits hfinished fun id hid => hsettled id ((hwalk id).1 hid)
  have hloaded : ∀ id < gen.task.graph.size, (gen.task.graph.classAt id).loaded = true ↔
      ∃ file ∈ files, file.name = gen.task.graph.nameAt id := by
    intro id hid
    rw [hgraph] at hid ⊢
    rw [GraphBuilder.loaded_build hid, ClassFile.named?, List.find?_isSome]
    simp only [decide_eq_true_eq]
  have hnames : (gen.task.setIn t.context).classes.map ClassEntry.name =
      (gen.task.graph.walk.filter fun id => (gen.task.graph.classAt id).loaded).map
        gen.task.graph.nameAt := by
    have hsame := List.forall₂_map_left_iff.2
      (List.forall₂_map_right_iff.2 (hemits.imp fun _ _ h => h.name_eq.symm))
    exact (List.forall₂_eq_eq_eq ▸ hsame : _ = _).symm
  refine ⟨hunambiguous.classes, fun name => ?_, ⟨_, ?_, hemits⟩, table, htable⟩
  · have hmem : (∃ entry ∈ (gen.task.setIn t.context).classes, entry.name = name) ↔
        name ∈ (gen.task.setIn t.context).classes.map ClassEntry.name := by
      rw [List.mem_map]
    rw [hmem, hnames, List.mem_map]
    constructor
    · rintro ⟨id, hid, rfl⟩
      obtain ⟨hid, hfile⟩ := List.mem_filter.1 hid
      exact (hloaded id ((hwalk id).1 hid)).1 hfile
    · rintro ⟨file, hfile, rfl⟩
      obtain ⟨id, hid, hname⟩ := GraphBuilder.exists_nameAt_build hfile
      rw [← hgraph] at hid hname
      exact ⟨id, List.mem_filter.2 ⟨(hwalk id).2 hid,
        (hloaded id hid).2 ⟨file, hfile, hname.symm⟩⟩, hname⟩
  · have hordered := hfinished.forest.pairwise_comesBefore_walk hfinished.names
    exact (hordered.imp fun hxy => ⟨hxy, hfinished.forest.not_comesBefore hxy⟩).filter _

/-- A class inside a container without a class file, and a class with an inner class that
overrides its method. -/
def nestedFiles : List ClassFile :=
  [{ name := "p$q" },
    { name := "a$b", superName := some "a", fields := [{ key := ⟨"x", "I"⟩ }],
      methods := [{ key := ⟨"f", "()V"⟩ }] },
    { name := "a", methods := [{ key := ⟨"<init>", "()V"⟩ }, { key := ⟨"f", "()V"⟩ }] }]

/-- If everything is listed, there are three entries, and none for the container `p`. -/
theorem names_nestedFiles :
    ∃ (gen after : Generator Resolver) (set : MappingSet),
      fresh (GraphBuilder.build nestedFiles) { patterns := ⟨[], [], []⟩, writeAll := true } [] {}
        .refuse none = .ok gen ∧ gen.generate = (.ok set, after) ∧
      set.classes.map ClassEntry.name = ["a", "a$b", "p$q"] ∧
      (∃ entry ∈ set.classes, entry.name = "p$q") ∧ ¬ ∃ entry ∈ set.classes, entry.name = "p" := by
  obtain ⟨gen, hgen⟩ : ∃ gen, fresh (GraphBuilder.build nestedFiles)
      { patterns := ⟨[], [], []⟩, writeAll := true } [] {} Resolver.refuse none = .ok gen :=
    ⟨_, rfl⟩
  obtain ⟨set, hrun⟩ : ∃ set, gen.generate = (.ok set, gen.generate.2) := by
    refine exists_generate_eq_of_isOk ?_
    cases hgen
    decide +kernel
  have hnames : gen.generate.1.toOption.map (·.classes.map ClassEntry.name) =
      some ["a", "a$b", "p$q"] := by
    cases hgen
    decide +kernel
  rw [hrun] at hnames
  have hfiles := (exists_emits_of_generate nestedFiles (graph_of_fresh hgen) hrun).2.1
  refine ⟨gen, _, set, hgen, hrun, Option.some.inj hnames, (hfiles "p$q").2 (by decide), ?_⟩
  rw [hfiles]
  decide

end Generator

end StableNaming
