import StableNaming.Proofs.Graph.Loading

/-!
# Graphs that grow

When class files of further classes are added, the graph has all its classes and all
edges between them still. So methods that one family holds stay in one family, which
may have become a larger one.
-/

namespace StableNaming

open Relation

/-- Whether further class files leave it as it is which class file counts for a class. -/
def ClassFile.Extends (files' files : List ClassFile) : Prop :=
  ∀ file ∈ files, named? files' file.name = named? files file.name

/-- Class files of other classes may stand anywhere among the given ones. -/
theorem ClassFile.extends_of_filter {files files' : List ClassFile}
    (h : files'.filter (fun file => file.name ∈ files.map (·.name)) = files) :
    Extends files' files := by
  intro file hfile
  have hname : file.name ∈ files.map (·.name) := List.mem_map_of_mem hfile
  have hfiltered : named? (files'.filter fun file => file.name ∈ files.map (·.name)) file.name =
      named? files' file.name := by
    rw [named?, named?, List.find?_filter]
    congr 1
    funext other
    by_cases hother : other.name = file.name <;> simp [hother, hname]
  rw [← hfiltered, h]

namespace ClassGraph

/-- The name of the container of a class. -/
def outerName? (g : ClassGraph) (id : ClassId) : Option String :=
  (g.classAt id).outer.map g.nameAt

/-- Where the classes of a graph are found in a larger one, under their own names and from their own
class files. -/
structure Embedding (g g' : ClassGraph) where
  /-- The class in the larger graph. -/
  classOf : ClassId → ClassId
  /-- The larger graph has the class. -/
  lt_size : ∀ {id : ClassId}, id < g.size → classOf id < g'.size
  /-- The same is said of the class. -/
  outline_eq : ∀ {id : ClassId}, id < g.size →
    (g'.classAt (classOf id)).outline = (g.classAt id).outline
  /-- The class declares the same methods. -/
  declares_eq : ∀ {id : ClassId}, id < g.size → ∀ key,
    g'.declares (classOf id) key = g.declares id key
  /-- The same methods take part in dispatch. -/
  overridable_eq : ∀ {id : ClassId}, id < g.size → ∀ key,
    g'.overridable key (classOf id) = g.overridable key id

namespace Embedding

variable {g g' : ClassGraph} (e : Embedding g g')

/-- Whatever does not depend on places and numbers of methods stays. -/
theorem apply_eq {α : Sort*} (f : ClassSymbol → α) (hf : ∀ c, f c.outline = f c) {id : ClassId}
    (hid : id < g.size) : f (g'.classAt (e.classOf id)) = f (g.classAt id) := by
  rw [← hf, e.outline_eq hid, hf]

theorem nameAt_eq {id : ClassId} (hid : id < g.size) : g'.nameAt (e.classOf id) = g.nameAt id :=
  e.apply_eq ClassSymbol.name (fun _ => rfl) hid

theorem mem_supertypes (hg : g.DistinctNames) (hg' : g'.DistinctNames) {x y : ClassId}
    (hy : y ∈ g.supertypes x) : e.classOf y ∈ g'.supertypes (e.classOf x) := by
  obtain ⟨hlt, hname⟩ := (mem_supertypes_iff hg).1 hy
  have hx : x < g.size := by
    refine lt_size_of_classAt_ne fun hdefault => ?_
    rw [hdefault] at hname
    exact absurd hname List.not_mem_nil
  have hnames := e.apply_eq ClassSymbol.supertypeNames (fun _ => rfl) hx
  rw [mem_supertypes_iff hg']
  refine ⟨e.lt_size hlt, ?_⟩
  rw [e.nameAt_eq hlt, hnames]
  exact hname

theorem inherits (hg : g.DistinctNames) (hg' : g'.DistinctNames) {x y : ClassId}
    (h : g.Inherits x y) : g'.Inherits (e.classOf x) (e.classOf y) :=
  ReflTransGen.lift e.classOf (fun _ _ hstep => e.mem_supertypes hg hg' hstep) _ _ h

/-- Kindred methods stay kindred. -/
theorem kindred (hg : g.DistinctNames) (hg' : g'.DistinctNames) {key : MemberKey} {x y : ClassId}
    (h : g.Kindred key x y) : g'.Kindred key (e.classOf x) (e.classOf y) := by
  refine ReflTransGen.lift e.classOf (fun x y hlinked => ?_) _ _ h
  obtain ⟨hx, hy, z, hzx, hzy⟩ := hlinked
  refine ⟨?_, ?_, e.classOf z, e.inherits hg hg' hzx, e.inherits hg hg' hzy⟩
  · rw [e.overridable_eq (lt_size_of_overridable hx)]
    exact hx
  · rw [e.overridable_eq (lt_size_of_overridable hy)]
    exact hy

/-- A method of a class is one in the larger graph, too. -/
theorem exists_slot {id : ClassId} {key : MemberKey} {m : MethodId} (h : g.slot? id key = some m) :
    ∃ m', g'.slot? (e.classOf id) key = some m' := by
  have hdeclares := e.declares_eq (lt_size_of_slot? h) key
  rw [declares, declares, h] at hdeclares
  exact Option.isSome_iff_exists.1 hdeclares

/-- Classes that share a method share one in the larger graph, too. -/
theorem slot_eq (hg : g.Finished) (hg' : g'.Finished) {x y : ClassId} {key : MemberKey}
    {m m' : MethodId} (hx : g.slot? x key = some m) (hy : g.slot? y key = some m)
    (hx' : g'.slot? (e.classOf x) key = some m') : g'.slot? (e.classOf y) key = some m' := by
  obtain ⟨n, hy'⟩ := e.exists_slot hy
  rw [hy', Option.some_inj, eq_comm, hg'.slot_eq_iff hx' hy']
  refine ⟨rfl, ?_⟩
  rcases ((hg.slot_eq_iff hx hy).1 rfl).2 with rfl | ⟨hopen, hkindred⟩
  · exact .inl rfl
  · rw [e.overridable_eq (lt_size_of_overridable hopen)]
    exact .inr ⟨hopen, e.kindred hg.names hg'.names hkindred⟩

/-- If every class is found under its name in the graph of other class files, and the same class
file counts for it, the graph is found in the other one. -/
theorem exists_of_named {files files' : List ClassFile}
    (h : ∀ id < (GraphBuilder.build files).size, ∃ id' < (GraphBuilder.build files').size,
      (GraphBuilder.build files').nameAt id' = (GraphBuilder.build files).nameAt id ∧
      ClassFile.named? files' ((GraphBuilder.build files).nameAt id) =
        ClassFile.named? files ((GraphBuilder.build files).nameAt id)) :
    Nonempty (Embedding (GraphBuilder.build files) (GraphBuilder.build files')) := by
  have hfound : ∀ id, ∃ id', id < (GraphBuilder.build files).size →
      id' < (GraphBuilder.build files').size ∧
      (GraphBuilder.build files').nameAt id' = (GraphBuilder.build files).nameAt id ∧
      ClassFile.named? files' ((GraphBuilder.build files').nameAt id') =
        ClassFile.named? files ((GraphBuilder.build files).nameAt id) := by
    intro id
    by_cases hid : id < (GraphBuilder.build files).size
    · obtain ⟨id', hid', hname, hsame⟩ := h id hid
      exact ⟨id', fun _ => ⟨hid', hname, by rw [hname, hsame]⟩⟩
    · exact ⟨0, fun hlt => absurd hlt hid⟩
  choose classOf hclassOf using hfound
  refine ⟨⟨classOf, fun hid => (hclassOf _ hid).1, fun {id} hid => ?_, fun {id} hid key => ?_,
    fun {id} hid key => ?_⟩⟩
  all_goals obtain ⟨hid', hname, hsame⟩ := hclassOf id hid
  · rw [GraphBuilder.outline_build hid', GraphBuilder.outline_build hid, hsame, hname]
  · rw [GraphBuilder.declares_build hid', GraphBuilder.declares_build hid, hsame]
  · rw [GraphBuilder.overridable_build hid', GraphBuilder.overridable_build hid, hsame]

/-- If every class has a class file, its graph is found in that of more class files. -/
theorem exists_of_extends {files files' : List ClassFile} (h : ClassFile.Extends files' files)
    (hloaded : ∀ id < (GraphBuilder.build files).size,
      ((GraphBuilder.build files).classAt id).loaded = true) :
    Nonempty (Embedding (GraphBuilder.build files) (GraphBuilder.build files')) := by
  refine exists_of_named fun id hid => ?_
  have hsome := GraphBuilder.loaded_build hid
  rw [hloaded id hid] at hsome
  obtain ⟨file, hfile⟩ := Option.isSome_iff_exists.1 hsome.symm
  have hname := ClassFile.name_of_named? hfile
  have hsame := h file (List.mem_of_find?_eq_some hfile)
  rw [hname] at hsame
  rw [hfile] at hsame
  obtain ⟨id', hid', hname'⟩ := GraphBuilder.exists_nameAt_build (List.mem_of_find?_eq_some hsame)
  exact ⟨id', hid', hname'.trans hname, hsame.trans hfile.symm⟩

end Embedding

end ClassGraph

end StableNaming
