import StableNaming.Pattern.Engine
import StableNaming.Proofs.Naming.Generation

/-!
# One name per family

When nothing is carried over, two methods have one name exactly if they belong to
one override family, and the numbers of all method names are those from the first
counter up to the last one, one for each family that has a name.
-/

namespace StableNaming.Generator

open NamingM

variable {ρ : Type}

/-- A method with a name is held by a class of the graph. -/
theorem exists_of_methodName? {gen : Generator ρ} {ref : MemberRef} {name : String}
    (h : gen.methodName? ref = some name) :
    ∃ id method, gen.task.graph.idOf? ref.owner = some id ∧
      gen.task.graph.slot? id ref.key = some method ∧
      gen.context.methodNames.find? method = some name := by
  rw [methodName?] at h
  obtain ⟨id, hid, h⟩ := Option.bind_eq_some_iff.1 h
  obtain ⟨method, hslot, h⟩ := Option.bind_eq_some_iff.1 h
  exact ⟨id, method, hid, hslot, h⟩

section OnlyMinted

variable {gen : Generator ρ} {start : Counters} (hgraph : gen.task.graph.Finished)
  (hminted : gen.task.OnlyMinted start gen.context)
include hgraph hminted

/-- Two methods have one name exactly if they belong to one family. -/
theorem name_eq_iff_of_onlyMinted {c d : ClassId} (hc : c < gen.task.graph.size)
    (hd : d < gen.task.graph.size) {k l : MemberKey} {name name' : String}
    (hname : gen.methodName? ⟨gen.task.graph.nameAt c, k⟩ = some name)
    (hname' : gen.methodName? ⟨gen.task.graph.nameAt d, l⟩ = some name') :
    name = name' ↔ k = l ∧ d ∈ gen.task.graph.hierarchy.family c k := by
  rw [methodName?_nameAt rfl hgraph.names hc] at hname
  rw [methodName?_nameAt rfl hgraph.names hd] at hname'
  obtain ⟨m, hslot, hm⟩ := Option.bind_eq_some_iff.1 hname
  obtain ⟨m', hslot', hm'⟩ := Option.bind_eq_some_iff.1 hname'
  rw [← hgraph.slot_eq_iff_mem_family hslot hslot']
  constructor
  · rintro rfl
    exact hminted.method_inj hm hm'
  · rintro rfl
    exact Option.some.inj (hm.symm.trans hm')

omit hgraph in
/-- The number of the name of a method lies between the counters. -/
theorem exists_number_of_onlyMinted {ref : MemberRef} {name : String}
    (hname : gen.methodName? ref = some name) :
    ∃ n, start.get .method ≤ n ∧ n < gen.context.counters.get .method ∧
      name = SymbolKind.method.generatedName n := by
  obtain ⟨id, method, -, -, hmethod⟩ := exists_of_methodName? hname
  exact hminted.method hmethod

/-- Every number between the counters is that of the name of a method. -/
theorem exists_method_of_onlyMinted (hgrounded : gen.task.Grounded gen.context) {n : Nat}
    (hle : start.get .method ≤ n) (hlt : n < gen.context.counters.get .method) :
    ∃ ref, gen.methodName? ref = some (SymbolKind.method.generatedName n) := by
  obtain ⟨method, hmethod⟩ := hminted.method_surj hle hlt
  obtain ⟨id, key, symbol, hstarts, -⟩ := hgrounded.method hmethod
  refine ⟨⟨gen.task.graph.nameAt id, key⟩, ?_⟩
  rw [methodName?_nameAt rfl hgraph.names (ClassGraph.lt_size_of_slot? hstarts.slot), hstarts.slot]
  exact hmethod

end OnlyMinted

/-- A generator that carries nothing over gives two methods one name exactly if they belong to
one override family, and the names that it gives have exactly the numbers from its first counter
up to its last one. -/
theorem methodName?_eq_iff_mem_family [PatternEngine] [ConflictResolver ρ] (files : List ClassFile)
    (config : NamingConfig) (policies : List NamingPolicy) (counters : Counters) (resolver : ρ)
    (counterFile : Option File) {gen after : Generator ρ} {set : MappingSet}
    (hgen : fresh (GraphBuilder.build files) config policies counters resolver counterFile =
      .ok gen)
    (hrun : gen.generate = (.ok set, after)) :
    (∀ c < (GraphBuilder.build files).size, ∀ d < (GraphBuilder.build files).size,
      ∀ (k l : MemberKey) (name name' : String),
        after.methodName? ⟨(GraphBuilder.build files).nameAt c, k⟩ = some name →
        after.methodName? ⟨(GraphBuilder.build files).nameAt d, l⟩ = some name' →
          (name = name' ↔ k = l ∧ d ∈ (GraphBuilder.build files).hierarchy.family c k)) ∧
    (∀ (ref : MemberRef) (name : String), after.methodName? ref = some name →
      ∃ n, gen.startCounters.get .method ≤ n ∧ n < after.context.counters.get .method ∧
        name = SymbolKind.method.generatedName n) ∧
    ∀ n, gen.startCounters.get .method ≤ n → n < after.context.counters.get .method →
      ∃ ref, after.methodName? ref = some (SymbolKind.method.generatedName n) := by
  obtain ⟨t, hsucceeds, hafter⟩ := exists_succeeds_of_generate hrun
  have htask : after.task = gen.task := by rw [hafter]; rfl
  have hcontext : after.context = t.context := by rw [hafter]; rfl
  have hbuilt := GraphBuilder.finished_build files
  rw [← graph_of_fresh hgen] at hbuilt
  have hminted := onlyMinted_of_fresh hgen hbuilt hsucceeds
  have hgrounded := grounded_of_fresh hgen hbuilt hsucceeds
  rw [← graph_of_fresh hgen, ← htask]
  rw [← htask] at hbuilt
  rw [← hcontext, ← htask] at hminted hgrounded
  exact ⟨fun c hc d hd k l name name' => name_eq_iff_of_onlyMinted hbuilt hminted hc hd,
    fun ref name => exists_number_of_onlyMinted hminted,
    fun n => exists_method_of_onlyMinted hbuilt hminted hgrounded⟩

/-- A class, and a subclass that overrides one of its methods. -/
def overridingFiles : List ClassFile :=
  [{ name := "a", methods := [{ key := ⟨"f", "()V"⟩ }] },
    { name := "b", superName := some "a",
      methods := [{ key := ⟨"f", "()V"⟩ }, { key := ⟨"g", "()V"⟩ }] }]

/-- A policy that wants a name for every method. -/
def everyMethod : NamingPolicy := { name := "every method", methodVote := fun _ _ => 2 }

/-- The overriding method is seen to belong to the family of the overridden one by its name. -/
theorem mem_family_of_overriding :
    ∃ (gen after : Generator Resolver) (set : MappingSet),
      fresh (GraphBuilder.build overridingFiles) { patterns := ⟨[], [], []⟩ } [everyMethod] {}
        .refuse none = .ok gen ∧ gen.generate = (.ok set, after) ∧
      1 ∈ (GraphBuilder.build overridingFiles).hierarchy.family 0 ⟨"f", "()V"⟩ := by
  obtain ⟨gen, hgen⟩ : ∃ gen, fresh (GraphBuilder.build overridingFiles)
      { patterns := ⟨[], [], []⟩ } [everyMethod] {} Resolver.refuse none = .ok gen := ⟨_, rfl⟩
  obtain ⟨set, hrun⟩ : ∃ set, gen.generate = (.ok set, gen.generate.2) := by
    refine exists_generate_eq_of_isOk ?_
    cases hgen
    decide +kernel
  have hnames : gen.generate.2.methodName? ⟨"a", ⟨"f", "()V"⟩⟩ = some "method_1" ∧
      gen.generate.2.methodName? ⟨"b", ⟨"f", "()V"⟩⟩ = some "method_1" := by
    cases hgen
    decide +kernel
  have hfamilies := (methodName?_eq_iff_mem_family overridingFiles _ _ _ _ _ hgen hrun).1 0
    (by decide +kernel) 1 (by decide +kernel) ⟨"f", "()V"⟩ ⟨"f", "()V"⟩ "method_1" "method_1"
  have hfirst : (GraphBuilder.build overridingFiles).nameAt 0 = "a" := by decide +kernel
  have hsecond : (GraphBuilder.build overridingFiles).nameAt 1 = "b" := by decide +kernel
  rw [hfirst, hsecond] at hfamilies
  exact ⟨gen, _, set, hgen, hrun, ((hfamilies hnames.1 hnames.2).1 rfl).2⟩

end StableNaming.Generator
