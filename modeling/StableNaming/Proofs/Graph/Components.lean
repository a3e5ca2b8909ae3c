import StableNaming.Proofs.Graph.Edges

/-!
# Components of the hierarchy

A component is what the edges of the hierarchy connect, whichever way they point. Since edges say
the same at both ends, a walk up and down from one class finds all of it, components do not overlap,
and no override family leaves one. So methods can be joined component after component.
-/

namespace StableNaming

open Relation

/-- A walk from one number starts there. -/
theorem Search.head?_reach {next : Nat → List Nat} {bound seed : Nat} (h : seed < bound) :
    (reach next bound [seed]).head? = some seed := by
  have hstart : discover bound [seed] .empty = ([seed], NumberSet.empty.insert seed) := by
    rw [discover, if_pos ⟨h, by simp⟩]
    rfl
  rw [reach, spread, hstart, walk, List.cons_append, List.head?_cons]

namespace ClassGraph

variable {g : ClassGraph} {x y seed seed' : ClassId}

/-- Whether a class of the graph has the name of the super class of another class, or stands among
its interfaces, its subclasses or its implementers. -/
def Edge (g : ClassGraph) (x y : ClassId) : Prop :=
  y < g.size ∧ ((g.classAt x).superName = some (g.nameAt y) ∨
    g.nameAt y ∈ (g.classAt x).interfaces ∨ g.nameAt y ∈ (g.classAt x).subclasses ∨
      g.nameAt y ∈ (g.classAt x).implementers)

/-- Whether edges connect two classes, whichever way they point. -/
def Connected (g : ClassGraph) : ClassId → ClassId → Prop := EqvGen g.Edge

theorem edge_eq_touches (hnames : g.DistinctNames) : g.Edge = g.Touches := by
  funext x y
  refine propext ?_
  rw [Touches, mem_supertypes_iff hnames, mem_subtypes_iff hnames, ← and_or_left, Edge,
    ClassSymbol.supertypeNames, ClassSymbol.subtypeNames, List.mem_append, List.mem_append,
    Option.mem_toList, or_assoc]

theorem connected_iff (hnames : g.DistinctNames) (hedges : g.EdgesAgree) :
    g.Connected x y ↔ ReflTransGen g.Touches x y := by
  have hswap : ∀ {x y}, y ∈ g.subtypes x ↔ x ∈ g.supertypes y :=
    hedges.mem_subtypes_iff_mem_supertypes hnames
  have : Std.Symm g.Touches := ⟨fun x y h => (h.imp hswap.2 hswap.1).symm⟩
  rw [Connected, edge_eq_touches hnames, EqvGen.eqvGen_eq_reflTransGen]

/-- Whether a component is the part of the hierarchy that is connected to a class. -/
structure IsComponent (g : ClassGraph) (seed : ClassId) (component : Component) : Prop where
  /-- The class comes first. -/
  head?_eq : component.classes.head? = some seed
  /-- Each class comes once. -/
  nodup : component.classes.Nodup
  /-- The classes are those that edges connect to it. -/
  mem_classes_iff : ∀ x, x ∈ component.classes ↔ g.Connected seed x
  /-- The topmost classes stand in the same order. -/
  topmost_sublist : component.topmost.Sublist component.classes
  /-- They are the classes of which no supertype is in the graph. -/
  mem_topmost_iff : ∀ x, x ∈ component.topmost ↔
    x ∈ component.classes ∧ ∀ y < g.size, g.nameAt y ∉ (g.classAt x).supertypeNames
  /-- So do the leaves. -/
  leaves_sublist : component.leaves.Sublist component.classes
  /-- They are the classes that are no supertype of any class. -/
  mem_leaves_iff : ∀ x, x ∈ component.leaves ↔
    x ∈ component.classes ∧ ∀ y < g.size, g.nameAt x ∉ (g.classAt y).supertypeNames

theorem isEmpty_supertypes_iff (hnames : g.DistinctNames) : (g.supertypes x).isEmpty = true ↔
    ∀ y < g.size, g.nameAt y ∉ (g.classAt x).supertypeNames := by
  simp only [List.isEmpty_iff, List.eq_nil_iff_forall_not_mem, mem_supertypes_iff hnames, not_and]

theorem isEmpty_subtypes_iff (hnames : g.DistinctNames) (hedges : g.EdgesAgree) (hx : x < g.size) :
    (g.subtypes x).isEmpty = true ↔ ∀ y < g.size, g.nameAt x ∉ (g.classAt y).supertypeNames := by
  simp only [List.isEmpty_iff, List.eq_nil_iff_forall_not_mem,
    hedges.mem_subtypes_iff_mem_supertypes hnames, mem_supertypes_iff hnames, hx, true_and]
  refine forall_congr' fun y => ⟨fun h _ => h, fun h hmem => h ?_ hmem⟩
  refine lt_size_of_classAt_ne fun hdefault => ?_
  rw [hdefault] at hmem
  exact List.not_mem_nil hmem

/-- The component that a walk finds is the one around the class where it starts. -/
theorem isComponent_component (hnames : g.DistinctNames) (hedges : g.EdgesAgree)
    (hseed : seed < g.size) : g.IsComponent seed (g.hierarchy.component seed) where
  head?_eq := Search.head?_reach hseed
  nodup := Search.nodup_reach _ _ _
  mem_classes_iff x := (mem_component_iff hseed).trans (connected_iff hnames hedges).symm
  topmost_sublist := List.filter_sublist
  mem_topmost_iff x := by
    refine List.mem_filter.trans (and_congr_right fun _ => ?_)
    rw [Hierarchy.supertypes_eq]
    exact isEmpty_supertypes_iff hnames
  leaves_sublist := List.filter_sublist
  mem_leaves_iff x := by
    refine List.mem_filter.trans (and_congr_right fun hx => ?_)
    rw [Hierarchy.subtypes_eq]
    exact isEmpty_subtypes_iff hnames hedges (lt_size_of_mem_component hseed hx)

/-- Two components hold the same classes, or none in common. -/
theorem component_eq_or_disjoint (hnames : g.DistinctNames) (hedges : g.EdgesAgree)
    (hseed : seed < g.size) (hseed' : seed' < g.size) :
    (∀ x, x ∈ (g.hierarchy.component seed).classes ↔ x ∈ (g.hierarchy.component seed').classes) ∨
      (g.hierarchy.component seed).classes.Disjoint (g.hierarchy.component seed').classes := by
  have hmem := (isComponent_component hnames hedges hseed).mem_classes_iff
  have hmem' := (isComponent_component hnames hedges hseed').mem_classes_iff
  have hequiv : Equivalence g.Connected := EqvGen.is_equivalence _
  by_cases hconnected : g.Connected seed seed'
  · refine .inl fun x => ?_
    rw [hmem, hmem']
    exact ⟨hequiv.trans (hequiv.symm hconnected), hequiv.trans hconnected⟩
  · refine .inr fun x hx hx' => hconnected ?_
    rw [hmem] at hx
    rw [hmem'] at hx'
    exact hequiv.trans hx (hequiv.symm hx')

end ClassGraph

namespace GraphBuilder

open ClassGraph

/-- What calls have built, when its edges have been entered and its methods have not been joined. -/
theorem unjoined_relationPass (cs : List BuilderCall) : (calls cs).draft.relationPass.Unjoined := by
  rw [relationPass_calls]
  exact (finish_calls cs).1

/-- In the graph of any calls, a component is the connected part of the hierarchy around its first
class. Components are the same or disjoint, and every family lies in the component of its class,
before methods are joined and after. So the pass that joins methods component after component joins
all families as if at once. -/
theorem isComponent_finish (cs : List BuilderCall) :
    (∀ seed < (calls cs).finish.size,
      (calls cs).finish.IsComponent seed ((calls cs).finish.hierarchy.component seed)) ∧
    (∀ seed < (calls cs).finish.size, ∀ seed' < (calls cs).finish.size,
      (∀ x, x ∈ ((calls cs).finish.hierarchy.component seed).classes ↔
        x ∈ ((calls cs).finish.hierarchy.component seed').classes) ∨
      ((calls cs).finish.hierarchy.component seed).classes.Disjoint
        ((calls cs).finish.hierarchy.component seed').classes) ∧
    (∀ c k, ∀ x ∈ (calls cs).finish.hierarchy.family c k,
      x ∈ ((calls cs).finish.hierarchy.component c).classes) ∧
    (∀ c k, ∀ x ∈ (calls cs).draft.relationPass.hierarchy.family c k,
      x ∈ ((calls cs).draft.relationPass.hierarchy.component c).classes) ∧
    (calls cs).finish = (calls cs).draft.relationPass.join := by
  have hunjoined := unjoined_relationPass cs
  have hfinish : (calls cs).finish = (calls cs).draft.relationPass.join := by
    rw [(finish_calls cs).2, relationPass_calls]
  have hnames := hunjoined.distinctNames_join
  have hedges := hunjoined.edgesAgree_join
  have hfamily : ∀ c k, ∀ x ∈ (calls cs).draft.relationPass.hierarchy.family c k,
      x ∈ ((calls cs).draft.relationPass.hierarchy.component c).classes := by
    intro c k x hx
    obtain ⟨own, hslot⟩ := slot?_of_mem_family hx
    have hc := lt_size_of_slot? hslot
    exact hunjoined.mem_component_of_mem_family hc ((mem_component_iff hc).2 .refl) hx
  rw [hfinish]
  refine ⟨fun seed hseed => isComponent_component hnames hedges hseed,
    fun seed hseed seed' hseed' => component_eq_or_disjoint hnames hedges hseed hseed',
    fun c k x hx => ?_, hfamily, rfl⟩
  obtain ⟨m, hslot⟩ := slot?_of_mem_family hx
  rw [hunjoined.family_join hslot] at hx
  rw [(sameButMethods_join _).component_eq hunjoined.names]
  exact hfamily c k x hx

/-- A class that is its own super class, one below it that names a class that does not exist, and
two classes of which only the names are known. -/
def loopingCalls : List BuilderCall :=
  [.file { name := "b", superName := "a", interfaces := ["x"] },
    .file { name := "a", superName := "a" }, .name "p$q"]

/-- The first two classes are connected, and none of the others is connected to them. -/
theorem connected_loopingCalls :
    0 < (calls loopingCalls).finish.size ∧ (calls loopingCalls).finish.Connected 0 1 ∧
      ¬ (calls loopingCalls).finish.Connected 0 2 ∧
      ¬ (calls loopingCalls).finish.Connected 2 3 := by
  obtain ⟨hcomponent, -⟩ := isComponent_finish loopingCalls
  have hsize : (calls loopingCalls).finish.size = 4 := by decide +kernel
  have hfirst := (hcomponent 0 (hsize ▸ by decide)).mem_classes_iff
  have hthird := (hcomponent 2 (hsize ▸ by decide)).mem_classes_iff
  have hclasses : ((calls loopingCalls).finish.hierarchy.component 0).classes = [0, 1] := by
    decide +kernel
  have hclasses' : ((calls loopingCalls).finish.hierarchy.component 2).classes = [2] := by
    decide +kernel
  rw [← hfirst, ← hfirst, ← hthird, hclasses, hclasses', hsize]
  decide

end GraphBuilder

end StableNaming
