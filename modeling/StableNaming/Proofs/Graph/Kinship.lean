import Mathlib.Logic.Relation
import StableNaming.Proofs.Graph.Growth

/-!
# Kinship of methods

What override families are in terms of the edges of the hierarchy: two classes
are linked under a key if both declare an overridable method under it and some
class inherits from both, and a family holds the classes that chains of links
lead to. So families are the classes of an equivalence.
-/

namespace StableNaming

open Relation

namespace Search

/-- What a search finds are the ends of chains of steps from the seeds. -/
theorem reachable_iff {next : Nat → List Nat} {bound x : Nat} {seeds : List Nat}
    (hnext : ∀ {y z}, z ∈ next y → z < bound) :
    Reachable next bound seeds x ↔
      ∃ seed ∈ seeds, seed < bound ∧ ReflTransGen (fun y z => z ∈ next y) seed x := by
  constructor
  · intro h
    induction h with
    | @seed x hx hlt => exact ⟨x, hx, hlt, .refl⟩
    | step _ hy _ ih =>
      obtain ⟨seed, hseed, hlt, hchain⟩ := ih
      exact ⟨seed, hseed, hlt, hchain.tail hy⟩
  · rintro ⟨seed, hseed, hlt, hchain⟩
    induction hchain with
    | refl => exact .seed hseed hlt
    | tail _ hy ih => exact .step ih hy (hnext hy)

end Search

namespace ClassGraph

variable {g : ClassGraph}

/-- Whether a class inherits from another one, or is it. -/
def Inherits (g : ClassGraph) : ClassId → ClassId → Prop :=
  ReflTransGen fun x y => y ∈ g.supertypes x

/-- Whether both classes declare an overridable method under the key and some class inherits
from both. -/
def Linked (g : ClassGraph) (key : MemberKey) (x y : ClassId) : Prop :=
  g.overridable key x = true ∧ g.overridable key y = true ∧
    ∃ z, g.Inherits z x ∧ g.Inherits z y

/-- Whether chains of links under the key lead from one class to the other. -/
def Kindred (g : ClassGraph) (key : MemberKey) : ClassId → ClassId → Prop :=
  ReflTransGen (g.Linked key)

theorem Linked.symm {key : MemberKey} {x y : ClassId} (h : g.Linked key x y) :
    g.Linked key y x := by
  obtain ⟨hx, hy, z, hzx, hzy⟩ := h
  exact ⟨hy, hx, z, hzy, hzx⟩

instance (key : MemberKey) : Std.Symm (g.Linked key) := ⟨fun _ _ h => h.symm⟩

theorem Kindred.symm {key : MemberKey} {x y : ClassId} (h : g.Kindred key x y) :
    g.Kindred key y x :=
  ReflTransGen.stdSymm.symm x y h

/-- What is kindred to an overridable method is overridable. -/
theorem Kindred.overridable {key : MemberKey} {x y : ClassId} (h : g.Kindred key x y)
    (hx : g.overridable key x = true) : g.overridable key y = true := by
  rcases h.cases_tail with rfl | ⟨z, -, hz⟩
  · exact hx
  · exact hz.2.1

/-- Only classes of the graph hold methods. -/
theorem lt_size_of_slot? {id : ClassId} {key : MemberKey} {m : MethodId}
    (h : g.slot? id key = some m) : id < g.size := by
  refine lt_size_of_classAt_ne fun hdefault => ?_
  rw [slot?, hdefault] at h
  cases h

/-- A class that takes part in dispatch under a key holds a method under it. -/
theorem overridable_iff {key : MemberKey} {id : ClassId} :
    g.overridable key id = true ↔
      ∃ m symbol, g.slot? id key = some m ∧ g.methodAt? m = some symbol ∧
        symbol.access.isPrivateOrStatic = false := by
  rw [overridable, Option.any_eq_true, methodIn?]
  constructor
  · rintro ⟨symbol, hsymbol, haccess⟩
    obtain ⟨m, hm, hsymbol⟩ := Option.bind_eq_some_iff.1 hsymbol
    exact ⟨m, symbol, hm, hsymbol, by simpa using haccess⟩
  · rintro ⟨m, symbol, hm, hsymbol, haccess⟩
    exact ⟨symbol, Option.bind_eq_some_iff.2 ⟨m, hm, hsymbol⟩, by simpa using haccess⟩

theorem lt_size_of_overridable {key : MemberKey} {id : ClassId}
    (h : g.overridable key id = true) : id < g.size := by
  obtain ⟨m, -, hm, -⟩ := overridable_iff.1 h
  exact lt_size_of_slot? hm

/-! ## Edges -/

theorem lt_size_of_mem_supertypes {x y : ClassId} (h : y ∈ g.supertypes x) : y < g.size := by
  obtain ⟨name, -, hname⟩ := List.mem_filterMap.1 h
  exact (of_idOf? hname).1

theorem lt_size_of_mem_subtypes {x y : ClassId} (h : y ∈ g.subtypes x) : y < g.size := by
  obtain ⟨name, -, hname⟩ := List.mem_filterMap.1 h
  exact (of_idOf? hname).1

/-- Under distinct names an edge leads to the class whose name it is. -/
theorem mem_supertypes_iff (h : g.DistinctNames) {x y : ClassId} :
    y ∈ g.supertypes x ↔ y < g.size ∧ g.nameAt y ∈ (g.classAt x).supertypeNames := by
  rw [supertypes, List.mem_filterMap]
  constructor
  · rintro ⟨name, hmem, hname⟩
    obtain ⟨hy, rfl⟩ := of_idOf? hname
    exact ⟨hy, hmem⟩
  · rintro ⟨hy, hmem⟩
    exact ⟨g.nameAt y, hmem, h.idOf?_nameAt hy⟩

theorem mem_subtypes_iff (h : g.DistinctNames) {x y : ClassId} :
    y ∈ g.subtypes x ↔ y < g.size ∧ g.nameAt y ∈ (g.classAt x).subtypeNames := by
  rw [subtypes, List.mem_filterMap]
  constructor
  · rintro ⟨name, hmem, hname⟩
    obtain ⟨hy, rfl⟩ := of_idOf? hname
    exact ⟨hy, hmem⟩
  · rintro ⟨hy, hmem⟩
    exact ⟨g.nameAt y, hmem, h.idOf?_nameAt hy⟩

/-- Subtypes and supertypes are the two ends of the same edges. -/
theorem EdgesAgree.mem_subtypes_iff_mem_supertypes (h : g.EdgesAgree) (hnames : g.DistinctNames)
    {x y : ClassId} : y ∈ g.subtypes x ↔ x ∈ g.supertypes y := by
  rw [mem_subtypes_iff hnames, mem_supertypes_iff hnames]
  by_cases hx : x < g.size
  · rw [h hx]
    constructor
    · rintro ⟨hy, y', hy', hname, hmem⟩
      rw [hnames hy' hy hname] at hmem
      exact ⟨hx, hmem⟩
    · rintro ⟨-, hmem⟩
      have hy : y < g.size := by
        refine lt_size_of_classAt_ne fun hdefault => ?_
        rw [hdefault] at hmem
        exact absurd hmem List.not_mem_nil
      exact ⟨hy, y, hy, rfl, hmem⟩
  · have hdefault := classAt_of_size_le (Nat.le_of_not_lt hx)
    rw [hdefault]
    constructor
    · rintro ⟨-, hmem⟩
      exact absurd hmem List.not_mem_nil
    · rintro ⟨hlt, -⟩
      exact absurd hlt hx

end ClassGraph

namespace Hierarchy

variable {g : ClassGraph} (h : Hierarchy g)

theorem mem_ancestors_iff {ids : List ClassId} {x : ClassId} :
    x ∈ h.ancestors ids ↔ ∃ id ∈ ids, id < g.size ∧ g.Inherits id x := by
  rw [ancestors, Search.mem_reach_iff, supertypes_eq,
    Search.reachable_iff ClassGraph.lt_size_of_mem_supertypes]
  rfl

theorem mem_descendants_iff (hedges : g.EdgesAgree) (hnames : g.DistinctNames)
    {ids : List ClassId} {x : ClassId} :
    x ∈ h.descendants ids ↔ ∃ id ∈ ids, id < g.size ∧ g.Inherits x id := by
  rw [descendants, Search.mem_reach_iff, subtypes_eq,
    Search.reachable_iff ClassGraph.lt_size_of_mem_subtypes]
  have hswap : (fun y z => z ∈ g.subtypes y) = Function.swap fun y z => z ∈ g.supertypes y := by
    funext y z
    exact propext (hedges.mem_subtypes_iff_mem_supertypes hnames)
  have hup : ∀ id, ReflTransGen (fun y z => z ∈ g.subtypes y) id x ↔ g.Inherits x id := by
    intro id
    rw [hswap]
    exact reflTransGen_swap
  simp only [hup]

theorem mem_relatives_singleton_iff (hedges : g.EdgesAgree) (hnames : g.DistinctNames)
    {key : MemberKey} {id x : ClassId} (hid : g.overridable key id = true) :
    x ∈ h.relatives key [id] ↔ g.Linked key id x := by
  rw [relatives, List.mem_filter, h.mem_ancestors_iff]
  simp only [h.mem_descendants_iff hedges hnames, List.mem_singleton, exists_eq_left]
  constructor
  · rintro ⟨⟨z, ⟨-, hzid⟩, -, hzx⟩, hx⟩
    exact ⟨hid, hx, z, hzid, hzx⟩
  · rintro ⟨-, hx, z, hzid, hzx⟩
    have hlt := ClassGraph.lt_size_of_overridable hid
    have hz : z < g.size := by
      rcases hzid.cases_head with rfl | ⟨y, hy, -⟩
      · exact hlt
      · refine ClassGraph.lt_size_of_classAt_ne fun hdefault => ?_
        rw [ClassGraph.supertypes, hdefault] at hy
        cases hy
    exact ⟨⟨z, ⟨hlt, hzid⟩, hz, hzx⟩, hx⟩

/-- The family of an overridable method in the hierarchy holds the classes kindred to its
own. -/
theorem mem_hierarchyFamily_iff_kindred (hedges : g.EdgesAgree) (hnames : g.DistinctNames)
    {key : MemberKey} {id x : ClassId} (hid : g.overridable key id = true) :
    x ∈ h.hierarchyFamily key id ↔ g.Kindred key id x := by
  have hlt : ∀ {y z}, z ∈ h.relatives key [y] → z < g.size := fun hz =>
    ClassGraph.lt_size_of_overridable (List.mem_filter.1 hz).2
  rw [mem_hierarchyFamily_iff, Search.reachable_iff hlt]
  simp only [List.mem_singleton, exists_eq_left]
  constructor
  · rintro ⟨-, hchain⟩
    induction hchain with
    | refl => exact .refl
    | tail _ hstep ih =>
      exact ih.tail ((h.mem_relatives_singleton_iff hedges hnames (ih.overridable hid)).1 hstep)
  · intro hchain
    refine ⟨ClassGraph.lt_size_of_overridable hid, ReflTransGen.mono (fun y z hyz => ?_) _ _ hchain⟩
    exact (h.mem_relatives_singleton_iff hedges hnames hyz.1).2 hyz

theorem nodup_spread_relatives (key : MemberKey) (id : ClassId) :
    (Search.spread (h.relatives key) g.size [id]).Nodup :=
  Search.nodup_spread _ _ _

/-- Kindred methods have one family. -/
theorem hierarchyFamily_congr (hedges : g.EdgesAgree) (hnames : g.DistinctNames)
    {key : MemberKey} {x y : ClassId} (hx : g.overridable key x = true)
    (hxy : g.Kindred key x y) : h.hierarchyFamily key x = h.hierarchyFamily key y := by
  have hmem : ∀ {id z}, g.overridable key id = true →
      (z ∈ Search.spread (h.relatives key) g.size [id] ↔ g.Kindred key id z) := fun hid =>
    Collection.mem_sortOn.symm.trans (h.mem_hierarchyFamily_iff_kindred hedges hnames hid)
  refine Collection.sortOn_congr (h.nodup_spread_relatives key x) (h.nodup_spread_relatives key y)
    (fun a ha b hb hab => ?_) fun z => ?_
  · have ha := ClassGraph.lt_size_of_overridable (((hmem hx).1 ha).overridable hx)
    have hb := ClassGraph.lt_size_of_overridable (((hmem hx).1 hb).overridable hx)
    exact hnames ha hb hab
  · rw [hmem hx, hmem (hxy.overridable hx)]
    exact ⟨hxy.symm.trans, hxy.trans⟩

end Hierarchy

end StableNaming
