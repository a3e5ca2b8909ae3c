import StableNaming.Proofs.Graph.Joining
import StableNaming.Proofs.Graph.RelationPass

/-!
# The join pass joins

The join pass goes component by component and class by class, skips methods that it
has dealt with, and reads families off a graph that is joined in part. What it comes
to is that all families are joined at once. At any time the methods that have been
dealt with, and the classes that held them, are as joining leaves them, and the
others as they were; and a family is dealt with as a whole, when the pass comes to
its first class.
-/

namespace StableNaming

open Relation

namespace ClassGraph

variable {g : ClassGraph}

/-! ## Methods of their own -/

/-- Whether no method lists names. -/
def Unshared (g : ClassGraph) : Prop :=
  ∀ ⦃m : MethodId⦄ ⦃symbol : MethodSymbol⦄, g.methodAt? m = some symbol → symbol.related = []

/-- The names to list are none for a method that is not the own one of the first class of a
family of several. -/
theorem joinedNames_eq_nil {m : MethodId} {symbol : MethodSymbol}
    (hnot : ∀ id key second rest, g.slot? id key = some m →
      g.hierarchy.family id key ≠ id :: second :: rest) :
    g.joinedNames g.families m symbol = [] := by
  rw [joinedNames]
  cases g.idOf? symbol.owner with
  | none => rfl
  | some owner =>
    dsimp only
    split
    · rename_i first second rest hfamily
      refine if_neg fun hlead => ?_
      rw [familyIn_families hlead.2, hlead.1] at hfamily
      exact hnot owner symbol.key second rest hlead.2 hfamily
    · rfl

/-- Joining leaves such a method alone. -/
theorem methodAt?_join_eq (hlist : g.Unshared) {m : MethodId}
    (hnot : ∀ id key second rest, g.slot? id key = some m →
      g.hierarchy.family id key ≠ id :: second :: rest) :
    g.join.methodAt? m = g.methodAt? m := by
  rw [methodAt?_join]
  cases hsymbol : g.methodAt? m with
  | none => rfl
  | some symbol => rw [Option.map_some, joinedNames_eq_nil hnot, ← hlist hsymbol]

namespace Unjoined

/-- A method is the own one of one class, under one key. -/
theorem slot_inj (h : g.Unjoined) {x y : ClassId} {k l : MemberKey} {m : MethodId}
    (hx : g.slot? x k = some m) (hy : g.slot? y l = some m) : x = y ∧ k = l := by
  obtain ⟨symbol, hsymbol, hkey, howner, -⟩ := h.own hx
  obtain ⟨symbol', hsymbol', hkey', howner', -⟩ := h.own hy
  obtain rfl : symbol = symbol' := Option.some.inj (hsymbol.symm.trans hsymbol')
  exact ⟨h.names (lt_size_of_slot? hx) (lt_size_of_slot? hy) (howner.symm.trans howner'),
    hkey.symm.trans hkey'⟩

/-- Names ascend along a family. -/
theorem pairwise_family (h : g.Unjoined) (id : ClassId) (key : MemberKey) :
    (g.hierarchy.family id key).Pairwise (g.nameAt · < g.nameAt ·) := by
  cases hslot : g.slot? id key with
  | none =>
    rw [Hierarchy.family, methodIn?, hslot]
    exact List.Pairwise.nil
  | some own =>
    obtain ⟨symbol, hsymbol, -⟩ := h.own hslot
    cases hid : g.overridable key id with
    | false =>
      rw [family_of_not_overridable hslot hsymbol hid]
      exact List.pairwise_singleton _ _
    | true =>
      rw [h.own.family_of_overridable hid]
      exact h.names.pairwise_hierarchyFamily key id

theorem nodup_family (h : g.Unjoined) (id : ClassId) (key : MemberKey) :
    (g.hierarchy.family id key).Nodup := by
  refine (h.pairwise_family id key).imp fun {x y} hlt heq => ?_
  rw [heq] at hlt
  exact String.lt_irrefl _ hlt

/-- A family of fewer than two classes is the class itself. -/
theorem family_eq_singleton (h : g.Unjoined) {id : ClassId} {key : MemberKey} {own : MethodId}
    (hslot : g.slot? id key = some own) (halone : (g.hierarchy.family id key).length < 2) :
    g.hierarchy.family id key = [id] := by
  have hself := h.self_mem_family hslot
  generalize g.hierarchy.family id key = family at hself halone
  match family with
  | [] => exact absurd hself List.not_mem_nil
  | [first] => rw [List.mem_singleton.1 hself]
  | _ :: _ :: _ => exact absurd halone (by simp)

/-- A class without relatives keeps its own method. -/
theorem slot?_join_of_alone (h : g.Unjoined) {id : ClassId} {key : MemberKey} {own : MethodId}
    (hslot : g.slot? id key = some own) (halone : (g.hierarchy.family id key).length < 2) :
    g.join.slot? id key = some own := by
  rw [slot?_join, hslot, Option.map_some, familyIn_families hslot,
    h.family_eq_singleton hslot halone]
  rfl

/-- Nor does that method list names. -/
theorem methodAt?_join_of_alone (h : g.Unjoined) (hlist : g.Unshared) {id : ClassId}
    {key : MemberKey} {own : MethodId} (hslot : g.slot? id key = some own)
    (halone : (g.hierarchy.family id key).length < 2) :
    g.join.methodAt? own = g.methodAt? own := by
  refine methodAt?_join_eq hlist fun y k second rest hy hfamily => ?_
  obtain ⟨rfl, rfl⟩ := h.slot_inj hslot hy
  rw [hfamily] at halone
  exact absurd halone (by simp)

/-- All classes of a family come to hold the method of its first class. -/
theorem slot?_join_of_lead (h : g.Unjoined) {c x : ClassId} {key : MemberKey} {slot : MethodId}
    {rest : List ClassId} (hslot : g.slot? c key = some slot)
    (hlead : g.hierarchy.family c key = c :: rest) (hx : x ∈ g.hierarchy.family c key) :
    g.join.slot? x key = some slot := by
  obtain ⟨first, others, m, hfamily, hm, hjoined⟩ := h.exists_leader hslot
  rw [hlead, List.cons.injEq] at hfamily
  rw [← hfamily.1, hslot] at hm
  exact (h.mem_family_iff_slot?_join (hjoined.trans hm.symm)).1 hx

/-- The methods of the other classes of a family never list names. -/
theorem methodAt?_join_of_follow (h : g.Unjoined) (hlist : g.Unshared) {c x : ClassId}
    {key : MemberKey} {slot m : MethodId} {rest : List ClassId}
    (hslot : g.slot? c key = some slot) (hlead : g.hierarchy.family c key = c :: rest)
    (hx : x ∈ g.hierarchy.family c key) (hxm : g.slot? x key = some m) (hne : m ≠ slot) :
    g.join.methodAt? m = g.methodAt? m := by
  refine methodAt?_join_eq hlist fun y k second others hy hfamily => ?_
  obtain ⟨rfl, rfl⟩ := h.slot_inj hxm hy
  rw [(h.of_mem_family hslot hx).2.1, hlead, List.cons.injEq] at hfamily
  rw [← hfamily.1, hslot, Option.some_inj] at hxm
  exact hne hxm.symm

end Unjoined

/-! ## Components -/

/-- Whether an edge of the hierarchy leads from one class to the other, up or down. -/
def Touches (g : ClassGraph) (x y : ClassId) : Prop := y ∈ g.supertypes x ∨ y ∈ g.subtypes x

/-- A component holds what edges lead to, in any direction. -/
theorem mem_component_iff {seed x : ClassId} (hseed : seed < g.size) :
    x ∈ (g.hierarchy.component seed).classes ↔ ReflTransGen g.Touches seed x := by
  have hlt : ∀ {y z}, z ∈ g.supertypes y ++ g.subtypes y → z < g.size := fun hz =>
    (List.mem_append.1 hz).elim lt_size_of_mem_supertypes lt_size_of_mem_subtypes
  rw [Hierarchy.component]
  simp only [Hierarchy.supertypes_eq, Hierarchy.subtypes_eq]
  rw [Search.mem_reach_iff, Search.reachable_iff hlt]
  simp only [List.mem_singleton, exists_eq_left, hseed, true_and, List.mem_append]
  rfl

theorem lt_size_of_mem_component {seed x : ClassId} (hseed : seed < g.size)
    (hx : x ∈ (g.hierarchy.component seed).classes) : x < g.size := by
  rcases ((mem_component_iff hseed).1 hx).cases_tail with rfl | ⟨y, -, hup | hdown⟩
  · exact hseed
  · exact lt_size_of_mem_supertypes hup
  · exact lt_size_of_mem_subtypes hdown

/-- The classes of a component, ordered by name. -/
theorem Unjoined.pairwise_sortByName_component (h : g.Unjoined) {seed : ClassId}
    (hseed : seed < g.size) :
    (g.sortByName (g.hierarchy.component seed).classes).Pairwise (g.nameAt · < g.nameAt ·) :=
  Collection.pairwise_lt_sortOn (Search.nodup_reach _ _ _) fun _ hx _ hy hxy =>
    h.names (lt_size_of_mem_component hseed hx) (lt_size_of_mem_component hseed hy) hxy

/-- Components do not depend on methods. -/
theorem SameButMethods.component_eq {g' : ClassGraph} (hsame : SameButMethods g g')
    (hnames : g.DistinctNames) (k : Hierarchy g') (seed : ClassId) :
    (k.component seed).classes = (g.hierarchy.component seed).classes := by
  simp only [Hierarchy.component, Hierarchy.supertypes_eq, Hierarchy.subtypes_eq, hsame.size_eq,
    hsame.supertypes_eq hnames, hsame.subtypes_eq hnames]

/-- Families stay inside a component. -/
theorem Unjoined.mem_component_of_mem_family (h : g.Unjoined) {seed c x : ClassId}
    {key : MemberKey} (hseed : seed < g.size) (hc : c ∈ (g.hierarchy.component seed).classes)
    (hx : x ∈ g.hierarchy.family c key) : x ∈ (g.hierarchy.component seed).classes := by
  rw [mem_component_iff hseed] at hc ⊢
  obtain ⟨own, hslot⟩ := slot?_of_mem_family hx
  obtain ⟨symbol, hsymbol, -⟩ := h.own hslot
  cases hid : g.overridable key c with
  | false =>
    rw [family_of_not_overridable hslot hsymbol hid, List.mem_singleton] at hx
    exact hx ▸ hc
  | true =>
    have hkindred := (h.mem_family_iff_kindred hid).1 hx
    clear hx
    induction hkindred with
    | refl => exact hc
    | @tail y x _ hlinked ih =>
      -- down to the class that inherits from both, and up again
      obtain ⟨-, -, z, hzy, hzx⟩ := hlinked
      have hdown : ReflTransGen g.Touches y z :=
        ReflTransGen.mono (fun a b hab =>
          .inr ((h.edges.mem_subtypes_iff_mem_supertypes h.names).2 hab)) _ _
            (reflTransGen_swap.2 hzy)
      have hup : ReflTransGen g.Touches z x := ReflTransGen.mono (fun _ _ hab => .inl hab) _ _ hzx
      exact (ih.trans hdown).trans hup

/-! ## Graphs that are joined in part -/

/-- Whether the methods that have been dealt with, and the classes that held them, are as joining
leaves them, and all others as they were. -/
structure PartlyJoined (g g' : ClassGraph) (visited : NumberSet) : Prop where
  /-- Nothing else has changed. -/
  same : SameButMethods g g'
  /-- Under a key of a class stands what joining gives if the method of the class has been dealt
  with. -/
  slot?_eq : ∀ id key, g'.slot? id key =
    if (g.slot? id key).any visited.contains then g.join.slot? id key else g.slot? id key
  /-- A method lists what joining gives if it has been dealt with. -/
  methodAt?_eq : ∀ m, g'.methodAt? m =
    if visited.contains m then g.join.methodAt? m else g.methodAt? m
  /-- A family is dealt with as a whole. -/
  whole : ∀ {id x key own own'}, g.slot? id key = some own → x ∈ g.hierarchy.family id key →
    g.slot? x key = some own' → visited.contains own = visited.contains own'

namespace PartlyJoined

variable {g' : ClassGraph} {visited : NumberSet}

/-- At first nothing has been dealt with. -/
theorem refl (g : ClassGraph) : PartlyJoined g g .empty where
  same := .refl g
  slot?_eq id key := by cases g.slot? id key <;> simp
  methodAt?_eq m := by simp
  whole _ _ _ := by simp

variable (hpart : PartlyJoined g g' visited) (h : g.Unjoined)
include hpart h

theorem methodIn?_eq (id : ClassId) (key : MemberKey) : g'.methodIn? id key =
    if (g.slot? id key).any visited.contains then g.join.methodIn? id key
    else g.methodIn? id key := by
  rw [methodIn?, hpart.slot?_eq]
  cases hslot : g.slot? id key with
  | none =>
    rw [Option.any_none, if_neg Bool.false_ne_true, if_neg Bool.false_ne_true, methodIn?, hslot]
    rfl
  | some own =>
    rw [Option.any_some]
    cases hown : visited.contains own with
    | false =>
      rw [if_neg Bool.false_ne_true, if_neg Bool.false_ne_true, methodIn?, hslot,
        Option.bind_some, Option.bind_some, hpart.methodAt?_eq, hown, if_neg Bool.false_ne_true]
    | true =>
      -- the method that the class now holds was that of the first of the family
      obtain ⟨first, rest, m, hfamily, hm, hjoined⟩ := h.exists_leader hslot
      have hfirst := hpart.whole hslot (hfamily ▸ List.mem_cons_self) hm
      rw [if_pos rfl, if_pos rfl, methodIn?, hjoined, Option.bind_some, Option.bind_some,
        hpart.methodAt?_eq, ← hfirst, hown, if_pos rfl]

theorem overridable_eq (key : MemberKey) : g'.overridable key = g.overridable key := by
  funext id
  have hjoined := h.overridable_join key id
  rw [overridable, overridable] at hjoined
  rw [overridable, overridable, hpart.methodIn?_eq h]
  split
  · exact hjoined
  · rfl

/-- Around a method that has not been dealt with the family is the one before joining. -/
theorem family_eq (k : Hierarchy g') {id : ClassId} {key : MemberKey} {own : MethodId}
    (hslot : g.slot? id key = some own) (hfresh : visited.contains own = false) :
    k.family id key = g.hierarchy.family id key := by
  obtain ⟨symbol, hsymbol, -, -, hrelated⟩ := h.own hslot
  have hmethod : g.methodIn? id key = some symbol := by
    rw [methodIn?, hslot, Option.bind_some, hsymbol]
  have hmethod' : g'.methodIn? id key = some symbol := by
    rw [hpart.methodIn?_eq h, hslot, Option.any_some, hfresh, if_neg Bool.false_ne_true, hmethod]
  rw [Hierarchy.family_congr k g'.hierarchy, Hierarchy.family, Hierarchy.family, hmethod,
    hmethod']
  dsimp only
  rw [hrelated, if_neg List.not_mem_nil, if_neg List.not_mem_nil,
    hpart.same.hierarchyFamily_eq h.names (hpart.overridable_eq h key)]

/-- Around a method that has not been dealt with classes hold methods of their own. -/
theorem slot?_of_fresh {id x : ClassId} {key : MemberKey} {own : MethodId}
    (hslot : g.slot? id key = some own) (hfresh : visited.contains own = false)
    (hx : x ∈ g.hierarchy.family id key) : g'.slot? x key = g.slot? x key := by
  obtain ⟨⟨ownx, hownx⟩, -⟩ := h.of_mem_family hslot hx
  rw [hpart.slot?_eq, hownx, Option.any_some, ← hpart.whole hslot hx hownx, hfresh,
    if_neg Bool.false_ne_true]

/-- Dealing with the family of a method of its first class. -/
theorem step (hlist : g.Unshared) {c : ClassId} {key : MemberKey} {slot : MethodId}
    {rest : List ClassId} (hslot : g.slot? c key = some slot)
    (hlead : g.hierarchy.family c key = c :: rest) {g'' : ClassGraph} {visited' : NumberSet}
    (hsame : SameButMethods g' g'')
    (hvisited : ∀ m, visited'.contains m = true ↔ visited.contains m = true ∨
      ∃ x ∈ g.hierarchy.family c key, g.slot? x key = some m)
    (hslots : ∀ x k, g''.slot? x k =
      if k = key ∧ x ∈ g.hierarchy.family c key then g.join.slot? x k else g'.slot? x k)
    (hmethods : ∀ m, g''.methodAt? m =
      if m = slot then g.join.methodAt? m else g'.methodAt? m) :
    PartlyJoined g g'' visited' := by
  have hself : c ∈ g.hierarchy.family c key := hlead ▸ List.mem_cons_self
  have hkin : ∀ {x m}, x ∈ g.hierarchy.family c key → g.slot? x key = some m →
      visited'.contains m = true := fun hx hxm => (hvisited _).2 (.inr ⟨_, hx, hxm⟩)
  have hother : ∀ {m}, (¬ ∃ x ∈ g.hierarchy.family c key, g.slot? x key = some m) →
      visited'.contains m = visited.contains m := by
    intro m hnot
    rw [Bool.eq_iff_iff, hvisited, or_iff_left_iff_imp]
    exact fun hmem => absurd hmem hnot
  refine ⟨hpart.same.trans hsame, fun x k => ?_, fun m => ?_,
    fun {id x k own own'} hown hx hown' => ?_⟩
  · rw [hslots, hpart.slot?_eq]
    cases hown : g.slot? x k with
    | none =>
      refine if_neg ?_
      rintro ⟨rfl, hx⟩
      obtain ⟨⟨own, hown'⟩, -⟩ := h.of_mem_family hslot hx
      rw [hown] at hown'
      cases hown'
    | some own =>
      rw [Option.any_some, Option.any_some]
      by_cases hin : k = key ∧ x ∈ g.hierarchy.family c key
      · rw [if_pos hin, hkin hin.2 (hin.1 ▸ hown), if_pos rfl]
      · rw [if_neg hin, hother]
        rintro ⟨y, hy, hyown⟩
        obtain ⟨rfl, rfl⟩ := h.slot_inj hown hyown
        exact hin ⟨rfl, hy⟩
  · rw [hmethods, hpart.methodAt?_eq]
    by_cases hm : m = slot
    · rw [if_pos hm, hkin hself (hm ▸ hslot), if_pos rfl]
    · rw [if_neg hm]
      by_cases hmem : ∃ x ∈ g.hierarchy.family c key, g.slot? x key = some m
      · obtain ⟨x, hx, hxm⟩ := hmem
        rw [hkin hx hxm, if_pos rfl, h.methodAt?_join_of_follow hlist hslot hlead hx hxm hm,
          ite_self]
      · rw [hother hmem]
  · rw [Bool.eq_iff_iff, hvisited, hvisited, hpart.whole hown hx hown']
    refine or_congr_right ⟨?_, ?_⟩
    · rintro ⟨y, hy, hyown⟩
      obtain ⟨rfl, rfl⟩ := h.slot_inj hown hyown
      exact ⟨x, (h.of_mem_family hslot hy).2.1 ▸ hx, hown'⟩
    · rintro ⟨y, hy, hyown⟩
      obtain ⟨rfl, rfl⟩ := h.slot_inj hown' hyown
      refine ⟨id, ?_, hown⟩
      rw [← (h.of_mem_family hslot hy).2.1, (h.of_mem_family hown hx).2.1]
      exact h.self_mem_family hown

/-- Dealing with a method of a class without relatives. -/
theorem insert_alone (hlist : g.Unshared) {c : ClassId} {key : MemberKey} {slot : MethodId}
    (hslot : g.slot? c key = some slot) (hfresh : visited.contains slot = false)
    (halone : (g.hierarchy.family c key).length < 2) :
    PartlyJoined g g' (visited.insert slot) := by
  have hfamily := h.family_eq_singleton hslot halone
  refine hpart.step h hlist hslot hfamily (.refl g') (fun m => ?_) (fun x k => ?_) fun m => ?_
  · rw [NumberSet.contains_insert, Bool.or_eq_true, decide_eq_true_eq, hfamily]
    simp [hslot]
  · split
    · rename_i hx
      obtain ⟨rfl, hx⟩ := hx
      rw [hpart.slot?_of_fresh h hslot hfresh hx]
      rw [hfamily, List.mem_singleton] at hx
      rw [hx, hslot, h.slot?_join_of_alone hslot halone]
    · rfl
  · split
    · rename_i hm
      rw [hpart.methodAt?_eq, hm, hfresh, if_neg Bool.false_ne_true,
        h.methodAt?_join_of_alone hlist hslot halone]
    · rfl

end PartlyJoined

/-! ## Giving a method to a family -/

theorem sameButMethods_setSlot (g : ClassGraph) (id : ClassId) (key : MemberKey)
    (method : MethodId) : SameButMethods g (g.setSlot id key method) where
  size_eq := size_modifyClass g id _
  classAt_eq x := by
    rw [setSlot, classAt_modifyClass]
    split <;> rfl

/-- Only one slot changes. -/
theorem slot?_setSlot (g : ClassGraph) {id : ClassId} {key : MemberKey} (method : MethodId)
    (hid : id < g.size) (x : ClassId) (k : MemberKey) :
    (g.setSlot id key method).slot? x k =
      if k = key ∧ x = id then some method else g.slot? x k := by
  rw [slot?, setSlot, classAt_modifyClass]
  by_cases hx : x = id
  · rw [if_pos ⟨hx, hx ▸ hid⟩, KeyMap.find?_insert]
    by_cases hk : k = key
    · rw [if_pos hk.symm, if_pos ⟨hk, hx⟩]
    · rw [if_neg (Ne.symm hk), if_neg fun hboth => hk hboth.1]
      rfl
  · rw [if_neg fun hboth => hx hboth.1, if_neg fun hboth => hx hboth.2]
    rfl

theorem sameButMethods_setRelated (g : ClassGraph) (method : MethodId) (names : List String) :
    SameButMethods g (g.setRelated method names) := ⟨rfl, fun _ => rfl⟩

theorem methodAt?_setRelated (g : ClassGraph) (method : MethodId) (names : List String)
    (m : MethodId) : (g.setRelated method names).methodAt? m =
      if m = method then (g.methodAt? m).map fun symbol => { symbol with related := names }
      else g.methodAt? m := by
  rw [methodAt?, setRelated, Array.getElem?_modify]
  simp only [eq_comm]
  rfl

end ClassGraph

namespace JoinState

/-- Whether the given classes, as far as they hold a method under the key, have come to hold the
given one, and those that they held before have been dealt with. -/
structure Shared (key : MemberKey) (method : MethodId) (ids : List ClassId) (s t : JoinState) :
    Prop where
  /-- Classes differ in methods only. -/
  same : s.graph.SameButMethods t.graph
  /-- No method has changed. -/
  methods_eq : t.graph.methods = s.graph.methods
  /-- The slots of the classes under the key hold the method. -/
  slot?_eq : ∀ x k, t.graph.slot? x k =
    if k = key ∧ x ∈ ids then (s.graph.slot? x k).map fun _ => method else s.graph.slot? x k
  /-- What was taken out of a slot has been dealt with. -/
  contains_iff : ∀ m, t.visited.contains m = true ↔ s.visited.contains m = true ∨
    m ≠ method ∧ ∃ x ∈ ids, s.graph.slot? x key = some m

namespace Shared

variable {key : MemberKey} {method : MethodId} {ids ids' : List ClassId} {s t u : JoinState}

theorem refl (key : MemberKey) (method : MethodId) (s : JoinState) : Shared key method [] s s where
  same := .refl _
  methods_eq := rfl
  slot?_eq x k := by simp
  contains_iff m := by simp

theorem trans (h : Shared key method ids s t) (h' : Shared key method ids' t u) :
    Shared key method (ids ++ ids') s u where
  same := h.same.trans h'.same
  methods_eq := h'.methods_eq.trans h.methods_eq
  slot?_eq x k := by
    rw [h'.slot?_eq, h.slot?_eq]
    by_cases hk : k = key <;> by_cases hx : x ∈ ids <;> by_cases hx' : x ∈ ids' <;>
      simp [hk, hx, hx', Function.comp_def]
  contains_iff m := by
    rw [h'.contains_iff, h.contains_iff, or_assoc, ← and_or_left]
    refine or_congr_right (and_congr_right fun hm => ?_)
    have hslot : ∀ x, t.graph.slot? x key = some m ↔ x ∉ ids ∧ s.graph.slot? x key = some m := by
      intro x
      rw [h.slot?_eq]
      by_cases hx : x ∈ ids
      · simp [hx, Ne.symm hm]
      · simp [hx]
    simp only [hslot, List.mem_append]
    constructor
    · rintro (⟨x, hx, hxm⟩ | ⟨x, hx, -, hxm⟩)
      · exact ⟨x, .inl hx, hxm⟩
      · exact ⟨x, .inr hx, hxm⟩
    · rintro ⟨x, hx, hxm⟩
      by_cases hmem : x ∈ ids
      · exact .inl ⟨x, hmem, hxm⟩
      · exact .inr ⟨x, hx.resolve_left hmem, hmem, hxm⟩

end Shared

theorem shared_share (s : JoinState) (key : MemberKey) (method : MethodId) (id : ClassId) :
    Shared key method [id] s (s.share key method id) := by
  rw [share]
  cases hslot : s.graph.slot? id key with
  | none =>
    refine ⟨.refl _, rfl, fun x k => ?_, fun m => ?_⟩
    · by_cases hx : k = key ∧ x = id
      · simp [hx, hslot]
      · simp [hx]
    · simp [hslot]
  | some slot =>
    dsimp only
    by_cases hsame : slot = method
    · rw [if_pos hsame]
      refine ⟨.refl _, rfl, fun x k => ?_, fun m => ?_⟩
      · by_cases hx : k = key ∧ x = id
        · simp [hx, hslot, hsame]
        · simp [hx]
      · simp only [List.mem_singleton, exists_eq_left, hslot, hsame, Option.some_inj]
        exact (or_iff_left fun hm => hm.1 hm.2.symm).symm
    · rw [if_neg hsame]
      refine ⟨s.graph.sameButMethods_setSlot id key method, rfl, fun x k => ?_, fun m => ?_⟩
      · rw [ClassGraph.slot?_setSlot _ _ (ClassGraph.lt_size_of_slot? hslot)]
        by_cases hx : k = key ∧ x = id
        · simp [hx, hslot]
        · simp [hx]
      · rw [NumberSet.contains_insert, Bool.or_eq_true, decide_eq_true_eq]
        simp only [List.mem_singleton, exists_eq_left, hslot, Option.some_inj]
        exact or_congr_right ⟨fun hm => ⟨hm ▸ hsame, hm⟩, And.right⟩

theorem shared_foldl_share (key : MemberKey) (method : MethodId) (ids : List ClassId)
    (s : JoinState) : Shared key method ids s (ids.foldl (·.share key method) s) := by
  induction ids generalizing s with
  | nil => exact .refl key method s
  | cons id ids ih => exact (s.shared_share key method id).trans (ih _)

/-! ## The pass -/

section Pass

variable {g : ClassGraph} {s t u : JoinState}

/-- Whether all methods that a class held have been dealt with. -/
def Settled (g : ClassGraph) (visited : NumberSet) (id : ClassId) : Prop :=
  ∀ ⦃key own⦄, g.slot? id key = some own → visited.contains own = true

/-- Whether the pass may come from one state to the other. -/
structure Advances (g : ClassGraph) (s t : JoinState) : Prop where
  /-- The graph is joined in part. -/
  part : g.PartlyJoined t.graph t.visited
  /-- What has been dealt with stays so. -/
  contains : ∀ ⦃m⦄, s.visited.contains m = true → t.visited.contains m = true

theorem Advances.refl (hpart : g.PartlyJoined s.graph s.visited) : Advances g s s :=
  ⟨hpart, fun _ hm => hm⟩

theorem Advances.trans (h : Advances g s t) (h' : Advances g t u) : Advances g s u :=
  ⟨h'.part, fun _ hm => h'.contains (h.contains hm)⟩

theorem Advances.settled (h : Advances g s t) {id : ClassId} (hid : Settled g s.visited id) :
    Settled g t.visited id := fun _ _ hslot => h.contains (hid hslot)

/-- The pass comes to a method that has not been dealt with in the first class of its family. -/
theorem exists_rest (h : g.Unjoined) {visited : NumberSet} {g' : ClassGraph}
    (hpart : g.PartlyJoined g' visited) {c : ClassId} {key : MemberKey} {slot : MethodId}
    (hslot : g.slot? c key = some slot) (hfresh : visited.contains slot = false)
    (hbefore : ∀ x ∈ g.hierarchy.family c key, g.nameAt x < g.nameAt c → Settled g visited x) :
    ∃ rest, g.hierarchy.family c key = c :: rest := by
  obtain ⟨first, rest, m, hfamily, hm, -⟩ := h.exists_leader hslot
  have hfirst : first ∈ g.hierarchy.family c key := hfamily ▸ List.mem_cons_self
  have hself := h.self_mem_family hslot
  rw [hfamily] at hself
  rcases List.mem_cons.1 hself with rfl | hlater
  · exact ⟨rest, hfamily⟩
  · have hpairwise := h.pairwise_family c key
    rw [hfamily] at hpairwise
    have hmet := hbefore first hfirst (List.rel_of_pairwise_cons hpairwise hlater) hm
    rw [← hpart.whole hslot hfirst hm, hfresh] at hmet
    exact absurd hmet Bool.false_ne_true

/-- What holds between components. -/
structure Traversed (g : ClassGraph) (p : JoinState × NumberSet) : Prop where
  /-- The graph is joined in part. -/
  part : g.PartlyJoined p.1.graph p.1.visited
  /-- All families of the classes that have been traversed are joined. -/
  complete : ∀ x, p.2.contains x = true → ∀ ⦃key own⦄, g.slot? x key = some own →
    p.1.visited.contains own = true ∨ (g.hierarchy.family x key).length < 2

variable (h : g.Unjoined) (hlist : g.Unshared)
include h hlist

/-- Dealing with a family of several classes. -/
theorem partlyJoined_of_shared (hpart : g.PartlyJoined s.graph s.visited) {c second : ClassId}
    {rest : List ClassId} {key : MemberKey} {slot : MethodId}
    (hslot : g.slot? c key = some slot) (hfresh : s.visited.contains slot = false)
    (hfamily : g.hierarchy.family c key = c :: second :: rest)
    (hshared : Shared key slot (g.hierarchy.family c key)
      { s with visited := s.visited.insert slot } t) :
    g.PartlyJoined (t.graph.setRelated slot ((g.hierarchy.family c key).map s.graph.nameAt))
      t.visited := by
  have hown := fun x => hpart.slot?_of_fresh h hslot hfresh (x := x)
  have hleader := fun x => h.slot?_join_of_lead hslot hfamily (x := x)
  have hself := h.self_mem_family hslot
  refine hpart.step h hlist hslot hfamily (hshared.same.trans
    (t.graph.sameButMethods_setRelated slot _)) (fun m => ?_) (fun x k => ?_) fun m => ?_
  · rw [hshared.contains_iff, NumberSet.contains_insert, Bool.or_eq_true, decide_eq_true_eq]
    dsimp only
    constructor
    · rintro ((hm | rfl) | ⟨-, x, hx, hxm⟩)
      · exact .inl hm
      · exact .inr ⟨c, hself, hslot⟩
      · exact .inr ⟨x, hx, hown x hx ▸ hxm⟩
    · rintro (hm | ⟨x, hx, hxm⟩)
      · exact .inl (.inl hm)
      · by_cases hm : slot = m
        · exact .inl (.inr hm)
        · exact .inr ⟨Ne.symm hm, x, hx, (hown x hx).trans hxm⟩
  · refine (hshared.slot?_eq x k).trans ?_
    dsimp only
    split
    · rename_i hx
      obtain ⟨rfl, hx⟩ := hx
      obtain ⟨⟨ownx, hownx⟩, -⟩ := h.of_mem_family hslot hx
      rw [hown x hx, hownx, hleader x hx, Option.map_some]
    · rfl
  · have hmethod : t.graph.methodAt? m = s.graph.methodAt? m := by
      rw [ClassGraph.methodAt?, hshared.methods_eq]
      rfl
    rw [ClassGraph.methodAt?_setRelated, hmethod]
    split
    · rename_i hm
      subst hm
      obtain ⟨symbol, hsymbol, -⟩ := h.own hslot
      have htwo : 2 ≤ (g.hierarchy.family c key).length := by
        rw [hfamily]
        simp
      rw [hpart.methodAt?_eq, hfresh, if_neg Bool.false_ne_true, ClassGraph.methodAt?_join,
        hsymbol, Option.map_some, Option.map_some,
        h.joinedNames_eq hslot (hleader c hself) hsymbol, if_pos htwo, hpart.same.nameAt_eq]
    · rfl

/-- Dealing with a method, if the classes of its family with smaller names are settled. -/
theorem advances_joinMethod (hpart : g.PartlyJoined s.graph s.visited) {c : ClassId}
    {key : MemberKey} {slot : MethodId}
    (hslot : s.visited.contains slot = true ∨ g.slot? c key = some slot)
    (hbefore : ∀ x ∈ g.hierarchy.family c key, g.nameAt x < g.nameAt c → Settled g s.visited x) :
    Advances g s (s.joinMethod c (key, slot)) ∧
      (s.joinMethod c (key, slot)).visited.contains slot = true := by
  rw [joinMethod]
  cases hfresh : s.visited.contains slot with
  | true => exact ⟨.refl hpart, hfresh⟩
  | false =>
    have hslot := hslot.resolve_left (by simp [hfresh])
    rw [if_neg Bool.false_ne_true]
    dsimp only
    rw [hpart.family_eq h s.hierarchy hslot hfresh]
    by_cases halone : (g.hierarchy.family c key).length < 2
    · rw [if_pos halone]
      refine ⟨⟨hpart.insert_alone h hlist hslot hfresh halone, fun m hm => ?_⟩, ?_⟩
      · rw [NumberSet.contains_insert, hm, Bool.true_or]
      · simp
    · obtain ⟨rest, hlead⟩ := exists_rest h hpart hslot hfresh hbefore
      obtain ⟨second, others, rfl⟩ : ∃ second others, rest = second :: others := by
        refine List.exists_cons_of_ne_nil fun hrest => halone ?_
        rw [hlead, hrest]
        simp
      have hshared := shared_foldl_share key slot (g.hierarchy.family c key)
        { s with visited := s.visited.insert slot }
      rw [if_neg halone]
      refine ⟨⟨partlyJoined_of_shared h hlist hpart hslot hfresh hlead hshared, fun m hm => ?_⟩,
        ?_⟩
      · rw [hshared.contains_iff, NumberSet.contains_insert, hm]
        exact .inl rfl
      · rw [hshared.contains_iff]
        simp

/-- Dealing with some slots of a class, if smaller names of its families are settled. -/
theorem advances_foldl_joinMethod {c : ClassId} (slots : List (MemberKey × MethodId))
    (hpart : g.PartlyJoined s.graph s.visited)
    (hslots : ∀ slot ∈ slots,
      s.visited.contains slot.2 = true ∨ g.slot? c slot.1 = some slot.2)
    (hbefore : ∀ key, ∀ x ∈ g.hierarchy.family c key, g.nameAt x < g.nameAt c →
      Settled g s.visited x) :
    Advances g s (slots.foldl (·.joinMethod c) s) ∧
      ∀ slot ∈ slots, (slots.foldl (·.joinMethod c) s).visited.contains slot.2 = true := by
  induction slots generalizing s with
  | nil => exact ⟨.refl hpart, fun _ hslot => absurd hslot List.not_mem_nil⟩
  | cons slot slots ih =>
    obtain ⟨hstep, hmet⟩ := advances_joinMethod h hlist hpart (hslots slot List.mem_cons_self)
      (hbefore slot.1)
    obtain ⟨hrest, hmetRest⟩ := ih hstep.part
      (fun later hlater =>
        (hslots later (List.mem_cons_of_mem slot hlater)).imp_left fun hm => hstep.contains hm)
      (fun key x hx hlt => hstep.settled (hbefore key x hx hlt))
    refine ⟨hstep.trans hrest, fun later hlater => ?_⟩
    rcases List.mem_cons.1 hlater with rfl | hlater
    · exact hrest.contains hmet
    · exact hmetRest later hlater

/-- Dealing with a class settles it. -/
theorem advances_joinClass {c : ClassId} (hpart : g.PartlyJoined s.graph s.visited)
    (hbefore : ∀ key, ∀ x ∈ g.hierarchy.family c key, g.nameAt x < g.nameAt c →
      Settled g s.visited x) :
    Advances g s (s.joinClass c) ∧ Settled g (s.joinClass c).visited c := by
  have hslots : ∀ slot ∈ (s.graph.classAt c).methods.entries,
      s.visited.contains slot.2 = true ∨ g.slot? c slot.1 = some slot.2 := by
    rintro ⟨key, slot⟩ hentry
    have hslot := (hpart.slot?_eq c key).symm.trans (KeyMap.find?_eq_some_iff.2 hentry)
    split at hslot
    · -- a family has been dealt with, and so has the method that the class now holds
      rename_i hmet
      obtain ⟨own, hown, hmet⟩ := Option.any_eq_true .. |>.1 hmet
      obtain ⟨first, rest, m, hfamily, hm, hjoined⟩ := h.exists_leader hown
      rw [hpart.whole hown (hfamily ▸ List.mem_cons_self) hm] at hmet
      rw [hjoined, Option.some_inj] at hslot
      exact .inl (hslot ▸ hmet)
    · exact .inr hslot
  obtain ⟨hall, hmet⟩ := advances_foldl_joinMethod h hlist _ hpart hslots hbefore
  refine ⟨hall, fun key own hown => ?_⟩
  cases hfresh : s.visited.contains own with
  | true => exact hall.contains hfresh
  | false =>
    have hslot := hpart.slot?_eq c key
    rw [hown, Option.any_some, hfresh, if_neg Bool.false_ne_true] at hslot
    exact hmet (key, own) (KeyMap.find?_eq_some_iff.1 hslot)

/-- Dealing with classes in the order of their names settles them, if families do not leave
them. -/
theorem advances_foldl_joinClass (cs : List ClassId)
    (hpart : g.PartlyJoined s.graph s.visited) (hsorted : cs.Pairwise (g.nameAt · < g.nameAt ·))
    (hclosed : ∀ c ∈ cs, ∀ key, ∀ x ∈ g.hierarchy.family c key,
      x ∈ cs ∨ Settled g s.visited x) :
    Advances g s (cs.foldl joinClass s) ∧
      ∀ c ∈ cs, Settled g (cs.foldl joinClass s).visited c := by
  induction cs generalizing s with
  | nil => exact ⟨.refl hpart, fun _ hc => absurd hc List.not_mem_nil⟩
  | cons c cs ih =>
    obtain ⟨hlater, hsorted⟩ := List.pairwise_cons.1 hsorted
    have hbefore : ∀ key, ∀ x ∈ g.hierarchy.family c key, g.nameAt x < g.nameAt c →
        Settled g s.visited x := by
      intro key x hx hlt
      refine (hclosed c List.mem_cons_self key x hx).resolve_left fun hmem => ?_
      rcases List.mem_cons.1 hmem with rfl | hmem
      · exact absurd hlt (String.lt_irrefl _)
      · exact absurd (String.lt_trans hlt (hlater x hmem)) (String.lt_irrefl _)
    obtain ⟨hstep, hsettled⟩ := advances_joinClass h hlist hpart hbefore
    obtain ⟨hrest, hsettledRest⟩ := ih hstep.part hsorted fun d hd key x hx => by
      rcases hclosed d (List.mem_cons_of_mem c hd) key x hx with hmem | hx
      · rcases List.mem_cons.1 hmem with rfl | hmem
        · exact .inr hsettled
        · exact .inl hmem
      · exact .inr (hstep.settled hx)
    refine ⟨hstep.trans hrest, fun d hd => ?_⟩
    rcases List.mem_cons.1 hd with rfl | hd
    · exact hrest.settled hsettled
    · exact hsettledRest d hd

/-- Dealing with the component of a class keeps what holds between components, and traverses
the class. -/
theorem traversed_joinFrom {p : JoinState × NumberSet} (hp : Traversed g p) {seed : ClassId}
    (hseed : seed < g.size) :
    Traversed g (joinFrom p seed) ∧ (joinFrom p seed).2.contains seed = true ∧
      ∀ x, p.2.contains x = true → (joinFrom p seed).2.contains x = true := by
  rw [joinFrom]
  cases hmet : p.2.contains seed with
  | true => exact ⟨hp, hmet, fun _ hx => hx⟩
  | false =>
    rw [if_neg Bool.false_ne_true]
    dsimp only
    have hsort : p.1.graph.sortByName = g.sortByName := by
      funext ids
      rw [ClassGraph.sortByName, ClassGraph.sortByName, hp.part.same.nameAt_eq]
    have hself : seed ∈ (g.hierarchy.component seed).classes :=
      (ClassGraph.mem_component_iff hseed).2 .refl
    rw [hp.part.same.component_eq h.names, hsort]
    set tree := (g.hierarchy.component seed).classes with htree
    have hmem : ∀ x, (tree.foldl NumberSet.insert p.2).contains x = true ↔
        p.2.contains x = true ∨ x ∈ tree := by
      intro x
      rw [NumberSet.contains_foldl_insert, Bool.or_eq_true, decide_eq_true_eq]
    by_cases hone : tree.length = 1
    · rw [if_pos hone]
      refine ⟨⟨hp.part, fun x hx => ?_⟩, (hmem seed).2 (.inr hself), fun x hx =>
        (hmem x).2 (.inl hx)⟩
      rcases (hmem x).1 hx with hx | hx
      · exact hp.complete x hx
      · -- the family is inside the component, which is the class alone
        intro key own _
        have hinside : g.hierarchy.family x key ⊆ tree := fun y hy =>
          h.mem_component_of_mem_family hseed hx hy
        have hle := ((h.nodup_family x key).subperm hinside).length_le
        exact .inr (Nat.lt_succ_of_le (hone ▸ hle))
    · rw [if_neg hone]
      obtain ⟨hall, hsettled⟩ := advances_foldl_joinClass h hlist (g.sortByName tree) hp.part
        (h.pairwise_sortByName_component hseed) fun c hc key x hx =>
          .inl (Collection.mem_sortOn.2
            (h.mem_component_of_mem_family hseed (Collection.mem_sortOn.1 hc) hx))
      refine ⟨⟨hall.part, fun x hx => ?_⟩, (hmem seed).2 (.inr hself), fun x hx =>
        (hmem x).2 (.inl hx)⟩
      rcases (hmem x).1 hx with hx | hx
      · exact fun key own hown => (hp.complete x hx hown).imp_left fun hm => hall.contains hm
      · exact fun key own hown => .inl (hsettled x (Collection.mem_sortOn.2 hx) hown)

/-- Going through seeds keeps what holds between components, and traverses the seeds. -/
theorem traversed_foldl_joinFrom {p : JoinState × NumberSet} (hp : Traversed g p)
    (seeds : List ClassId) (hseeds : ∀ seed ∈ seeds, seed < g.size) :
    Traversed g (seeds.foldl joinFrom p) ∧
      ∀ x, p.2.contains x = true ∨ x ∈ seeds → (seeds.foldl joinFrom p).2.contains x = true := by
  induction seeds generalizing p with
  | nil => exact ⟨hp, fun x hx => hx.resolve_right List.not_mem_nil⟩
  | cons seed seeds ih =>
    obtain ⟨hstep, hseed, hkept⟩ :=
      traversed_joinFrom h hlist hp (hseeds seed List.mem_cons_self)
    obtain ⟨hrest, hall⟩ := ih hstep fun x hx => hseeds x (List.mem_cons_of_mem seed hx)
    refine ⟨hrest, fun x hx => hall x ?_⟩
    rw [List.mem_cons] at hx
    rcases hx with hx | rfl | hx
    · exact .inl (hkept x hx)
    · exact .inl hseed
    · exact .inr hx

end Pass

end JoinState

namespace ClassGraph

variable {g : ClassGraph}

/-- Graphs with the same classes and the same methods are the same. -/
theorem SameButMethods.eq {g' : ClassGraph} (hsame : SameButMethods g g')
    (hslots : ∀ id key, g'.slot? id key = g.slot? id key)
    (hmethods : ∀ m, g'.methodAt? m = g.methodAt? m) : g' = g := by
  have hclass : ∀ id, g'.classAt id = g.classAt id := by
    intro id
    have hheld : (g'.classAt id).methods = (g.classAt id).methods :=
      KeyMap.ext_find? (hslots id)
    rw [hsame.classAt_eq id, hheld]
  have hclasses : g'.classes = g.classes := by
    refine Array.ext_getElem? fun id => ?_
    by_cases hid : id < g.size
    · rw [getElem?_classes hid, getElem?_classes (hid.trans_eq hsame.size_eq.symm), hclass]
    · have hle := Nat.le_of_not_lt hid
      rw [Array.getElem?_eq_none hle, Array.getElem?_eq_none (hsame.size_eq.trans_le hle)]
  have hmethods : g'.methods = g.methods := Array.ext_getElem? hmethods
  cases g
  cases g'
  rw [mk.injEq]
  exact ⟨hclasses, hmethods⟩

/-- The pass joins all families at once. -/
theorem Unjoined.joinPass_eq_join (h : g.Unjoined) (hlist : g.Unshared) :
    g.joinPass = g.join := by
  have hstart : JoinState.Traversed g ({ graph := g, hierarchy := g.hierarchy }, .empty) :=
    ⟨.refl g, fun x hx => by simp at hx⟩
  obtain ⟨hend, htraversed⟩ := JoinState.traversed_foldl_joinFrom h hlist hstart g.ids
    fun x hx => List.mem_range.1 hx
  rw [joinPass]
  generalize g.ids.foldl JoinState.joinFrom _ = p at hend htraversed
  have hcomplete : ∀ {x key own}, g.slot? x key = some own →
      p.1.visited.contains own = true ∨ (g.hierarchy.family x key).length < 2 := fun hslot =>
    hend.complete _ (htraversed _ (.inr (List.mem_range.2 (lt_size_of_slot? hslot)))) hslot
  have hsame : SameButMethods g.join p.1.graph := (sameButMethods_join g).symm.trans hend.part.same
  refine hsame.eq (fun id key => ?_) fun m => ?_
  · rw [hend.part.slot?_eq]
    cases hslot : g.slot? id key with
    | none => rw [slot?_join, hslot, Option.any_none, if_neg Bool.false_ne_true, Option.map_none]
    | some own =>
      rw [Option.any_some]
      split
      · rfl
      · rename_i hfresh
        rw [h.slot?_join_of_alone hslot ((hcomplete hslot).resolve_left hfresh)]
  · rw [hend.part.methodAt?_eq]
    split
    · rfl
    · rename_i hfresh
      refine (methodAt?_join_eq hlist fun id key second rest hslot hfamily => ?_).symm
      have halone := (hcomplete hslot).resolve_left hfresh
      rw [hfamily] at halone
      exact absurd halone (by simp)

/-! ## Graphs of class files -/

/-- Class files declare methods that list no names. -/
theorem Unshared.addClass (hlist : g.Unshared) (h : g.Growing) (file : ClassFile) :
    (g.addClass file).2.Unshared := by
  have hmethods := (ensured_ensureClass h.names h.forest file.name).extended.methods_eq
  unfold ClassGraph.addClass
  generalize g.ensureClass file.name = result at hmethods
  obtain ⟨id, grown⟩ := result
  dsimp only at hmethods ⊢
  split
  · intro m symbol hsymbol
    rw [methodAt?, hmethods] at hsymbol
    exact hlist hsymbol
  · intro m symbol hsymbol
    rw [methodAt?] at hsymbol
    dsimp only at hsymbol
    rw [methods_modifyClass, hmethods] at hsymbol
    rcases Array.mem_append.1 (Array.mem_of_getElem? hsymbol) with hold | hnew
    · obtain ⟨m', hm'⟩ := Array.mem_iff_getElem?.1 hold
      exact hlist hm'
    · obtain ⟨member, -, rfl⟩ := List.mem_map.1 (List.mem_toArray.1 hnew)
      rfl

end ClassGraph

namespace GraphBuilder

/-- The graph of a list of class files before its methods are joined. -/
def unjoined (files : List ClassFile) : ClassGraph :=
  (files.foldl (fun (b : GraphBuilder) file => (b.addClass file).2) {}).draft.relate.nestAll

theorem unjoined_unjoined (files : List ClassFile) : (unjoined files).Unjoined := by
  have hdraft := growing_foldl_addClass files {} .empty
  exact ⟨hdraft.relate.nestAll, (ClassGraph.edgesAgree_relate _).nestAll⟩

theorem unshared_foldl_addClass (files : List ClassFile) (b : GraphBuilder)
    (h : b.draft.Growing) (hlist : b.draft.Unshared) :
    (files.foldl (fun (b : GraphBuilder) file => (b.addClass file).2) b).draft.Unshared := by
  induction files generalizing b with
  | nil => exact hlist
  | cons file files ih => exact ih _ (h.addClass file) (hlist.addClass h file)

theorem unshared_unjoined (files : List ClassFile) : (unjoined files).Unshared := by
  have hdraft := unshared_foldl_addClass files {} .empty fun m symbol hsymbol => by cases hsymbol
  intro m symbol hsymbol
  rw [ClassGraph.methodAt?, unjoined, (ClassGraph.SameButNested.nestAll _).methods_eq] at hsymbol
  exact hdraft hsymbol

theorem edgeless_foldl_addClass (files : List ClassFile) (b : GraphBuilder)
    (h : b.draft.Edgeless) :
    (files.foldl (fun (b : GraphBuilder) file => (b.addClass file).2) b).draft.Edgeless := by
  induction files generalizing b with
  | nil => exact h
  | cons file files ih => exact ih _ (h.addClass file)

/-- The relation pass enters all edges and nests all classes, and the join pass joins all families
of the class files. -/
theorem build_eq_join (files : List ClassFile) : build files = (unjoined files).join := by
  have hdraft := growing_foldl_addClass files {} .empty
  have hpass := (edgeless_foldl_addClass files {} .empty).relationPass_eq hdraft.names
  rw [build, finish, hpass]
  exact (unjoined_unjoined files).joinPass_eq_join (unshared_unjoined files)

theorem size_build (files : List ClassFile) : (build files).size = (unjoined files).size := by
  rw [build_eq_join, ClassGraph.size_join]

theorem nameAt_build (files : List ClassFile) (id : ClassId) :
    (build files).nameAt id = (unjoined files).nameAt id := by
  rw [build_eq_join, ClassGraph.nameAt_join]

/-- Every graph of class files is finished, whatever the class files say. -/
theorem finished_build (files : List ClassFile) : (build files).Finished := by
  rw [build_eq_join]
  exact (unjoined_unjoined files).finished_join

end GraphBuilder

end StableNaming
