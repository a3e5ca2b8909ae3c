import StableNaming.Proofs.Graph.JoinPass
import StableNaming.Proofs.Graph.Source

/-!
# Families as closures

The family of a method grows from its class along the edges of the hierarchy: up to
the nearest overridable declarations, down to all subtypes, until nothing new is
met. The classes met that declare the method are its kin, so the lists that joining
stores with methods, and the methods that classes then share, say what the edges
say.
-/

namespace StableNaming

open Relation

namespace Hierarchy

variable {g : ClassGraph} (h : Hierarchy g)

/-- Where a family grows from a class: to the nearest overridable declarations above it, and to
its subtypes. -/
def neighbours (key : MemberKey) (id : ClassId) : List ClassId :=
  h.declaringAncestors key id ++ h.subtypes id

/-- The classes whose methods under the key must be named alike, ordered by name, as the edges
of the hierarchy have them. Names stored with methods are not read. -/
def closure (id : ClassId) (key : MemberKey) : List ClassId :=
  match g.methodIn? id key with
  | none => []
  | some m =>
    if m.access.isPrivateOrStatic then [id]
    else
      g.sortByName ((Search.reach (h.neighbours key) g.size [id]).filter fun x =>
        x == id || g.overridable key x)

end Hierarchy

namespace ClassGraph

variable {g : ClassGraph}

/-- Whether a family grows from one class to the other. -/
def Adjoins (g : ClassGraph) (key : MemberKey) (x y : ClassId) : Prop :=
  g.Overrides key x y ∨ x ∈ g.supertypes y

/-- A class from which another one inherits leads to it. -/
theorem Inherits.adjoins {key : MemberKey} {x z : ClassId} (h : g.Inherits z x) :
    ReflTransGen (g.Adjoins key) x z := by
  induction h using ReflTransGen.head_induction_on with
  | refl => exact .refl
  | head hstep _ ih => exact ih.tail (.inr hstep)

/-- A family grows to every overridable declaration above a class that it has met. -/
theorem adjoins_of_inherits {key : MemberKey} {id x z : ClassId}
    (hz : ReflTransGen (g.Adjoins key) id z) (hzx : g.Inherits z x)
    (hx : g.overridable key x = true) : ReflTransGen (g.Adjoins key) id x := by
  -- on the way up each class has been met, or is passed through on the way from one that has
  have hway : ∀ {s}, g.Inherits s x →
      (ReflTransGen (g.Adjoins key) id s ∨ ∃ y, ReflTransGen (g.Adjoins key) id y ∧
        ∃ s₀ ∈ g.supertypes y, ReflTransGen (g.PassedThrough key) s₀ s) →
      ReflTransGen (g.Adjoins key) id x := by
    intro s hsx
    induction hsx using ReflTransGen.head_induction_on with
    | refl =>
      rintro (hmet | ⟨y, hy, s₀, hs₀, hpassed⟩)
      · exact hmet
      · exact hy.tail (.inl ⟨hx, s₀, hs₀, hpassed⟩)
    | @head s s' hstep _ ih =>
      rintro (hmet | ⟨y, hy, s₀, hs₀, hpassed⟩)
      · exact ih (.inr ⟨s, hmet, s', hstep, .refl⟩)
      · cases hs : g.overridable key s with
        | true => exact ih (.inr ⟨s, hy.tail (.inl ⟨hs, s₀, hs₀, hpassed⟩), s', hstep, .refl⟩)
        | false => exact ih (.inr ⟨y, hy, s₀, hs₀, hpassed.tail ⟨hs, hstep⟩⟩)
  exact hway hzx (.inl hz)

/-- Every class that a family meets inherits from one of its members. -/
theorem exists_kindred_of_adjoins {key : MemberKey} {id x : ClassId}
    (hid : g.overridable key id = true) (hx : ReflTransGen (g.Adjoins key) id x) :
    ∃ y, g.Kindred key id y ∧ g.Inherits x y := by
  induction hx with
  | refl => exact ⟨id, .refl, .refl⟩
  | @tail x x' _ hstep ih =>
    obtain ⟨y, hy, hxy⟩ := ih
    rcases hstep with ⟨hopen, s, hs, hpassed⟩ | hdown
    · have hup : g.Inherits x x' :=
        ReflTransGen.head hs (ReflTransGen.mono (fun _ _ hp => hp.2) _ _ hpassed)
      exact ⟨x', hy.tail ⟨hy.overridable hid, hopen, x, hxy, hup⟩, .refl⟩
    · exact ⟨y, hy, hxy.head hdown⟩

/-- The overridable declarations that a family grows to are the kin of its first class. -/
theorem kindred_iff_adjoins {key : MemberKey} {id x : ClassId}
    (hid : g.overridable key id = true) :
    g.Kindred key id x ↔ g.overridable key x = true ∧ ReflTransGen (g.Adjoins key) id x := by
  constructor
  · intro hkindred
    refine ⟨hkindred.overridable hid, ?_⟩
    induction hkindred with
    | refl => exact .refl
    | tail _ hlinked ih =>
      obtain ⟨-, hopen, z, hzy, hzx⟩ := hlinked
      exact adjoins_of_inherits (ih.trans hzy.adjoins) hzx hopen
  · rintro ⟨hopen, hgrown⟩
    obtain ⟨y, hy, hxy⟩ := exists_kindred_of_adjoins hid hgrown
    exact hy.tail ⟨hy.overridable hid, hopen, x, hxy, .refl⟩

end ClassGraph

namespace Hierarchy

variable {g : ClassGraph} (h : Hierarchy g)

theorem mem_neighbours_iff (hedges : g.EdgesAgree) (hnames : g.DistinctNames) {key : MemberKey}
    {x y : ClassId} : y ∈ h.neighbours key x ↔ g.Adjoins key x y := by
  rw [neighbours, List.mem_append, h.mem_declaringAncestors_iff, subtypes_eq,
    hedges.mem_subtypes_iff_mem_supertypes hnames]
  rfl

/-- What a family has met in the end, as far as it declares the method. -/
theorem mem_grown_iff (hedges : g.EdgesAgree) (hnames : g.DistinctNames) {key : MemberKey}
    {id x : ClassId} (hid : g.overridable key id = true) :
    x ∈ (Search.reach (h.neighbours key) g.size [id]).filter
        (fun x => x == id || g.overridable key x) ↔ g.Kindred key id x := by
  have hlt : ∀ {y z}, z ∈ h.neighbours key y → z < g.size := by
    intro y z hz
    rcases List.mem_append.1 hz with hup | hdown
    · exact ClassGraph.lt_size_of_overridable (h.mem_declaringAncestors_iff.1 hup).1
    · exact ClassGraph.lt_size_of_mem_subtypes (h.subtypes_eq ▸ hdown)
  have hstep : (fun y z => z ∈ h.neighbours key y) = g.Adjoins key := by
    funext y z
    exact propext (h.mem_neighbours_iff hedges hnames)
  have hopen : (x == id || g.overridable key x) = true ↔ g.overridable key x = true := by
    rw [Bool.or_eq_true, beq_iff_eq, or_iff_right_iff_imp]
    rintro rfl
    exact hid
  rw [List.mem_filter, Search.mem_reach_iff, Search.reachable_iff hlt, hstep, hopen,
    ClassGraph.kindred_iff_adjoins hid]
  simp only [List.mem_singleton, exists_eq_left, ClassGraph.lt_size_of_overridable hid, true_and]
  exact and_comm

theorem lt_size_of_mem_grown (hedges : g.EdgesAgree) (hnames : g.DistinctNames) {key : MemberKey}
    {id x : ClassId} (hid : g.overridable key id = true)
    (hx : x ∈ (Search.reach (h.neighbours key) g.size [id]).filter
      (fun x => x == id || g.overridable key x)) : x < g.size :=
  ClassGraph.lt_size_of_overridable (((h.mem_grown_iff hedges hnames hid).1 hx).overridable hid)

/-- A private or static method stays alone. -/
theorem closure_of_not_overridable {id : ClassId} {key : MemberKey} {m : MethodId}
    {symbol : MethodSymbol} (hslot : g.slot? id key = some m)
    (hsymbol : g.methodAt? m = some symbol) (hnot : g.overridable key id = false) :
    h.closure id key = [id] := by
  rw [ClassGraph.overridable_eq hslot hsymbol, Bool.not_eq_false'] at hnot
  rw [closure, ClassGraph.methodIn?, hslot, Option.bind_some, hsymbol]
  exact if_pos hnot

/-- Around an overridable method the edges have the family that chains of relatives have. -/
theorem closure_of_overridable (hedges : g.EdgesAgree) (hnames : g.DistinctNames) {id : ClassId}
    {key : MemberKey} (hid : g.overridable key id = true) :
    h.closure id key = h.hierarchyFamily key id := by
  obtain ⟨m, symbol, hslot, hsymbol, haccess⟩ := ClassGraph.overridable_iff.1 hid
  rw [closure, ClassGraph.methodIn?, hslot, Option.bind_some, hsymbol]
  dsimp only
  rw [if_neg (by simp [haccess])]
  refine Collection.sortOn_congr ((Search.nodup_reach _ _ _).filter _)
    (h.nodup_spread_relatives key id) (fun x hx y hy hxy => ?_) fun x => ?_
  · exact hnames (h.lt_size_of_mem_grown hedges hnames hid hx)
      (h.lt_size_of_mem_grown hedges hnames hid hy) hxy
  · rw [h.mem_grown_iff hedges hnames hid, ← h.mem_hierarchyFamily_iff_kindred hedges hnames hid]
    exact Collection.mem_sortOn

/-- Names ascend along what a family grows to, and no class comes twice. -/
theorem pairwise_closure (hedges : g.EdgesAgree) (hnames : g.DistinctNames) (id : ClassId)
    (key : MemberKey) : (h.closure id key).Pairwise (g.nameAt · < g.nameAt ·) := by
  rw [closure]
  cases hmethod : g.methodIn? id key with
  | none => exact List.Pairwise.nil
  | some m =>
    dsimp only
    by_cases haccess : m.access.isPrivateOrStatic = true
    · rw [if_pos haccess]
      exact List.pairwise_singleton _ _
    · have hid : g.overridable key id = true := by
        rw [ClassGraph.overridable, hmethod, Option.any_some]
        simpa using haccess
      have hgrown := fun x => h.mem_grown_iff hedges hnames (x := x) hid
      rw [if_neg haccess]
      exact Collection.pairwise_lt_sortOn ((Search.nodup_reach _ _ _).filter _)
        fun x hx y hy => hnames (h.lt_size_of_mem_grown hedges hnames hid hx)
          (h.lt_size_of_mem_grown hedges hnames hid hy)

end Hierarchy

namespace ClassGraph.Unjoined

variable {g : ClassGraph}

/-- Before joining, families are what the edges of the hierarchy say. -/
theorem closure_eq_family (h : g.Unjoined) (id : ClassId) (key : MemberKey) :
    g.hierarchy.closure id key = g.hierarchy.family id key := by
  cases hslot : g.slot? id key with
  | none => rw [Hierarchy.closure, Hierarchy.family, methodIn?, hslot, Option.bind_none]
  | some m =>
    obtain ⟨symbol, hsymbol, -⟩ := h.own hslot
    cases hid : g.overridable key id with
    | false =>
      rw [g.hierarchy.closure_of_not_overridable hslot hsymbol hid,
        family_of_not_overridable hslot hsymbol hid]
    | true =>
      rw [g.hierarchy.closure_of_overridable h.edges h.names hid,
        h.own.family_of_overridable hid]

/-- While the graph is joined in part, the families that the join pass asks for are what the edges
say. -/
theorem closure_eq_family_of_partlyJoined (h : g.Unjoined) {g' : ClassGraph}
    {visited : NumberSet} (hpart : g.PartlyJoined g' visited) {id : ClassId} {key : MemberKey}
    {own : MethodId} (hslot : g.slot? id key = some own)
    (hfresh : visited.contains own = false) :
    g'.hierarchy.closure id key = g'.hierarchy.family id key := by
  obtain ⟨symbol, hsymbol, -⟩ := h.own hslot
  have hslot' : g'.slot? id key = some own := by
    rw [hpart.slot?_of_fresh h hslot hfresh (h.self_mem_family hslot), hslot]
  have hsymbol' : g'.methodAt? own = some symbol := by
    rw [hpart.methodAt?_eq, hfresh, if_neg Bool.false_ne_true, hsymbol]
  have hopen := congrFun (hpart.overridable_eq h key) id
  cases hid : g.overridable key id with
  | false =>
    rw [hid] at hopen
    rw [Hierarchy.closure_of_not_overridable _ hslot' hsymbol' hopen,
      family_of_not_overridable hslot' hsymbol' hopen]
  | true =>
    rw [hid] at hopen
    rw [Hierarchy.closure_of_overridable _ (hpart.same.edgesAgree h.edges)
      (hpart.same.distinctNames h.names) hopen, hpart.family_eq h _ hslot hfresh,
      h.own.family_of_overridable hid,
      hpart.same.hierarchyFamily_eq h.names (hpart.overridable_eq h key)]

/-- Joining leaves alone what the edges of the hierarchy say. -/
theorem closure_join (h : g.Unjoined) (id : ClassId) (key : MemberKey) :
    g.join.hierarchy.closure id key = g.hierarchy.closure id key := by
  cases hslot : g.slot? id key with
  | none =>
    rw [Hierarchy.closure, Hierarchy.closure, methodIn?, methodIn?, slot?_join, hslot,
      Option.map_none, Option.bind_none, Option.bind_none]
  | some own =>
    obtain ⟨first, rest, m, -, hm, hjoined⟩ := h.exists_leader hslot
    obtain ⟨symbol, hsymbol, -⟩ := h.own hm
    obtain ⟨ownSymbol, hownSymbol, -⟩ := h.own hslot
    have hsymbol' := methodAt?_join g m
    rw [hsymbol, Option.map_some] at hsymbol'
    have hopen := h.overridable_join key id
    cases hid : g.overridable key id with
    | false =>
      rw [hid] at hopen
      rw [Hierarchy.closure_of_not_overridable _ hjoined hsymbol' hopen,
        Hierarchy.closure_of_not_overridable _ hslot hownSymbol hid]
    | true =>
      rw [hid] at hopen
      rw [Hierarchy.closure_of_overridable _ h.edgesAgree_join h.distinctNames_join hopen,
        Hierarchy.closure_of_overridable _ h.edges h.names hid, h.hierarchyFamily_join]

/-- After joining, families are what the edges of the hierarchy say. -/
theorem family_join_eq_closure (h : g.Unjoined) (id : ClassId) (key : MemberKey) :
    g.join.hierarchy.family id key = g.join.hierarchy.closure id key := by
  cases hslot : g.join.slot? id key with
  | none => rw [Hierarchy.closure, Hierarchy.family, methodIn?, hslot, Option.bind_none]
  | some m => rw [h.family_join hslot, h.closure_join, h.closure_eq_family]

/-- A joined method is that of the first class of its family, and lists the names of a family of
several classes. -/
theorem exists_joined (h : g.Unjoined) {id : ClassId} {key : MemberKey} {m : MethodId}
    (hslot : g.join.slot? id key = some m) :
    ∃ symbol, g.join.methodAt? m = some symbol ∧ symbol.key = key ∧
      (g.hierarchy.family id key).head?.map g.nameAt = some symbol.owner ∧
      symbol.related =
        if 2 ≤ (g.hierarchy.family id key).length then
          (g.hierarchy.family id key).map g.nameAt
        else [] := by
  obtain ⟨own, hown, -⟩ := Option.map_eq_some_iff.1 ((slot?_join g id key).symm.trans hslot)
  obtain ⟨first, rest, m', hfamily, hm, hjoined⟩ := h.exists_leader hown
  obtain rfl : m' = m := Option.some.inj (hjoined.symm.trans hslot)
  obtain ⟨symbol, hsymbol, hkey, howner, -⟩ := h.own hm
  refine ⟨{ symbol with related := g.joinedNames g.families m' symbol }, ?_, hkey, ?_, ?_⟩
  · rw [methodAt?_join, hsymbol, Option.map_some]
  · rw [hfamily, List.head?_cons, Option.map_some, howner]
  · exact h.joinedNames_eq hown hslot hsymbol

end ClassGraph.Unjoined

namespace GraphBuilder

/-- In every graph of class files, whatever they say, the methods that classes share are exactly
those of the families that grow along the edges of the hierarchy. A shared method is that of the
first class of its family by name and lists the family, and families that are read from this list
are those that grow without it, joined or not. -/
theorem family_eq_closure_build (files : List ClassFile) :
    (∀ c k, (build files).hierarchy.family c k = (build files).hierarchy.closure c k) ∧
    (∀ c k, (build files).hierarchy.closure c k = (unjoined files).hierarchy.closure c k) ∧
    (∀ c k, ((build files).hierarchy.closure c k).Pairwise
      ((build files).nameAt · < (build files).nameAt ·)) ∧
    (∀ c d k m m', (build files).slot? c k = some m → (build files).slot? d k = some m' →
      (m = m' ↔ d ∈ (build files).hierarchy.closure c k)) ∧
    ∀ c k m, (build files).slot? c k = some m →
      ∃ symbol, (build files).methodAt? m = some symbol ∧ symbol.key = k ∧
        ((build files).hierarchy.closure c k).head?.map (build files).nameAt =
          some symbol.owner ∧
        symbol.related =
          if 2 ≤ ((build files).hierarchy.closure c k).length then
            ((build files).hierarchy.closure c k).map (build files).nameAt
          else [] := by
  have hunjoined := unjoined_unjoined files
  have hfinished := finished_build files
  rw [build_eq_join] at hfinished ⊢
  refine ⟨hunjoined.family_join_eq_closure, hunjoined.closure_join, fun c k => ?_,
    fun c d k m m' hc hd => ?_, fun c k m hslot => ?_⟩
  · exact Hierarchy.pairwise_closure _ hunjoined.edgesAgree_join hfinished.names c k
  · rw [← hunjoined.family_join_eq_closure, hfinished.slot_eq_iff_mem_family hc hd]
    exact and_iff_right rfl
  · have hname := (ClassGraph.sameButMethods_join (unjoined files)).nameAt_eq
    rw [hunjoined.closure_join, hunjoined.closure_eq_family, hname]
    exact hunjoined.exists_joined hslot

/-- Two classes that know nothing of each other and declare one method, and a class that inherits
from both and does not. -/
def joinedBelow : List ClassFile :=
  [{ name := "a", methods := [{ key := ⟨"f", "()V"⟩ }] },
    { name := "i", methods := [{ key := ⟨"f", "()V"⟩ }] },
    { name := "c", superName := some "a", interfaces := ["i"] }]

/-- A common subclass makes unrelated classes share a method. -/
theorem slot?_joinedBelow :
    ∃ m m', (build joinedBelow).slot? 0 ⟨"f", "()V"⟩ = some m ∧
      (build joinedBelow).slot? 1 ⟨"f", "()V"⟩ = some m' ∧ m = m' := by
  have hfirst : (build joinedBelow).slot? 0 ⟨"f", "()V"⟩ = some 0 := by decide +kernel
  obtain ⟨m', hsecond⟩ : ∃ m', (build joinedBelow).slot? 1 ⟨"f", "()V"⟩ = some m' :=
    Option.isSome_iff_exists.1 (by decide +kernel)
  have hmem : 1 ∈ (build joinedBelow).hierarchy.closure 0 ⟨"f", "()V"⟩ := by decide +kernel
  have hshared := (family_eq_closure_build joinedBelow).2.2.2.1 0 1 ⟨"f", "()V"⟩ 0 m'
  exact ⟨0, m', hfirst, hsecond, (hshared hfirst hsecond).2 hmem⟩

end GraphBuilder

end StableNaming
