import StableNaming.Graph.Join
import StableNaming.Proofs.Graph.Kinship

/-!
# Joined methods

After joining, the classes of an override family are exactly the classes that
hold one method under one key, and joining changes no family. A finished graph
also has distinct class names, and containers that form a forest.
-/

namespace StableNaming

namespace Hierarchy

variable {g : ClassGraph}

/-- Families do not depend on where the hierarchy comes from. -/
theorem family_congr (h h' : Hierarchy g) : h.family = h'.family := by
  have hrelatives : h.relatives = h'.relatives := by
    funext key ids
    simp only [relatives, ancestors, descendants, supertypes_eq, subtypes_eq]
  funext id key
  simp only [family, hierarchyFamily, hrelatives, idOf?_eq]

end Hierarchy

namespace ClassGraph

open Relation

variable {g : ClassGraph}

/-! ## Families before joining -/

theorem overridable_eq {id : ClassId} {key : MemberKey} {m : MethodId} {symbol : MethodSymbol}
    (hslot : g.slot? id key = some m) (hsymbol : g.methodAt? m = some symbol) :
    g.overridable key id = !symbol.access.isPrivateOrStatic := by
  rw [overridable, methodIn?, hslot, Option.bind_some, hsymbol, Option.any_some]

/-- Only a class that holds a method under a key has a family under it. -/
theorem slot?_of_mem_family {id x : ClassId} {key : MemberKey}
    (hx : x ∈ g.hierarchy.family id key) : ∃ own, g.slot? id key = some own := by
  cases hslot : g.slot? id key with
  | none =>
    rw [Hierarchy.family, methodIn?, hslot] at hx
    exact absurd hx List.not_mem_nil
  | some own => exact ⟨own, rfl⟩

/-- A family that the hierarchy is asked for is in the order of names. -/
theorem DistinctNames.pairwise_hierarchyFamily (h : g.DistinctNames) (key : MemberKey)
    (id : ClassId) : (g.hierarchy.hierarchyFamily key id).Pairwise (g.nameAt · < g.nameAt ·) := by
  have hlt : ∀ {x}, x ∈ Search.spread (g.hierarchy.relatives key) g.size [id] → x < g.size := by
    intro x hx
    cases (Search.mem_spread_iff fun _ _ => g.hierarchy.mem_relatives_iff).1 hx with
    | seed _ hx => exact hx
    | step _ _ hx => exact hx
  exact Collection.pairwise_lt_sortOn (g.hierarchy.nodup_spread_relatives key id)
    fun x hx y hy => h (hlt hx) (hlt hy)

/-- A private or static method is a family of its own. -/
theorem family_of_not_overridable {id : ClassId} {key : MemberKey} {m : MethodId}
    {symbol : MethodSymbol} (hslot : g.slot? id key = some m)
    (hsymbol : g.methodAt? m = some symbol) (hnot : g.overridable key id = false) :
    g.hierarchy.family id key = [id] := by
  rw [overridable_eq hslot hsymbol, Bool.not_eq_false'] at hnot
  rw [Hierarchy.family, methodIn?, hslot, Option.bind_some, hsymbol]
  dsimp only
  rw [if_pos hnot]

/-- Before joining, the family of an overridable method is the one in the hierarchy. -/
theorem OwnSlots.family_of_overridable (h : g.OwnSlots) {id : ClassId} {key : MemberKey}
    (hid : g.overridable key id = true) :
    g.hierarchy.family id key = g.hierarchy.hierarchyFamily key id := by
  obtain ⟨m, symbol, hslot, hsymbol, haccess⟩ := overridable_iff.1 hid
  obtain ⟨own, hown, -, -, hrelated⟩ := h hslot
  rw [hsymbol, Option.some_inj] at hown
  rw [Hierarchy.family, methodIn?, hslot, Option.bind_some, hsymbol]
  dsimp only
  rw [if_neg (by simp [haccess]), hown, hrelated, if_neg List.not_mem_nil]

/-- A graph that is ready to be joined. -/
structure Unjoined (g : ClassGraph) : Prop extends Growing g where
  /-- The edges of the hierarchy say the same at both ends. -/
  edges : g.EdgesAgree

namespace Unjoined

theorem mem_family_iff_kindred (h : g.Unjoined) {id x : ClassId} {key : MemberKey}
    (hid : g.overridable key id = true) :
    x ∈ g.hierarchy.family id key ↔ g.Kindred key id x := by
  rw [h.own.family_of_overridable hid,
    g.hierarchy.mem_hierarchyFamily_iff_kindred h.edges h.names hid]

/-- Kindred methods have one family. -/
theorem family_congr (h : g.Unjoined) {x y : ClassId} {key : MemberKey}
    (hx : g.overridable key x = true) (hxy : g.Kindred key x y) :
    g.hierarchy.family x key = g.hierarchy.family y key := by
  rw [h.own.family_of_overridable hx, h.own.family_of_overridable (hxy.overridable hx),
    g.hierarchy.hierarchyFamily_congr h.edges h.names hx hxy]

/-- Every method belongs to its family. -/
theorem self_mem_family (h : g.Unjoined) {id : ClassId} {key : MemberKey} {m : MethodId}
    (hslot : g.slot? id key = some m) : id ∈ g.hierarchy.family id key := by
  obtain ⟨symbol, hsymbol, -⟩ := h.own hslot
  by_cases hid : g.overridable key id = true
  · exact (h.mem_family_iff_kindred hid).2 .refl
  · rw [family_of_not_overridable hslot hsymbol (by simpa using hid)]
    exact List.mem_cons_self

/-- All classes of a family hold a method under the key, and have the same family. -/
theorem of_mem_family (h : g.Unjoined) {id x : ClassId} {key : MemberKey} {m : MethodId}
    (hslot : g.slot? id key = some m) (hx : x ∈ g.hierarchy.family id key) :
    (∃ own, g.slot? x key = some own) ∧
      g.hierarchy.family x key = g.hierarchy.family id key ∧
      g.overridable key x = g.overridable key id := by
  obtain ⟨symbol, hsymbol, -⟩ := h.own hslot
  by_cases hid : g.overridable key id = true
  · have hkindred := (h.mem_family_iff_kindred hid).1 hx
    have hoverridable := hkindred.overridable hid
    obtain ⟨own, -, hown, -⟩ := overridable_iff.1 hoverridable
    exact ⟨⟨own, hown⟩, (h.family_congr hid hkindred).symm, hoverridable.trans hid.symm⟩
  · rw [family_of_not_overridable hslot hsymbol (by simpa using hid),
      List.mem_singleton] at hx
    subst hx
    exact ⟨⟨m, hslot⟩, rfl, rfl⟩

end Unjoined

/-! ## Graphs with the same edges -/

/-- Whether two graphs differ in methods only. -/
structure SameButMethods (g g' : ClassGraph) : Prop where
  /-- There are as many classes. -/
  size_eq : g'.size = g.size
  /-- Each class is the same, but for the methods that it holds. -/
  classAt_eq : ∀ id, g'.classAt id = { g.classAt id with methods := (g'.classAt id).methods }

namespace SameButMethods

variable {g' : ClassGraph}

theorem refl (g : ClassGraph) : SameButMethods g g := ⟨rfl, fun _ => rfl⟩

theorem trans {g₁ g₂ g₃ : ClassGraph} (h : SameButMethods g₁ g₂) (h' : SameButMethods g₂ g₃) :
    SameButMethods g₁ g₃ where
  size_eq := h'.size_eq.trans h.size_eq
  classAt_eq id := by
    have hlast := h'.classAt_eq id
    rw [h.classAt_eq id] at hlast
    exact hlast

variable (h : SameButMethods g g')
include h

theorem symm : SameButMethods g' g where
  size_eq := h.size_eq.symm
  classAt_eq id := by rw [h.classAt_eq id]

theorem nameAt_eq : g'.nameAt = g.nameAt := by
  funext id
  rw [nameAt, h.classAt_eq id]
  rfl

theorem distinctNames (hnames : g.DistinctNames) : g'.DistinctNames := by
  intro i j hi hj heq
  rw [h.size_eq] at hi hj
  rw [h.nameAt_eq] at heq
  exact hnames hi hj heq

theorem supertypes_eq (hnames : g.DistinctNames) : g'.supertypes = g.supertypes := by
  funext id
  rw [supertypes, idOf?_congr h.size_eq (congrFun h.nameAt_eq) hnames, h.classAt_eq id]
  rfl

theorem subtypes_eq (hnames : g.DistinctNames) : g'.subtypes = g.subtypes := by
  funext id
  rw [subtypes, idOf?_congr h.size_eq (congrFun h.nameAt_eq) hnames, h.classAt_eq id]
  rfl

theorem edgesAgree (hedges : g.EdgesAgree) : g'.EdgesAgree := by
  have hsuper : ∀ id, (g'.classAt id).supertypeNames = (g.classAt id).supertypeNames := by
    intro id
    rw [h.classAt_eq id]
    rfl
  intro x hx name
  rw [h.size_eq] at hx ⊢
  rw [h.classAt_eq x]
  simp only [h.nameAt_eq, hsuper]
  exact hedges hx name

/-- Where the same classes take part in dispatch, the hierarchy has the same families. -/
theorem hierarchyFamily_eq (hnames : g.DistinctNames) {key : MemberKey}
    (hopen : g'.overridable key = g.overridable key) (id : ClassId) :
    g'.hierarchy.hierarchyFamily key id = g.hierarchy.hierarchyFamily key id := by
  have hrelatives : g'.hierarchy.relatives key = g.hierarchy.relatives key := by
    funext ids
    simp only [Hierarchy.relatives, Hierarchy.ancestors, Hierarchy.descendants,
      Hierarchy.supertypes_eq, Hierarchy.subtypes_eq, h.size_eq, h.supertypes_eq hnames,
      h.subtypes_eq hnames, hopen]
  rw [Hierarchy.hierarchyFamily, Hierarchy.hierarchyFamily, sortByName, sortByName, hrelatives,
    h.size_eq, h.nameAt_eq]

end SameButMethods

/-! ## What joining changes -/

theorem size_join (g : ClassGraph) : g.join.size = g.size := Array.size_mapIdx

/-- The table of families answers with the families of the methods that a class holds. -/
theorem familyIn_families {id : ClassId} {key : MemberKey} {own : MethodId}
    (hslot : g.slot? id key = some own) :
    familyIn g.families id key = g.hierarchy.family id key := by
  have hid := lt_size_of_slot? hslot
  rw [slot?] at hslot
  rw [familyIn, families]
  simp only [Array.getElem?_mapIdx, getElem?_classes hid, Option.map_some, Option.bind_some,
    KeyMap.find?_mapValues, hslot, Option.getD_some]

/-- Joining changes which methods a class holds, and nothing else about it. -/
theorem classAt_join (g : ClassGraph) (id : ClassId) :
    g.join.classAt id =
      { g.classAt id with
        methods := (g.classAt id).methods.mapValues fun key own =>
          g.joinedSlot key own (familyIn g.families id key) } := by
  by_cases hid : id < g.size
  · rw [classAt]
    simp only [join, Array.getElem?_mapIdx, getElem?_classes hid, Option.map_some,
      Option.getD_some]
  · have hid := Nat.le_of_not_lt hid
    rw [classAt_of_size_le hid, classAt_of_size_le (size_join g ▸ hid)]
    rfl

theorem sameButMethods_join (g : ClassGraph) : SameButMethods g g.join :=
  ⟨size_join g, fun id => by rw [classAt_join]⟩

theorem nameAt_join (g : ClassGraph) (id : ClassId) : g.join.nameAt id = g.nameAt id :=
  congrFun (sameButMethods_join g).nameAt_eq id

theorem methodAt?_join (g : ClassGraph) (m : MethodId) :
    g.join.methodAt? m =
      (g.methodAt? m).map fun symbol =>
        { symbol with related := g.joinedNames g.families m symbol } := by
  simp only [join, methodAt?, Array.getElem?_mapIdx]

theorem slot?_join (g : ClassGraph) (id : ClassId) (key : MemberKey) :
    g.join.slot? id key =
      (g.slot? id key).map fun own => g.joinedSlot key own (familyIn g.families id key) := by
  rw [slot?, classAt_join, KeyMap.find?_mapValues]
  rfl

namespace Unjoined

theorem distinctNames_join (h : g.Unjoined) : g.join.DistinctNames :=
  (sameButMethods_join g).distinctNames h.names

theorem forest_join (h : g.Unjoined) : g.join.Forest :=
  h.forest.congr (Nat.le_of_eq (size_join g).symm) (fun id => by rw [classAt_join])
    fun id => by rw [classAt_join]

theorem edgesAgree_join (h : g.Unjoined) : g.join.EdgesAgree :=
  (sameButMethods_join g).edgesAgree h.edges

theorem inherits_join (h : g.Unjoined) : g.join.Inherits = g.Inherits := by
  rw [Inherits, Inherits, (sameButMethods_join g).supertypes_eq h.names]

/-- The first class of a family leads it: all classes of the family then hold the method that it
held before. -/
theorem exists_leader (h : g.Unjoined) {id : ClassId} {key : MemberKey} {own : MethodId}
    (hslot : g.slot? id key = some own) :
    ∃ first rest m, g.hierarchy.family id key = first :: rest ∧ g.slot? first key = some m ∧
      g.join.slot? id key = some m := by
  have hself := h.self_mem_family hslot
  rw [slot?_join, hslot, Option.map_some, familyIn_families hslot]
  cases hfamily : g.hierarchy.family id key with
  | nil => rw [hfamily] at hself; exact absurd hself List.not_mem_nil
  | cons first rest =>
    have hfirst : first ∈ g.hierarchy.family id key := hfamily ▸ List.mem_cons_self
    obtain ⟨⟨m, hm⟩, -⟩ := h.of_mem_family hslot hfirst
    refine ⟨first, rest, m, rfl, hm, ?_⟩
    cases rest with
    | nil =>
      rw [hfamily, List.mem_singleton] at hself
      have hsingle : g.joinedSlot key own [first] = own := rfl
      rw [hsingle, ← hslot, hself, hm]
    | cons second rest => rw [joinedSlot, hm, Option.getD_some]

/-- Joining leaves alone which classes take part in dispatch. -/
theorem overridable_join (h : g.Unjoined) (key : MemberKey) (id : ClassId) :
    g.join.overridable key id = g.overridable key id := by
  cases hslot : g.slot? id key with
  | none => rw [overridable, overridable, methodIn?, methodIn?, slot?_join, hslot]; rfl
  | some own =>
    obtain ⟨first, rest, m, hfamily, hm, hjoined⟩ := h.exists_leader hslot
    obtain ⟨-, -, hsame⟩ := h.of_mem_family hslot (hfamily ▸ List.mem_cons_self)
    obtain ⟨symbol, hsymbol, -⟩ := h.own hm
    have hsymbol' := methodAt?_join g m
    rw [hsymbol, Option.map_some] at hsymbol'
    rw [overridable_eq hjoined hsymbol', ← hsame, overridable_eq hm hsymbol]

theorem kindred_join (h : g.Unjoined) (key : MemberKey) :
    g.join.Kindred key = g.Kindred key := by
  have hlinked : g.join.Linked key = g.Linked key := by
    funext x y
    rw [Linked, Linked, h.overridable_join, h.overridable_join, h.inherits_join]
  rw [Kindred, Kindred, hlinked]

/-- Classes hold one method after joining exactly if they had one family before. -/
theorem mem_family_iff_slot?_join (h : g.Unjoined) {id x : ClassId} {key : MemberKey}
    {m : MethodId} (hslot : g.join.slot? id key = some m) :
    x ∈ g.hierarchy.family id key ↔ g.join.slot? x key = some m := by
  have hheld : ∀ {y m'}, g.join.slot? y key = some m' → ∃ own, g.slot? y key = some own := by
    intro y m' hy
    rw [slot?_join] at hy
    obtain ⟨own, hown, -⟩ := Option.map_eq_some_iff.1 hy
    exact ⟨own, hown⟩
  obtain ⟨own, hown⟩ := hheld hslot
  obtain ⟨first, rest, m', hfamily, hm, hjoined⟩ := h.exists_leader hown
  obtain rfl : m' = m := Option.some.inj (hjoined.symm.trans hslot)
  have hfirst : first ∈ g.hierarchy.family id key := hfamily ▸ List.mem_cons_self
  constructor
  · intro hx
    obtain ⟨⟨ownx, hownx⟩, hsame, -⟩ := h.of_mem_family hown hx
    obtain ⟨firstx, restx, mx, hfamilyx, hmx, hjoinedx⟩ := h.exists_leader hownx
    rw [hsame, hfamily, List.cons.injEq] at hfamilyx
    rw [hjoinedx, ← hmx, ← hfamilyx.1, hm]
  · intro hx
    obtain ⟨ownx, hownx⟩ := hheld hx
    obtain ⟨firstx, restx, mx, hfamilyx, hmx, hjoinedx⟩ := h.exists_leader hownx
    obtain rfl : mx = m' := Option.some.inj (hjoinedx.symm.trans hx)
    -- a method is the own one of a single class, so both families have one leader
    obtain ⟨symbol, hsymbol, -, howner, -⟩ := h.own hm
    obtain ⟨symbolx, hsymbolx, -, hownerx, -⟩ := h.own hmx
    obtain rfl : symbol = symbolx := Option.some.inj (hsymbol.symm.trans hsymbolx)
    have hleader : first = firstx :=
      h.names (lt_size_of_slot? hm) (lt_size_of_slot? hmx) (howner.symm.trans hownerx)
    have hfirstx : firstx ∈ g.hierarchy.family x key := hfamilyx ▸ List.mem_cons_self
    have hsame := (h.of_mem_family hown hfirst).2.1
    have hsamex := (h.of_mem_family hownx hfirstx).2.1
    rw [← hsame, hleader, hsamex]
    exact h.self_mem_family hownx

/-- Joining lists the names of a family of several classes, in the order of the family, with the
method that its classes share. -/
theorem joinedNames_eq (h : g.Unjoined) {id : ClassId} {key : MemberKey} {m own : MethodId}
    {symbol : MethodSymbol} (hslot : g.slot? id key = some own)
    (hjoined : g.join.slot? id key = some m) (hsymbol : g.methodAt? m = some symbol) :
    g.joinedNames g.families m symbol =
      if 2 ≤ (g.hierarchy.family id key).length then
        (g.hierarchy.family id key).map g.nameAt
      else [] := by
  obtain ⟨first, rest, m', hfamily, hm, hjoined'⟩ := h.exists_leader hslot
  obtain rfl : m' = m := Option.some.inj (hjoined'.symm.trans hjoined)
  obtain ⟨symbol', hsymbol', hkey, howner, -⟩ := h.own hm
  obtain rfl : symbol' = symbol := Option.some.inj (hsymbol'.symm.trans hsymbol)
  have hfirst : first ∈ g.hierarchy.family id key := hfamily ▸ List.mem_cons_self
  have hsame := (h.of_mem_family hslot hfirst).2.1
  have howner' : g.idOf? symbol'.owner = some first := by
    rw [howner]
    exact h.names.idOf?_nameAt (lt_size_of_slot? hm)
  rw [joinedNames, howner']
  dsimp only
  rw [hkey, familyIn_families hm, hsame, hfamily]
  cases rest with
  | nil => rfl
  | cons second rest =>
    have htwo : 2 ≤ (first :: second :: rest).length := by
      simp only [List.length_cons]
      omega
    rw [if_pos htwo]
    exact if_pos ⟨rfl, hm⟩

/-- Joining leaves the families of the hierarchy alone. -/
theorem hierarchyFamily_join (h : g.Unjoined) (key : MemberKey) (id : ClassId) :
    g.join.hierarchy.hierarchyFamily key id = g.hierarchy.hierarchyFamily key id :=
  (sameButMethods_join g).hierarchyFamily_eq h.names (funext (h.overridable_join key)) id

/-- The names of classes of the graph lead back to the classes. -/
theorem filterMap_idOf?_join (h : g.Unjoined) {ids : List ClassId} (hlt : ∀ y ∈ ids, y < g.size) :
    (ids.map g.nameAt).filterMap g.join.idOf? = ids := by
  rw [idOf?_congr (size_join g) (nameAt_join g) h.names, List.filterMap_map]
  induction ids with
  | nil => rfl
  | cons y ids ih =>
    have hy : (g.idOf? ∘ g.nameAt) y = some y := h.names.idOf?_nameAt (hlt y List.mem_cons_self)
    rw [List.filterMap_cons_some hy, ih fun z hz => hlt z (List.mem_cons_of_mem y hz)]

/-- Joining changes no family: what it lists is what the hierarchy has. -/
theorem family_join (h : g.Unjoined) {id : ClassId} {key : MemberKey} {m : MethodId}
    (hslot : g.join.slot? id key = some m) :
    g.join.hierarchy.family id key = g.hierarchy.family id key := by
  obtain ⟨own, hown, -⟩ := Option.map_eq_some_iff.1 ((slot?_join g id key).symm.trans hslot)
  obtain ⟨first, rest, m', hfamily, hm, hjoined⟩ := h.exists_leader hown
  obtain rfl : m' = m := Option.some.inj (hjoined.symm.trans hslot)
  obtain ⟨symbol, hsymbol, -⟩ := h.own hm
  obtain ⟨ownSymbol, hownSymbol, -⟩ := h.own hown
  have hsymbol' := methodAt?_join g m'
  rw [hsymbol, Option.map_some, h.joinedNames_eq hown hslot hsymbol] at hsymbol'
  by_cases hid : g.overridable key id = true
  · have hid' : g.join.overridable key id = true := h.overridable_join key id ▸ hid
    have hopen := overridable_eq hslot hsymbol'
    rw [hid', eq_comm, Bool.not_eq_true'] at hopen
    rw [Hierarchy.family, methodIn?, hslot, Option.bind_some, hsymbol', Hierarchy.idOf?_eq]
    dsimp only at hopen ⊢
    rw [if_neg (by simp [hopen])]
    by_cases hseveral : 2 ≤ (g.hierarchy.family id key).length
    · have hlisted : g.join.nameAt id ∈ (g.hierarchy.family id key).map g.nameAt := by
        rw [nameAt_join]
        exact List.mem_map_of_mem (h.self_mem_family hown)
      have hlt : ∀ y ∈ g.hierarchy.family id key, y < g.size := fun y hy => by
        obtain ⟨⟨owny, howny⟩, -⟩ := h.of_mem_family hown hy
        exact lt_size_of_slot? howny
      rw [if_pos hseveral, if_pos hlisted, h.filterMap_idOf?_join hlt]
    · rw [if_neg hseveral, if_neg List.not_mem_nil, h.hierarchyFamily_join,
        h.own.family_of_overridable hid]
  · have hid : g.overridable key id = false := by simpa using hid
    rw [family_of_not_overridable hown hownSymbol hid,
      family_of_not_overridable hslot hsymbol' (h.overridable_join key id ▸ hid)]

end Unjoined

/-! ## Finished graphs -/

/-- What holds of every finished graph. -/
structure Finished (g : ClassGraph) : Prop where
  /-- No two classes have one name. -/
  names : g.DistinctNames
  /-- Containers form a forest. -/
  forest : g.Forest
  /-- A field stands under its own key. -/
  fields : g.OwnFields
  /-- A method stands under its own key. -/
  symbol_of_slot : ∀ {id : ClassId} {key : MemberKey} {m : MethodId}, g.slot? id key = some m →
    ∃ symbol, g.methodAt? m = some symbol ∧ symbol.key = key
  /-- The family of a method is the classes that hold it. -/
  mem_family_iff_slot : ∀ {id x : ClassId} {key : MemberKey} {m : MethodId},
    g.slot? id key = some m → (x ∈ g.hierarchy.family id key ↔ g.slot? x key = some m)
  /-- The family of an overridable method is its kin. -/
  mem_family_iff_kindred : ∀ {id x : ClassId} {key : MemberKey},
    g.overridable key id = true → (x ∈ g.hierarchy.family id key ↔ g.Kindred key id x)

/-- The family of a method is the classes that hold it, wherever the hierarchy comes from. -/
theorem Finished.mem_family_iff_holds (hgraph : g.Finished) (h : Hierarchy g) {id x : ClassId}
    {key : MemberKey} {m : MethodId} (hslot : g.slot? id key = some m) :
    x ∈ h.family id key ↔ g.slot? x key = some m := by
  rw [Hierarchy.family_congr h g.hierarchy]
  exact hgraph.mem_family_iff_slot hslot

namespace Finished

variable (hgraph : g.Finished) {c d : ClassId} {k l : MemberKey} {m m' : MethodId}
include hgraph

/-- Two slots hold one method exactly if they are those of one family. -/
theorem slot_eq_iff_mem_family (hc : g.slot? c k = some m) (hd : g.slot? d l = some m') :
    m = m' ↔ k = l ∧ d ∈ g.hierarchy.family c k := by
  rw [hgraph.mem_family_iff_slot hc]
  constructor
  · rintro rfl
    obtain ⟨symbol, hsymbol, hkey⟩ := hgraph.symbol_of_slot hc
    obtain ⟨symbol', hsymbol', hkey'⟩ := hgraph.symbol_of_slot hd
    rw [hsymbol, Option.some_inj] at hsymbol'
    obtain rfl : k = l := by rw [← hkey, ← hkey', hsymbol']
    exact ⟨rfl, hd⟩
  · rintro ⟨rfl, hslot⟩
    exact Option.some.inj (hslot.symm.trans hd)

/-- The family of a method is its class, and its kin if it takes part in dispatch. -/
theorem mem_family_iff (hc : g.slot? c k = some m) :
    d ∈ g.hierarchy.family c k ↔ d = c ∨ g.overridable k c = true ∧ g.Kindred k c d := by
  cases hopen : g.overridable k c with
  | false =>
    obtain ⟨symbol, hsymbol, -⟩ := hgraph.symbol_of_slot hc
    rw [family_of_not_overridable hc hsymbol hopen, List.mem_singleton]
    simp
  | true =>
    rw [hgraph.mem_family_iff_kindred hopen]
    constructor
    · exact fun hkindred => .inr ⟨rfl, hkindred⟩
    · rintro (rfl | ⟨-, hkindred⟩)
      · exact .refl
      · exact hkindred

/-- Two slots hold one method exactly if they are one, or those of kindred methods. -/
theorem slot_eq_iff (hc : g.slot? c k = some m) (hd : g.slot? d l = some m') :
    m = m' ↔ k = l ∧ (d = c ∨ g.overridable k c = true ∧ g.Kindred k c d) := by
  rw [hgraph.slot_eq_iff_mem_family hc hd, hgraph.mem_family_iff hc]

end Finished

/-- Joining finishes a graph. -/
theorem Unjoined.finished_join (h : g.Unjoined) : g.join.Finished where
  names := h.distinctNames_join
  forest := h.forest_join
  fields id key f hf := by
    rw [classAt_join] at hf
    exact h.fields hf
  symbol_of_slot {id key m} hslot := by
    obtain ⟨own, hown, -⟩ := Option.map_eq_some_iff.1 ((slot?_join g id key).symm.trans hslot)
    obtain ⟨first, rest, m', -, hm, hjoined⟩ := h.exists_leader hown
    obtain rfl : m' = m := Option.some.inj (hjoined.symm.trans hslot)
    obtain ⟨symbol, hsymbol, hkey, -⟩ := h.own hm
    refine ⟨{ symbol with related := g.joinedNames g.families m' symbol }, ?_, hkey⟩
    rw [methodAt?_join, hsymbol, Option.map_some]
  mem_family_iff_slot hslot := by
    rw [h.family_join hslot, h.mem_family_iff_slot?_join hslot]
  mem_family_iff_kindred {id x key} hid := by
    obtain ⟨m, -, hslot, -⟩ := overridable_iff.1 hid
    rw [h.family_join hslot, h.kindred_join]
    exact h.mem_family_iff_kindred (h.overridable_join key id ▸ hid)

end ClassGraph

end StableNaming
