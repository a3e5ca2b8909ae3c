import StableNaming.Proofs.Graph.Isomorphism

/-!
# The order of families in renamed graphs

A method that several classes share lists them, in the order of the names that they have when the
graph is finished. Renaming replaces these names where they stand. So a family of several classes
keeps its order through every renaming, and is in the order of the new names only if the tables
keep the order of names within it. A family that the hierarchy is asked for is always in the order
of names.
-/

namespace StableNaming

namespace ClassGraph

variable {g₀ g : ClassGraph} {t : MappingTable} {ts : List MappingTable}

/-- Rename everything through one table after the other. -/
def renameAll (g : ClassGraph) (ts : List MappingTable) : ClassGraph := ts.foldl rename g

/-- Whether a table gives the classes of a graph different names, and the methods of each class
different keys. -/
structure NamesApart (g : ClassGraph) (t : MappingTable) : Prop where
  /-- No two classes get one name. -/
  classes : ∀ i < g.size, ∀ j < g.size,
    t.renameClass (g.nameAt i) = t.renameClass (g.nameAt j) → g.nameAt i = g.nameAt j
  /-- No two methods of a class get one key. -/
  methods : ∀ id < g.size, ∀ slot ∈ (g.classAt id).methods.entries,
    ∀ slot' ∈ (g.classAt id).methods.entries,
      g.renamedSlotKey t slot = g.renamedSlotKey t slot' → slot.1 = slot'.1

instance (g : ClassGraph) (t : MappingTable) : Decidable (g.NamesApart t) :=
  decidable_of_iff
    ((∀ i < g.size, ∀ j < g.size,
        t.renameClass (g.nameAt i) = t.renameClass (g.nameAt j) → g.nameAt i = g.nameAt j) ∧
      ∀ id < g.size, ∀ slot ∈ (g.classAt id).methods.entries,
        ∀ slot' ∈ (g.classAt id).methods.entries,
          g.renamedSlotKey t slot = g.renamedSlotKey t slot' → slot.1 = slot'.1)
    ⟨fun h => ⟨h.1, h.2⟩, fun h => ⟨h.classes, h.methods⟩⟩

/-- Whether each of several tables names apart what the tables before it leave. -/
def NamesAllApart (g : ClassGraph) : List MappingTable → Prop
  | [] => True
  | t :: ts => g.NamesApart t ∧ (g.rename t).NamesAllApart ts

instance decidableNamesAllApart :
    (g : ClassGraph) → (ts : List MappingTable) → Decidable (g.NamesAllApart ts)
  | _, [] => .isTrue trivial
  | g, t :: ts =>
    have := decidableNamesAllApart (g.rename t) ts
    inferInstanceAs (Decidable (g.NamesApart t ∧ (g.rename t).NamesAllApart ts))

/-- Whether the classes of every family, and the names that every method lists, are in strictly
ascending order of names. -/
structure FamiliesAscend (g : ClassGraph) : Prop where
  /-- Families are in the order of names. -/
  family : ∀ id key, (g.hierarchy.family id key).Pairwise (g.nameAt · < g.nameAt ·)
  /-- Lists of names are in order. -/
  related : ∀ {id key m symbol}, g.slot? id key = some m → g.methodAt? m = some symbol →
    symbol.related.Pairwise (· < ·)

/-! ## What renaming keeps -/

/-- Whether a graph has the classes and methods of another one under other names, so that every
method lists the classes that it listed. -/
structure RenamedFrom (g₀ g : ClassGraph) : Prop where
  /-- There are as many classes. -/
  size_eq : g.size = g₀.size
  /-- No two classes have one name. -/
  names : g.DistinctNames
  /-- Every class holds the methods that it held. -/
  holds_iff : ∀ {id m}, (∃ key, g.slot? id key = some m) ↔ ∃ key, g₀.slot? id key = some m
  /-- Every method has the access that it had, and lists the classes that it listed, in their
  order. -/
  method : ∀ {m symbol₀}, g₀.methodAt? m = some symbol₀ →
    ∃ symbol, g.methodAt? m = some symbol ∧ symbol.access = symbol₀.access ∧
      ∀ ids : List ClassId, (∀ id ∈ ids, id < g₀.size) →
        symbol₀.related = ids.map g₀.nameAt → symbol.related = ids.map g.nameAt

namespace RenamedFrom

theorem refl (h : g.DistinctNames) : RenamedFrom g g where
  size_eq := rfl
  names := h
  holds_iff := Iff.rfl
  method {_ symbol} hsymbol := ⟨symbol, hsymbol, rfl, fun _ _ hlist => hlist⟩

/-- A table that names apart leads to a graph with the same classes and methods. -/
theorem rename (h : RenamedFrom g₀ g) (hapart : g.NamesApart t) :
    RenamedFrom g₀ (g.rename t) where
  size_eq := (size_rename g t).trans h.size_eq
  names i j hi hj hname := by
    rw [size_rename] at hi hj
    rw [nameAt_rename t hi, nameAt_rename t hj] at hname
    exact h.names hi hj (hapart.classes i hi j hj hname)
  holds_iff {id m} := by
    rw [← h.holds_iff]
    constructor
    · rintro ⟨k, hk⟩
      obtain ⟨key, hkey, -⟩ := slot?_rename_eq_some_iff.1 hk
      exact ⟨key, hkey⟩
    · rintro ⟨key, hkey⟩
      refine ⟨g.renamedSlotKey t (key, m), slot?_rename_eq_some_iff.2
        ⟨key, hkey, rfl, fun key' m' hkey' hlt hsame => ?_⟩⟩
      obtain rfl : key' = key := hapart.methods id (lt_size_of_slot? hkey) (key', m')
        (KeyMap.find?_eq_some_iff.1 hkey') (key, m) (KeyMap.find?_eq_some_iff.1 hkey) hsame
      exact MemberKey.lt_irrefl _ hlt
  method {m symbol₀} hsymbol₀ := by
    obtain ⟨symbol, hsymbol, haccess, hlist⟩ := h.method hsymbol₀
    refine ⟨renameMethod t symbol, ?_, haccess, fun ids hids hrelated => ?_⟩
    · rw [methodAt?_rename, hsymbol, Option.map_some]
    · have hrenamed : (renameMethod t symbol).related = symbol.related.map t.renameClass := rfl
      rw [hrenamed, hlist ids hids hrelated, List.map_map]
      refine List.map_congr_left fun id hid => ?_
      rw [nameAt_rename t (h.size_eq ▸ hids id hid), Function.comp_apply]

/-- Tables that name apart, one after the other, lead to a graph with the same classes and
methods. -/
theorem renameAll (h : RenamedFrom g₀ g) (hapart : g.NamesAllApart ts) :
    RenamedFrom g₀ (g.renameAll ts) := by
  induction ts generalizing g with
  | nil => exact h
  | cons t ts ih => exact ih (h.rename hapart.1) hapart.2

end RenamedFrom

/-! ## Families -/

/-- The classes that a method lists are its family, in the order in which it lists them. -/
theorem family_eq_of_related (hnames : g.DistinctNames) {id : ClassId} {key : MemberKey}
    {m : MethodId} {symbol : MethodSymbol} {ids : List ClassId} (hslot : g.slot? id key = some m)
    (hsymbol : g.methodAt? m = some symbol) (haccess : symbol.access.isPrivateOrStatic = false)
    (hids : ∀ x ∈ ids, x < g.size) (hrelated : symbol.related = ids.map g.nameAt)
    (hid : id ∈ ids) : g.hierarchy.family id key = ids := by
  have hlisted : g.nameAt id ∈ symbol.related := hrelated ▸ List.mem_map_of_mem hid
  rw [Hierarchy.family, methodIn?, hslot, Option.bind_some, hsymbol, Hierarchy.idOf?_eq]
  dsimp only
  rw [if_neg (Bool.eq_false_iff.1 haccess), if_pos hlisted, hrelated,
    hnames.filterMap_idOf?_map hids]

namespace RenamedFrom

variable (h : RenamedFrom g₀ g) (hgraph : g₀.Joined)
  {id : ClassId} {key key₀ : MemberKey} {m : MethodId}
include h hgraph

/-- A family of several classes keeps its classes and their order under whatever names and key,
and its method lists them. -/
theorem family_eq_of_two_le (hslot : g.slot? id key = some m)
    (hslot₀ : g₀.slot? id key₀ = some m) (hseveral : 2 ≤ (g₀.hierarchy.family id key₀).length) :
    g.hierarchy.family id key = g₀.hierarchy.family id key₀ ∧
      ∃ symbol, g.methodAt? m = some symbol ∧
        symbol.related = (g₀.hierarchy.family id key₀).map g.nameAt := by
  obtain ⟨symbol₀, hsymbol₀, -⟩ := hgraph.symbol_of_slot hslot₀
  obtain ⟨symbol, hsymbol, haccess, hlist⟩ := h.method hsymbol₀
  have hlt : ∀ x ∈ g₀.hierarchy.family id key₀, x < g₀.size :=
    fun x hx => hgraph.lt_size_of_mem_family hx
  have hrelated₀ := hgraph.related_eq hslot₀ hsymbol₀
  rw [if_pos hseveral] at hrelated₀
  have hrelated := hlist _ hlt hrelated₀
  -- a private or static method would be alone
  have hopen : symbol₀.access.isPrivateOrStatic = false := by
    refine Bool.eq_false_iff.2 fun hclosed => ?_
    have hnot : g₀.overridable key₀ id = false := by
      rw [overridable_eq hslot₀ hsymbol₀, hclosed, Bool.not_true]
    rw [family_of_not_overridable hslot₀ hsymbol₀ hnot] at hseveral
    exact Nat.not_succ_le_self 1 hseveral
  refine ⟨?_, symbol, hsymbol, hrelated⟩
  exact family_eq_of_related h.names hslot hsymbol (haccess ▸ hopen)
    (fun x hx => h.size_eq ▸ hlt x hx) hrelated ((hgraph.mem_family_iff_slot hslot₀).2 hslot₀)

/-- A method that was alone in its family lists nothing, and its family is in the order of
names. -/
theorem pairwise_family_of_lt_two (hslot : g.slot? id key = some m)
    (hslot₀ : g₀.slot? id key₀ = some m) (halone : ¬ 2 ≤ (g₀.hierarchy.family id key₀).length) :
    (g.hierarchy.family id key).Pairwise (g.nameAt · < g.nameAt ·) ∧
      ∃ symbol, g.methodAt? m = some symbol ∧ symbol.related = [] := by
  obtain ⟨symbol₀, hsymbol₀, -⟩ := hgraph.symbol_of_slot hslot₀
  obtain ⟨symbol, hsymbol, -, hlist⟩ := h.method hsymbol₀
  have hrelated₀ := hgraph.related_eq hslot₀ hsymbol₀
  rw [if_neg halone] at hrelated₀
  have hrelated : symbol.related = [] := hlist [] (fun _ hx => absurd hx List.not_mem_nil) hrelated₀
  refine ⟨?_, symbol, hsymbol, hrelated⟩
  rw [Hierarchy.family, methodIn?, hslot, Option.bind_some, hsymbol]
  dsimp only
  rw [hrelated, if_neg List.not_mem_nil]
  split
  · exact List.pairwise_singleton _ _
  · exact h.names.pairwise_hierarchyFamily key id

/-- Families ascend exactly if no family lost the order of its names. -/
theorem familiesAscend_iff : g.FamiliesAscend ↔
    ∀ id key, (g₀.hierarchy.family id key).Pairwise (g.nameAt · < g.nameAt ·) := by
  constructor
  · intro hascend id key₀
    cases hslot₀ : g₀.slot? id key₀ with
    | none =>
      rw [Hierarchy.family, methodIn?, hslot₀]
      exact List.Pairwise.nil
    | some m =>
      obtain ⟨key, hslot⟩ := h.holds_iff.2 ⟨key₀, hslot₀⟩
      by_cases hseveral : 2 ≤ (g₀.hierarchy.family id key₀).length
      · rw [← (h.family_eq_of_two_le hgraph hslot hslot₀ hseveral).1]
        exact hascend.family id key
      · rw [hgraph.family_eq_singleton hslot₀ hseveral]
        exact List.pairwise_singleton _ _
  · intro hkept
    have hboth : ∀ {id key m}, g.slot? id key = some m →
        (g.hierarchy.family id key).Pairwise (g.nameAt · < g.nameAt ·) ∧
          ∃ symbol, g.methodAt? m = some symbol ∧ symbol.related.Pairwise (· < ·) := by
      intro id key m hslot
      obtain ⟨key₀, hslot₀⟩ := h.holds_iff.1 ⟨key, hslot⟩
      by_cases hseveral : 2 ≤ (g₀.hierarchy.family id key₀).length
      · obtain ⟨hfamily, symbol, hsymbol, hrelated⟩ :=
          h.family_eq_of_two_le hgraph hslot hslot₀ hseveral
        rw [hfamily]
        exact ⟨hkept id key₀, symbol, hsymbol, hrelated ▸ List.pairwise_map.2 (hkept id key₀)⟩
      · obtain ⟨hfamily, symbol, hsymbol, hrelated⟩ :=
          h.pairwise_family_of_lt_two hgraph hslot hslot₀ hseveral
        exact ⟨hfamily, symbol, hsymbol, hrelated ▸ List.Pairwise.nil⟩
    refine ⟨fun id key => ?_, fun {id key m symbol} hslot hsymbol => ?_⟩
    · cases hslot : g.slot? id key with
      | none =>
        rw [Hierarchy.family, methodIn?, hslot]
        exact List.Pairwise.nil
      | some m => exact (hboth hslot).1
    · obtain ⟨-, symbol', hsymbol', hrelated⟩ := hboth hslot
      rw [hsymbol, Option.some_inj] at hsymbol'
      rwa [hsymbol']

end RenamedFrom

end ClassGraph

namespace GraphBuilder

open ClassGraph

/-- Through renamings that name apart, a family of several classes stays as it was when the graph
was built, in the order of the names of that time, and its method lists it so. Hence all families
are in the order of names exactly if none lost it, as when the tables keep the order of class
names. -/
theorem familiesAscend_renameAll_iff (files : List ClassFile) (ts : List MappingTable)
    (hapart : (build files).NamesAllApart ts) :
    (∀ id key₀ m, (build files).slot? id key₀ = some m →
      2 ≤ ((build files).hierarchy.family id key₀).length →
        ∃ key symbol, ((build files).renameAll ts).slot? id key = some m ∧
          ((build files).renameAll ts).methodAt? m = some symbol ∧
          ((build files).renameAll ts).hierarchy.family id key =
            (build files).hierarchy.family id key₀ ∧
          symbol.related = ((build files).hierarchy.family id key₀).map
            ((build files).renameAll ts).nameAt) ∧
    (((build files).renameAll ts).FamiliesAscend ↔
      ∀ id key, ((build files).hierarchy.family id key).Pairwise
        (((build files).renameAll ts).nameAt · < ((build files).renameAll ts).nameAt ·)) ∧
    ((∀ x < (build files).size, ∀ y < (build files).size,
        (build files).nameAt x < (build files).nameAt y →
          ((build files).renameAll ts).nameAt x < ((build files).renameAll ts).nameAt y) →
      ((build files).renameAll ts).FamiliesAscend) := by
  have hgraph : (build files).Joined := by
    rw [build_eq_join]
    exact (unjoined_unjoined files).joined_join
  have hrenamed : RenamedFrom (build files) ((build files).renameAll ts) :=
    (RenamedFrom.refl hgraph.names).renameAll hapart
  refine ⟨fun id key₀ m hslot₀ hseveral => ?_, hrenamed.familiesAscend_iff hgraph, fun hkept => ?_⟩
  · obtain ⟨key, hslot⟩ := hrenamed.holds_iff.2 ⟨key₀, hslot₀⟩
    obtain ⟨hfamily, symbol, hsymbol, hrelated⟩ :=
      hrenamed.family_eq_of_two_le hgraph hslot hslot₀ hseveral
    exact ⟨key, symbol, hslot, hsymbol, hfamily, hrelated⟩
  · refine (hrenamed.familiesAscend_iff hgraph).2 fun id key => ?_
    exact (pairwise_family_build files id key).imp_of_mem fun {x y} hx hy =>
      hkept x (hgraph.lt_size_of_mem_family hx) y (hgraph.lt_size_of_mem_family hy)

/-- A class and a subclass that overrides its method. -/
def handedDown : List ClassFile :=
  [{ name := "a", methods := [{ key := ⟨"f", "()V"⟩ }] },
    { name := "b", superName := some "a", methods := [{ key := ⟨"f", "()V"⟩ }] }]

/-- A table that exchanges the names of two classes. -/
def swapping : MappingTable where
  source := "official"
  target := "named"
  classes := .ofList [("a", "b"), ("b", "a")]

/-- Names that are exchanged and exchanged back leave the family in order. -/
theorem familiesAscend_swapped_back :
    (build handedDown).NamesAllApart [swapping, swapping] ∧
      ((build handedDown).renameAll [swapping, swapping]).FamiliesAscend ∧
      ∃ key, ((build handedDown).renameAll [swapping, swapping]).hierarchy.family 1 key =
        (build handedDown).hierarchy.family 1 ⟨"f", "()V"⟩ := by
  have hapart : (build handedDown).NamesAllApart [swapping, swapping] := by decide +kernel
  have hkept : ∀ x < (build handedDown).size, ∀ y < (build handedDown).size,
      (build handedDown).nameAt x < (build handedDown).nameAt y →
        ((build handedDown).renameAll [swapping, swapping]).nameAt x <
          ((build handedDown).renameAll [swapping, swapping]).nameAt y := by decide +kernel
  have hslot : (build handedDown).slot? 1 ⟨"f", "()V"⟩ = some 0 := by decide +kernel
  have hseveral : 2 ≤ ((build handedDown).hierarchy.family 1 ⟨"f", "()V"⟩).length := by
    decide +kernel
  obtain ⟨hstays, -, hascend⟩ :=
    familiesAscend_renameAll_iff handedDown [swapping, swapping] hapart
  obtain ⟨key, -, -, -, hfamily, -⟩ := hstays 1 ⟨"f", "()V"⟩ 0 hslot hseveral
  exact ⟨hapart, hascend hkept, key, hfamily⟩

/-- Names that are exchanged leave the family in the order of the old names, although the table
tells apart whatever the graph tells apart. -/
theorem not_familiesAscend_swapped :
    (build handedDown).KeptApart swapping ∧ (build handedDown).NamesAllApart [swapping] ∧
      ((build handedDown).renameAll [swapping]).hierarchy.family 0 ⟨"f", "()V"⟩ = [0, 1] ∧
      ((build handedDown).renameAll [swapping]).nameAt 0 = "b" ∧
      ((build handedDown).renameAll [swapping]).nameAt 1 = "a" ∧
      ¬ ((build handedDown).renameAll [swapping]).FamiliesAscend := by
  have hfamily : ((build handedDown).renameAll [swapping]).hierarchy.family 0 ⟨"f", "()V"⟩ =
      [0, 1] := by decide +kernel
  have hfirst : ((build handedDown).renameAll [swapping]).nameAt 0 = "b" := by decide +kernel
  have hsecond : ((build handedDown).renameAll [swapping]).nameAt 1 = "a" := by decide +kernel
  refine ⟨by decide +kernel, by decide +kernel, hfamily, hfirst, hsecond, fun hascend => ?_⟩
  have hpair := hascend.family 0 ⟨"f", "()V"⟩
  rw [hfamily, List.pairwise_pair, hfirst, hsecond] at hpair
  exact absurd hpair (by decide)

end GraphBuilder

end StableNaming
