import StableNaming.Graph.Renaming
import StableNaming.Proofs.Graph.Families

/-!
# What renaming a graph leaves alone

Classes and methods keep their numbers, and every class holds the members that it held,
under their new keys. If several members of a class get one key, only the one with the
greatest old key is left. A shared method is looked up at exactly the classes that hold it.
-/

namespace StableNaming

namespace ClassGraph

variable {g : ClassGraph} {t : MappingTable} {id : ClassId}

theorem size_rename (g : ClassGraph) (t : MappingTable) : (g.rename t).size = g.size :=
  Array.size_map

theorem methodAt?_rename (g : ClassGraph) (t : MappingTable) (m : MethodId) :
    (g.rename t).methodAt? m = (g.methodAt? m).map (renameMethod t) :=
  Array.getElem?_map

theorem classAt_rename (t : MappingTable) (hid : id < g.size) :
    (g.rename t).classAt id =
      renameClass t (g.methods.map (renameMethod t)) (g.classAt id) :=
  classAt_map _ _ _ _ hid

theorem nameAt_rename (t : MappingTable) (hid : id < g.size) :
    (g.rename t).nameAt id = t.renameClass (g.nameAt id) := by
  rw [nameAt, classAt_rename t hid]
  rfl

/-! ## Members -/

/-- The key under which a class holds a method after renaming. -/
def renamedSlotKey (g : ClassGraph) (t : MappingTable) (slot : MemberKey × MethodId) :
    MemberKey :=
  ((g.methodAt? slot.2).map fun m => (renameMethod t m).key).getD slot.1

/-- After renaming, a class holds its methods under their new keys; of those that get one key
it holds the one with the greatest old key. -/
theorem slot?_rename_eq_some_iff {k : MemberKey} {m : MethodId} :
    (g.rename t).slot? id k = some m ↔
      ∃ key, g.slot? id key = some m ∧ g.renamedSlotKey t (key, m) = k ∧
        ∀ key' m', g.slot? id key' = some m' → key < key' →
          g.renamedSlotKey t (key', m') ≠ k := by
  by_cases hid : id < g.size
  · have hentries : ∀ slot : MemberKey × MethodId,
        (((g.methods.map (renameMethod t))[slot.2]?.map (·.key)).getD slot.1, slot.2) =
          (g.renamedSlotKey t slot, slot.2) := by
      intro slot
      rw [Array.getElem?_map, Option.map_map]
      rfl
    rw [slot?, classAt_rename t hid, renameClass]
    dsimp only
    rw [List.map_congr_left fun slot _ => hentries slot, KeyMap.find?_ofList_map_eq_some_iff]
    simp only [slot?, KeyMap.find?_eq_some_iff, Prod.mk.injEq, Prod.exists, Prod.forall]
    constructor
    · rintro ⟨key, m', hmem, ⟨hkey, rfl⟩, hgreatest⟩
      exact ⟨key, hmem, hkey, hgreatest⟩
    · rintro ⟨key, hmem, hkey, hgreatest⟩
      exact ⟨key, m, hmem, ⟨hkey, rfl⟩, hgreatest⟩
  · have hnone : (g.rename t).slot? id k ≠ some m := fun hslot =>
      hid (size_rename g t ▸ lt_size_of_slot? hslot)
    refine iff_of_false hnone ?_
    rintro ⟨key, hslot, -⟩
    exact hid (lt_size_of_slot? hslot)

/-- After renaming, a class has its fields under their new keys; of those that get one key it
has the one with the greatest old key. -/
theorem find?_fields_rename_eq_some_iff (hid : id < g.size) {k : MemberKey} {f' : Member} :
    ((g.rename t).classAt id).fields.find? k = some f' ↔
      ∃ key f, (g.classAt id).fields.find? key = some f ∧
        renameField t (g.nameAt id) f = f' ∧ f'.key = k ∧
        ∀ key' f'', (g.classAt id).fields.find? key' = some f'' → key < key' →
          (renameField t (g.nameAt id) f'').key ≠ k := by
  have hpairs : ((g.classAt id).fields.values.map (renameField t (g.nameAt id))).map
        (fun m => (m.key, m)) =
      (g.classAt id).fields.entries.map fun e =>
        ((renameField t (g.nameAt id) e.2).key, renameField t (g.nameAt id) e.2) := by
    rw [KeyMap.values, List.map_map, List.map_map]
    rfl
  rw [classAt_rename t hid, renameClass]
  dsimp only
  change (KeyMap.ofList (((g.classAt id).fields.values.map
    (renameField t (g.nameAt id))).map fun m => (m.key, m))).find? k = some f' ↔ _
  rw [hpairs, KeyMap.find?_ofList_map_eq_some_iff]
  simp only [KeyMap.find?_eq_some_iff, Prod.mk.injEq, Prod.exists, Prod.forall]
  constructor
  · rintro ⟨key, f, hmem, ⟨hkey, rfl⟩, hgreatest⟩
    exact ⟨key, f, hmem, rfl, hkey, hgreatest⟩
  · rintro ⟨key, f, hmem, rfl, hkey, hgreatest⟩
    exact ⟨key, f, hmem, ⟨hkey, rfl⟩, hgreatest⟩

/-- Where a class is defined is renamed without regard to what the class there holds. -/
theorem enclosure_rename (t : MappingTable) (hid : id < g.size) :
    ((g.rename t).classAt id).enclosure = (g.classAt id).enclosure.map (renameEnclosure t) := by
  rw [classAt_rename t hid]
  rfl

/-! ## Owners of shared methods -/

/-- Whether every method names the classes that hold it, and no others. -/
def NamesHolders (g : ClassGraph) : Prop :=
  ∀ ⦃id : ClassId⦄ ⦃key : MemberKey⦄ ⦃m : MethodId⦄ ⦃symbol : MethodSymbol⦄,
    g.slot? id key = some m → g.methodAt? m = some symbol →
      ∀ name, name ∈ symbol.owner :: symbol.related ↔
        ∃ x, g.slot? x key = some m ∧ g.nameAt x = name

/-- Joining writes down which classes hold a method. -/
theorem Unjoined.namesHolders_join (h : g.Unjoined) : g.join.NamesHolders := by
  intro id key m symbol hslot hsymbol name
  obtain ⟨own, hown, -⟩ := Option.map_eq_some_iff.1 ((slot?_join g id key).symm.trans hslot)
  obtain ⟨first, rest, m', hfamily, hm, hjoined⟩ := h.exists_leader hown
  obtain rfl : m' = m := Option.some.inj (hjoined.symm.trans hslot)
  obtain ⟨before, hbefore, -, howner, -⟩ := h.own hm
  have hsymbol' := methodAt?_join g m'
  rw [hsymbol, hbefore, Option.map_some, Option.some_inj] at hsymbol'
  have hholds : (∃ x, g.join.slot? x key = some m' ∧ g.join.nameAt x = name) ↔
      ∃ x ∈ g.hierarchy.family id key, g.nameAt x = name := by
    simp only [h.mem_family_iff_slot?_join hslot, nameAt_join]
  rw [hholds, hsymbol']
  dsimp only
  rw [howner, h.joinedNames_eq hown hslot hbefore, hfamily]
  cases rest with
  | nil => simp [eq_comm]
  | cons second rest => simp [eq_comm]

end ClassGraph

/-- In a finished graph renaming looks a method up at the classes that hold it. -/
theorem GraphBuilder.namesHolders_build (files : List ClassFile) :
    (build files).NamesHolders := by
  rw [build_eq_join]
  exact (unjoined_unjoined files).namesHolders_join

end StableNaming
