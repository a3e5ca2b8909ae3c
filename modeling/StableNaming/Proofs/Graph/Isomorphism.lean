import StableNaming.Proofs.Graph.Closure
import StableNaming.Proofs.Graph.Index
import StableNaming.Proofs.Graph.Renaming

/-!
# Renamed graphs

If a table tells apart what a graph tells apart, the renamed graph is the same but for names: the
edges that are stored as names lead to the classes to which they led, every class holds the methods
that it held, each family has the classes that it had, and the tables, filled anew, answer under the
new names as they did under the old ones. The identity changes nothing at all.
-/

namespace StableNaming

open Relation

namespace ClassGraph

variable {g : ClassGraph} {t : MappingTable}

/-- The names of the classes of a graph and of their supertypes and subtypes, in the graph or
not. -/
def mentioned (g : ClassGraph) : List String :=
  g.classes.toList.flatMap fun c => c.name :: (c.supertypeNames ++ c.subtypeNames)

/-- Whether a table gives different names to what a graph tells apart by name. -/
structure KeptApart (g : ClassGraph) (t : MappingTable) : Prop where
  /-- Classes and the ends of edges get different names. -/
  names : ∀ a ∈ g.mentioned, ∀ b ∈ g.mentioned, t.renameClass a = t.renameClass b → a = b
  /-- The fields of a class get different keys. -/
  fields : ∀ id < g.size, ∀ f ∈ (g.classAt id).fields.values, ∀ f' ∈ (g.classAt id).fields.values,
    (renameField t (g.nameAt id) f).key = (renameField t (g.nameAt id) f').key → f.key = f'.key
  /-- Methods of classes of one component get one key only if they had one. -/
  methods : ∀ x < g.size, ∀ y ∈ (g.hierarchy.component x).classes,
    ∀ slot ∈ (g.classAt x).methods.entries, ∀ slot' ∈ (g.classAt y).methods.entries,
      g.renamedSlotKey t slot = g.renamedSlotKey t slot' → slot.1 = slot'.1

instance (g : ClassGraph) (t : MappingTable) : Decidable (g.KeptApart t) :=
  decidable_of_iff
    ((∀ a ∈ g.mentioned, ∀ b ∈ g.mentioned, t.renameClass a = t.renameClass b → a = b) ∧
      (∀ id < g.size, ∀ f ∈ (g.classAt id).fields.values, ∀ f' ∈ (g.classAt id).fields.values,
        (renameField t (g.nameAt id) f).key = (renameField t (g.nameAt id) f').key →
          f.key = f'.key) ∧
      ∀ x < g.size, ∀ y ∈ (g.hierarchy.component x).classes,
        ∀ slot ∈ (g.classAt x).methods.entries, ∀ slot' ∈ (g.classAt y).methods.entries,
          g.renamedSlotKey t slot = g.renamedSlotKey t slot' → slot.1 = slot'.1)
    ⟨fun h => ⟨h.1, h.2.1, h.2.2⟩, fun h => ⟨h.names, h.fields, h.methods⟩⟩

theorem mem_mentioned_iff {name : String} :
    name ∈ g.mentioned ↔ ∃ id < g.size, name = g.nameAt id ∨
      name ∈ (g.classAt id).supertypeNames ∨ name ∈ (g.classAt id).subtypeNames := by
  simp only [mentioned, List.mem_flatMap, mem_classes_iff, List.mem_cons, List.mem_append]
  constructor
  · rintro ⟨_, ⟨id, hid, rfl⟩, hname⟩
    exact ⟨id, hid, hname⟩
  · rintro ⟨id, hid, hname⟩
    exact ⟨_, ⟨id, hid, rfl⟩, hname⟩

/-- What holds of a finished graph whose shared methods list their families. -/
structure Joined (g : ClassGraph) : Prop extends Finished g where
  /-- The edges of the hierarchy say the same at both ends. -/
  edges : g.EdgesAgree
  /-- A method lists the names of its family if that has several classes. -/
  related_eq : ∀ {id : ClassId} {key : MemberKey} {m : MethodId} {symbol : MethodSymbol},
    g.slot? id key = some m → g.methodAt? m = some symbol →
      symbol.related = if 2 ≤ (g.hierarchy.family id key).length then
        (g.hierarchy.family id key).map g.nameAt else []

theorem Unjoined.joined_join (h : g.Unjoined) : g.join.Joined where
  toFinished := h.finished_join
  edges := h.edgesAgree_join
  related_eq {id key m symbol} hslot hsymbol := by
    obtain ⟨symbol', hsymbol', -, -, hrelated⟩ := h.exists_joined hslot
    rw [hsymbol, Option.some_inj] at hsymbol'
    have hname : g.join.nameAt = g.nameAt := funext (nameAt_join g)
    rw [hsymbol', hrelated, h.family_join hslot, hname]

/-! ## Names -/

/-- The names of the supertypes are renamed one by one. -/
theorem supertypeNames_rename {id : ClassId} (hid : id < g.size) :
    ((g.rename t).classAt id).supertypeNames =
      (g.classAt id).supertypeNames.map t.renameClass := by
  rw [classAt_rename t hid]
  simp only [ClassSymbol.supertypeNames, renameClass, List.map_append]
  cases (g.classAt id).superName with
  | none => rfl
  | some name => rfl

theorem subtypeNames_rename {id : ClassId} (hid : id < g.size) :
    ((g.rename t).classAt id).subtypeNames = (g.classAt id).subtypeNames.map t.renameClass := by
  rw [classAt_rename t hid]
  simp only [ClassSymbol.subtypeNames, renameClass, List.map_append]

/-- A class has the new name of what is mentioned exactly if it had the old one. -/
theorem KeptApart.renameClass_eq_iff (hapart : g.KeptApart t) {name : String}
    (hname : name ∈ g.mentioned) {id : ClassId} (hid : id < g.size) :
    t.renameClass (g.nameAt id) = t.renameClass name ↔ g.nameAt id = name :=
  ⟨hapart.names _ (mem_mentioned_iff.2 ⟨id, hid, .inl rfl⟩) _ hname, congrArg t.renameClass⟩

/-- The names of classes of the graph lead back to the classes. -/
theorem DistinctNames.filterMap_idOf?_map (h : g.DistinctNames) {ids : List ClassId}
    (hids : ∀ id ∈ ids, id < g.size) : (ids.map g.nameAt).filterMap g.idOf? = ids := by
  rw [List.filterMap_map]
  refine (List.filterMap_congr fun id hid => ?_).trans List.filterMap_some
  exact h.idOf?_nameAt (hids id hid)

/-! ## Slots -/

/-- Methods of connected classes get one key only if they had one. -/
theorem KeptApart.key_eq (hapart : g.KeptApart t) {x y : ClassId} {k l : MemberKey}
    {m n : MethodId} (hx : g.slot? x k = some m) (hy : g.slot? y l = some n)
    (hjoined : ReflTransGen g.Touches x y)
    (hkey : g.renamedSlotKey t (k, m) = g.renamedSlotKey t (l, n)) : k = l := by
  have hlt := lt_size_of_slot? hx
  exact hapart.methods x hlt y ((mem_component_iff hlt).2 hjoined) (k, m)
    (KeyMap.find?_eq_some_iff.1 hx) (l, n) (KeyMap.find?_eq_some_iff.1 hy) hkey

/-- Every class holds the methods that it held, under their new keys. -/
theorem KeptApart.slot?_rename_iff (hapart : g.KeptApart t) {id : ClassId} {k : MemberKey}
    {m : MethodId} : (g.rename t).slot? id k = some m ↔
      ∃ key, g.slot? id key = some m ∧ g.renamedSlotKey t (key, m) = k := by
  rw [slot?_rename_eq_some_iff]
  constructor
  · rintro ⟨key, hslot, hkey, -⟩
    exact ⟨key, hslot, hkey⟩
  · rintro ⟨key, hslot, hkey⟩
    refine ⟨key, hslot, hkey, fun key' m' hslot' hlt hkey' => ?_⟩
    obtain rfl := hapart.key_eq hslot hslot' .refl (hkey.trans hkey'.symm)
    exact MemberKey.lt_irrefl _ hlt

/-- A method takes part in dispatch under its new key exactly if it did under its old one. -/
theorem KeptApart.overridable_rename_iff (hapart : g.KeptApart t) {id : ClassId}
    {k : MemberKey} : (g.rename t).overridable k id = true ↔
      ∃ key m, g.slot? id key = some m ∧ g.renamedSlotKey t (key, m) = k ∧
        g.overridable key id = true := by
  simp only [overridable_iff, hapart.slot?_rename_iff, methodAt?_rename]
  constructor
  · rintro ⟨m, _, ⟨key, hslot, hkey⟩, hsymbol', haccess⟩
    obtain ⟨symbol, hsymbol, rfl⟩ := Option.map_eq_some_iff.1 hsymbol'
    exact ⟨key, m, hslot, hkey, m, symbol, hslot, hsymbol, haccess⟩
  · rintro ⟨key, m, hslot, hkey, m', symbol, hslot', hsymbol, haccess⟩
    obtain rfl := Option.some.inj (hslot.symm.trans hslot')
    exact ⟨m, renameMethod t symbol, ⟨key, hslot, hkey⟩, by rw [hsymbol]; rfl, haccess⟩

/-! ## Edges and families -/

section Apart

variable (hgraph : g.Joined) (hapart : g.KeptApart t)
include hgraph hapart

theorem distinctNames_rename : (g.rename t).DistinctNames := by
  intro i j hi hj hname
  rw [size_rename] at hi hj
  rw [nameAt_rename t hi, nameAt_rename t hj] at hname
  exact hgraph.names hi hj
    ((hapart.renameClass_eq_iff (mem_mentioned_iff.2 ⟨j, hj, .inl rfl⟩) hi).1 hname)

/-- A new name leads to the class to which the old one led. -/
theorem idOf?_rename {name : String} (hname : name ∈ g.mentioned) :
    (g.rename t).idOf? (t.renameClass name) = g.idOf? name := by
  refine Option.ext fun id => ?_
  rw [(distinctNames_rename hgraph hapart).idOf?_eq_some_iff, hgraph.names.idOf?_eq_some_iff,
    size_rename]
  refine and_congr_right fun hid => ?_
  rw [nameAt_rename t hid, hapart.renameClass_eq_iff hname hid]

/-- The new names of what is mentioned lead where the old ones led. -/
theorem filterMap_idOf?_rename {names : List String} (hnames : ∀ name ∈ names, name ∈ g.mentioned) :
    (names.map t.renameClass).filterMap (g.rename t).idOf? = names.filterMap g.idOf? := by
  rw [List.filterMap_map]
  exact List.filterMap_congr fun name hname => idOf?_rename hgraph hapart (hnames name hname)

theorem supertypes_rename : (g.rename t).supertypes = g.supertypes := by
  funext id
  by_cases hid : id < g.size
  · rw [supertypes, supertypeNames_rename hid,
      filterMap_idOf?_rename hgraph hapart fun name hname =>
        mem_mentioned_iff.2 ⟨id, hid, .inr (.inl hname)⟩]
    rfl
  · have hid := Nat.le_of_not_lt hid
    rw [supertypes, supertypes, classAt_of_size_le hid, classAt_of_size_le (size_rename g t ▸ hid)]
    rfl

theorem subtypes_rename : (g.rename t).subtypes = g.subtypes := by
  funext id
  by_cases hid : id < g.size
  · rw [subtypes, subtypeNames_rename hid, filterMap_idOf?_rename hgraph hapart fun name hname =>
      mem_mentioned_iff.2 ⟨id, hid, .inr (.inr hname)⟩]
    rfl
  · have hid := Nat.le_of_not_lt hid
    rw [subtypes, subtypes, classAt_of_size_le hid, classAt_of_size_le (size_rename g t ▸ hid)]
    rfl

/-- The new names of edges say the same at both ends. -/
theorem edgesAgree_rename : (g.rename t).EdgesAgree := by
  intro x hx name
  rw [size_rename] at hx ⊢
  rw [subtypeNames_rename hx, nameAt_rename t hx]
  constructor
  · intro hname
    obtain ⟨old, hold, rfl⟩ := List.mem_map.1 hname
    obtain ⟨y, hy, rfl, hup⟩ := (hgraph.edges hx old).1 hold
    refine ⟨y, hy, nameAt_rename t hy, ?_⟩
    rw [supertypeNames_rename hy]
    exact List.mem_map_of_mem hup
  · rintro ⟨y, hy, rfl, hup⟩
    rw [supertypeNames_rename hy] at hup
    obtain ⟨old, hold, hsame⟩ := List.mem_map.1 hup
    have hmentioned := mem_mentioned_iff.2 ⟨y, hy, .inr (.inl hold)⟩
    rw [← (hapart.renameClass_eq_iff hmentioned hx).1 hsame.symm] at hold
    rw [nameAt_rename t hy]
    exact List.mem_map_of_mem ((hgraph.edges hx _).2 ⟨y, hy, rfl, hold⟩)

section Slot

variable {x : ClassId} {k : MemberKey} {m : MethodId} (hx : g.slot? x k = some m)
include hx

/-- Links under a new key were links under the old one. -/
theorem linked_of_rename {y : ClassId} (h : (g.rename t).Linked (g.renamedSlotKey t (k, m)) x y) :
    g.Linked k x y ∧ g.slot? y k = some m := by
  obtain ⟨hopenx, hopeny, z, hzx, hzy⟩ := h
  rw [Inherits, supertypes_rename hgraph hapart] at hzx hzy
  have hjoined : ReflTransGen g.Touches x y := by
    refine (ReflTransGen.mono (fun a b hab => ?_) _ _ (reflTransGen_swap.2 hzx)).trans
      (ReflTransGen.mono (fun a b hab => .inl hab) _ _ hzy)
    exact .inr ((hgraph.edges.mem_subtypes_iff_mem_supertypes hgraph.names).2 hab)
  obtain ⟨k', m', hx', hkey, hopenx⟩ := hapart.overridable_rename_iff.1 hopenx
  obtain rfl := hapart.key_eq hx hx' .refl hkey.symm
  obtain ⟨l, n, hy, hkey', hopeny⟩ := hapart.overridable_rename_iff.1 hopeny
  obtain rfl := hapart.key_eq hx hy hjoined hkey'.symm
  have hlinked : g.Linked k x y := ⟨hopenx, hopeny, z, hzx, hzy⟩
  have hsame := (hgraph.slot_eq_iff hx hy).2 ⟨rfl, .inr ⟨hopenx, .single hlinked⟩⟩
  exact ⟨hlinked, hsame ▸ hy⟩

/-- Kindred methods under a new key were kindred under the old one. -/
theorem kindred_of_rename {y : ClassId}
    (h : (g.rename t).Kindred (g.renamedSlotKey t (k, m)) x y) :
    g.Kindred k x y ∧ g.slot? y k = some m := by
  induction h with
  | refl => exact ⟨.refl, hx⟩
  | tail _ hlinked ih =>
    obtain ⟨hlinked, hslot⟩ := linked_of_rename hgraph hapart ih.2 hlinked
    exact ⟨ih.1.tail hlinked, hslot⟩

/-- A class that was alone in its family has no kindred under the new key. -/
theorem hierarchyFamily_rename_of_alone (halone : g.hierarchy.family x k = [x])
    (hopen : (g.rename t).overridable (g.renamedSlotKey t (k, m)) x = true) :
    (g.rename t).hierarchy.hierarchyFamily (g.renamedSlotKey t (k, m)) x = [x] := by
  have hnodup : ((g.rename t).hierarchy.hierarchyFamily (g.renamedSlotKey t (k, m)) x).Nodup :=
    (Collection.sortBy_perm _ _).nodup_iff.2 (Hierarchy.nodup_spread_relatives _ _ _)
  refine List.perm_singleton.1
    ((List.perm_ext_iff_of_nodup hnodup (List.nodup_singleton x)).2 fun y => ?_)
  rw [Hierarchy.mem_hierarchyFamily_iff_kindred _ (edgesAgree_rename hgraph hapart)
    (distinctNames_rename hgraph hapart) hopen, List.mem_singleton]
  constructor
  · intro hkindred
    have hslot := (kindred_of_rename hgraph hapart hx hkindred).2
    have hmem := (hgraph.mem_family_iff_slot hx).2 hslot
    rwa [halone, List.mem_singleton] at hmem
  · rintro rfl
    exact .refl

/-- The new names of the classes of a family lead to these classes. -/
theorem filterMap_idOf?_rename_family :
    (((g.hierarchy.family x k).map g.nameAt).map t.renameClass).filterMap (g.rename t).idOf? =
      g.hierarchy.family x k := by
  have hfamily : ∀ y ∈ g.hierarchy.family x k, y < g.size := fun y hy =>
    lt_size_of_slot? ((hgraph.mem_family_iff_slot hx).1 hy)
  rw [filterMap_idOf?_rename hgraph hapart, hgraph.names.filterMap_idOf?_map hfamily]
  intro name hname
  obtain ⟨y, hy, rfl⟩ := List.mem_map.1 hname
  exact mem_mentioned_iff.2 ⟨y, hfamily y hy, .inl rfl⟩

/-- The family of a method under its new key has the classes that it had under the old one, in the
order in which it had them. -/
theorem family_rename :
    (g.rename t).hierarchy.family x (g.renamedSlotKey t (k, m)) = g.hierarchy.family x k := by
  obtain ⟨symbol, hsymbol, -⟩ := hgraph.symbol_of_slot hx
  have hslot' := hapart.slot?_rename_iff.2 ⟨k, hx, rfl⟩
  have hsymbol' : (g.rename t).methodAt? m = some (renameMethod t symbol) := by
    rw [methodAt?_rename, hsymbol, Option.map_some]
  have hself : x ∈ g.hierarchy.family x k := (hgraph.mem_family_iff_slot hx).2 hx
  have hopen := overridable_eq hx hsymbol
  have hopen' := overridable_eq hslot' hsymbol'
  cases haccess : symbol.access.isPrivateOrStatic with
  | true =>
    rw [haccess] at hopen
    rw [family_of_not_overridable hx hsymbol hopen,
      family_of_not_overridable hslot' hsymbol' (hopen'.trans (congrArg not haccess))]
  | false =>
    have haccess' : (renameMethod t symbol).access.isPrivateOrStatic = false := haccess
    have hrelated : (renameMethod t symbol).related = symbol.related.map t.renameClass := rfl
    rw [Hierarchy.family, methodIn?, hslot', Option.bind_some, hsymbol', Hierarchy.idOf?_eq]
    dsimp only
    rw [if_neg (Bool.eq_false_iff.1 haccess'), hrelated, hgraph.related_eq hx hsymbol]
    by_cases hseveral : 2 ≤ (g.hierarchy.family x k).length
    · rw [if_pos hseveral, nameAt_rename t (lt_size_of_slot? hx),
        if_pos (List.mem_map_of_mem (List.mem_map_of_mem hself)),
        filterMap_idOf?_rename_family hgraph hapart hx]
    · have halone := hgraph.family_eq_singleton hx hseveral
      rw [if_neg hseveral, List.map_nil, if_neg List.not_mem_nil, halone]
      exact hierarchyFamily_rename_of_alone hgraph hapart hx halone
        (hopen'.trans (congrArg not haccess))

end Slot

/-- Every class has the fields that it had, under their new keys. -/
theorem find?_fields_rename_iff {id : ClassId} (hid : id < g.size) {k : MemberKey}
    {f' : Member} : ((g.rename t).classAt id).fields.find? k = some f' ↔
      ∃ f ∈ (g.classAt id).fields.values, renameField t (g.nameAt id) f = f' ∧ f'.key = k := by
  have hkey : ∀ {key f}, (g.classAt id).fields.find? key = some f →
      f ∈ (g.classAt id).fields.values ∧ f.key = key := by
    intro key f hf
    obtain rfl := hgraph.fields hf
    exact ⟨hgraph.fields.mem_values_iff.2 hf, rfl⟩
  rw [find?_fields_rename_eq_some_iff hid]
  constructor
  · rintro ⟨key, f, hf, hrenamed, hfkey, -⟩
    exact ⟨f, (hkey hf).1, hrenamed, hfkey⟩
  · rintro ⟨f, hf, rfl, hfkey⟩
    refine ⟨f.key, f, hgraph.fields.mem_values_iff.1 hf, rfl, hfkey,
      fun key' f'' hf'' hlt heq => ?_⟩
    obtain ⟨hmem, rfl⟩ := hkey hf''
    rw [hapart.fields id hid f hf f'' hmem (hfkey.trans heq.symm)] at hlt
    exact MemberKey.lt_irrefl _ hlt

end Apart

end ClassGraph

/-! ## The identity -/

namespace KeyMap

/-- A map is that of its entries. -/
theorem ofList_entries {α : Type} (m : KeyMap α) : ofList m.entries = m := by
  refine ext_find? fun k => Option.ext fun a => ?_
  have hfind := find?_ofList_map_eq_some_iff (m := m) (f := fun e => e) (k := k) (b := a)
  rw [List.map_id'] at hfind
  rw [hfind, find?_eq_some_iff]
  constructor
  · rintro ⟨e, he, rfl, -⟩
    exact he
  · exact fun he => ⟨(k, a), he, rfl, fun e' _ hlt heq => MemberKey.lt_irrefl k (heq ▸ hlt)⟩

end KeyMap

namespace ClassGraph

section Identity

variable {g : ClassGraph} {t : MappingTable} (ht : t.identity = true)
include ht

theorem renameClass_of_identity : t.renameClass = id := by
  funext name
  rw [MappingTable.renameClass, MappingTable.classTarget?, if_pos ht, Option.getD_some, id]

/-- The identity gives every member the key that it has. -/
theorem renamedKey_of_identity (kind : MemberKind) (owner : String) (owners : List String)
    (key : MemberKey) : renamedKey t kind (owner :: owners) key = key := by
  rw [renamedKey, List.findSome?_cons, MappingTable.memberTarget?, if_pos ht,
    MappingTable.mapDescriptor, if_pos ht]
  rfl

theorem renameMethod_of_identity : renameMethod t = id := by
  funext m
  rw [renameMethod, renamedKey_of_identity ht, renameClass_of_identity ht, List.map_id]
  rfl

theorem renameField_of_identity (owner : String) : renameField t owner = id := by
  funext m
  rw [renameField, renamedKey_of_identity ht]
  rfl

theorem renameEnclosure_of_identity : renameEnclosure t = id := by
  funext e
  have hkey : renamedKey t .method [e.className] = id :=
    funext fun key => renamedKey_of_identity ht .method _ _ key
  rw [renameEnclosure, renameClass_of_identity ht, hkey, Option.map_id]
  rfl

/-- The identity changes nothing. -/
theorem Finished.rename_of_identity (hgraph : g.Finished) : g.rename t = g := by
  have hmethods : g.methods.map (renameMethod t) = g.methods := by
    rw [renameMethod_of_identity ht, Array.map_id]
  have hclass : ∀ id < g.size, renameClass t g.methods (g.classAt id) = g.classAt id := by
    intro id _
    have hfields : KeyMap.ofList (((g.classAt id).fields.values.map
        (renameField t (g.classAt id).name)).map fun m => (m.key, m)) = (g.classAt id).fields := by
      have hentries : ((g.classAt id).fields.values.map fun m => (m.key, m)) =
          (g.classAt id).fields.entries := by
        rw [KeyMap.values, List.map_map]
        refine (List.map_congr_left fun e he => ?_).trans (List.map_id _)
        have hkey := hgraph.fields (KeyMap.find?_eq_some_iff.2 he)
        exact Prod.ext hkey rfl
      rw [renameField_of_identity ht, List.map_id, hentries, KeyMap.ofList_entries]
    have hslots : ((g.classAt id).methods.entries.map fun e =>
        ((g.methods[e.2]?.map (·.key)).getD e.1, e.2)) = (g.classAt id).methods.entries := by
      refine (List.map_congr_left fun e he => ?_).trans (List.map_id _)
      obtain ⟨symbol, hsymbol, hkey⟩ := hgraph.symbol_of_slot (KeyMap.find?_eq_some_iff.2 he)
      rw [methodAt?] at hsymbol
      rw [hsymbol]
      exact Prod.ext hkey rfl
    rw [renameClass]
    dsimp only
    rw [hfields, hslots, KeyMap.ofList_entries, renameClass_of_identity ht,
      renameEnclosure_of_identity ht]
    simp
  rw [rename, hmethods]
  have hclasses : g.classes.map (renameClass t g.methods) = g.classes := by
    refine Array.ext (Array.size_map) fun id hid hid' => ?_
    have hid'' : g.classes[id] = g.classAt id := by
      rw [classAt, Array.getElem?_eq_getElem hid', Option.getD_some]
    rw [Array.getElem_map, hid'']
    exact hclass id hid'
  rw [hclasses]

end Identity

end ClassGraph

/-! ## Graphs with tables -/

namespace IndexedGraph

open ClassGraph

/-- Whether a graph with tables is another one with the names that a table gives, and nothing
else. -/
structure RenamedBy (ix : IndexedGraph) (t : MappingTable) (ix' : IndexedGraph) : Prop where
  /-- There are as many classes. -/
  size_eq : ix'.graph.size = ix.graph.size
  /-- Every class has its new name. -/
  nameAt_eq : ∀ id < ix.graph.size, ix'.graph.nameAt id = t.renameClass (ix.graph.nameAt id)
  /-- Every class is where it was. -/
  outer_eq : ∀ id, (ix'.graph.classAt id).outer = (ix.graph.classAt id).outer
  /-- Every class lists the inner classes that it listed. -/
  inner_eq : ∀ id, (ix'.graph.classAt id).inner = (ix.graph.classAt id).inner
  /-- The names of supertypes lead where they led. -/
  supertypes_eq : ∀ id, ix'.graph.supertypes id = ix.graph.supertypes id
  /-- The names of subtypes lead where they led. -/
  subtypes_eq : ∀ id, ix'.graph.subtypes id = ix.graph.subtypes id
  /-- Every class holds the methods that it held. -/
  holds_iff : ∀ {id m}, (∃ k, ix'.graph.slot? id k = some m) ↔
    ∃ k, ix.graph.slot? id k = some m
  /-- It holds them under their new keys. -/
  slot_iff : ∀ {id k m}, ix'.graph.slot? id k = some m ↔
    ∃ key, ix.graph.slot? id key = some m ∧ ix.graph.renamedSlotKey t (key, m) = k
  /-- Every method has the family that it had. -/
  family_eq : ∀ {id key m}, ix.graph.slot? id key = some m →
    ix'.graph.hierarchy.family id (ix.graph.renamedSlotKey t (key, m)) =
      ix.graph.hierarchy.family id key
  /-- Every class has the fields that it had, under their new keys. -/
  field_iff : ∀ id < ix.graph.size, ∀ {k f'}, (ix'.graph.classAt id).fields.find? k = some f' ↔
    ∃ f ∈ (ix.graph.classAt id).fields.values,
      renameField t (ix.graph.nameAt id) f = f' ∧ f'.key = k
  /-- The key under which a class holds a method is that of the method. -/
  key_of_slot : ∀ {id k m}, ix'.graph.slot? id k = some m →
    ∃ symbol, ix'.graph.methodAt? m = some symbol ∧ symbol.key = k
  /-- The new names are found, and no others. -/
  idOf?_iff : ∀ {name id}, ix'.idOf? name = some id ↔
    id < ix.graph.size ∧ t.renameClass (ix.graph.nameAt id) = name
  /-- The table of the top level has the classes without a container under their new names. -/
  topLevel_iff : ∀ {name id}, ix'.topLevel[name]? = some id ↔ id < ix.graph.size ∧
    (ix.graph.classAt id).outer = none ∧ t.renameClass (ix.graph.nameAt id) = name
  /-- It has them in the order of their new names. -/
  pairwise_topLevelIds : ix'.topLevelIds.Pairwise fun x y =>
    t.renameClass (ix.graph.nameAt x) < t.renameClass (ix.graph.nameAt y)

/-- A table that tells apart what a graph tells apart only renames the graph. -/
theorem Follows.renamedBy {ix : IndexedGraph} {g : ClassGraph} {t : MappingTable}
    (h : ix.Follows g) (hgraph : g.Joined) (hapart : g.KeptApart t) :
    ix.RenamedBy t (ix.rename t) := by
  obtain rfl := h.graph_eq
  have hnames := distinctNames_rename hgraph hapart
  have hfollows : (ix.rename t).Follows (ix.graph.rename t) :=
    follows_reindex { ix with graph := ix.graph.rename t } hnames
  have hsize := size_rename ix.graph t
  have hclass : ∀ id, ((ix.graph.rename t).classAt id).outer = (ix.graph.classAt id).outer ∧
      ((ix.graph.rename t).classAt id).inner = (ix.graph.classAt id).inner := by
    intro id
    by_cases hid : id < ix.graph.size
    · rw [classAt_rename t hid]
      exact ⟨rfl, rfl⟩
    · have hid := Nat.le_of_not_lt hid
      rw [classAt_of_size_le hid, classAt_of_size_le (hsize ▸ hid)]
      exact ⟨rfl, rfl⟩
  have hname : ∀ {id name}, (id < ix.graph.size ∧ (ix.graph.rename t).nameAt id = name) ↔
      id < ix.graph.size ∧ t.renameClass (ix.graph.nameAt id) = name := fun {id name} =>
    and_congr_right fun hid => by rw [nameAt_rename t hid]
  have hslot := @KeptApart.slot?_rename_iff _ _ hapart
  refine
    { size_eq := by rw [hfollows.graph_eq, hsize]
      nameAt_eq := fun id hid => by rw [hfollows.graph_eq, nameAt_rename t hid]
      outer_eq := fun id => by rw [hfollows.graph_eq, (hclass id).1]
      inner_eq := fun id => by rw [hfollows.graph_eq, (hclass id).2]
      supertypes_eq := fun id => by rw [hfollows.graph_eq, supertypes_rename hgraph hapart]
      subtypes_eq := fun id => by rw [hfollows.graph_eq, subtypes_rename hgraph hapart]
      holds_iff := ?_
      slot_iff := ?_
      family_eq := ?_
      field_iff := ?_
      key_of_slot := ?_
      idOf?_iff := ?_
      topLevel_iff := ?_
      pairwise_topLevelIds := ?_ }
  · intro id m
    rw [hfollows.graph_eq]
    constructor
    · rintro ⟨k, hk⟩
      obtain ⟨key, hkey, -⟩ := hslot.1 hk
      exact ⟨key, hkey⟩
    · rintro ⟨key, hkey⟩
      exact ⟨_, hslot.2 ⟨key, hkey, rfl⟩⟩
  · intro id k m
    rw [hfollows.graph_eq, hslot]
  · intro id key m hkey
    rw [hfollows.graph_eq]
    exact family_rename hgraph hapart hkey
  · intro id hid k f'
    rw [hfollows.graph_eq]
    exact find?_fields_rename_iff hgraph hapart hid
  · intro id k m hk
    rw [hfollows.graph_eq] at hk ⊢
    obtain ⟨key, hkey, rfl⟩ := hslot.1 hk
    obtain ⟨symbol, hsymbol, -⟩ := hgraph.symbol_of_slot hkey
    refine ⟨renameMethod t symbol, by rw [methodAt?_rename, hsymbol, Option.map_some], ?_⟩
    rw [renamedSlotKey, hsymbol, Option.map_some, Option.getD_some]
  · intro name id
    rw [hfollows.idOf?_iff, hsize, hname]
  · intro name id
    rw [hfollows.topLevel_iff, hsize, (hclass id).1, and_left_comm, hname, and_left_comm]
  · rw [hfollows.topLevelIds_eq]
    refine (pairwise_topLevel hnames).imp_of_mem fun {x y} hx hy hlt => ?_
    have hx := ((mem_topLevel_iff hnames).1 hx).1
    have hy := ((mem_topLevel_iff hnames).1 hy).1
    rw [hsize] at hx hy
    rwa [nameAt_rename t hx, nameAt_rename t hy] at hlt

/-- Renaming the graph that calls build keeps everything but names, if the table tells apart what
the graph tells apart, and the identity changes nothing. -/
theorem renamedBy_rename_build (cs : List BuilderCall) (t : MappingTable)
    (hapart : (build cs).graph.KeptApart t) :
    (build cs).RenamedBy t ((build cs).rename t) ∧
      ((build cs).rename .theIdentity).graph = (build cs).graph ∧
      (∀ name, ((build cs).rename .theIdentity).idOf? name = (build cs).idOf? name) ∧
      ((build cs).rename .theIdentity).topLevelIds = (build cs).topLevelIds := by
  have hfollows := follows_build cs
  obtain ⟨hunjoined, hfinish⟩ := GraphBuilder.finish_calls cs
  have hjoined : (build cs).graph.Joined := by
    rw [hfollows.graph_eq, hfinish]
    exact hunjoined.joined_join
  have hself : (build cs).graph.rename .theIdentity = (build cs).graph :=
    hjoined.rename_of_identity rfl
  have hunchanged : ((build cs).rename .theIdentity).Follows (build cs).graph := by
    have hreindexed : ((build cs).rename .theIdentity) = (build cs).reindex := by
      rw [rename, hself]
    rw [hreindexed]
    exact follows_reindex _ hjoined.names
  rw [← hfollows.graph_eq] at hfollows
  exact ⟨hfollows.renamedBy hjoined hapart, hunchanged.graph_eq,
    fun name => (hunchanged.idOf?_eq name).trans (hfollows.idOf?_eq name).symm,
    hunchanged.topLevelIds_eq.trans hfollows.topLevelIds_eq.symm⟩

/-- Two classes that a common subclass makes share a method, and an inner class without a class
file. -/
def sharingCalls : List BuilderCall :=
  [.file
      { name := "a", superName := some "java/lang/Object",
        fields := [{ key := ⟨"x", "I"⟩ }, { key := ⟨"x", "La;"⟩ }],
        methods := [{ key := ⟨"f", "()V"⟩ }] },
    .file { name := "i", methods := [{ key := ⟨"f", "()V"⟩ }, { key := ⟨"f", "(La;)V"⟩ }] },
    .file
      { name := "b", superName := some "a", interfaces := ["i"],
        methods := [{ key := ⟨"g", "()V"⟩, access := ⟨Access.privateBit⟩ }] },
    .name "b$1"]

/-- A table that exchanges the names of two classes and renames the method that is shared. -/
def exchanging : MappingTable where
  source := "official"
  target := "named"
  classes := .ofList [("a", "b"), ("b", "a"), ("i", "pkg/I")]
  fields := .ofList [(⟨"a", ⟨"x", "I"⟩⟩, ⟨"b", ⟨"y", "I"⟩⟩)]
  methods := .ofList [(⟨"i", ⟨"f", "()V"⟩⟩, ⟨"pkg/I", ⟨"h", "()V"⟩⟩)]

/-- The shared method, looked up at the class that the table knows, keeps its family under its new
key, and the names that are exchanged lead to the classes that have them now. -/
theorem renamedBy_exchanging :
    (build sharingCalls).graph.KeptApart exchanging ∧
      (build sharingCalls).RenamedBy exchanging ((build sharingCalls).rename exchanging) ∧
      ((build sharingCalls).rename exchanging).graph.hierarchy.family 0 ⟨"h", "()V"⟩ = [0, 1] ∧
      ((build sharingCalls).rename exchanging).idOf? "a" = some 2 := by
  have hapart : (build sharingCalls).graph.KeptApart exchanging := by decide +kernel
  have hrenamed := (renamedBy_rename_build sharingCalls exchanging hapart).1
  have hslot : (build sharingCalls).graph.slot? 0 ⟨"f", "()V"⟩ = some 0 := by decide +kernel
  have hkey : (build sharingCalls).graph.renamedSlotKey exchanging (⟨"f", "()V"⟩, 0) =
      ⟨"h", "()V"⟩ := by decide +kernel
  have hfamily : (build sharingCalls).graph.hierarchy.family 0 ⟨"f", "()V"⟩ = [0, 1] := by
    decide +kernel
  have hname : 2 < (build sharingCalls).graph.size ∧
      exchanging.renameClass ((build sharingCalls).graph.nameAt 2) = "a" := by decide +kernel
  refine ⟨hapart, hrenamed, ?_, hrenamed.idOf?_iff.2 hname⟩
  rw [← hkey, hrenamed.family_eq hslot, hfamily]

end IndexedGraph

end StableNaming
