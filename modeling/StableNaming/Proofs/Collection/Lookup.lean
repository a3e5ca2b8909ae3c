import Mathlib.Data.List.Induction
import StableNaming.Collection.Dictionary
import StableNaming.Collection.KeyMap
import StableNaming.Collection.Sorting

/-!
# What collections built from lists hold

A collection built from a list holds pairs of the list only, and of those with one
key the last one. A sorted list without repeated keys is determined by its members.
-/

namespace StableNaming

namespace KeyMap

variable {α β : Type}

/-- A map built from a list holds pairs of the list only. -/
theorem mem_of_find?_ofList {pairs : List (MemberKey × α)} {k : MemberKey} {a : α}
    (h : (ofList pairs).find? k = some a) : (k, a) ∈ pairs := by
  have hfold : ∀ (pairs : List (MemberKey × α)) (m : KeyMap α),
      (pairs.foldl (fun m pair => m.insert pair.1 pair.2) m).find? k = some a →
        (k, a) ∈ pairs ∨ m.find? k = some a := by
    intro pairs
    induction pairs with
    | nil => exact fun m hm => .inr hm
    | cons pair rest ih =>
      intro m hm
      rcases ih _ hm with hrest | hinsert
      · exact .inl (List.mem_cons_of_mem _ hrest)
      · rw [find?_insert] at hinsert
        by_cases hk : pair.1 = k
        · rw [if_pos hk] at hinsert
          have hpair : pair = (k, a) := Prod.ext hk (Option.some.inj hinsert)
          exact .inl (hpair ▸ List.mem_cons_self)
        · rw [if_neg hk] at hinsert
          exact .inr hinsert
  rcases hfold pairs empty h with hmem | hempty
  · exact hmem
  · simp at hempty

/-- Of the pairs with one key the last one counts. -/
theorem find?_ofList_eq_some_iff {pairs : List (MemberKey × α)} {k : MemberKey} {a : α} :
    (ofList pairs).find? k = some a ↔
      ∃ before after, pairs = before ++ (k, a) :: after ∧ ∀ pair ∈ after, pair.1 ≠ k := by
  induction pairs using List.reverseRecOn with
  | nil => simp [ofList]
  | append_singleton pairs last ih =>
    have hinsert : ofList (pairs ++ [last]) = (ofList pairs).insert last.1 last.2 := by
      rw [ofList, List.foldl_append]
      rfl
    rw [hinsert, find?_insert]
    constructor
    · intro h
      by_cases hlast : last.1 = k
      · rw [if_pos hlast, Option.some_inj] at h
        exact ⟨pairs, [], by rw [← hlast, ← h], fun _ hpair => absurd hpair List.not_mem_nil⟩
      · rw [if_neg hlast] at h
        obtain ⟨before, after, rfl, hafter⟩ := ih.1 h
        refine ⟨before, after ++ [last], by simp, fun pair hpair => ?_⟩
        rcases List.mem_append.1 hpair with hpair | hpair
        · exact hafter pair hpair
        · rwa [List.mem_singleton.1 hpair]
    · rintro ⟨before, after, hsplit, hafter⟩
      rcases List.eq_nil_or_concat after with rfl | ⟨after, last', rfl⟩
      · obtain ⟨-, hlast⟩ := List.append_inj' hsplit rfl
        rw [List.singleton_inj.1 hlast, if_pos rfl]
      · rw [List.concat_eq_append] at hsplit hafter
        have hsplit : pairs ++ [last] = (before ++ (k, a) :: after) ++ [last'] := by
          rw [hsplit]
          simp
        obtain ⟨rfl, hlast⟩ := List.append_inj' hsplit rfl
        rw [List.singleton_inj.1 hlast,
          if_neg (hafter last' (List.mem_append_right _ List.mem_cons_self))]
        exact ih.2 ⟨before, after, rfl, fun pair hpair =>
          hafter pair (List.mem_append_left _ hpair)⟩

/-- Of the entries of a map that are put under one key the one with the greatest key counts. -/
theorem find?_ofList_map_eq_some_iff {m : KeyMap α} {f : MemberKey × α → MemberKey × β}
    {k : MemberKey} {b : β} :
    (ofList (m.entries.map f)).find? k = some b ↔
      ∃ e ∈ m.entries, f e = (k, b) ∧ ∀ e' ∈ m.entries, e.1 < e'.1 → (f e').1 ≠ k := by
  rw [find?_ofList_eq_some_iff]
  constructor
  · rintro ⟨before, after, hsplit, hafter⟩
    obtain ⟨smaller, rest, hentries, -, hrest⟩ := List.map_eq_append_iff.1 hsplit
    obtain ⟨e, greater, rfl, he, rfl⟩ := List.map_eq_cons_iff.1 hrest
    have hascending := m.ascending
    rw [hentries, List.pairwise_append] at hascending
    refine ⟨e, by simp [hentries], he, fun e' he' hlt => ?_⟩
    rw [hentries, List.mem_append, List.mem_cons] at he'
    rcases he' with hsmaller | rfl | hgreater
    · have hlt' := hascending.2.2 e' hsmaller e List.mem_cons_self
      exact absurd (MemberKey.lt_trans hlt hlt') (MemberKey.lt_irrefl _)
    · exact absurd hlt (MemberKey.lt_irrefl _)
    · exact hafter _ (List.mem_map_of_mem hgreater)
  · rintro ⟨e, he, hfe, hgreater⟩
    obtain ⟨smaller, greater, hentries⟩ := List.append_of_mem he
    have hascending := m.ascending
    rw [hentries, List.pairwise_append] at hascending
    refine ⟨smaller.map f, greater.map f, by rw [hentries, List.map_append, List.map_cons, hfe],
      fun pair hpair => ?_⟩
    obtain ⟨e', he', rfl⟩ := List.mem_map.1 hpair
    refine hgreater e' ?_ (List.rel_of_pairwise_cons hascending.2.1 he')
    rw [hentries]
    exact List.mem_append_right _ (List.mem_cons_of_mem _ he')

/-- Changing every value changes what is looked up. -/
theorem find?_mapValues (f : MemberKey → α → β) (m : KeyMap α) (k : MemberKey) :
    (m.mapValues f).find? k = (m.find? k).map (f k) := by
  have hlookup : ∀ entries : List (MemberKey × α),
      Pairs.lookup k (entries.map fun e => (e.1, f e.1 e.2)) =
        (Pairs.lookup k entries).map (f k) := by
    intro entries
    induction entries with
    | nil => rfl
    | cons e rest ih =>
      simp only [List.map_cons, Pairs.lookup]
      by_cases hk : e.1 = k
      · rw [if_pos hk, if_pos hk, hk, Option.map_some]
      · rw [if_neg hk, if_neg hk, ih]
  exact hlookup m.entries

end KeyMap

namespace Pairs

variable {α κ β γ : Type} [DecidableEq κ] [DecidableEq β]

/-- Where the values of a list of pairs are the distinct keys of another one, looking up twice is
looking up what belongs together. -/
theorem lookup_bind_lookup {xs : List α} {f : α → κ} {g : α → β} (h : α → γ)
    (hg : (xs.map g).Nodup) (k : κ) :
    ((lookup k (xs.map fun x => (f x, g x))).bind fun y =>
      lookup y (xs.map fun x => (g x, h x))) = lookup k (xs.map fun x => (f x, h x)) := by
  induction xs with
  | nil => rfl
  | cons x xs ih =>
    obtain ⟨hx, hxs⟩ := List.nodup_cons.1 hg
    simp only [List.map_cons, lookup]
    by_cases hk : f x = k
    · rw [if_pos hk, if_pos hk, Option.bind_some, if_pos rfl]
    · rw [if_neg hk, if_neg hk, ← ih hxs]
      -- what the rest answers is not what the first pair has, since the answers are distinct
      refine Option.bind_congr fun y hy => if_neg ?_
      rintro rfl
      obtain ⟨x', hx', heq⟩ := List.mem_map.1 (mem_of_lookup hy)
      exact hx (List.mem_map.2 ⟨x', hx', (Prod.mk.inj heq).2⟩)

/-- Pairs of two distinct things can be looked up from either side. -/
theorem lookup_eq_some_iff_swap {xs : List α} {f : α → κ} {g : α → β} (hf : (xs.map f).Nodup)
    (hg : (xs.map g).Nodup) {k : κ} {y : β} :
    lookup k (xs.map fun x => (f x, g x)) = some y ↔
      lookup y (xs.map fun x => (g x, f x)) = some k := by
  rw [lookup_eq_some_iff (by rwa [List.map_map]), lookup_eq_some_iff (by rwa [List.map_map]),
    List.mem_map, List.mem_map]
  simp only [Prod.mk.injEq, and_comm]

end Pairs

namespace Dictionary

variable {κ α : Type}

/-- A dictionary is its entries. -/
theorem eq_of_entries_eq {d d' : Dictionary κ α} (h : d.entries = d'.entries) : d = d' := by
  cases d
  cases d'
  cases h
  rfl

variable [DecidableEq κ]

/-- A pair with a new key comes last. -/
theorem insertNew?_of_not_mem {d : Dictionary κ α} {k : κ} (a : α) (h : k ∉ d.keys) :
    ∃ d', d.insertNew? k a = some d' ∧ d'.entries = d.entries ++ [(k, a)] := by
  have hfind : d.find? k = none := find?_eq_none_iff.2 h
  refine ⟨d.insert k a, ?_, ?_⟩
  · rw [insertNew?, contains, hfind]
    rfl
  · have hassign : ∀ entries : List (κ × α), k ∉ entries.map Prod.fst →
        Pairs.assign k a entries = entries ++ [(k, a)] := by
      intro entries
      induction entries with
      | nil => exact fun _ => rfl
      | cons e rest ih =>
        intro hk
        rw [List.map_cons, List.mem_cons, not_or] at hk
        rw [Pairs.assign, if_neg (Ne.symm hk.1), ih hk.2, List.cons_append]
    exact hassign d.entries h

/-- A pair is stored as a new one exactly if it can stand after all others. -/
theorem insertNew?_eq_some_iff {d d' : Dictionary κ α} {k : κ} {a : α} :
    d.insertNew? k a = some d' ↔ d'.entries = d.entries ++ [(k, a)] := by
  constructor
  · intro h
    have hnew : k ∉ d.keys := by
      rw [insertNew?] at h
      split at h
      · cases h
      · rename_i hknown
        exact find?_eq_none_iff.1 (by simpa [contains] using hknown)
    obtain ⟨d₁, hinsert, hentries⟩ := insertNew?_of_not_mem a hnew
    obtain rfl : d₁ = d' := Option.some.inj (hinsert.symm.trans h)
    exact hentries
  · intro hentries
    have hnodup : (d.entries.map Prod.fst ++ [k]).Nodup := by
      have hkeys := d'.nodup
      rwa [hentries, List.map_append] at hkeys
    have hnew : k ∉ d.keys := fun hmem =>
      (List.nodup_append.1 hnodup).2.2 k hmem k List.mem_cons_self rfl
    obtain ⟨d₁, hinsert, hentries₁⟩ := insertNew?_of_not_mem a hnew
    rw [hinsert, eq_of_entries_eq (hentries₁.trans hentries.symm)]

/-- Entries in another order answer alike. -/
theorem find?_eq_of_perm {d d' : Dictionary κ α} (h : d.entries.Perm d'.entries) (k : κ) :
    d.find? k = d'.find? k := by
  refine Option.ext fun a => ?_
  rw [find?_eq_some_iff, find?_eq_some_iff, h.mem_iff]

/-- Dictionaries that answer alike have the same keys. -/
theorem keys_perm_of_find?_eq {d d' : Dictionary κ α} (h : ∀ k, d.find? k = d'.find? k) :
    d.keys.Perm d'.keys := by
  refine (List.perm_ext_iff_of_nodup d.nodup d'.nodup).2 fun k => ?_
  have hnone : k ∉ d.keys ↔ k ∉ d'.keys := by
    rw [← find?_eq_none_iff, ← find?_eq_none_iff, h]
  exact not_iff_not.1 hnone

/-- The last pair is stored last. -/
theorem ofList_concat (pairs : List (κ × α)) (k : κ) (a : α) :
    ofList (pairs ++ [(k, a)]) = (ofList pairs).insert k a := by
  rw [ofList, List.foldl_append]
  rfl

/-- A dictionary built from a list holds pairs of the list only. -/
theorem mem_of_find?_ofList {pairs : List (κ × α)} {k : κ} {a : α}
    (h : (ofList pairs).find? k = some a) : (k, a) ∈ pairs := by
  induction pairs using List.reverseRecOn with
  | nil => cases h
  | append_singleton pairs last ih =>
    rw [ofList_concat, find?_insert] at h
    split at h
    · rename_i hk
      rw [← hk, ← Option.some.inj h]
      exact List.mem_append_right _ List.mem_cons_self
    · exact List.mem_append_left _ (ih h)

/-- A dictionary built from a list knows the keys of the list. -/
theorem find?_ofList_eq_none_iff {pairs : List (κ × α)} {k : κ} :
    (ofList pairs).find? k = none ↔ k ∉ pairs.map Prod.fst := by
  induction pairs using List.reverseRecOn with
  | nil => simp [ofList]
  | append_singleton pairs last ih =>
    rw [ofList_concat, find?_insert, List.map_append, List.mem_append, not_or, ← ih]
    split
    · rename_i hk
      simp [hk]
    · rename_i hk
      simpa using fun _ => Ne.symm hk

/-- Where a key has one value in a list, the order of the list does not matter. -/
theorem find?_ofList_eq_of_perm {pairs pairs' : List (κ × α)} (h : pairs.Perm pairs') {k : κ}
    (hone : ∀ a a', (k, a) ∈ pairs → (k, a') ∈ pairs → a = a') :
    (ofList pairs).find? k = (ofList pairs').find? k := by
  cases hfind : (ofList pairs).find? k with
  | none =>
    rw [find?_ofList_eq_none_iff, (h.map Prod.fst).mem_iff, ← find?_ofList_eq_none_iff] at hfind
    exact hfind.symm
  | some a =>
    have ha := mem_of_find?_ofList hfind
    cases hfind' : (ofList pairs').find? k with
    | none =>
      rw [find?_ofList_eq_none_iff, ← (h.map Prod.fst).mem_iff] at hfind'
      exact absurd (List.mem_map_of_mem ha) hfind'
    | some a' => rw [hone a a' ha (h.mem_iff.2 (mem_of_find?_ofList hfind'))]

/-- Storing a value twice is storing it once. -/
theorem insert_insert_self (d : Dictionary κ α) (k : κ) (a : α) :
    (d.insert k a).insert k a = d.insert k a := by
  have hassign : ∀ entries : List (κ × α),
      Pairs.assign k a (Pairs.assign k a entries) = Pairs.assign k a entries := by
    intro entries
    induction entries with
    | nil => simp [Pairs.assign]
    | cons e rest ih =>
      rw [Pairs.assign]
      by_cases hk : e.1 = k
      · rw [if_pos hk, Pairs.assign, if_pos rfl]
      · rw [if_neg hk, Pairs.assign, if_neg hk, ih]
  simp only [insert, hassign]

end Dictionary

namespace Collection

/-- Sorting by distinct keys gives the same list for the same members. -/
theorem sortOn_congr {α : Type} {key : α → String} {xs ys : List α} (hxs : xs.Nodup)
    (hys : ys.Nodup) (hkey : ∀ x ∈ xs, ∀ y ∈ xs, key x = key y → x = y)
    (hmem : ∀ x, x ∈ xs ↔ x ∈ ys) : sortOn key xs = sortOn key ys := by
  have hperm : (sortOn key xs).Perm (sortOn key ys) :=
    (sortBy_perm _ xs).trans
      (((List.perm_ext_iff_of_nodup hxs hys).2 hmem).trans (sortBy_perm _ ys).symm)
  refine hperm.eq_of_pairwise ?_ (pairwise_sortOn key xs) (pairwise_sortOn key ys)
  intro x y hx hy hxy hyx
  exact hkey x (mem_sortOn.1 hx) y ((hmem y).2 (mem_sortOn.1 hy)) (String.le_antisymm hxy hyx)

/-- Two lists in one order that have the same members are the same. -/
theorem eq_of_pairwise_of_mem_iff {α : Type} {r : α → α → Prop} {xs ys : List α}
    (hasymm : ∀ x y, r x y → ¬ r y x) (hxs : xs.Pairwise r) (hys : ys.Pairwise r)
    (hmem : ∀ x, x ∈ xs ↔ x ∈ ys) : xs = ys := by
  have hnodup : ∀ {zs : List α}, zs.Pairwise r → zs.Nodup := by
    refine fun hzs => hzs.imp fun {x y} hxy heq => ?_
    rw [heq] at hxy
    exact hasymm y y hxy hxy
  have hperm : xs.Perm ys := (List.perm_ext_iff_of_nodup (hnodup hxs) (hnodup hys)).2 hmem
  exact hperm.eq_of_pairwise (fun x y _ _ hxy hyx => absurd hyx (hasymm x y hxy)) hxs hys

/-- Distinct keys strictly ascend in the result. -/
theorem pairwise_lt_sortOn {α : Type} {key : α → String} {xs : List α} (hxs : xs.Nodup)
    (hkey : ∀ x ∈ xs, ∀ y ∈ xs, key x = key y → x = y) :
    (sortOn key xs).Pairwise (key · < key ·) := by
  have hnodup : (sortOn key xs).Nodup := (sortBy_perm _ xs).nodup_iff.2 hxs
  refine (hnodup.and (pairwise_sortOn key xs)).imp_of_mem fun {x y} hx hy hxy => ?_
  obtain ⟨hne, hle⟩ := hxy
  exact Std.lt_of_le_of_ne hle fun heq => hne (hkey x (mem_sortOn.1 hx) y (mem_sortOn.1 hy) heq)

/-- What is made from a list of elements, and has their keys, is in the order of the list. -/
theorem pairwise_filterMap_of_key {α β κ : Type} {r : κ → κ → Prop} {f : α → Option β}
    (key : α → κ) {key' : β → κ} {xs : List α} (hxs : xs.Pairwise fun x y => r (key x) (key y))
    (hkey : ∀ x y, f x = some y → key' y = key x) :
    (xs.filterMap f).Pairwise fun x y => r (key' x) (key' y) := by
  refine List.pairwise_filterMap.2 (hxs.imp fun {x x'} hlt y hy y' hy' => ?_)
  rw [hkey x y hy, hkey x' y' hy']
  exact hlt

/-- What is made from elements with distinct keys, and has their keys, has distinct keys. -/
theorem nodup_map_filterMap {α β κ : Type} {f : α → Option β} (key : α → κ) {key' : β → κ}
    {xs : List α} (hxs : (xs.map key).Nodup) (hkey : ∀ x y, f x = some y → key' y = key x) :
    ((xs.filterMap f).map key').Nodup :=
  List.pairwise_map.2 (pairwise_filterMap_of_key key (List.pairwise_map.1 hxs) hkey)

end Collection

end StableNaming
