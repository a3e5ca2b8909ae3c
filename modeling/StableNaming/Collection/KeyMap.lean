import StableNaming.Collection.Pairs
import StableNaming.Symbol.MemberKey

/-!
# Maps over member keys

The members of a class, in key order. Writing to a known key replaces the value.
-/

namespace StableNaming

/-- Values under member keys, in ascending key order. -/
structure KeyMap (α : Type) where
  /-- Keys and values. -/
  entries : List (MemberKey × α)
  /-- Keys strictly ascend. -/
  ascending : entries.Pairwise (·.1 < ·.1)
  deriving Repr, DecidableEq

namespace KeyMap

variable {α β : Type}

/-- The map without keys. -/
def empty : KeyMap α := ⟨[], List.Pairwise.nil⟩

instance : Inhabited (KeyMap α) := ⟨empty⟩

/-- How many keys there are. -/
def size (m : KeyMap α) : Nat := m.entries.length

/-- The keys, ascending. -/
def keys (m : KeyMap α) : List MemberKey := m.entries.map Prod.fst

/-- The values in key order. -/
def values (m : KeyMap α) : List α := m.entries.map Prod.snd

/-- The value under a key. -/
def find? (m : KeyMap α) (k : MemberKey) : Option α := Pairs.lookup k m.entries

/-- Whether the key is known. -/
def contains (m : KeyMap α) (k : MemberKey) : Bool := (m.find? k).isSome

/-- Put a pair into an ascending list of pairs. -/
def place (k : MemberKey) (a : α) : List (MemberKey × α) → List (MemberKey × α)
  | [] => [(k, a)]
  | (k', a') :: rest =>
    if k < k' then (k, a) :: (k', a') :: rest
    else if k' = k then (k, a) :: rest
    else (k', a') :: place k a rest

theorem mem_place {k : MemberKey} {a : α} {entries : List (MemberKey × α)}
    {e : MemberKey × α} (h : e ∈ place k a entries) : e = (k, a) ∨ e ∈ entries := by
  induction entries with
  | nil => simpa [place] using h
  | cons e' rest ih =>
    simp only [place] at h
    split at h
    · simpa using h
    · split at h
      · rcases List.mem_cons.1 h with h | h
        · exact .inl h
        · exact .inr (List.mem_cons_of_mem _ h)
      · rcases List.mem_cons.1 h with h | h
        · exact .inr (h ▸ List.mem_cons_self)
        · exact (ih h).imp id (List.mem_cons_of_mem _)

theorem pairwise_place {k : MemberKey} {a : α} {entries : List (MemberKey × α)}
    (h : entries.Pairwise (·.1 < ·.1)) : (place k a entries).Pairwise (·.1 < ·.1) := by
  induction entries with
  | nil => simp [place]
  | cons e rest ih =>
    have h' := List.pairwise_cons.1 h
    simp only [place]
    split
    · rename_i hlt
      refine List.pairwise_cons.2 ⟨?_, h⟩
      intro x hx
      rcases List.mem_cons.1 hx with rfl | hx
      · exact hlt
      · exact MemberKey.lt_trans hlt (h'.1 x hx)
    · rename_i hlt
      split
      · rename_i heq
        exact List.pairwise_cons.2 ⟨fun x hx => heq ▸ h'.1 x hx, h'.2⟩
      · rename_i hne
        refine List.pairwise_cons.2 ⟨?_, ih h'.2⟩
        intro x hx
        rcases mem_place hx with rfl | hx
        · exact MemberKey.lt_of_not_lt hlt (Ne.symm hne)
        · exact h'.1 x hx

/-- Store a value under a key. -/
def insert (m : KeyMap α) (k : MemberKey) (a : α) : KeyMap α :=
  ⟨place k a m.entries, pairwise_place m.ascending⟩

/-- The map of a list of pairs; of equal keys the last value counts. -/
def ofList (pairs : List (MemberKey × α)) : KeyMap α :=
  pairs.foldl (fun m pair => m.insert pair.1 pair.2) empty

/-- Change every value, seeing its key. -/
def mapValues (f : MemberKey → α → β) (m : KeyMap α) : KeyMap β where
  entries := m.entries.map fun e => (e.1, f e.1 e.2)
  ascending := List.pairwise_map.2 m.ascending

theorem lookup_place (k k' : MemberKey) (a : α) (entries : List (MemberKey × α)) :
    Pairs.lookup k' (place k a entries) =
      if k = k' then some a else Pairs.lookup k' entries := by
  induction entries with
  | nil => simp [place, Pairs.lookup]
  | cons e rest ih =>
    simp only [place]
    split
    · simp [Pairs.lookup]
    · split <;> rename_i h
      · subst h
        simp only [Pairs.lookup]
        split <;> simp
      · simp only [Pairs.lookup, ih]
        by_cases hk : e.1 = k'
        · subst hk
          simp [Ne.symm h]
        · simp [hk]

@[simp] theorem find?_empty (k : MemberKey) : (empty : KeyMap α).find? k = none := rfl

theorem find?_insert (m : KeyMap α) (k k' : MemberKey) (a : α) :
    (m.insert k a).find? k' = if k = k' then some a else m.find? k' :=
  lookup_place k k' a m.entries

theorem nodup_keys (m : KeyMap α) : m.keys.Nodup :=
  List.pairwise_map.2 (m.ascending.imp MemberKey.ne_of_lt)

/-- A key has a value exactly when the pair is an entry. -/
theorem find?_eq_some_iff {m : KeyMap α} {k : MemberKey} {a : α} :
    m.find? k = some a ↔ (k, a) ∈ m.entries :=
  Pairs.lookup_eq_some_iff m.nodup_keys

/-- A map is determined by its values under the keys. -/
theorem ext_find? {m m' : KeyMap α} (h : ∀ k, m.find? k = m'.find? k) : m = m' := by
  have hmem : ∀ e, e ∈ m.entries ↔ e ∈ m'.entries := fun e => by
    rw [← find?_eq_some_iff (k := e.1) (a := e.2), h, find?_eq_some_iff]
  have hnodup : ∀ m : KeyMap α, m.entries.Nodup := fun m =>
    List.Pairwise.of_map Prod.fst (fun _ _ hne heq => hne (congrArg Prod.fst heq)) m.nodup_keys
  have hperm : m.entries.Perm m'.entries :=
    (List.perm_ext_iff_of_nodup (hnodup m) (hnodup m')).2 hmem
  have heq : m.entries = m'.entries :=
    hperm.eq_of_pairwise
      (fun a b _ _ hab hba => absurd (MemberKey.lt_trans hab hba) (MemberKey.lt_irrefl a.1))
      m.ascending m'.ascending
  cases m; cases m'; simp_all

end KeyMap

end StableNaming
