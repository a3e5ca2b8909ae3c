import StableNaming.Collection.Pairs

/-!
# Dictionaries

A dictionary answers each key with at most one value and remembers the order in
which keys came first. Writing to a known key keeps its place.
-/

namespace StableNaming

/-- Values under distinct keys, in the order in which the keys came first. -/
structure Dictionary (κ α : Type) where
  /-- Keys and values, oldest key first. -/
  entries : List (κ × α)
  /-- No key stands twice. -/
  nodup : (entries.map Prod.fst).Nodup
  deriving Repr, DecidableEq

namespace Dictionary

variable {κ α : Type}

/-- The dictionary without keys. -/
def empty : Dictionary κ α := ⟨[], List.nodup_nil⟩

instance : Inhabited (Dictionary κ α) := ⟨empty⟩
instance : EmptyCollection (Dictionary κ α) := ⟨empty⟩

/-- How many keys there are. -/
def size (d : Dictionary κ α) : Nat := d.entries.length

/-- The keys, oldest first. -/
def keys (d : Dictionary κ α) : List κ := d.entries.map Prod.fst

variable [DecidableEq κ]

/-- The value under a key. -/
def find? (d : Dictionary κ α) (k : κ) : Option α := Pairs.lookup k d.entries

/-- Whether the key is known. -/
def contains (d : Dictionary κ α) (k : κ) : Bool := (d.find? k).isSome

/-- Store a value under a key; a known key keeps its place. -/
def insert (d : Dictionary κ α) (k : κ) (a : α) : Dictionary κ α where
  entries := Pairs.assign k a d.entries
  nodup := by
    rw [Pairs.keys_assign]
    split
    · exact d.nodup
    · rename_i h
      refine List.nodup_append.2 ⟨d.nodup, by simp, ?_⟩
      intro x hx y hy hxy
      simp only [List.mem_singleton] at hy
      exact h (hy ▸ hxy ▸ hx)

/-- Store a value under a key that is not known yet. -/
def insertNew? (d : Dictionary κ α) (k : κ) (a : α) : Option (Dictionary κ α) :=
  if d.contains k then none else some (d.insert k a)

/-- The dictionary of a list of pairs; of equal keys the last value counts. -/
def ofList (pairs : List (κ × α)) : Dictionary κ α :=
  pairs.foldl (fun d pair => d.insert pair.1 pair.2) empty

@[simp] theorem find?_empty (k : κ) : (empty : Dictionary κ α).find? k = none := rfl

theorem find?_insert (d : Dictionary κ α) (k k' : κ) (a : α) :
    (d.insert k a).find? k' = if k = k' then some a else d.find? k' :=
  Pairs.lookup_assign k k' a d.entries

/-- A new key comes last; a known key keeps its place. -/
theorem keys_insert (d : Dictionary κ α) (k : κ) (a : α) :
    (d.insert k a).keys = if k ∈ d.keys then d.keys else d.keys ++ [k] :=
  Pairs.keys_assign k a d.entries

/-- Storing a value under a key that is not known yet changes no other value. -/
theorem find?_insert_of_new {d : Dictionary κ α} {k k' : κ} {a' : α} (hnew : d.find? k = none)
    (h : d.find? k' = some a') (a : α) : (d.insert k a).find? k' = some a' := by
  rw [find?_insert, if_neg ?_]
  · exact h
  · rintro rfl
    rw [hnew] at h
    cases h

/-- A key is known exactly when it has a value. -/
theorem find?_eq_none_iff {d : Dictionary κ α} {k : κ} : d.find? k = none ↔ k ∉ d.keys :=
  Pairs.lookup_eq_none_iff

/-- A key has a value exactly when the pair is an entry. -/
theorem find?_eq_some_iff {d : Dictionary κ α} {k : κ} {a : α} :
    d.find? k = some a ↔ (k, a) ∈ d.entries :=
  Pairs.lookup_eq_some_iff d.nodup

end Dictionary

end StableNaming
