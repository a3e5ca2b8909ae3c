import StableNaming.Collection.Sorting

/-!
# Member keys

Within one class a field or method is identified by its name together with its
descriptor. Keys are ordered by name, then by descriptor, in code point order.
-/

namespace StableNaming

/-- Name and descriptor of a field or method. -/
structure MemberKey where
  /-- The name. -/
  name : String
  /-- The descriptor, which spells out the types. -/
  desc : String
  deriving Repr, DecidableEq, Inhabited

namespace MemberKey

/-- Initializers have reserved names in angle brackets. -/
def isInitializer (k : MemberKey) : Bool := k.name.toList.head? = some '<'

/-- The key as it appears in reports: a method descriptor follows the name directly,
a field descriptor after a colon. -/
def text (k : MemberKey) : String :=
  if k.desc.toList.head? = some '(' then k.name ++ k.desc else k.name ++ ":" ++ k.desc

/-- Order by name, then by descriptor. -/
def Before (a b : MemberKey) : Prop := a.name < b.name ∨ a.name = b.name ∧ a.desc < b.desc

instance : LT MemberKey := ⟨Before⟩

instance (a b : MemberKey) : Decidable (a < b) :=
  inferInstanceAs (Decidable (a.name < b.name ∨ a.name = b.name ∧ a.desc < b.desc))

/-- Whether `a` does not come after `b`. -/
def le (a b : MemberKey) : Bool := !decide (b < a)

/-- Keys in ascending order. -/
def sort (keys : List MemberKey) : List MemberKey := Collection.sortBy le keys

theorem lt_iff {a b : MemberKey} :
    a < b ↔ a.name < b.name ∨ a.name = b.name ∧ a.desc < b.desc := Iff.rfl

theorem lt_irrefl (a : MemberKey) : ¬ a < a := by
  rw [lt_iff]
  rintro (h | ⟨-, h⟩)
  · exact String.lt_irrefl _ h
  · exact String.lt_irrefl _ h

theorem ne_of_lt {a b : MemberKey} (h : a < b) : a ≠ b :=
  fun heq => lt_irrefl b (heq ▸ h)

theorem lt_trans {a b c : MemberKey} (hab : a < b) (hbc : b < c) : a < c := by
  rw [lt_iff] at *
  rcases hab with hab | ⟨hn, hab⟩
  · rcases hbc with hbc | ⟨hn', -⟩
    · exact .inl (String.lt_trans hab hbc)
    · exact .inl (hn' ▸ hab)
  · rcases hbc with hbc | ⟨hn', hbc⟩
    · exact .inl (hn ▸ hbc)
    · exact .inr ⟨hn.trans hn', String.lt_trans hab hbc⟩

theorem textLt_of_not_lt {a b : String} (h : ¬ a < b) (hne : a ≠ b) : b < a :=
  Std.lt_of_le_of_ne (String.not_lt.1 h) (Ne.symm hne)

/-- Two different keys are in order one way or the other. -/
theorem lt_of_not_lt {a b : MemberKey} (h : ¬ a < b) (hne : a ≠ b) : b < a := by
  rw [lt_iff, not_or] at h
  rw [lt_iff]
  by_cases hn : a.name = b.name
  · refine .inr ⟨hn.symm, textLt_of_not_lt (fun hd => h.2 ⟨hn, hd⟩) fun hd => hne ?_⟩
    cases a; cases b; simp_all
  · exact .inl (textLt_of_not_lt h.1 hn)

end MemberKey

end StableNaming
