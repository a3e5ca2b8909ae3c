/-!
# Sets of numbers

A set of natural numbers, kept as the bits of one number.
-/

namespace StableNaming

/-- A finite set of numbers. -/
structure NumberSet where
  /-- The number whose bits are the members. -/
  bits : Nat
  deriving Repr, DecidableEq

namespace NumberSet

/-- The set without members. -/
def empty : NumberSet := ⟨0⟩

/-- Whether a number is a member. -/
def contains (s : NumberSet) (n : Nat) : Bool := s.bits.testBit n

/-- Add a number. -/
def insert (s : NumberSet) (n : Nat) : NumberSet := ⟨s.bits ||| (1 <<< n)⟩

@[simp] theorem contains_empty (n : Nat) : empty.contains n = false := Nat.zero_testBit n

@[simp] theorem contains_insert (s : NumberSet) (n m : Nat) :
    (s.insert n).contains m = (s.contains m || decide (n = m)) := by
  simp only [insert, contains, Nat.testBit_or, Nat.testBit_shiftLeft]
  congr 1
  rw [Bool.eq_iff_iff]
  simp only [Bool.and_eq_true, decide_eq_true_eq, Nat.testBit_one_eq_true_iff_self_eq_zero]
  omega

theorem contains_foldl_insert (ns : List Nat) (s : NumberSet) (m : Nat) :
    (ns.foldl insert s).contains m = (s.contains m || decide (m ∈ ns)) := by
  induction ns generalizing s with
  | nil => simp
  | cons n ns ih =>
    rw [List.foldl_cons, ih, contains_insert, Bool.or_assoc]
    simp [eq_comm]

/-- How many of the numbers below `bound` are not members. -/
def missing (s : NumberSet) (bound : Nat) : Nat :=
  (List.range bound).countP fun n => !s.contains n

/-- Adding a member of a list without repetitions takes one from the count. -/
theorem countP_insert {s : NumberSet} {n : Nat} {ns : List Nat} (hns : ns.Nodup)
    (h : s.contains n = false) :
    (ns.countP fun m => !(s.insert n).contains m) + (if n ∈ ns then 1 else 0) =
      ns.countP fun m => !s.contains m := by
  induction ns with
  | nil => rfl
  | cons m ns ih =>
    obtain ⟨hm, hns⟩ := List.nodup_cons.1 hns
    have ih := ih hns
    simp only [List.countP_cons, contains_insert, List.mem_cons] at ih ⊢
    by_cases hnm : n = m
    · subst hnm
      simp [hm] at ih
      simp [h, ih]
    · simp only [hnm, decide_false, Bool.or_false, false_or]
      omega

/-- Adding a number that is not a member leaves one fewer missing. -/
theorem missing_insert {s : NumberSet} {n bound : Nat} (hn : n < bound)
    (h : s.contains n = false) : (s.insert n).missing bound + 1 = s.missing bound := by
  have := @countP_insert s n (List.range bound) List.nodup_range h
  rwa [if_pos (List.mem_range.2 hn)] at this

end NumberSet

end StableNaming
