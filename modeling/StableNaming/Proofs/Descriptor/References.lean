import Mathlib.Algebra.Order.Ring.Nat
import Mathlib.Data.List.Induction
import StableNaming.Descriptor.Renaming

/-!
# What a renamed descriptor depends on

Renaming asks for the classes that a text refers to, and the result depends on the answers to these
questions only. It also tells the answers apart: texts are numbers of which the characters are the
digits, and a greater name in place of a smaller one makes a greater text.
-/

namespace StableNaming

/-! ## Texts as numbers -/

namespace Text

/-- A row of characters as a number. No digit is zero, so more digits make a greater number. -/
def value (cs : List Char) : Nat := cs.foldl (fun n c => n * 1114112 + (c.toNat + 1)) 0

/-- A text as a number. -/
def rank (s : String) : Nat := value s.toList

theorem value_concat (cs : List Char) (c : Char) :
    value (cs ++ [c]) = value cs * 1114112 + (c.toNat + 1) := by
  rw [value, List.foldl_append]
  rfl

theorem value_append (xs ys : List Char) :
    value (xs ++ ys) = value xs * 1114112 ^ ys.length + value ys := by
  induction ys using List.reverseRecOn with
  | nil => simp [value]
  | append_singleton ys c ih =>
    rw [← List.append_assoc, value_concat, value_concat, ih, List.length_append,
      List.length_singleton, Nat.pow_succ, Nat.add_mul, Nat.mul_assoc, Nat.add_assoc]

/-- No digit is too large. -/
theorem toNat_lt (c : Char) : c.toNat < 1114112 := by
  have hvalid : c.toNat < 55296 ∨ 57343 < c.toNat ∧ c.toNat < 1114112 := c.valid
  omega

/-- Numbers of so many digits. -/
theorem value_bounds (cs : List Char) :
    1114112 ^ cs.length ≤ 1114111 * value cs + 1 ∧
      1114111 * value cs + 1114112 ≤ 1114112 ^ (cs.length + 1) := by
  induction cs using List.reverseRecOn with
  | nil => exact ⟨by decide, by decide⟩
  | append_singleton cs c ih =>
    have hc := toNat_lt c
    rw [List.length_append, List.length_singleton, value_concat]
    simp only [Nat.pow_succ] at ih ⊢
    -- one more digit multiplies both bounds, which is linear in the power of the digits before
    generalize 1114112 ^ cs.length = power at ih ⊢
    omega

/-- A greater number has as many digits. -/
theorem length_le_of_value_le {xs ys : List Char} (h : value xs ≤ value ys) :
    xs.length ≤ ys.length := by
  have hlow := (value_bounds xs).1
  have hhigh := (value_bounds ys).2
  have hlt : 1114112 ^ xs.length < 1114112 ^ (ys.length + 1) := by omega
  exact Nat.le_of_lt_succ ((Nat.pow_lt_pow_iff_right (by decide)).1 hlt)

/-- The digits of a number are determined. -/
theorem value_inj {xs ys : List Char} (h : value xs = value ys) : xs = ys := by
  have hlength : xs.length = ys.length :=
    Nat.le_antisymm (length_le_of_value_le (Nat.le_of_eq h))
      (length_le_of_value_le (Nat.le_of_eq h.symm))
  induction xs using List.reverseRecOn generalizing ys with
  | nil => exact (List.length_eq_zero_iff.1 hlength.symm).symm
  | append_singleton xs c ih =>
    rcases List.eq_nil_or_concat ys with rfl | ⟨ys, d, rfl⟩
    · simp at hlength
    · rw [List.concat_eq_append] at h hlength ⊢
      rw [value_concat, value_concat] at h
      have hc := toNat_lt c
      have hd := toNat_lt d
      have hfront : value xs = value ys := by omega
      have hlast : c.toNat = d.toNat := by omega
      rw [ih hfront (by simpa using hlength), Char.toNat_inj.1 hlast]

theorem rank_inj {s s' : String} (h : rank s = rank s') : s = s' :=
  String.toList_inj.1 (value_inj h)

/-- Greater parts make a greater number. -/
theorem value_append_le {xs xs' ys ys' : List Char} (hx : value xs ≤ value xs')
    (hy : value ys ≤ value ys') : value (xs ++ ys) ≤ value (xs' ++ ys') := by
  have hpower : 1114112 ^ ys.length ≤ 1114112 ^ ys'.length :=
    Nat.pow_le_pow_right (by decide) (length_le_of_value_le hy)
  rw [value_append, value_append]
  exact Nat.add_le_add (Nat.mul_le_mul hx hpower) hy

/-- Parts one of which is strictly greater make a strictly greater number. -/
theorem value_append_lt {xs xs' ys ys' : List Char} (hx : value xs ≤ value xs')
    (hy : value ys ≤ value ys') (hlt : value xs < value xs' ∨ value ys < value ys') :
    value (xs ++ ys) < value (xs' ++ ys') := by
  have hpower : 1114112 ^ ys.length ≤ 1114112 ^ ys'.length :=
    Nat.pow_le_pow_right (by decide) (length_le_of_value_le hy)
  rw [value_append, value_append]
  rcases hlt with hlt | hlt
  · have hmul : value xs * 1114112 ^ ys.length < value xs' * 1114112 ^ ys'.length :=
      Nat.mul_lt_mul_of_lt_of_le hlt hpower (Nat.pow_pos (by decide))
    exact Nat.add_lt_add_of_lt_of_le hmul hy
  · exact Nat.add_lt_add_of_le_of_lt (Nat.mul_le_mul hx hpower) hlt

theorem value_cons_le {c : Char} {xs ys : List Char} (h : value xs ≤ value ys) :
    value (c :: xs) ≤ value (c :: ys) :=
  value_append_le (Nat.le_refl (value [c])) h

theorem value_cons_lt {c : Char} {xs ys : List Char} (h : value xs < value ys) :
    value (c :: xs) < value (c :: ys) :=
  value_append_lt (Nat.le_refl (value [c])) (Nat.le_of_lt h) (.inr h)

end Text

/-! ## The classes that a text refers to -/

namespace Descriptor

open Text

/-- The names between an `L` and the next semicolon; the first argument is the name read so far when
the text starts inside a reference. -/
def referencesFrom : Option (List Char) → List Char → List String
  | none, [] => []
  | none, c :: cs => referencesFrom (if c = 'L' then some [] else none) cs
  | some _, [] => []
  | some name, c :: cs =>
    if c = ';' then String.ofList name :: referencesFrom none cs
    else referencesFrom (some (name ++ [c])) cs

/-- The classes that a text refers to. -/
def references (desc : String) : List String := referencesFrom none desc.toList

variable {f g : String → Option String}

/-- What is written for a class. -/
theorem elim_eq_toList_getD (f : String → Option String) (name : List Char) :
    (f (String.ofList name)).elim name String.toList =
      ((f (String.ofList name)).getD (String.ofList name)).toList := by
  cases f (String.ofList name) with
  | none => exact (String.toList_ofList).symm
  | some answer => rfl

/-- Renaming depends on the answers for the classes that the text refers to only. -/
theorem rename_congr {desc : String}
    (h : ∀ name ∈ references desc, (f name).getD name = (g name).getD name) :
    rename f desc = rename g desc := by
  have hchars : ∀ (cs : List Char) (inside : Option (List Char)),
      (∀ name ∈ referencesFrom inside cs, (f name).getD name = (g name).getD name) →
        renameChars f inside cs = renameChars g inside cs := by
    intro cs
    induction cs with
    | nil => intro inside _; cases inside <;> rfl
    | cons c cs ih =>
      intro inside hanswers
      cases inside with
      | none => exact congrArg (c :: ·) (ih _ hanswers)
      | some name =>
        rw [referencesFrom] at hanswers
        rw [renameChars, renameChars]
        split
        · rename_i hc
          rw [if_pos hc] at hanswers
          obtain ⟨hname, hrest⟩ := List.forall_mem_cons.1 hanswers
          rw [elim_eq_toList_getD, elim_eq_toList_getD, hname, ih none hrest]
        · rename_i hc
          rw [if_neg hc] at hanswers
          exact ih _ hanswers
  exact congrArg String.ofList (hchars desc.toList none h)

/-- Greater answers make a greater text. -/
theorem value_renameChars_le (hle : ∀ name, rank ((f name).getD name) ≤ rank ((g name).getD name))
    (inside : Option (List Char)) (cs : List Char) :
    value (renameChars f inside cs) ≤ value (renameChars g inside cs) := by
  induction cs generalizing inside with
  | nil => cases inside <;> exact Nat.le_refl _
  | cons c cs ih =>
    cases inside with
    | none => exact value_cons_le (ih _)
    | some name =>
      rw [renameChars, renameChars]
      split
      · rw [elim_eq_toList_getD, elim_eq_toList_getD]
        exact value_append_le (hle _) (value_cons_le (ih none))
      · exact ih _

/-- A strictly greater answer for a class that is referred to makes a strictly greater text. -/
theorem value_renameChars_lt (hle : ∀ name, rank ((f name).getD name) ≤ rank ((g name).getD name))
    {inside : Option (List Char)} {cs : List Char} {name : String}
    (hname : name ∈ referencesFrom inside cs)
    (hlt : rank ((f name).getD name) < rank ((g name).getD name)) :
    value (renameChars f inside cs) < value (renameChars g inside cs) := by
  induction cs generalizing inside with
  | nil => cases inside <;> cases hname
  | cons c cs ih =>
    cases inside with
    | none =>
      exact value_cons_lt (ih hname)
    | some front =>
      rw [referencesFrom] at hname
      rw [renameChars, renameChars]
      split
      · rename_i hc
        rw [if_pos hc, List.mem_cons] at hname
        rw [elim_eq_toList_getD, elim_eq_toList_getD]
        refine value_append_lt (hle _) (value_cons_le (value_renameChars_le hle none cs)) ?_
        rcases hname with rfl | hname
        · exact .inl hlt
        · exact .inr (value_cons_lt (ih hname))
      · rename_i hc
        rw [if_neg hc] at hname
        exact ih hname

theorem rank_rename_le (hle : ∀ name, rank ((f name).getD name) ≤ rank ((g name).getD name))
    (desc : String) : rank (rename f desc) ≤ rank (rename g desc) := by
  rw [rank, rank, rename, rename, String.toList_ofList, String.toList_ofList]
  exact value_renameChars_le hle none desc.toList

theorem rank_rename_lt (hle : ∀ name, rank ((f name).getD name) ≤ rank ((g name).getD name))
    {desc name : String} (hname : name ∈ references desc)
    (hlt : rank ((f name).getD name) < rank ((g name).getD name)) :
    rank (rename f desc) < rank (rename g desc) := by
  rw [rank, rank, rename, rename, String.toList_ofList, String.toList_ofList]
  exact value_renameChars_lt hle hname hlt

end Descriptor

end StableNaming
