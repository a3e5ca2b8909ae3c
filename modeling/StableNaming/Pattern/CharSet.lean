/-!
# Sets of characters

The sets that a name pattern can ask for at one place. A set is given by the
code points at which it begins and ends, so two sets with the same characters
are equal. The operators on sets go through both lists of edges side by side.
Main statement: a combined set contains what the operator says.
-/

namespace StableNaming

/-- A set of characters. -/
structure CharSet where
  /-- The code points at which the set begins, ends, begins again and so on. -/
  edges : List Nat
  /-- The edges ascend. -/
  ascending : edges.Pairwise (· < ·)
  deriving Repr, DecidableEq

namespace CharSet

/-- Whether a code point is inside, if those before the first edge are inside as `b` says. -/
def inside (b : Bool) : List Nat → Nat → Bool
  | [], _ => b
  | e :: es, n => if n < e then b else inside (!b) es n

/-- Whether a character is in the set. -/
def contains (s : CharSet) (c : Char) : Bool := inside false s.edges c.toNat

/-- Put an edge in front, if the answer changes there. -/
def turn (before after : Bool) (e : Nat) (es : List Nat) : List Nat :=
  if before = after then es else e :: es

/-- The edges of what an operator makes of two sets; `a` and `b` say whether the code points
before the first edges are inside. -/
def merge (f : Bool → Bool → Bool) (a b : Bool) : List Nat → List Nat → List Nat
  | [], [] => []
  | x :: xs, [] => turn (f a b) (f (!a) b) x (merge f (!a) b xs [])
  | [], y :: ys => turn (f a b) (f a !b) y (merge f a (!b) [] ys)
  | x :: xs, y :: ys =>
    if x < y then turn (f a b) (f (!a) b) x (merge f (!a) b xs (y :: ys))
    else if y < x then turn (f a b) (f a !b) y (merge f a (!b) (x :: xs) ys)
    else turn (f a b) (f (!a) !b) x (merge f (!a) (!b) xs ys)
termination_by xs ys => xs.length + ys.length

section Merge

variable {f : Bool → Bool → Bool} {a b : Bool} {xs ys : List Nat} {n x : Nat}

/-- Code points below all edges are inside as those before the first edge. -/
theorem inside_of_forall_lt (h : ∀ e ∈ xs, n < e) : inside b xs n = b := by
  cases xs with
  | nil => rfl
  | cons e es => simp [inside, h e]

/-- An edge that changes nothing can be left out. -/
theorem inside_turn (h : n < x → inside b xs n = b) :
    inside a (turn a b x xs) n = if n < x then a else inside b xs n := by
  unfold turn
  split
  · split <;> simp_all
  · have : b = !a := by cases a <;> cases b <;> simp_all
    simp [inside, this]

/-- An edge below all others can stand in front. -/
theorem pairwise_turn (hx : xs.Pairwise (· < ·)) (h : ∀ e ∈ xs, x < e) :
    (turn a b x xs).Pairwise (· < ·) := by
  unfold turn
  split
  · exact hx
  · exact List.pairwise_cons.2 ⟨h, hx⟩

/-- The edges are among those of the two sets. -/
theorem mem_of_mem_merge : x ∈ merge f a b xs ys → x ∈ xs ∨ x ∈ ys := by
  fun_induction merge f a b xs ys <;> grind [turn]

/-- The edges ascend, as those of the two sets do. -/
theorem pairwise_merge_edges (hx : xs.Pairwise (· < ·)) (hy : ys.Pairwise (· < ·)) :
    (merge f a b xs ys).Pairwise (· < ·) := by
  fun_induction merge f a b xs ys with
  | case1 => exact .nil
  | case2 a b x xs ih =>
    have hx := List.pairwise_cons.1 hx
    exact pairwise_turn (ih hx.2 hy) fun e he => by have := mem_of_mem_merge he; grind
  | case3 a b y ys ih =>
    have hy := List.pairwise_cons.1 hy
    exact pairwise_turn (ih hx hy.2) fun e he => by have := mem_of_mem_merge he; grind
  | case4 a b x xs y ys h ih =>
    have hx := List.pairwise_cons.1 hx
    have hy' := List.pairwise_cons.1 hy
    exact pairwise_turn (ih hx.2 hy) fun e he => by have := mem_of_mem_merge he; grind
  | case5 a b x xs y ys _ h ih =>
    have hx' := List.pairwise_cons.1 hx
    have hy := List.pairwise_cons.1 hy
    exact pairwise_turn (ih hx hy.2) fun e he => by have := mem_of_mem_merge he; grind
  | case6 a b x xs y ys _ _ ih =>
    have hx := List.pairwise_cons.1 hx
    have hy := List.pairwise_cons.1 hy
    exact pairwise_turn (ih hx.2 hy.2) fun e he => by have := mem_of_mem_merge he; grind

/-- A code point is inside as the operator says. -/
theorem inside_merge (hx : xs.Pairwise (· < ·)) (hy : ys.Pairwise (· < ·)) :
    inside (f a b) (merge f a b xs ys) n = f (inside a xs n) (inside b ys n) := by
  fun_induction merge f a b xs ys with
  | case1 => rfl
  | case2 a b x xs ih =>
    have hx := List.pairwise_cons.1 hx
    rw [inside_turn] <;> grind [inside, inside_of_forall_lt]
  | case3 a b y ys ih =>
    have hy := List.pairwise_cons.1 hy
    rw [inside_turn] <;> grind [inside, inside_of_forall_lt]
  | case4 a b x xs y ys h ih =>
    have hx := List.pairwise_cons.1 hx
    rw [inside_turn] <;> grind [inside, inside_of_forall_lt]
  | case5 a b x xs y ys _ h ih =>
    have hy := List.pairwise_cons.1 hy
    rw [inside_turn] <;> grind [inside, inside_of_forall_lt]
  | case6 a b x xs y ys _ _ ih =>
    have hx := List.pairwise_cons.1 hx
    have hy := List.pairwise_cons.1 hy
    rw [inside_turn] <;> grind [inside, inside_of_forall_lt]

end Merge

/-- The characters for which an operator on the two sets holds; it must not hold where
neither set does. -/
def combine (f : Bool → Bool → Bool) (s t : CharSet) : CharSet :=
  ⟨merge f false false s.edges t.edges, pairwise_merge_edges s.ascending t.ascending⟩

/-- A combined set contains what the operator says. -/
theorem contains_combine {f : Bool → Bool → Bool} {s t : CharSet} {c : Char}
    (hf : f false false = false) :
    (combine f s t).contains c = f (s.contains c) (t.contains c) := by
  have := @inside_merge f false false s.edges t.edges c.toNat s.ascending t.ascending
  rwa [hf] at this

/-- The characters in either set. -/
def union (s t : CharSet) : CharSet := combine (· || ·) s t

/-- The characters in both sets. -/
def inter (s t : CharSet) : CharSet := combine (· && ·) s t

/-- The characters in the first set but not in the second. -/
def diff (s t : CharSet) : CharSet := combine (fun a b => a && !b) s t

/-- The characters in exactly one of the sets. -/
def symmDiff (s t : CharSet) : CharSet := combine (· != ·) s t

/-- No character. -/
def empty : CharSet := ⟨[], .nil⟩

/-- All characters; surrogates are none. -/
def all : CharSet := ⟨[0, 0xd800, 0xe000, 0x110000], by decide⟩

/-- The characters outside a set. -/
def compl (s : CharSet) : CharSet := all.diff s

/-- The characters from `low` to `high`, both included. -/
def range (low high : Char) : CharSet :=
  if h : low.toNat ≤ high.toNat then
    all.inter ⟨[low.toNat, high.toNat + 1], List.pairwise_pair.2 (Nat.lt_succ_of_le h)⟩
  else empty

/-- The set of one character. -/
def single (c : Char) : CharSet := range c c

/-- Everything but the line feed. -/
def dot : CharSet := compl (single '\n')

section Contains

variable {s t : CharSet} {c : Char}

/-- A union contains what either set contains. -/
@[simp] theorem contains_union : (union s t).contains c = (s.contains c || t.contains c) :=
  contains_combine rfl

/-- An intersection contains what both sets contain. -/
@[simp] theorem contains_inter : (inter s t).contains c = (s.contains c && t.contains c) :=
  contains_combine rfl

/-- A difference contains what the first set alone contains. -/
@[simp] theorem contains_diff : (diff s t).contains c = (s.contains c && !t.contains c) :=
  contains_combine rfl

/-- A symmetric difference contains what one of the sets alone contains. -/
@[simp] theorem contains_symmDiff : (symmDiff s t).contains c = (s.contains c != t.contains c) :=
  contains_combine rfl

/-- The empty set contains nothing. -/
@[simp] theorem contains_empty : empty.contains c = false := rfl

/-- The set of all characters contains each. -/
@[simp] theorem contains_all : all.contains c = true := by
  have h : c.toNat < 0xd800 ∨ 0xdfff < c.toNat ∧ c.toNat < 0x110000 := c.valid
  simp only [contains, all, inside]
  grind

/-- A complement contains what the set does not. -/
@[simp] theorem contains_compl : (compl s).contains c = !s.contains c := by
  simp [compl]

/-- A range contains what lies between its ends. -/
@[simp] theorem contains_range {low high : Char} :
    (range low high).contains c = (decide (low ≤ c) && decide (c ≤ high)) := by
  have h₁ : low ≤ c ↔ low.toNat ≤ c.toNat := Iff.rfl
  have h₂ : c ≤ high ↔ c.toNat ≤ high.toNat := Iff.rfl
  unfold range
  split
  · rw [contains_inter, contains_all]
    simp only [contains, inside, h₁, h₂]
    grind
  · rw [contains_empty]
    grind

/-- A single character is in its own set only. -/
@[simp] theorem contains_single {d : Char} : (single c).contains d = decide (c = d) := by
  have : (c ≤ d ∧ d ≤ c) ↔ c = d :=
    ⟨fun h => Char.le_antisymm h.1 h.2, fun h => h ▸ ⟨Char.le_refl _, Char.le_refl _⟩⟩
  simp [single, ← Bool.decide_and, this]

/-- The dot leaves out the line feed only. -/
theorem contains_dot : dot.contains c = !decide ('\n' = c) := by
  simp [dot]

end Contains

/-- The ranges between edges, with their least and greatest code points. -/
def rangesOf : List Nat → List (Nat × Nat)
  | [] => []
  | [low] => [(low, 0x10ffff)]
  | low :: stop :: es => (low, stop - 1) :: rangesOf es

/-- The ranges of a set in ascending order, with gaps between them. -/
def ranges (s : CharSet) : List (Nat × Nat) := rangesOf s.edges

end CharSet

end StableNaming
