import StableNaming.Pattern.Automaton.Layout

/-!
# Parts of patterns and their limits

Patterns are put together from parts. Each part knows how deep its notation nests.
Patterns that nest too deep, or for which an automaton would be too large, are
refused.
-/

namespace StableNaming.Pattern

/-- The greatest depth of a pattern. -/
def depthLimit : Nat := 250

/-- The bound on the counts of repetitions. -/
def countLimit : Nat := 4294967296

/-- A part of a pattern. -/
structure Part where
  /-- The pattern in compact form. -/
  form : Compact
  /-- How deep groups, sets, repetitions, rows and choices nest in its notation. -/
  depth : Nat := 0
  deriving Repr

namespace Part

/-- A place for a character of a set. -/
def oneOf (set : CharSet) (depth : Nat) : Part := { form := .ofSet set, depth }

/-- The depth of parts together; a single part is not wrapped. -/
def depthOf : List Part → Nat
  | [] => 0
  | [p] => p.depth
  | ps => ps.foldr (fun p n => max p.depth n) 0 + 1

/-- Parts in a row. -/
def row (ps : List Part) : Part := { form := .ofRow (ps.map form), depth := depthOf ps }

/-- A choice of parts. -/
def choice (ps : List Part) : Part := { form := .ofAlternatives (ps.map form), depth := depthOf ps }

/-- A part in brackets. -/
def bracketed (p : Part) : Part := { p with depth := p.depth + 1 }

/-- A part in brackets that make a group. -/
def grouped (p : Part) : Part := { form := .group p.form, depth := p.depth + 1 }

/-- A part at least `low` times in a row and, with an upper count, at most that often. -/
def repeated (p : Part) (low : Nat) (high : Option Nat) (reluctant : Bool) : Part :=
  { form := p.form.ofRepeated low high reluctant, depth := p.depth + 1 }

/-- The pattern, if the part is within the limits. -/
def finish? (p : Part) : Option Pattern :=
  if p.depth ≤ depthLimit ∧ Automaton.fits p.form then some p.form.pattern else none

end Part

end StableNaming.Pattern
