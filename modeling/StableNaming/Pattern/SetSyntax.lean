import StableNaming.Pattern.CharSet

/-!
# The notation of character sets

A set is written in square brackets: characters, ranges and further sets in a
row. A caret in front takes what is outside. Two such rows can be combined by
the operators `&&`, `--` and `~~`, which group to the left. A hyphen stands for
itself at either end, and so does a closing bracket that comes first. Sets that
are called by name, between colons, are not known here and refused. The text is
read one character at a time.
-/

namespace StableNaming

/-- The character that a backslash and `c` stand for. -/
def escape? (c : Char) : Option Char :=
  match c with
  | 'n' => some '\n'
  | 't' => some '\t'
  | 'r' => some '\r'
  | 'f' => some '\x0c'
  | 'v' => some '\x0b'
  | 'a' => some '\x07'
  | _ => if c.toNat < 0x80 ∧ !c.isAlphanum ∧ c ≠ '<' ∧ c ≠ '>' then some c else none

/-- An operator between two rows of elements. -/
inductive SetOperator where
  /-- What both sides have. -/
  | inter
  /-- What only the left side has. -/
  | diff
  /-- What one side alone has. -/
  | symmDiff
  deriving Repr, DecidableEq

/-- The operator that a character written twice stands for. -/
def SetOperator.ofChar? (c : Char) : Option SetOperator :=
  match c with
  | '&' => some .inter
  | '-' => some .diff
  | '~' => some .symmDiff
  | _ => none

/-- The set that an operator makes. -/
def SetOperator.apply : SetOperator → CharSet → CharSet → CharSet
  | inter, s, t => s.inter t
  | diff, s, t => s.diff t
  | symmDiff, s, t => s.symmDiff t

/-- A set with the nesting depth of its notation. -/
structure SetPart where
  /-- The set. -/
  set : CharSet
  /-- How deep brackets, rows and operators nest in it. -/
  depth : Nat := 0
  deriving Repr, DecidableEq

/-- A set whose closing bracket has not been read. -/
structure OpenSet where
  /-- Whether a caret came first. -/
  negated : Bool := false
  /-- What stands left of the last operator, and that operator. -/
  left : Option (SetPart × SetOperator) := none
  /-- The elements after it. -/
  elements : CharSet := .empty
  /-- How many these are. -/
  count : Nat := 0
  /-- The depth of the deepest of them. -/
  depth : Nat := 0
  deriving Repr, DecidableEq

namespace OpenSet

/-- Add an element. -/
def add (s : OpenSet) (element : SetPart) : OpenSet :=
  { s with
    elements := s.elements.union element.set
    count := s.count + 1
    depth := max s.depth element.depth }

/-- The elements after the last operator; two or more of them nest. -/
def row (s : OpenSet) : SetPart :=
  { set := s.elements, depth := if s.count ≤ 1 then s.depth else s.depth + 1 }

/-- What has been read between the brackets. -/
def content (s : OpenSet) : SetPart :=
  match s.left with
  | none => s.row
  | some (l, operator) =>
    { set := operator.apply l.set s.row.set, depth := max l.depth s.row.depth + 1 }

/-- Begin the right side of an operator. -/
def combine (s : OpenSet) (operator : SetOperator) : OpenSet :=
  { negated := s.negated, left := some (s.content, operator) }

/-- The set, once the closing bracket has been read. -/
def close (s : OpenSet) : SetPart :=
  { set := if s.negated then .compl s.content.set else s.content.set
    depth := s.content.depth + 1 }

end OpenSet

/-- What is due between square brackets. -/
inductive SetDue where
  /-- A caret, or what `front` admits. -/
  | sign
  /-- A closing bracket that stands for itself, or what `hyphens` admits. -/
  | front
  /-- A hyphen that stands for itself, or what `element` admits. -/
  | hyphens
  /-- An element, an operator or the end. -/
  | element
  /-- The same; but the character in front may be the low end of a range. -/
  | range (low : Char)
  /-- The same as after an element; but the character in front, once more, makes an
  operator. -/
  | operator (mark : Char)
  /-- The high end of a range; a hyphen came in front. -/
  | high (low : Char)
  deriving Repr, DecidableEq

/-- How far a set has been read. -/
structure SetProgress where
  /-- The innermost open set. -/
  inner : OpenSet := {}
  /-- The sets around it, innermost first. -/
  enclosing : List OpenSet := []
  /-- What is due next. -/
  due : SetDue := .sign
  /-- Whether a backslash makes the next character literal. -/
  escaping : Bool := false
  deriving Repr, DecidableEq

/-- What a character of a set leads to. -/
inductive SetStep where
  /-- The set goes on. -/
  | more (s : SetProgress)
  /-- The set is complete. -/
  | complete (set : SetPart)
  deriving Repr, DecidableEq

namespace SetProgress

/-- Add a range of characters. -/
def add (s : SetProgress) (low high : Char) : SetProgress :=
  { s with inner := s.inner.add { set := .range low high } }

/-- Wait for what is due. -/
def await (s : SetProgress) (due : SetDue) : SetProgress := { s with due }

/-- Take a character that waits for company as an element. -/
def settle (s : SetProgress) : SetProgress :=
  match s.due with
  | .range c | .operator c => (s.add c c).await .element
  | _ => s.await .element

/-- Begin the right side of an operator. -/
def combine (s : SetProgress) (operator : SetOperator) : SetProgress :=
  { s with inner := s.inner.combine operator, due := .element }

/-- Close the innermost set. -/
def close (s : SetProgress) : SetStep :=
  match s.enclosing with
  | [] => .complete s.inner.close
  | outer :: rest =>
    .more { inner := outer.add s.inner.close, enclosing := rest, due := .element }

/-- Read a character where an element, an operator or the end is due. -/
def stepElement (s : SetProgress) (c : Char) : SetStep :=
  match c with
  | '[' => .more { enclosing := s.inner :: s.enclosing }
  | ']' => s.close
  | '\\' => .more { s with escaping := true }
  | _ => .more (s.await (if (SetOperator.ofChar? c).isSome then .operator c else .range c))

/-- Read the high end of a range, which is not below the low end. -/
def stepHigh? (s : SetProgress) (low high : Char) : Option SetStep :=
  if low ≤ high then some (.more ((s.add low high).await .element)) else none

/-- Read a character after a backslash. -/
def stepEscaped? (s : SetProgress) (c : Char) : Option SetStep :=
  let s := { s with escaping := false }
  (escape? c).bind fun c =>
    match s.due with
    | .high low => s.stepHigh? low c
    | _ => some (.more (s.await (.range c)))

/-- Read a character that no backslash precedes. -/
def stepPlain? (s : SetProgress) (c : Char) : Option SetStep :=
  match s.due, c with
  | .sign, '^' => some (.more { s with inner := { negated := true }, due := .front })
  | .sign, ':' => if s.enclosing.isEmpty then some (s.settle.stepElement c) else none
  | .sign, ']' | .front, ']' => some (.more ((s.add c c).await .element))
  | .sign, '-' | .front, '-' | .hyphens, '-' => some (.more ((s.add c c).await .hyphens))
  | .range low, '-' => some (.more (s.await (.high low)))
  | .high low, ']' => some ((s.add low low).add '-' '-').close
  | .high low, '-' => some (.more ((s.add low low).combine .diff))
  | .high _, '\\' => some (.more { s with escaping := true })
  | .high low, _ => s.stepHigh? low c
  | .operator mark, _ =>
    match SetOperator.ofChar? c with
    | some operator =>
      if c = mark then some (.more (s.combine operator))
      else if c = '-' then some (.more (s.await (.high mark)))
      else some (s.settle.stepElement c)
    | none => some (s.settle.stepElement c)
  | _, _ => some (s.settle.stepElement c)

/-- Read a character. -/
def step? (s : SetProgress) (c : Char) : Option SetStep :=
  if s.escaping then s.stepEscaped? c else s.stepPlain? c

end SetProgress

end StableNaming
