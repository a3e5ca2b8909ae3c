import StableNaming.Pattern.Part
import StableNaming.Pattern.SetSyntax
import StableNaming.Text.Blank
import StableNaming.Text.Decimal

/-!
# The notation of patterns

Patterns are written with the usual characters: a dot, sets in square brackets,
anchors, groups in round brackets, alternatives, and the repetitions `*`, `+`,
`?` and counts in braces. A backslash takes the next character literally. The
text is read one character at a time, with the groups that are still open on a
stack; text that is no pattern is refused.
-/

namespace StableNaming.Pattern

/-- What has been read of a group: the alternatives before the last bar and the items after
it, both latest first. -/
structure Group where
  /-- Complete alternatives. -/
  alternatives : List Part := []
  /-- The items of the current alternative. -/
  items : List Part := []
  /-- Whether the brackets make a group. -/
  plain : Bool := false
  deriving Repr

/-- The current alternative. -/
def Group.current (g : Group) : Part := .row g.items.reverse

/-- What stands between the brackets. -/
def Group.content (g : Group) : Part := .choice (g.current :: g.alternatives).reverse

/-- The part in its brackets. -/
def Group.close (g : Group) : Part := if g.plain then g.content.bracketed else g.content.grouped

/-- Add an item. -/
def Group.add (g : Group) (p : Part) : Group := { g with items := p :: g.items }

/-- Start the next alternative. -/
def Group.bar (g : Group) : Group :=
  { g with alternatives := g.current :: g.alternatives, items := [] }

/-- Repeat the last item. -/
def Group.repeatLast (g : Group) (low : Nat) (high : Option Nat) (reluctant : Bool) : Group :=
  match g.items with
  | [] => g
  | p :: rest => { g with items := p.repeated low high reluctant :: rest }

/-- How far a count has been read. Blanks may stand on either side of it. -/
inductive Numeral where
  /-- Nothing yet. -/
  | unread
  /-- Blanks. -/
  | padded
  /-- Digits that denote `n` so far. -/
  | digits (n : Nat)
  /-- Digits that denote `n`, and blanks after them. -/
  | complete (n : Nat)
  deriving Repr, DecidableEq

/-- Read a digit or a blank of a count. -/
def Numeral.step? (c : Char) : Numeral → Option Numeral
  | unread | padded => if Text.isBlank c then some padded else (Text.digit? c).map digits
  | digits n =>
    if Text.isBlank c then some (complete n)
    else (Text.digit? c).map fun d => digits (10 * n + d)
  | complete n => if Text.isBlank c then some (complete n) else none

/-- The count that has been read, if it is below the limit. -/
def Numeral.value? : Numeral → Option Nat
  | unread | padded => none
  | digits n | complete n => if n < countLimit then some n else none

/-- What is due next. -/
inductive Due where
  /-- An item, a repetition or a bracket. -/
  | item
  /-- The same; but the last item is repeated first, and a question mark only says how
  eagerly. -/
  | eagerness (low : Nat) (high : Option Nat)
  /-- The character that a backslash makes literal. -/
  | escaped
  /-- What follows an opening bracket. -/
  | opened
  /-- The colon that completes the mark of a plain group. -/
  | colon
  /-- The lower count of a repetition. -/
  | count (low : Numeral)
  /-- The upper count of a repetition. -/
  | upperCount (low : Nat) (high : Numeral)
  /-- More of a set. -/
  | set (s : SetProgress)
  deriving Repr, DecidableEq

/-- How far a pattern has been read. -/
structure Progress where
  /-- The innermost open group. -/
  group : Group := {}
  /-- The groups around it, innermost first. -/
  enclosing : List Group := []
  /-- What is due next. -/
  due : Due := .item
  deriving Repr

namespace Progress

/-- Add an item and go on. -/
def add (s : Progress) (p : Part) : Progress := { s with group := s.group.add p, due := .item }

/-- Close the innermost group; there must be one around it. -/
def close? (s : Progress) : Option Progress :=
  match s.enclosing with
  | [] => none
  | outer :: rest => some { group := outer.add s.group.close, enclosing := rest, due := .item }

/-- Wait for what is due. -/
def await (s : Progress) (due : Due) : Progress := { s with due }

/-- Wait for what is due to repeat the last item; there must be one. -/
def awaitCount? (s : Progress) (due : Due) : Option Progress :=
  if s.group.items.isEmpty then none else some (s.await due)

/-- Repeat the last item and go on. -/
def repeatLast (s : Progress) (low : Nat) (high : Option Nat) (reluctant : Bool) : Progress :=
  { s with group := s.group.repeatLast low high reluctant, due := .item }

/-- Read a character where an item may stand. -/
def stepItem (s : Progress) (c : Char) : Option Progress :=
  match c with
  | '(' => some { group := {}, enclosing := s.group :: s.enclosing, due := .opened }
  | ')' => s.close?
  | '|' => some { s with group := s.group.bar, due := .item }
  | '*' => s.awaitCount? (.eagerness 0 none)
  | '+' => s.awaitCount? (.eagerness 1 none)
  | '?' => s.awaitCount? (.eagerness 0 (some 1))
  | '\x7b' => s.awaitCount? (.count .unread)
  | '[' => some (s.await (.set {}))
  | '\\' => some (s.await .escaped)
  | '.' => some (s.add (.oneOf .dot 0))
  | '^' => some (s.add { form := .atStart })
  | '$' => some (s.add { form := .atEnd })
  | _ => some (s.add (.oneOf (.single c) 0))

/-- Read a character of the lower count. -/
def stepCount (s : Progress) (low : Numeral) (c : Char) : Option Progress :=
  match low.step? c with
  | some low => some (s.await (.count low))
  | none =>
    match low.value?, c with
    | some n, ',' => some (s.await (.upperCount n .unread))
    | some n, '\x7d' => some (s.await (.eagerness n (some n)))
    | _, _ => none

/-- Read a character of the upper count. Without any text there is no upper count. -/
def stepUpperCount (s : Progress) (low : Nat) (high : Numeral) (c : Char) : Option Progress :=
  match high.step? c with
  | some high => some (s.await (.upperCount low high))
  | none =>
    if c = '\x7d' then
      if high = .unread then some (s.await (.eagerness low none))
      else (high.value?.filter (low ≤ ·)).map fun n => s.await (.eagerness low (some n))
    else none

/-- Read a character of a set. -/
def stepSet (s : Progress) (set : SetProgress) (c : Char) : Option Progress :=
  (set.step? c).map fun
    | .more set => s.await (.set set)
    | .complete part => s.add (.oneOf part.set part.depth)

/-- Read a character. -/
def step (s : Progress) (c : Char) : Option Progress :=
  match s.due with
  | .item => s.stepItem c
  | .eagerness low high =>
    if c = '?' then some (s.repeatLast low high true) else (s.repeatLast low high false).stepItem c
  | .escaped => (escape? c).map fun c => s.add (.oneOf (.single c) 0)
  | .opened => if c = '?' then some (s.await .colon) else s.stepItem c
  | .colon => if c = ':' then some { s with group.plain := true, due := .item } else none
  | .count low => s.stepCount low c
  | .upperCount low high => s.stepUpperCount low high c
  | .set set => s.stepSet set c

/-- The pattern that has been read, if nothing is left open. -/
def finish? (s : Progress) : Option Pattern :=
  match s.due, s.enclosing with
  | .item, [] => s.group.content.finish?
  | .eagerness low high, [] => (s.repeatLast low high false).group.content.finish?
  | _, _ => none

end Progress

/-- The pattern that a text denotes. -/
def parse? (text : String) : Option Pattern :=
  (text.toList.foldlM Progress.step {}).bind Progress.finish?

end StableNaming.Pattern
