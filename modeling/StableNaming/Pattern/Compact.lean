import StableNaming.Pattern.Basic

/-!
# Patterns in compact form

A pattern in compact form keeps its repetitions as counts and its characters
together in words, as far as that goes. It is put together by operations that
simplify: rows and choices of one part are that part, words in a row are joined, a
choice between characters or sets is a set, and what all choices begin with is
taken out in front. Written out, the compact form is a pattern.
-/

namespace StableNaming.Pattern

/-- A pattern in compact form. -/
inductive Compact where
  /-- Matches the empty text. -/
  | empty
  /-- Matches the empty text at the start of the name. -/
  | atStart
  /-- Matches the empty text at the end of the name. -/
  | atEnd
  /-- Matches a word; there is at least one character. -/
  | word (text : List Char)
  /-- Matches a character of a set; a set of one character is a word. -/
  | oneOf (set : CharSet)
  /-- Matches what a pattern in brackets matches. -/
  | group (body : Compact)
  /-- Matches a pattern at least `low` times and at most `high` times in a row; `reluctant`
  says whether fewer times are preferred. -/
  | repeated (body : Compact) (low : Nat) (high : Option Nat) (reluctant : Bool)
  /-- Matches two or more patterns in a row. -/
  | row (items : List Compact)
  /-- Matches one of two or more patterns. -/
  | choice (alternatives : List Compact)
  deriving Repr

/-- One of several patterns. -/
def anyOf : List Pattern → Pattern
  | [] => .oneOf .empty
  | [p] => p
  | p :: ps => .either p (anyOf ps)

namespace Compact

mutual

/-- The pattern, written out. -/
def pattern : Compact → Pattern
  | empty => .empty
  | atStart => .atStart
  | atEnd => .atEnd
  | word text => Pattern.row (text.map fun c => .oneOf (.single c))
  | oneOf set => .oneOf set
  | group body => body.pattern
  | repeated body low high _ => body.pattern.between low high
  | row items => Pattern.row (patterns items)
  | choice alternatives => anyOf (patterns alternatives)

/-- The patterns, written out. -/
def patterns : List Compact → List Pattern
  | [] => []
  | p :: ps => p.pattern :: patterns ps

end

mutual

/-- Whether the pattern matches the empty text only; a set is never taken for such a pattern. -/
def isBlank : Compact → Bool
  | empty | atStart | atEnd => true
  | word _ | oneOf _ => false
  | group body => body.isBlank
  | repeated body _ high _ => high.isSome && body.isBlank
  | row items => areBlank items
  | choice alternatives => areBlank alternatives

/-- Whether all the patterns match the empty text only. -/
def areBlank : List Compact → Bool
  | [] => true
  | p :: ps => p.isBlank && areBlank ps

end

mutual

/-- The least length of a text that the pattern matches, unless a set without characters
stands in its way or in that of some choice. -/
def shortest : Compact → Option Nat
  | empty | atStart | atEnd => some 0
  | word text => some text.length
  | oneOf set => if set.ranges.isEmpty then none else some 1
  | group body => body.shortest
  | repeated body low _ _ => body.shortest.map (low * ·)
  | row items => (shortestOfEach items).map List.sum
  | choice alternatives => (shortestOfEach alternatives).bind List.min?

/-- The least lengths for each of the patterns. -/
def shortestOfEach : List Compact → Option (List Nat)
  | [] => some []
  | p :: ps => do return (← p.shortest) :: (← shortestOfEach ps)

end

mutual

/-- Whether a match can only begin at the start of a name, as far as the anchors in front
show it. -/
def beginsAtStart : Compact → Bool
  | atStart => true
  | group body => body.beginsAtStart
  | repeated body low _ _ => low != 0 && body.beginsAtStart
  | row items => someBeginsAtStart items
  | choice alternatives => eachBeginsAtStart alternatives
  | _ => false

/-- The same for patterns in a row; those behind others that match the empty text only count
too. -/
def someBeginsAtStart : List Compact → Bool
  | [] => false
  | p :: ps => p.beginsAtStart || (p.isBlank && someBeginsAtStart ps)

/-- The same for each of the patterns. -/
def eachBeginsAtStart : List Compact → Bool
  | [] => true
  | p :: ps => p.beginsAtStart && eachBeginsAtStart ps

end

mutual

/-- Whether a match can only end at the end of a name, as far as the anchors behind show it. -/
def finishesAtEnd : Compact → Bool
  | atEnd => true
  | group body => body.finishesAtEnd
  | repeated body low _ _ => low != 0 && body.finishesAtEnd
  | row items => someFinishesAtEnd items
  | choice alternatives => eachFinishesAtEnd alternatives
  | _ => false

/-- The same for patterns in a row; those in front of others that match the empty text only
count too. -/
def someFinishesAtEnd : List Compact → Bool
  | [] => false
  | p :: ps => someFinishesAtEnd ps || (areBlank ps && p.finishesAtEnd)

/-- The same for each of the patterns. -/
def eachFinishesAtEnd : List Compact → Bool
  | [] => true
  | p :: ps => p.finishesAtEnd && eachFinishesAtEnd ps

end

mutual

/-- Whether two patterns are the same and free of groups, each of which is its own. -/
def agrees : Compact → Compact → Bool
  | empty, empty | atStart, atStart | atEnd, atEnd => true
  | word u, word v => u = v
  | oneOf s, oneOf t => s = t
  | repeated p low high reluctant, repeated q low' high' reluctant' =>
    low = low' && high = high' && reluctant = reluctant' && p.agrees q
  | row ps, row qs => allAgree ps qs
  | choice ps, choice qs => allAgree ps qs
  | _, _ => false

/-- Whether two lists of patterns agree one by one. -/
def allAgree : List Compact → List Compact → Bool
  | [], [] => true
  | p :: ps, q :: qs => p.agrees q && allAgree ps qs
  | _, _ => false

end

/-- A character of a set; the only character of a set is a word. -/
def ofSet (set : CharSet) : Compact :=
  match set.ranges with
  | [(low, high)] => if low = high ∧ low.isValidChar then word [.ofNat low] else oneOf set
  | _ => oneOf set

/-- What stands in a row. -/
def items : Compact → List Compact
  | empty => []
  | row ps => ps
  | p => [p]

/-- Put an item in front of a row; words are joined. -/
def join : Compact → List Compact → List Compact
  | word u, word v :: ps => word (u ++ v) :: ps
  | p, ps => p :: ps

/-- Patterns in a row. -/
def ofRow (ps : List Compact) : Compact :=
  match (ps.flatMap items).foldr join [] with
  | [] => empty
  | [p] => p
  | ps => row ps

/-- What there is to choose from. -/
def alternatives : Compact → List Compact
  | choice ps => ps
  | p => [p]

/-- The character of a word of one character. -/
def char? : Compact → Option Char
  | word [c] => some c
  | _ => none

/-- The set of a place for a character of a set. -/
def set? : Compact → Option CharSet
  | oneOf set => some set
  | _ => none

/-- The union of sets. -/
def unionOf (sets : List CharSet) : CharSet := sets.foldl .union .empty

/-- A choice; choices between characters or between sets are sets. -/
def ofChoice (ps : List Compact) : Compact :=
  let ps := ps.flatMap alternatives
  match ps with
  | [p] => p
  | _ =>
    match ps.mapM char? with
    | some cs => ofSet (unionOf (cs.map .single))
    | none =>
      match ps.mapM set? with
      | some sets => ofSet (unionOf sets)
      | none => choice ps

/-- How many items two rows agree in, from the front. -/
def agreement : List Compact → List Compact → Nat
  | p :: ps, q :: qs => if p.agrees q then agreement ps qs + 1 else 0
  | _, _ => 0

/-- The items of a row of two or more. -/
def row? : Compact → Option (List Compact)
  | row ps => some ps
  | _ => none

/-- Take out what all alternatives begin with. What they go on with differs at once, so
nothing is left to take out. -/
def factored (ps : List Compact) : Option Compact :=
  match ps.mapM row? with
  | some (first :: others) =>
    let n := (others.map (agreement first)).foldl min first.length
    if n = 0 then none
    else some (ofRow (first.take n ++ [ofChoice ((first :: others).map fun r => ofRow (r.drop n))]))
  | _ => none

/-- A choice. -/
def ofAlternatives (ps : List Compact) : Compact :=
  match ofChoice ps with
  | choice ps => (factored ps).getD (choice ps)
  | p => p

/-- A pattern at least `low` times in a row and, with an upper count, at most that often.
What matches the empty text only repeats to no effect. -/
def ofRepeated (p : Compact) (low : Nat) (high : Option Nat) (reluctant : Bool) : Compact :=
  let low := if p.isBlank then min low 1 else low
  let high := if p.isBlank then some (min (high.getD 1) 1) else high
  if low = 0 ∧ high = some 0 then empty
  else if low = 1 ∧ high = some 1 then p
  else repeated p low high reluctant

end Compact

end StableNaming.Pattern
