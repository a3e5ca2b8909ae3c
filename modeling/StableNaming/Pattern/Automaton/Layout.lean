import StableNaming.Pattern.Automaton.Draft
import StableNaming.Pattern.Automaton.NodeTable
import StableNaming.Pattern.Automaton.Plan

/-!
# Laying down plans

A plan is laid down part by part, with every repetition written out. A pattern fits
if the automaton that reads forwards and the one that reads backwards both stay
within the limit.
-/

namespace StableNaming.Automaton

open Pattern

/-- Find a node in the table, or lay it down and put it there. -/
def share (table : NodeTable) (description : List Nat) (new : Draft Unit) :
    Draft (Nat × NodeTable) :=
  match table.find? description with
  | some number => pure (number, table)
  | none => do
    let number ← Draft.next
    new
    pure (number, table.insert description number)

/-- Lay down a node of a tree whose leaves are the state `last`; `ways` describes the ways out
for the branches in front of the row. -/
def layNode (last : Nat) : ByteTree → (ways : List Nat) → NodeTable → Draft (Nat × NodeTable)
  | .nil, [], table => pure (last, table)
  | .nil, ways, table => share table ways (Draft.reader (ways.length / 3))
  | .stop rest, ways, table => layNode last rest ways table
  | .branch range below rest, ways, table => do
    let (number, table) ← layNode last below [] table
    layNode last rest (ways ++ [range.low.toNat, range.high.toNat, number]) table

/-- Lay down a tree of byte ranges. -/
def layTree (root : ByteTree) : Draft Unit := do
  let last ← Draft.next
  Draft.state
  let _ ← layNode last root [] { size := 10000 }

/-- Lay down a row of byte ranges, each in front of the state `last`. -/
def layBytes (last : Nat) : List ByteRange → NodeTable → Draft NodeTable
  | [], table => do
    Draft.links 1
    pure table
  | range :: row, table => do
    let (number, table) ← share table [last, range.low.toNat, range.high.toNat] Draft.state
    layBytes number row table

/-- Lay down rows of byte ranges. -/
def layRows (rows : List (List ByteRange)) : Draft Unit := do
  Draft.state
  let last ← Draft.next
  Draft.state
  let _ ← rows.foldlM (fun table row => layBytes last row table) { size := 1000 }

/-- Lay down the state for some branches between two stops, if there are any. -/
def laySection : (branches : Nat) → Draft Unit
  | 0 => pure ()
  | 1 => do
    Draft.state
    Draft.links 1
  | n => do
    Draft.reader n
    Draft.links 1

/-- Lay down a node of a tree of words; `branches` counts the branches in front of the row
since the last stop. -/
def layWordNode : ByteTree → (branches : Nat) → Draft Unit
  | .nil, branches => do
    laySection branches
    Draft.state
  | .stop rest, branches => do
    laySection branches
    Draft.links 1
    layWordNode rest 0
  | .branch _ below rest, branches => do
    if below.isLeaf then pure () else layWordNode below 0
    layWordNode rest (branches + 1)

/-- Lay down a tree of words. -/
def layWords (root : ByteTree) : Draft Unit := do
  Draft.state
  layWordNode root 0

/-- Lay down further copies of a part; `exit` says how the last state in front is left. -/
def layFurther (copy : Draft Exit) : (n : Nat) → (exit : Exit) → Draft Exit
  | 0, exit => pure exit
  | n + 1, exit => do
    let exit' ← copy
    exit.leadOn
    layFurther copy n exit'

/-- Lay down copies of a part in a row. -/
def layCopies (copy : Draft Exit) : (n : Nat) → Draft Exit
  | 0 => do
    Draft.state
    pure .single
  | n + 1 => do
    let exit ← copy
    layFurther copy n exit

/-- Lay down further copies of a part, each of which can be left out with those behind it. -/
def layOptional (copy : Draft Exit) : (n : Nat) → (exit : Exit) → Draft Exit
  | 0, exit => pure exit
  | n + 1, exit => do
    Draft.state
    let exit' ← copy
    exit.leadOn
    Draft.links 2
    layOptional copy n exit'

/-- Lay down a repetition. -/
def layRepeated (copy : Draft Exit) (consumes : Bool) :
    (low : Nat) → (high : Option Nat) → Draft Exit
  | 0, some 1 => do
    Draft.state
    let exit ← copy
    Draft.state
    Draft.links 2
    exit.leadOn
    pure .single
  | 0, none =>
    if consumes then do
      Draft.state
      let exit ← copy
      Draft.links 1
      exit.leadOn
      pure .several
    else do
      let exit ← copy
      Draft.states 3
      exit.leadOn
      Draft.links 4
      pure .single
  | low, none => do
    let exit ← layCopies copy low
    Draft.state
    exit.leadOn
    Draft.links 1
    pure .several
  | low, some high =>
    if low = high then layCopies copy low
    else do
      let exit ← layCopies copy low
      Draft.state
      let exit ← layOptional copy (high - low) exit
      exit.leadOn
      pure .single

namespace Plan

mutual

/-- Lay down a plan. -/
def lay : Plan → Draft Exit
  | states n => do
    Draft.states n
    pure .single
  | reader ranges => do
    Draft.state
    Draft.reader ranges
    pure .single
  | tree root => do
    layTree root
    pure .single
  | rows parts => do
    layRows parts
    pure .single
  | words root => do
    layWords root
    pure .single
  | group body => do
    Draft.state
    let exit ← lay body
    Draft.state
    exit.leadOn
    pure .single
  | repeated body consumes low high => layRepeated (lay body) consumes low high
  | row items => layItems items
  | choice alternatives => do
    layAlternatives alternatives 0
    pure .single

/-- Lay down plans in a row. -/
def layItems : List Plan → Draft Exit
  | [] => do
    Draft.state
    pure .single
  | [p] => lay p
  | p :: ps => do
    let exit ← lay p
    exit.leadOn
    layItems ps

/-- Lay down alternatives; `earlier` counts those in front. After the second, the states where
they part and meet are laid down. -/
def layAlternatives : List Plan → (earlier : Nat) → Draft Unit
  | [], _ => pure ()
  | p :: ps, earlier => do
    let exit ← lay p
    Draft.links 1
    exit.leadOn
    if earlier = 1 then Draft.states 2
    layAlternatives ps (earlier + 1)

end

end Plan

/-- Whether all matches are anchored on the side where an automaton begins. -/
def isAnchored (direction : Direction) (p : Compact) : Bool :=
  match direction with
  | .forward => p.beginsAtStart
  | .backward => p.finishesAtEnd

/-- Lay down what lets a match begin anywhere, unless all are anchored. -/
def layEntry (anchored : Bool) : Draft Unit := do
  if anchored then Draft.state
  else
    Draft.states 2
    Draft.reader 1
    Draft.links 2

/-- Lay down an automaton for a pattern, which is a group of its own. -/
def layAutomaton (direction : Direction) (p : Compact) : Draft Unit := do
  layEntry (isAnchored direction p)
  let exit ← (Plan.ofCompact direction (.group p)).lay
  Draft.state
  exit.leadOn

/-- Whether the automata for a pattern stay within the limit. -/
def fits (p : Compact) : Bool :=
  (layAutomaton .forward p).extent?.isSome && (layAutomaton .backward p).extent?.isSome

end StableNaming.Automaton
