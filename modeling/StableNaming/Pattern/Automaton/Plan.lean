import StableNaming.Pattern.Automaton.ByteTree
import StableNaming.Pattern.Compact

/-!
# Plans of automata

An automaton reads names forwards, or backwards from their end. Its plan says what
is laid down for each part of a pattern, with the parts in the order in which they
are read. Sets that go beyond ASCII are resolved into rows of byte ranges, and a
choice of words into a tree. Only an automaton that reads forwards keeps track of
groups.
-/

namespace StableNaming.Automaton

open Pattern

/-- The way in which an automaton reads names. -/
inductive Direction where
  /-- From the start to the end. -/
  | forward
  /-- From the end to the start. -/
  | backward
  deriving Repr, DecidableEq

/-- What is laid down for a part of a pattern. -/
inductive Plan where
  /-- States in a row, each with one way out. -/
  | states (n : Nat)
  /-- A state that reads ranges of bytes. -/
  | reader (ranges : Nat)
  /-- A tree of byte ranges, with equal nodes shared. -/
  | tree (root : ByteTree)
  /-- Rows of byte ranges, with beginnings shared. -/
  | rows (parts : List (List ByteRange))
  /-- A tree of words. -/
  | words (root : ByteTree)
  /-- A group. -/
  | group (body : Plan)
  /-- A repetition; `consumes` says that the body matches no empty text. -/
  | repeated (body : Plan) (consumes : Bool) (low : Nat) (high : Option Nat)
  /-- Parts in the order in which they are read. -/
  | row (items : List Plan)
  /-- A choice of parts. -/
  | choice (alternatives : List Plan)
  deriving Repr

namespace Plan

/-- The rows of byte ranges that make up a set. -/
def rowsOf (set : CharSet) : List (List ByteRange) :=
  set.ranges.flatMap fun (low, high) => byteRows low high

/-- The plan for a set. A set that goes beyond ASCII shares the ends of its rows forwards, and
their first bytes backwards. -/
def ofSet (direction : Direction) (set : CharSet) : Plan :=
  if set.ranges.all fun r => r.2 < 0x80 then reader set.ranges.length
  else
    match direction with
    | .forward => tree (.ofWords (rowsOf set))
    | .backward => rows (rowsOf set)

/-- The bytes of a word. -/
def bytesOf (text : List Char) : List UInt8 := text.flatMap String.utf8EncodeChar

/-- The plan for a choice of words. -/
def ofWords (direction : Direction) (texts : List (List Char)) : Plan :=
  words <| .ofWords <| texts.map fun text =>
    let bytes :=
      match direction with
      | .forward => bytesOf text
      | .backward => (bytesOf text).reverse
    bytes.map .single

/-- The text of a word. -/
def text? : Compact → Option (List Char)
  | .word text => some text
  | _ => none

mutual

/-- The plan for a pattern. -/
def ofCompact (direction : Direction) : Compact → Plan
  | .empty | .atStart | .atEnd => states 1
  | .word text => states (bytesOf text).length
  | .oneOf set => ofSet direction set
  | .group body =>
    match direction with
    | .forward => group (ofCompact direction body)
    | .backward => ofCompact direction body
  | .repeated body low high _ =>
    repeated (ofCompact direction body) (body.shortest.any (0 < ·)) low high
  | .row items =>
    match direction with
    | .forward => row (ofEach direction items)
    | .backward => row (ofEach direction items).reverse
  | .choice alternatives =>
    match alternatives.mapM text? with
    | some texts => ofWords direction texts
    | none => choice (ofEach direction alternatives)

/-- The plans for some patterns. -/
def ofEach (direction : Direction) : List Compact → List Plan
  | [] => []
  | p :: ps => ofCompact direction p :: ofEach direction ps

end

end Plan

end StableNaming.Automaton
