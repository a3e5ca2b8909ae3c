import StableNaming.Pattern.Automaton.ByteRange

/-!
# Trees of bytes

Words that begin alike share their beginnings in a tree. The branches of a node
stand in a row. Where a word ends, the row has a stop: words that come later do
not share the branches in front of it, since a match of the earlier word goes
before theirs.
-/

namespace StableNaming.Automaton

/-- A node of a tree, given by its branches and stops. -/
inductive ByteTree where
  /-- The end of the row. -/
  | nil
  /-- A branch for a range of bytes, and the rest of the row. -/
  | branch (range : ByteRange) (below rest : ByteTree)
  /-- A stop, and the rest of the row. -/
  | stop (rest : ByteTree)
  deriving Repr, DecidableEq

namespace ByteTree

/-- Whether the row has a stop. -/
def hasStop : ByteTree → Bool
  | nil => false
  | branch _ _ rest => rest.hasStop
  | stop _ => true

/-- Whether the row has no branch. -/
def isLeaf : ByteTree → Bool
  | nil => true
  | branch _ _ _ => false
  | stop rest => rest.isLeaf

/-- Put a stop at the end of the row. -/
def addStop : ByteTree → ByteTree
  | nil => stop nil
  | branch range below rest => branch range below rest.addStop
  | stop rest => stop rest.addStop

/-- Let a word end here. One stop is enough as long as there are no branches. -/
def close (t : ByteTree) : ByteTree := if t = stop nil then t else t.addStop

/-- Let the branch for a range grow; it is a new one unless the row has such a branch after
the last stop. -/
def growAt (range : ByteRange) (grow : ByteTree → ByteTree) : ByteTree → ByteTree
  | nil => branch range (grow nil) nil
  | stop rest => stop (growAt range grow rest)
  | branch r below rest =>
    if r = range ∧ !rest.hasStop then branch r (grow below) rest
    else branch r below (growAt range grow rest)

/-- Add a word. -/
def insert : List ByteRange → ByteTree → ByteTree
  | [] => close
  | range :: word => growAt range (insert word)

/-- The tree of some words. -/
def ofWords (words : List (List ByteRange)) : ByteTree :=
  words.foldl (fun t word => t.insert word) nil

end ByteTree

end StableNaming.Automaton
