/-!
# Drafts of automata

What an automaton for a pattern would take up is found by drafting it: states are
numbered as they are laid down, and the room of all parts is added up. No state is
stored. A draft fails as soon as the room goes beyond the limit.
-/

namespace StableNaming.Automaton

/-- What has been laid down. -/
structure Extent where
  /-- The number of states. -/
  states : Nat := 0
  /-- The room that they take, in bytes. -/
  room : Nat := 0
  deriving Repr, DecidableEq

/-- The greatest room, ten mebibytes. -/
def roomLimit : Nat := 10 * 1024 * 1024

/-- The room of a state, apart from its ways out. -/
def stateRoom : Nat := 32

/-- The room of a way out that reads a range of bytes, where there may be several. -/
def rangeRoom : Nat := 8

/-- The room of a way out that reads nothing, where there may be several. -/
def linkRoom : Nat := 4

/-- A step of drafting. -/
abbrev Draft := StateT Extent Option

namespace Draft

/-- Take up room for a number of states. -/
def take (states room : Nat) : Draft Unit := fun e =>
  let e := { states := e.states + states, room := e.room + room : Extent }
  if e.room ≤ roomLimit then some ((), e) else none

/-- Lay down a number of states that have one way out. -/
def states (n : Nat) : Draft Unit := take n (n * stateRoom)

/-- Lay down a state that has one way out, or none yet. -/
def state : Draft Unit := states 1

/-- Lay down a state with ways out that read ranges of bytes. -/
def reader (ranges : Nat) : Draft Unit := take 1 (stateRoom + ranges * rangeRoom)

/-- Add ways out that read nothing to a state that may have several. -/
def links (n : Nat) : Draft Unit := take 0 (n * linkRoom)

/-- The number that the next state gets. -/
def next : Draft Nat := fun e => some (e.states, e)

/-- What a draft takes up, if it stays within the limit. -/
def extent? (draft : Draft Unit) : Option Extent := (draft.run {}).map Prod.snd

end Draft

/-- How the last state of a part is left. -/
inductive Exit where
  /-- By its one way out. -/
  | single
  /-- By one of several ways out. -/
  | several
  deriving Repr, DecidableEq

/-- Lead on from the last state of a part. -/
def Exit.leadOn : Exit → Draft Unit
  | .single => pure ()
  | .several => Draft.links 1

end StableNaming.Automaton
