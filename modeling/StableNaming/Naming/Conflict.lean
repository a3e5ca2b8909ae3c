import StableNaming.Collection.Dictionary
import StableNaming.Naming.Fault

/-!
# Naming conflicts

A conflict arises when different names are carried over into one override
family. It lists each name once, with the classes that it comes from.
-/

namespace StableNaming

/-- Where a candidate name comes from. -/
structure Origin where
  /-- The class of the family. -/
  className : String
  /-- The heading of the class. -/
  heading : String
  /-- The member under which the name was found. -/
  member : String
  deriving Repr, DecidableEq

/-- Candidate names, in the order in which they were found, with their origins. -/
abbrev Candidates := Dictionary String (List Origin)

/-- Add an origin of a name. -/
def Candidates.add (c : Candidates) (name : String) (origin : Origin) : Candidates :=
  c.insert name ((c.find? name).getD [] ++ [origin])

/-- Names that compete for one family. -/
structure NamingConflict where
  /-- The member of the family at which the conflict shows. -/
  member : MemberRef
  /-- The names. -/
  candidates : Candidates

namespace NamingConflict

/-- The names in order. -/
def names (c : NamingConflict) : List String := c.candidates.keys

/-- How many names there are. -/
def count (c : NamingConflict) : Nat := c.candidates.size

/-- The fault of a run that does not choose. -/
def fault (c : NamingConflict) : NamingFault := .conflict c.member c.names

/-- The line for an origin. -/
def originLine (o : Origin) : String := "        " ++ o.heading ++ " (" ++ o.member ++ ")\n"

/-- The lines for a candidate with its number. -/
def candidateLines (candidate : (String × List Origin) × Nat) : String :=
  "  [" ++ toString candidate.2 ++ "] " ++ candidate.1.1 ++ "\n" ++
    String.join (candidate.1.2.map originLine)

/-- The numbered list of candidates. -/
def describe (c : NamingConflict) : String :=
  "conflicting names for " ++ c.member.text ++ ":\n" ++
    String.join ((c.candidates.entries.zipIdx 1).map candidateLines)

end NamingConflict

end StableNaming
