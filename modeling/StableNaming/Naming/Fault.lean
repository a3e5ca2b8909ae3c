import StableNaming.Mapping.Fault
import StableNaming.Policy.Chain

/-!
# Faults in naming

Why a run cannot name all symbols.
-/

namespace StableNaming

/-- Why a run stops. -/
inductive NamingFault where
  /-- Different names are carried over into one family. -/
  | conflict (member : MemberRef) (names : List String)
  /-- The operator's input ended before a choice was made. -/
  | aborted
  /-- The choice is not the index of a candidate. -/
  | invalidChoice (index count : Nat)
  /-- The operator's input is no text. -/
  | invalidInput
  /-- A configured pattern is none. -/
  | invalidPattern
  /-- The policies disagree. -/
  | policy (fault : PolicyFault)
  /-- A mapping cannot be used. -/
  | mapping (fault : MappingFault)
  /-- A counter would have to move past the last word. -/
  | overflow
  deriving Repr, DecidableEq

/-- The report of a fault. -/
def NamingFault.message : NamingFault → String
  | .conflict member names =>
    "conflicting names for " ++ member.text ++ ": " ++ ", ".intercalate names
  | .aborted => "naming conflict resolution aborted"
  | .invalidChoice index count =>
    "choice " ++ toString index ++ " out of range for " ++ toString count ++ " candidates"
  | .invalidInput => "IO error: stream did not contain valid UTF-8"
  | .invalidPattern => "invalid obfuscation pattern"
  | .policy fault => fault.message
  | .mapping fault => fault.message
  | .overflow => "attempt to add with overflow"

end StableNaming
