import StableNaming.Naming.Conflict
import StableNaming.Text.Line

/-!
# Settling conflicts

A resolver picks one of the candidates of a conflict, by index, or stops the
run. It may keep a state: an operator who is asked for a number consumes input
and produces a transcript.
-/

namespace StableNaming

/-- Ways to settle conflicts, with a state of type `ρ`. -/
class ConflictResolver (ρ : Type) where
  /-- Pick a candidate. -/
  resolve : NamingConflict → ρ → Except NamingFault Nat × ρ

/-- An operator: the lines not read yet, and everything printed so far. -/
structure Operator where
  /-- The lines of the input; `none` is a line that is no text. -/
  lines : List (Option String)
  /-- The output. -/
  transcript : String := ""

namespace Operator

/-- An operator with the given input. -/
def ofInput (bytes : List UInt8) : Operator := { lines := Text.fileLines bytes }

/-- The question for a number. -/
def prompt (count : Nat) : String := "choose a name [1-" ++ toString count ++ "]: "

/-- The reply to a line that is no valid choice. -/
def complaint (line : String) : String := "invalid choice `" ++ Text.trim line ++ "`\n"

/-- The index that a line chooses among `count` candidates. -/
def choice? (count : Nat) (line : String) : Option Nat :=
  (Text.readNumber? (Text.trim line)).bind fun n =>
    if 1 ≤ n ∧ n ≤ count then some (n - 1) else none

/-- Ask until a line is a valid choice: the outcome, what is printed, and the lines that
are left. -/
def ask (count : Nat) : List (Option String) →
    Except NamingFault Nat × String × List (Option String)
  | [] => (.error .aborted, prompt count, [])
  | none :: rest => (.error .invalidInput, prompt count, rest)
  | some line :: rest =>
    match choice? count line with
    | some index => (.ok index, prompt count, rest)
    | none =>
      let (outcome, printed, left) := ask count rest
      (outcome, prompt count ++ complaint line ++ printed, left)

/-- Describe the conflict and ask for a choice. -/
def resolve (c : NamingConflict) (o : Operator) : Except NamingFault Nat × Operator :=
  let (outcome, printed, left) := ask c.count o.lines
  (outcome, { lines := left, transcript := o.transcript ++ c.describe ++ printed })

instance : ConflictResolver Operator := ⟨resolve⟩

end Operator

/-- The usual resolvers. -/
inductive Resolver where
  /-- Every conflict stops the run. -/
  | refuse
  /-- The first candidate is taken. -/
  | first
  /-- The answer is always the same; the conflicts are recorded. -/
  | always (index : Nat) (transcript : String)
  /-- An operator is asked. -/
  | operator (o : Operator)

namespace Resolver

/-- Pick a candidate. -/
def resolve (c : NamingConflict) : Resolver → Except NamingFault Nat × Resolver
  | refuse => (.error c.fault, refuse)
  | first => (.ok 0, first)
  | always index transcript => (.ok index, always index (transcript ++ c.describe))
  | operator o =>
    let (outcome, o) := o.resolve c
    (outcome, operator o)

instance : ConflictResolver Resolver := ⟨resolve⟩

/-- What has been recorded or printed. -/
def transcript : Resolver → String
  | refuse | first => ""
  | always _ transcript => transcript
  | operator o => o.transcript

/-- Start a new transcript. -/
def clear : Resolver → Resolver
  | always index _ => always index ""
  | operator o => operator { o with transcript := "" }
  | r => r

end Resolver

end StableNaming
