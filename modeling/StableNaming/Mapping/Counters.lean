import StableNaming.Mapping.File
import StableNaming.Text.Line

/-!
# Counters

The next number to hand out, for each kind of symbol. Counters only move
forward: handing out a number moves to the next, and what is read or merged can
raise a counter but not lower it. They are words, and there is no next number
after the last word.
-/

namespace StableNaming

/-- The next number for each kind. -/
structure Counters where
  /-- The next number for a class. -/
  classNext : UInt64 := 1
  /-- The next number for a field. -/
  fieldNext : UInt64 := 1
  /-- The next number for a method. -/
  methodNext : UInt64 := 1
  deriving Repr, DecidableEq, Inhabited

namespace Counters

/-- The counter of a kind. -/
def word (c : Counters) : SymbolKind → UInt64
  | .type => c.classNext
  | .field => c.fieldNext
  | .method => c.methodNext

/-- The next number for a kind. -/
def get (c : Counters) (kind : SymbolKind) : Nat := (c.word kind).toNat

/-- Replace the counter of a kind. -/
def set (c : Counters) (kind : SymbolKind) (n : UInt64) : Counters :=
  match kind with
  | .type => { c with classNext := n }
  | .field => { c with fieldNext := n }
  | .method => { c with methodNext := n }

@[simp] theorem toNat_word (c : Counters) (kind : SymbolKind) :
    (c.word kind).toNat = c.get kind := rfl

theorem get_lt (c : Counters) (kind : SymbolKind) : c.get kind < Text.wordLimit :=
  Text.toNat_lt_wordLimit _

theorem get_set (c : Counters) (kind kind' : SymbolKind) (n : UInt64) :
    (c.set kind n).get kind' = if kind = kind' then n.toNat else c.get kind' := by
  cases kind <;> cases kind' <;> rfl

/-- Move on to the number after the next one, if there is one. -/
def skip? (c : Counters) (kind : SymbolKind) : Option Counters :=
  (Text.word? (c.get kind + 1)).map (c.set kind)

/-- Hand out the next number. -/
def next? (c : Counters) (kind : SymbolKind) : Option (Nat × Counters) :=
  (c.skip? kind).map fun after => (c.get kind, after)

/-- Raise a counter to at least `n`. -/
def observe (c : Counters) (kind : SymbolKind) (n : UInt64) : Counters :=
  if c.word kind < n then c.set kind n else c

/-- Raise every counter to at least that of `other`. -/
def merge (c other : Counters) : Counters :=
  SymbolKind.all.foldl (fun c kind => c.observe kind (other.word kind)) c

theorem get_observe (c : Counters) (kind kind' : SymbolKind) (n : UInt64) :
    (c.observe kind n).get kind' =
      if kind = kind' then max (c.get kind) n.toNat else c.get kind' := by
  simp only [observe, UInt64.lt_iff_toNat_lt, toNat_word]
  split <;> rename_i h
  · rw [get_set]
    split
    · omega
    · rfl
  · split
    · rename_i hk
      rw [← hk]
      omega
    · rfl

/-- Merging takes the greater number of each kind. -/
theorem get_merge (c other : Counters) (kind : SymbolKind) :
    (c.merge other).get kind = max (c.get kind) (other.get kind) := by
  cases kind <;> simp [merge, SymbolKind.all, get_observe]

/-- What a line with a counter starts with. -/
def mark : String := "# INTERMEDIARY-COUNTER"

/-- The line for the counter of a kind. -/
def line (c : Counters) (kind : SymbolKind) : String :=
  mark ++ " " ++ kind.word ++ " " ++ toString (c.get kind)

/-- A line per kind. -/
def lines (c : Counters) : List String := SymbolKind.all.map c.line

/-- The kind and number in a line with a counter; nothing for a line without the mark. -/
def parseLine (line : String) : Except MappingFault (Option (SymbolKind × UInt64)) :=
  let trimmed := (Text.trimEnd line).toList
  if mark.toList.isPrefixOf trimmed then
    match Text.words (String.ofList (trimmed.drop mark.toList.length)) with
    | [kind, number] =>
      match SymbolKind.ofWord? kind, Text.readWord? number with
      | some kind, some n => .ok (some (kind, n))
      | _, _ => .error (.invalidCounter line)
    | _ => .error (.invalidCounter line)
  else .ok none

/-- Take the counter in a line into account. -/
def observeLine (c : Counters) (line : String) : Except MappingFault Counters := do
  match ← parseLine line with
  | some (kind, n) => pure (c.observe kind n)
  | none => pure c

/-- The counters in the text of a counter file. -/
def parse (text : String) : Except MappingFault Counters :=
  (Text.lines text).foldlM observeLine {}

/-- Read a counter file. -/
def ofFile : File → Except MappingFault Counters :=
  File.readWith fun bytes =>
    match Text.decodeUtf8? bytes with
    | some text => parse text
    | none => .error .invalidText

/-- The text of a counter file. -/
def fileText (c : Counters) : String :=
  String.join (c.lines.map (· ++ "\n"))

end Counters

end StableNaming
