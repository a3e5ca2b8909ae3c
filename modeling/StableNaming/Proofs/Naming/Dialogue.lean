import StableNaming.Naming.Resolver
import StableNaming.Proofs.Text.Decimal
import StableNaming.Proofs.Text.LineEnds

/-!
# Dialogues with an operator

An operator is asked until a line is the number of a candidate. So the lines before the first such
line are rejected one by one, and the dialogue ends with that line, with a line that is no text, or
with the input. What follows is left for the next dialogue, which goes as if the input began there.
-/

namespace StableNaming

namespace Operator

open Text

variable {count i : Nat} {line text : String} {rejected : List String}
  {lines left : List (List UInt8)} {outcome outcome' : Except NamingFault Nat}

/-- Whether a line chooses the candidate with an index: apart from blanks around it, it is the
number of the candidate, counted from one. Numbers fit in a word, as the numbers of candidates
do. -/
def Chooses (count : Nat) (line : String) (i : Nat) : Prop :=
  ∃ number, IsTrimmed line number ∧ Denotes number (i + 1) ∧ i < count ∧ i + 1 < wordLimit

/-- What is found after lines that choose nothing: the outcome, and the lines after it. -/
inductive Stops (count : Nat) :
    List (List UInt8) → Except NamingFault Nat → List (List UInt8) → Prop where
  /-- A line that chooses a candidate. -/
  | chosen {text : String} {i : Nat} (left : List (List UInt8)) (h : Chooses count text i) :
      Stops count (encodeUtf8 text :: left) (.ok i) left
  /-- A line that is no text. -/
  | illegible {line : List UInt8} (left : List (List UInt8)) (h : ∀ text, line ≠ encodeUtf8 text) :
      Stops count (line :: left) (.error .invalidInput) left
  /-- The end of the input. -/
  | ended : Stops count [] (.error .aborted) []

/-- How a dialogue about `count` candidates goes where the input has the given lines: some lines are
rejected, then it stops. -/
structure Dialogue (count : Nat) (lines : List (List UInt8)) (rejected : List String)
    (outcome : Except NamingFault Nat) (left : List (List UInt8)) : Prop where
  /-- The rejected lines choose nothing. -/
  not_chooses : ∀ text ∈ rejected, ∀ i, ¬ Chooses count text i
  /-- They are the first lines, and after them the dialogue stops. -/
  exists_stops : ∃ rest, lines = rejected.map encodeUtf8 ++ rest ∧ Stops count rest outcome left

/-- What is printed in a dialogue: a prompt for every line that is read or looked for, and a
complaint about every rejected line. -/
def questions (count : Nat) (rejected : List String) : String :=
  String.join (rejected.map fun text => prompt count ++ complaint text) ++ prompt count

theorem questions_cons (count : Nat) (text : String) (rejected : List String) :
    questions count (text :: rejected) =
      prompt count ++ complaint text ++ questions count rejected := by
  rw [questions, questions, List.map_cons, String.join_cons, String.append_assoc]

/-! ## One line -/

theorem choice?_eq_some_iff : choice? count line = some i ↔ Chooses count line i := by
  rw [choice?, Option.bind_eq_some_iff, Chooses]
  constructor
  · rintro ⟨n, hread, hrange⟩
    obtain ⟨hnumber, hword⟩ := readNumber?_eq_some_iff.1 hread
    split at hrange
    · rename_i hbounds
      obtain rfl : n = i + 1 := by
        rw [← Option.some.inj hrange]
        omega
      exact ⟨trim line, trim_eq_iff.1 rfl, hnumber, hbounds.2, hword⟩
    · cases hrange
  · rintro ⟨number, htrim, hnumber, hcount, hword⟩
    refine ⟨i + 1, ?_, if_pos (by omega)⟩
    rw [trim_eq_iff.2 htrim]
    exact readNumber?_eq_some_iff.2 ⟨hnumber, hword⟩

theorem choice?_eq_none_iff : choice? count line = none ↔ ∀ i, ¬ Chooses count line i := by
  rw [Option.eq_none_iff_forall_ne_some]
  exact forall_congr' fun i => not_congr choice?_eq_some_iff

/-- A complaint shows a line without the blanks around it. -/
theorem complaint_congr (h : trim line = trim text) : complaint line = complaint text := by
  delta complaint
  rw [h]

/-- A rejected line is complained about, and the dialogue goes on after it. -/
theorem ask_of_not_chooses (h : ∀ i, ¬ Chooses count text i) (lines : List (Option String)) :
    ask count (lineText? (encodeUtf8 text) :: lines) =
      ((ask count lines).1, prompt count ++ complaint text ++ (ask count lines).2.1,
        (ask count lines).2.2) := by
  obtain ⟨bare, hbare, htrim⟩ := exists_lineText?_encodeUtf8 text
  have hchoice : choice? count bare = none := by
    rw [choice?, htrim]
    exact choice?_eq_none_iff.2 h
  rw [hbare, ask, hchoice, complaint_congr htrim]

/-- Where a dialogue stops, nothing is printed after the prompt. -/
theorem ask_of_stops (h : Stops count lines outcome left) :
    ask count (lines.map lineText?) = (outcome, prompt count, left.map lineText?) := by
  cases h with
  | chosen _ h =>
    rename_i text i
    obtain ⟨bare, hbare, htrim⟩ := exists_lineText?_encodeUtf8 text
    have hchoice : choice? count bare = some i := by
      rw [choice?, htrim]
      exact choice?_eq_some_iff.2 h
    rw [List.map_cons, hbare, ask, hchoice]
  | illegible _ h => rw [List.map_cons, lineText?_eq_none_iff.2 h, ask]
  | ended => rfl

/-! ## Whole dialogues -/

/-- The operator is asked as the dialogue goes. -/
theorem ask_of_dialogue (h : Dialogue count lines rejected outcome left) :
    ask count (lines.map lineText?) = (outcome, questions count rejected, left.map lineText?) := by
  obtain ⟨hnone, rest, rfl, hstops⟩ := h
  induction rejected with
  | nil =>
    rw [List.map_nil, List.nil_append, ask_of_stops hstops]
    rfl
  | cons text rejected ih =>
    obtain ⟨htext, hnone⟩ := List.forall_mem_cons.1 hnone
    rw [List.map_cons, List.cons_append, List.map_cons, ask_of_not_chooses htext, ih hnone,
      questions_cons]

/-- Every input makes a dialogue. -/
theorem exists_dialogue (count : Nat) (lines : List (List UInt8)) :
    ∃ rejected outcome left, Dialogue count lines rejected outcome left := by
  induction lines with
  | nil => exact ⟨[], _, _, by simp, [], rfl, .ended⟩
  | cons line lines ih =>
    by_cases hlegible : ∃ text, line = encodeUtf8 text
    · obtain ⟨text, rfl⟩ := hlegible
      by_cases hchooses : ∃ i, Chooses count text i
      · obtain ⟨i, hchooses⟩ := hchooses
        exact ⟨[], _, _, by simp, _, rfl, .chosen lines hchooses⟩
      · obtain ⟨rejected, outcome, left, hnone, rest, rfl, hstops⟩ := ih
        exact ⟨text :: rejected, outcome, left,
          List.forall_mem_cons.2 ⟨fun i h => hchooses ⟨i, h⟩, hnone⟩, rest, rfl, hstops⟩
    · exact ⟨[], _, _, by simp, _, rfl, .illegible lines fun text h => hlegible ⟨text, h⟩⟩

/-- What is left is the end of the input. -/
theorem Dialogue.exists_lines_eq (h : Dialogue count lines rejected outcome left) :
    ∃ front, lines = front ++ left := by
  obtain ⟨-, rest, rfl, hstops⟩ := h
  cases hstops with
  | chosen _ _ => exact ⟨_, (List.append_assoc _ [_] left).symm⟩
  | illegible _ _ => exact ⟨_, (List.append_assoc _ [_] left).symm⟩
  | ended => exact ⟨_, rfl⟩

/-- What was printed before shows only in front of what is printed. -/
theorem resolve_printed (c : NamingConflict) (lines : List (Option String)) (printed : String) :
    resolve c ⟨lines, printed⟩ =
      ((resolve c ⟨lines, ""⟩).1, { (resolve c ⟨lines, ""⟩).2 with
        transcript := printed ++ (resolve c ⟨lines, ""⟩).2.transcript }) := by
  simp [resolve, String.append_assoc]

/-- A conflict is settled as the dialogue goes, and the operator is left with the lines after it. -/
theorem resolve_of_dialogue {c : NamingConflict} {bytes : List UInt8} (printed : String)
    (h : Dialogue c.count (rawLines bytes) rejected outcome left) :
    resolve c ⟨fileLines bytes, printed⟩ = (outcome, ⟨fileLines left.flatten,
      printed ++ c.describe ++ questions c.count rejected⟩) := by
  obtain ⟨front, hlines⟩ := h.exists_lines_eq
  rw [resolve, fileLines_eq, ask_of_dialogue h, fileLines_eq, rawLines_flatten_of_append hlines]

/-- For every input, conflict and transcript so far, settling the conflict comes to an end, and to
the outcome of the dialogue: the first line that chooses a candidate, if it comes before the end of
the input and before any line that is no text. The conflict is described once, and a prompt printed
for every attempt to read and a complaint for every rejected line. After that, any conflict is
settled as if the input were what is left. -/
theorem resolve_eq_iff_dialogue (c : NamingConflict) (bytes : List UInt8) (printed : String) :
    (∀ outcome, (resolve c ⟨fileLines bytes, printed⟩).1 = outcome ↔
      ∃ rejected left, Dialogue c.count (rawLines bytes) rejected outcome left) ∧
    ∀ rejected outcome left, Dialogue c.count (rawLines bytes) rejected outcome left →
      (resolve c ⟨fileLines bytes, printed⟩).2.transcript =
        printed ++ c.describe ++ questions c.count rejected ∧
      ∀ c', resolve c' (resolve c ⟨fileLines bytes, printed⟩).2 =
        ((resolve c' (ofInput left.flatten)).1, { (resolve c' (ofInput left.flatten)).2 with
          transcript := (resolve c ⟨fileLines bytes, printed⟩).2.transcript ++
            (resolve c' (ofInput left.flatten)).2.transcript }) := by
  refine ⟨fun outcome => ⟨?_, ?_⟩, fun rejected outcome left h => ?_⟩
  · rintro rfl
    obtain ⟨rejected, outcome, left, h⟩ := exists_dialogue c.count (rawLines bytes)
    rw [resolve_of_dialogue printed h]
    exact ⟨rejected, left, h⟩
  · rintro ⟨rejected, left, h⟩
    rw [resolve_of_dialogue printed h]
  · rw [resolve_of_dialogue printed h]
    exact ⟨rfl, fun c' => resolve_printed c' _ _⟩

/-- A conflict of two names. -/
def rivals : NamingConflict where
  member := ⟨"i", ⟨"m", "()V"⟩⟩
  candidates := .ofList [("method_5", []), ("method_9", [])]

/-- Three lines that choose nothing, one that chooses the second name, and one for the next
conflict, without a line feed. -/
def answers : List UInt8 := encodeUtf8 "zero\r\n 7\n\n\u00a0+02\u3000\n1"

/-- The second name is chosen, and the first one in the next conflict. -/
theorem resolve_eq_iff_dialogue_rivals :
    Dialogue rivals.count (rawLines answers) ["zero\r\n", " 7\n", "\n"] (.ok 1)
        [encodeUtf8 "1"] ∧
      (resolve rivals ⟨fileLines answers, ""⟩).1 = .ok 1 ∧
      (resolve rivals ⟨fileLines answers, ""⟩).2.transcript =
        "" ++ rivals.describe ++ questions rivals.count ["zero\r\n", " 7\n", "\n"] ∧
      (resolve rivals (resolve rivals ⟨fileLines answers, ""⟩).2).1 = .ok 0 := by
  have hnone : ∀ text ∈ ["zero\r\n", " 7\n", "\n"], choice? rivals.count text = none := by
    decide +kernel
  have hchooses : Chooses rivals.count "\u00a0+02\u3000\n" 1 :=
    choice?_eq_some_iff.1 (by decide +kernel)
  have hdialogue : Dialogue rivals.count (rawLines answers) ["zero\r\n", " 7\n", "\n"] (.ok 1)
      [encodeUtf8 "1"] :=
    ⟨fun text htext => choice?_eq_none_iff.1 (hnone text htext), _, by decide +kernel,
      .chosen _ hchooses⟩
  obtain ⟨hresolve, hlater⟩ := resolve_eq_iff_dialogue rivals answers ""
  obtain ⟨hprinted, hnext⟩ := hlater _ _ _ hdialogue
  have hfresh : (resolve rivals (ofInput [encodeUtf8 "1"].flatten)).1 = .ok 0 := by decide +kernel
  exact ⟨hdialogue, (hresolve _).2 ⟨_, _, hdialogue⟩, hprinted,
    (congrArg Prod.fst (hnext rivals)).trans hfresh⟩

end Operator

end StableNaming
