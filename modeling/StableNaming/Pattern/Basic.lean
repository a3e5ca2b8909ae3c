import StableNaming.Pattern.CharSet

/-!
# Name patterns

Patterns are regular expressions with anchors. What a pattern matches depends on
the place: the start anchor holds only before the first character of a name and
the end anchor only after the last.
-/

namespace StableNaming

/-- A regular expression. -/
inductive Pattern where
  /-- Matches the empty text. -/
  | empty
  /-- Matches the empty text at the start of the name. -/
  | atStart
  /-- Matches the empty text at the end of the name. -/
  | atEnd
  /-- Matches a character of a set. -/
  | oneOf (set : CharSet)
  /-- Matches two patterns in a row. -/
  | seq (first second : Pattern)
  /-- Matches one of two patterns. -/
  | either (left right : Pattern)
  /-- Matches a pattern once or more in a row. -/
  | plus (body : Pattern)
  deriving Repr, DecidableEq

namespace Pattern

/-- Two patterns in a row, simplified. -/
def followedBy : Pattern → Pattern → Pattern
  | .empty, q => q
  | p, .empty => p
  | p, q => .seq p q

/-- A row of patterns. -/
def row (ps : List Pattern) : Pattern := ps.foldr followedBy .empty

/-- A pattern or the empty text. -/
def optional (p : Pattern) : Pattern := .either .empty p

/-- A pattern any number of times in a row. -/
def many (p : Pattern) : Pattern := .optional (.plus p)

/-- A pattern `n` times in a row. The row is cut in halves, so that it nests little. -/
def times (p : Pattern) (n : Nat) : Pattern :=
  if n = 0 then .empty
  else if n = 1 then p
  else (p.times (n / 2)).followedBy (p.times (n - n / 2))
termination_by n
decreasing_by all_goals omega

/-- A pattern at least `low` times in a row and, with an upper count, at most that often. -/
def between (p : Pattern) (low : Nat) : (high : Option Nat) → Pattern
  | none => if low = 0 then p.many else (p.times (low - 1)).followedBy (.plus p)
  | some high => (p.times low).followedBy (p.optional.times (high - low))

/-- `p.Matches isStart text rest` says that the pattern matches the whole of `text` at a place
where `rest` comes after it; `isStart` says whether the place is the start of the name. -/
inductive Matches : Pattern → Bool → List Char → List Char → Prop where
  /-- The empty pattern matches anywhere. -/
  | empty {b rest} : Matches .empty b [] rest
  /-- The start anchor matches at the start. -/
  | atStart {rest} : Matches .atStart true [] rest
  /-- The end anchor matches where nothing comes after. -/
  | atEnd {b} : Matches .atEnd b [] []
  /-- A place for a character matches each character of its set. -/
  | oneOf {set c b rest} (h : set.contains c = true) : Matches (.oneOf set) b [c] rest
  /-- Two patterns match one after the other. -/
  | seq {p q b u v rest} (hp : Matches p b u (v ++ rest))
      (hq : Matches q (b && u.isEmpty) v rest) : Matches (.seq p q) b (u ++ v) rest
  /-- A choice matches what its left side matches. -/
  | left {p q b u rest} (h : Matches p b u rest) : Matches (.either p q) b u rest
  /-- A choice matches what its right side matches. -/
  | right {p q b u rest} (h : Matches q b u rest) : Matches (.either p q) b u rest
  /-- A repetition may match once. -/
  | once {p b u rest} (h : Matches p b u rest) : Matches (.plus p) b u rest
  /-- A repetition may go on. -/
  | again {p b u v rest} (hp : Matches p b u (v ++ rest))
      (hq : Matches (.plus p) (b && u.isEmpty) v rest) : Matches (.plus p) b (u ++ v) rest

/-- Whether the pattern matches the empty text at a place of which it is known whether
it is the start and whether it is the end of the name. -/
def matchesEmpty (isStart isEnd : Bool) : Pattern → Bool
  | empty => true
  | atStart => isStart
  | atEnd => isEnd
  | oneOf _ => false
  | seq p q => p.matchesEmpty isStart isEnd && q.matchesEmpty isStart isEnd
  | either p q => p.matchesEmpty isStart isEnd || q.matchesEmpty isStart isEnd
  | plus p => p.matchesEmpty isStart isEnd

section Matches

variable {p q : Pattern} {set : CharSet} {b : Bool} {text rest : List Char}

/-- The empty pattern matches the empty text. -/
theorem matches_empty_iff : empty.Matches b text rest ↔ text = [] :=
  ⟨fun h => by cases h; rfl, fun h => h ▸ .empty⟩

/-- The start anchor matches the empty text at the start. -/
theorem matches_atStart_iff : atStart.Matches b text rest ↔ b = true ∧ text = [] :=
  ⟨fun h => by cases h; exact ⟨rfl, rfl⟩, fun h => h.1 ▸ h.2 ▸ .atStart⟩

/-- The end anchor matches the empty text at the end. -/
theorem matches_atEnd_iff : atEnd.Matches b text rest ↔ rest = [] ∧ text = [] :=
  ⟨fun h => by cases h; exact ⟨rfl, rfl⟩, fun ⟨hr, ht⟩ => by subst hr ht; exact .atEnd⟩

/-- A place for a character matches each character of its set. -/
theorem matches_oneOf_iff :
    (oneOf set).Matches b text rest ↔ ∃ c, set.contains c = true ∧ text = [c] :=
  ⟨fun h => by cases h with | oneOf h => exact ⟨_, h, rfl⟩, fun ⟨_, h, hc⟩ => hc ▸ .oneOf h⟩

/-- Patterns in a row match texts in a row. -/
theorem matches_seq_iff :
    (seq p q).Matches b text rest ↔
      ∃ u v, text = u ++ v ∧ p.Matches b u (v ++ rest) ∧ q.Matches (b && u.isEmpty) v rest :=
  ⟨fun h => by cases h with | seq hp hq => exact ⟨_, _, rfl, hp, hq⟩,
    fun ⟨_, _, h, hp, hq⟩ => h ▸ .seq hp hq⟩

/-- A choice matches what either pattern matches. -/
theorem matches_either_iff :
    (either p q).Matches b text rest ↔ p.Matches b text rest ∨ q.Matches b text rest :=
  ⟨fun h => by cases h with
    | left h => exact .inl h
    | right h => exact .inr h,
    fun h => h.elim .left .right⟩

/-- A repetition matches its body once, or once and then again. -/
theorem matches_plus_iff :
    (plus p).Matches b text rest ↔
      p.Matches b text rest ∨
        ∃ u v, text = u ++ v ∧ p.Matches b u (v ++ rest) ∧
          (plus p).Matches (b && u.isEmpty) v rest :=
  ⟨fun h => by cases h with
    | once h => exact .inl h
    | again hp hq => exact .inr ⟨_, _, rfl, hp, hq⟩,
    fun h => h.elim .once fun ⟨_, _, h, hp, hq⟩ => h ▸ .again hp hq⟩

/-- A repetition of a non-empty text can begin with a non-empty one. -/
theorem matches_plus_cons_iff {c : Char} {cs : List Char} :
    (plus p).Matches b (c :: cs) rest ↔
      p.Matches b (c :: cs) rest ∨
        ∃ u v, cs = u ++ v ∧ p.Matches b (c :: u) (v ++ rest) ∧
          (plus p).Matches false v rest := by
  constructor
  · intro h
    generalize ht : c :: cs = text at h
    generalize hr : plus p = r at h
    induction h with
    | once h => cases hr; exact .inl (ht ▸ h)
    | @again _ b u v rest hp hq _ ih =>
      cases hr
      cases u with
      | nil => simpa using ih (by simpa using ht) rfl
      | cons d u =>
        obtain ⟨rfl, rfl⟩ := List.cons.inj (by simpa using ht)
        exact .inr ⟨u, v, rfl, hp, by simpa using hq⟩
    | _ => cases hr
  · rintro (h | ⟨u, v, rfl, hp, hq⟩)
    · exact .once h
    · exact .again (u := c :: u) hp (by simpa using hq)

end Matches

/-- The empty text is matched where `matchesEmpty` says so. -/
theorem matchesEmpty_iff {p : Pattern} {b : Bool} {rest : List Char} :
    p.matchesEmpty b rest.isEmpty = true ↔ p.Matches b [] rest := by
  induction p with
  | empty => simp [matchesEmpty, matches_empty_iff]
  | atStart => simp [matchesEmpty, matches_atStart_iff]
  | atEnd => simp [matchesEmpty, matches_atEnd_iff]
  | oneOf => simp [matchesEmpty, matches_oneOf_iff]
  | seq p q hp hq =>
    simp only [matchesEmpty, Bool.and_eq_true, hp, hq, matches_seq_iff, List.nil_eq_append_iff]
    constructor
    · exact fun h => ⟨[], [], ⟨rfl, rfl⟩, h.1, by simpa using h.2⟩
    · rintro ⟨u, v, ⟨rfl, rfl⟩, h₁, h₂⟩
      exact ⟨h₁, by simpa using h₂⟩
  | either p q hp hq => simp only [matchesEmpty, Bool.or_eq_true, hp, hq, matches_either_iff]
  | plus p hp =>
    rw [matchesEmpty, hp, matches_plus_iff]
    constructor
    · exact .inl
    · rintro (h | ⟨u, v, h, hu, _⟩)
      · exact h
      · obtain ⟨rfl, rfl⟩ := List.nil_eq_append_iff.1 h
        exact hu

/-- A row matches a non-empty text in the first pattern, or in the second alone. -/
theorem matches_seq_cons_iff {p q : Pattern} {b : Bool} {c : Char} {text rest : List Char} :
    (seq p q).Matches b (c :: text) rest ↔
      (∃ u v, text = u ++ v ∧ p.Matches b (c :: u) (v ++ rest) ∧ q.Matches false v rest) ∨
        p.matchesEmpty b false = true ∧ q.Matches b (c :: text) rest := by
  have hp : p.matchesEmpty b false = true ↔ p.Matches b [] (c :: text ++ rest) :=
    @matchesEmpty_iff p b (c :: text ++ rest)
  rw [matches_seq_iff, hp]
  constructor
  · rintro ⟨_ | ⟨d, u⟩, v, h, h₁, h₂⟩
    · cases h
      exact .inr ⟨h₁, by simpa using h₂⟩
    · obtain ⟨rfl, rfl⟩ := List.cons.inj h
      exact .inl ⟨u, v, rfl, h₁, by simpa using h₂⟩
  · rintro (⟨u, v, rfl, h₁, h₂⟩ | ⟨h₁, h₂⟩)
    · exact ⟨c :: u, v, rfl, h₁, by simpa using h₂⟩
    · exact ⟨[], _, rfl, h₁, by simpa using h₂⟩

end Pattern

end StableNaming
