import StableNaming.Pattern.Basic

/-!
# Searching names for a pattern

A name is read once, character by character. Each place of the pattern for a
character carries a mark, which says whether the character just read was matched
there by some attempt; attempts begin at every position. Reading a character
moves the marks, so the work for each is bounded by the size of the pattern,
whatever choices the pattern leaves open. Parts of the pattern that no attempt has
reached carry no marks at all, and are passed over. Main statement: a search
succeeds if and only if the pattern matches some part of the name.
-/

namespace StableNaming.Pattern

/-- For each place for a character, whether the character just read was matched there; for
two patterns together, nothing as long as no attempt has reached them. -/
def Marks : Pattern → Type
  | empty => Unit
  | atStart => Unit
  | atEnd => Unit
  | oneOf _ => Bool
  | seq p q => Option (Marks p × Marks q)
  | either p q => Option (Marks p × Marks q)
  | plus p => Marks p

/-- No mark anywhere. -/
def noMarks : (p : Pattern) → Marks p
  | empty => ()
  | atStart => ()
  | atEnd => ()
  | oneOf _ => false
  | seq _ _ => none
  | either _ _ => none
  | plus p => noMarks p

/-- The marks of two patterns together. -/
def bothMarks {p q : Pattern} (m : Option (Marks p × Marks q)) : Marks p × Marks q :=
  m.getD (p.noMarks, q.noMarks)

/-- Whether a match ends after the character just read, which is the last of the name if
`isEnd` says so. -/
def ended (isEnd : Bool) : (p : Pattern) → Marks p → Bool
  | empty, _ => false
  | atStart, _ => false
  | atEnd, _ => false
  | oneOf _, mark => mark
  | seq _ _, none => false
  | seq p q, some (m, n) => (p.ended isEnd m && q.matchesEmpty false isEnd) || q.ended isEnd n
  | either _ _, none => false
  | either p q, some (m, n) => p.ended isEnd m || q.ended isEnd n
  | plus p, m => p.ended isEnd m

/-- The marks after the character `c`, which is the first of the name if `isStart` says so;
`begins` says whether a match may begin with it. -/
def read (isStart : Bool) (c : Char) : (p : Pattern) → (begins : Bool) → Marks p → Marks p
  | empty, _, _ => ()
  | atStart, _, _ => ()
  | atEnd, _, _ => ()
  | oneOf set, begins, _ => begins && set.contains c
  | seq p q, begins, marks =>
    if begins || marks.isSome then
      let (m, n) := bothMarks marks
      some (p.read isStart c begins m,
        q.read isStart c ((begins && p.matchesEmpty isStart false) || p.ended false m) n)
    else none
  | either p q, begins, marks =>
    if begins || marks.isSome then
      let (m, n) := bothMarks marks
      some (p.read isStart c begins m, q.read isStart c begins n)
    else none
  | plus p, begins, m => p.read isStart c (begins || p.ended false m) m

/-- Whether a match ends here or later in the text. -/
def isMatchFrom (p : Pattern) (isStart : Bool) (m : Marks p) : List Char → Bool
  | [] => p.ended true m || p.matchesEmpty isStart true
  | c :: cs =>
    p.ended false m || p.matchesEmpty isStart false ||
      p.isMatchFrom false (p.read isStart c true m) cs

/-- Whether the pattern matches some part of the name. -/
def isMatch (p : Pattern) (name : String) : Bool := p.isMatchFrom true p.noMarks name.toList

/-- `p.Continues m text rest` says that a match which is under way, as the marks `m` have it,
goes on with the whole of `text` and ends before `rest`. -/
def Continues : (p : Pattern) → Marks p → List Char → List Char → Prop
  | empty, _, _, _ => False
  | atStart, _, _, _ => False
  | atEnd, _, _, _ => False
  | oneOf _, mark, text, _ => mark = true ∧ text = []
  | seq _ _, none, _, _ => False
  | seq p q, some (m, n), text, rest =>
    (∃ u v, text = u ++ v ∧ p.Continues m u (v ++ rest) ∧ q.Matches false v rest) ∨
      q.Continues n text rest
  | either _ _, none, _, _ => False
  | either p q, some (m, n), text, rest => p.Continues m text rest ∨ q.Continues n text rest
  | plus p, m, text, rest =>
    p.Continues m text rest ∨
      ∃ u v, text = u ++ v ∧ p.Continues m u (v ++ rest) ∧ (plus p).Matches false v rest

/-- Without marks no match is under way. -/
theorem not_continues_noMarks {p : Pattern} {text rest : List Char} :
    ¬ p.Continues p.noMarks text rest := by
  induction p generalizing text rest with
  | oneOf => exact fun h => Bool.false_ne_true h.1
  | plus p hp => exact fun h => h.elim hp fun ⟨_, _, _, h, _⟩ => hp h
  | _ => exact id

/-- A match is under way in a row if it is in one of the two patterns. -/
theorem continues_seq_iff {p q : Pattern} {m : Marks (seq p q)} {text rest : List Char} :
    (seq p q).Continues m text rest ↔
      (∃ u v, text = u ++ v ∧ p.Continues (bothMarks m).1 u (v ++ rest) ∧
        q.Matches false v rest) ∨ q.Continues (bothMarks m).2 text rest := by
  cases m with
  | some => exact .rfl
  | none =>
    refine ⟨False.elim, ?_⟩
    rintro (⟨u, v, -, h, -⟩ | h)
    · exact not_continues_noMarks h
    · exact not_continues_noMarks h

/-- The same for a choice. -/
theorem continues_either_iff {p q : Pattern} {m : Marks (either p q)} {text rest : List Char} :
    (either p q).Continues m text rest ↔
      p.Continues (bothMarks m).1 text rest ∨ q.Continues (bothMarks m).2 text rest := by
  cases m with
  | some => exact .rfl
  | none => exact ⟨False.elim, fun h => h.elim not_continues_noMarks not_continues_noMarks⟩

/-- A match has ended if it goes on with the empty text. -/
theorem ended_iff {p : Pattern} {m : Marks p} {rest : List Char} :
    p.ended rest.isEmpty m = true ↔ p.Continues m [] rest := by
  induction p with
  | oneOf => exact (and_iff_left rfl).symm
  | seq p q hp hq =>
    rcases m with _ | ⟨m, n⟩
    · exact ⟨nofun, nofun⟩
    simp only [ended, Continues, Bool.or_eq_true, Bool.and_eq_true, hp, hq, matchesEmpty_iff]
    refine or_congr_left ⟨fun h => ⟨[], [], rfl, h⟩, ?_⟩
    rintro ⟨u, v, h, h₁, h₂⟩
    obtain ⟨rfl, rfl⟩ := List.nil_eq_append_iff.1 h
    exact ⟨h₁, h₂⟩
  | either p q hp hq =>
    rcases m with _ | ⟨m, n⟩
    · exact ⟨nofun, nofun⟩
    simp only [ended, Continues, Bool.or_eq_true, hp, hq]
  | plus p hp =>
    refine hp.trans ⟨.inl, fun h => h.elim id ?_⟩
    rintro ⟨u, v, h, h₁, _⟩
    obtain ⟨rfl, rfl⟩ := List.nil_eq_append_iff.1 h
    exact h₁
  | _ => exact ⟨nofun, nofun⟩

/-- A match that is under way in a row goes on in the first pattern, or passes on to the
second. -/
theorem continues_seq_cons_iff {p q : Pattern} {m : Marks (seq p q)} {c : Char}
    {text rest : List Char} :
    (seq p q).Continues m (c :: text) rest ↔
      (∃ u v, text = u ++ v ∧ p.Continues (bothMarks m).1 (c :: u) (v ++ rest) ∧
        q.Matches false v rest) ∨
        p.ended false (bothMarks m).1 = true ∧ q.Matches false (c :: text) rest ∨
          q.Continues (bothMarks m).2 (c :: text) rest := by
  have hp : p.ended false (bothMarks m).1 = true ↔
      p.Continues (bothMarks m).1 [] (c :: text ++ rest) :=
    @ended_iff p (bothMarks m).1 (c :: text ++ rest)
  simp only [continues_seq_iff, hp]
  constructor
  · rintro (⟨_ | ⟨d, u⟩, v, h, h₁, h₂⟩ | h)
    · cases h
      exact .inr (.inl ⟨h₁, h₂⟩)
    · obtain ⟨rfl, rfl⟩ := List.cons.inj h
      exact .inl ⟨u, v, rfl, h₁, h₂⟩
    · exact .inr (.inr h)
  · rintro (⟨u, v, rfl, h₁, h₂⟩ | ⟨h₁, h₂⟩ | h)
    · exact .inl ⟨c :: u, v, rfl, h₁, h₂⟩
    · exact .inl ⟨[], _, rfl, h₁, h₂⟩
    · exact .inr h

/-- The same for a repetition, which can begin again. -/
theorem continues_plus_cons_iff {p : Pattern} {m : Marks p} {c : Char} {text rest : List Char} :
    (plus p).Continues m (c :: text) rest ↔
      p.Continues m (c :: text) rest ∨
        (∃ u v, text = u ++ v ∧ p.Continues m (c :: u) (v ++ rest) ∧
          (plus p).Matches false v rest) ∨
          p.ended false m = true ∧ (plus p).Matches false (c :: text) rest := by
  have hp : p.ended false m = true ↔ p.Continues m [] (c :: text ++ rest) :=
    @ended_iff p m (c :: text ++ rest)
  refine or_congr_right ?_
  rw [hp]
  constructor
  · rintro ⟨_ | ⟨d, u⟩, v, h, h₁, h₂⟩
    · cases h
      exact .inr ⟨h₁, h₂⟩
    · obtain ⟨rfl, rfl⟩ := List.cons.inj h
      exact .inl ⟨u, v, rfl, h₁, h₂⟩
  · rintro (⟨u, v, rfl, h₁, h₂⟩ | ⟨h₁, h₂⟩)
    · exact ⟨c :: u, v, rfl, h₁, h₂⟩
    · exact ⟨[], _, rfl, h₁, h₂⟩

/-- Without marks no match ends. -/
theorem ended_noMarks {p : Pattern} {isEnd : Bool} : p.ended isEnd p.noMarks = false := by
  induction p with
  | plus p hp => exact hp
  | _ => rfl

/-- Reading a character moves the marks of a row, unless there is nothing to move. -/
theorem read_seq {p q : Pattern} (b : Bool) (c : Char) (begins : Bool) (m : Marks (seq p q)) :
    (seq p q).read b c begins m = some (p.read b c begins (bothMarks m).1,
        q.read b c ((begins && p.matchesEmpty b false) || p.ended false (bothMarks m).1)
          (bothMarks m).2) ∨
      begins = false ∧ m = none ∧ (seq p q).read b c begins m = none := by
  cases m <;> cases begins <;> first | exact .inl rfl | exact .inr ⟨rfl, rfl, rfl⟩

/-- The same for a choice. -/
theorem read_either {p q : Pattern} (b : Bool) (c : Char) (begins : Bool)
    (m : Marks (either p q)) :
    (either p q).read b c begins m =
        some (p.read b c begins (bothMarks m).1, q.read b c begins (bothMarks m).2) ∨
      begins = false ∧ m = none ∧ (either p q).read b c begins m = none := by
  cases m <;> cases begins <;> first | exact .inl rfl | exact .inr ⟨rfl, rfl, rfl⟩

/-- Reading a character carries matches under way on, and starts those that may begin. There
are no marks at the start of a name. -/
theorem continues_read_iff {p : Pattern} {b begins : Bool} {c : Char} {m : Marks p}
    {text rest : List Char} (hm : b = true → m = p.noMarks) :
    p.Continues (p.read b c begins m) text rest ↔
      p.Continues m (c :: text) rest ∨ begins = true ∧ p.Matches b (c :: text) rest := by
  induction p generalizing begins text rest with
  | oneOf set =>
    have : ((begins && set.contains c) = true ∧ text = []) ↔
        (m = true ∧ c :: text = []) ∨ begins = true ∧ (oneOf set).Matches b (c :: text) rest := by
      simp [matches_oneOf_iff]; grind
    exact this
  | seq p q hp hq =>
    have hm₁ : b = true → (bothMarks m).1 = p.noMarks := fun h => by rw [hm h]; rfl
    have hm₂ : b = true → (bothMarks m).2 = q.noMarks := fun h => by rw [hm h]; rfl
    have he : p.ended false (bothMarks m).1 = true → b = false := by
      cases b with
      | false => exact fun _ => rfl
      | true => rw [hm₁ rfl, ended_noMarks]; exact nofun
    rcases read_seq b c begins m with h | ⟨rfl, rfl, h⟩
    · rw [h, continues_seq_cons_iff, matches_seq_cons_iff]
      simp only [Continues, hp hm₁, hq hm₂]
      grind
    · rw [h]
      simp [Continues]
  | either p q hp hq =>
    have hm₁ : b = true → (bothMarks m).1 = p.noMarks := fun h => by rw [hm h]; rfl
    have hm₂ : b = true → (bothMarks m).2 = q.noMarks := fun h => by rw [hm h]; rfl
    rcases read_either b c begins m with h | ⟨rfl, rfl, h⟩
    · rw [h, continues_either_iff, matches_either_iff]
      simp only [Continues, hp hm₁, hq hm₂]
      grind
    · rw [h]
      simp [Continues]
  | plus p hp =>
    have hr : ∀ m : Marks p, (b = true → m = p.noMarks) →
        (p.Continues (p.read b c (begins || p.ended false m) m) text rest ∨
          (∃ u v, text = u ++ v ∧
            p.Continues (p.read b c (begins || p.ended false m) m) u (v ++ rest) ∧
              (plus p).Matches false v rest) ↔
          (p.Continues m (c :: text) rest ∨
            (∃ u v, text = u ++ v ∧ p.Continues m (c :: u) (v ++ rest) ∧
              (plus p).Matches false v rest) ∨
              p.ended false m = true ∧ (plus p).Matches false (c :: text) rest) ∨
            begins = true ∧ (plus p).Matches b (c :: text) rest) := by
      intro m hm
      have he : p.ended false m = true → b = false := by
        cases b with
        | false => exact fun _ => rfl
        | true => rw [hm rfl, ended_noMarks]; exact nofun
      simp only [hp hm, matches_plus_cons_iff]
      grind
    exact (hr m hm).trans (or_congr_left continues_plus_cons_iff.symm)
  | _ => simp [Continues, matches_empty_iff, matches_atStart_iff, matches_atEnd_iff]

/-- A match that ends here or later either is under way or begins here or later. -/
theorem isMatchFrom_iff {p : Pattern} {b : Bool} {m : Marks p} {cs : List Char}
    (hm : b = true → m = p.noMarks) :
    p.isMatchFrom b m cs = true ↔
      (∃ u v, cs = u ++ v ∧ p.Continues m u v) ∨
        ∃ t u v, cs = t ++ (u ++ v) ∧ p.Matches (b && t.isEmpty) u v := by
  induction cs generalizing b m with
  | nil =>
    have h₁ : p.ended true m = true ↔ p.Continues m [] [] := @ended_iff p m []
    have h₂ : p.matchesEmpty b true = true ↔ p.Matches b [] [] := @matchesEmpty_iff p b []
    simp only [isMatchFrom, Bool.or_eq_true, h₁, h₂, List.nil_eq_append_iff,
      List.append_eq_nil_iff]
    refine or_congr ⟨fun h => ⟨[], [], ⟨rfl, rfl⟩, h⟩, ?_⟩
      ⟨fun h => ⟨[], [], [], ⟨rfl, rfl, rfl⟩, by simpa using h⟩, ?_⟩
    · rintro ⟨_, _, ⟨rfl, rfl⟩, h⟩
      exact h
    · rintro ⟨_, _, _, ⟨rfl, rfl, rfl⟩, h⟩
      simpa using h
  | cons c cs ih =>
    have h₁ : p.ended false m = true ↔ p.Continues m [] (c :: cs) := @ended_iff p m (c :: cs)
    have h₂ : p.matchesEmpty b false = true ↔ p.Matches b [] (c :: cs) :=
      @matchesEmpty_iff p b (c :: cs)
    have h₃ := @ih false (p.read b c true m) nofun
    simp only [isMatchFrom, Bool.or_eq_true, h₁, h₂, h₃, continues_read_iff hm]
    constructor
    · rintro ((h | h) | ⟨u, v, rfl, h | ⟨-, h⟩⟩ | ⟨t, u, v, rfl, h⟩)
      · exact .inl ⟨[], _, rfl, h⟩
      · exact .inr ⟨[], [], _, rfl, by simpa using h⟩
      · exact .inl ⟨c :: u, v, rfl, h⟩
      · exact .inr ⟨[], c :: u, v, rfl, by simpa using h⟩
      · exact .inr ⟨c :: t, u, v, rfl, by simpa using h⟩
    · rintro (⟨_ | ⟨d, u⟩, v, h, hu⟩ | ⟨_ | ⟨d, t⟩, u, v, h, hu⟩)
      · cases h
        exact .inl (.inl hu)
      · obtain ⟨rfl, rfl⟩ := List.cons.inj h
        exact .inr (.inl ⟨u, v, rfl, .inl hu⟩)
      · cases u with
        | nil => cases h; exact .inl (.inr (by simpa using hu))
        | cons d u =>
          obtain ⟨rfl, rfl⟩ := List.cons.inj h
          exact .inr (.inl ⟨u, v, rfl, .inr ⟨trivial, by simpa using hu⟩⟩)
      · obtain ⟨rfl, rfl⟩ := List.cons.inj h
        exact .inr (.inr ⟨t, u, v, rfl, by simpa using hu⟩)

/-- A search finds a pattern if and only if the pattern matches some part of the name. -/
theorem isMatch_iff {p : Pattern} {name : String} :
    p.isMatch name = true ↔
      ∃ t u v, name.toList = t ++ (u ++ v) ∧ p.Matches t.isEmpty u v := by
  rw [isMatch, isMatchFrom_iff fun _ => rfl]
  simp [not_continues_noMarks]

end StableNaming.Pattern
