import StableNaming.Pattern.Engine
import StableNaming.Proofs.Policy.Usual

/-!
# The engine and the usual patterns

The engine at hand reads the usual texts as the notation says.
-/

namespace StableNaming

namespace Pattern

/-- A pattern that has to match the whole name. -/
def whole (body : Pattern) : Pattern := .seq .atStart (.seq body .atEnd)

/-- A pattern for the whole name finds nothing less. -/
theorem isMatch_whole_iff {body : Pattern} {name : String} :
    (whole body).isMatch name = true ↔ body.Matches true name.toList [] := by
  rw [isMatch_iff]
  constructor
  · rintro ⟨t, u, v, hname, hmatches⟩
    obtain ⟨u₁, u₂, rfl, hstart, hrest⟩ := matches_seq_iff.1 hmatches
    obtain ⟨ht, rfl⟩ := matches_atStart_iff.1 hstart
    obtain ⟨w, w', rfl, hbody, hend⟩ := matches_seq_iff.1 hrest
    obtain ⟨rfl, rfl⟩ := matches_atEnd_iff.1 hend
    have ht : t = [] := List.isEmpty_iff.1 ht
    subst ht
    have hname : name.toList = w := by simpa using hname
    rw [hname]
    simpa using hbody
  · intro hbody
    refine ⟨[], name.toList, [], by simp, ?_⟩
    refine matches_seq_iff.2 ⟨[], name.toList, rfl, .atStart, ?_⟩
    exact matches_seq_iff.2 ⟨name.toList, [], by simp, by simpa using hbody, .atEnd⟩

/-- Characters of a set, any number of them, match texts of such characters. -/
theorem matches_many_oneOf_iff {set : CharSet} {b : Bool} {text rest : List Char} :
    (many (.oneOf set)).Matches b text rest ↔ ∀ c ∈ text, set.contains c = true := by
  rw [many, optional, matches_either_iff, matches_empty_iff]
  induction text generalizing b with
  | nil => simp
  | cons c text ih =>
    rw [matches_plus_cons_iff, matches_oneOf_iff]
    constructor
    · rintro (h | ⟨d, hd, h⟩ | ⟨u, v, rfl, hc, hv⟩)
      · cases h
      · obtain ⟨rfl, rfl⟩ := List.cons.inj h
        simpa using hd
      · obtain ⟨d, hd, h⟩ := matches_oneOf_iff.1 hc
        obtain ⟨rfl, rfl⟩ := List.cons.inj h
        exact List.forall_mem_cons.2 ⟨hd, ih.1 (.inr hv)⟩
    · intro hall
      obtain ⟨hc, htext⟩ := List.forall_mem_cons.1 hall
      rcases (@ih false).2 htext with rfl | hplus
      · exact .inr (.inl ⟨c, hc, rfl⟩)
      · exact .inr (.inr ⟨[], text, rfl, .oneOf hc, hplus⟩)

/-- Names of one or two characters, and of two characters and an underscore. -/
def shortName : Pattern :=
  let dot : Pattern := .oneOf .dot
  .either (.seq dot (.either .empty dot)) (.seq (.seq dot dot) (.oneOf (.single '_')))

theorem matches_shortName_iff {b : Bool} {text rest : List Char} :
    shortName.Matches b text rest ↔
      (∃ a, a ≠ '\n' ∧ text = [a]) ∨ (∃ a a', a ≠ '\n' ∧ a' ≠ '\n' ∧ text = [a, a']) ∨
        ∃ a a', a ≠ '\n' ∧ a' ≠ '\n' ∧ text = [a, a', '_'] := by
  have hdot : ∀ {b : Bool} {text rest : List Char},
      (oneOf .dot).Matches b text rest ↔ ∃ a, a ≠ '\n' ∧ text = [a] := by
    intro b text rest
    simp only [matches_oneOf_iff, CharSet.contains_dot, Bool.not_eq_true',
      decide_eq_false_iff_not, ne_comm (a := '\n'), ne_eq]
  have hmark : ∀ {b : Bool} {text rest : List Char},
      (oneOf (.single '_')).Matches b text rest ↔ text = ['_'] := by
    intro b text rest
    simp [matches_oneOf_iff]
  simp only [shortName, matches_either_iff, matches_seq_iff, matches_empty_iff, hdot, hmark]
  constructor
  · rintro (⟨_, _, rfl, ⟨a, ha, rfl⟩, rfl | ⟨a', ha', rfl⟩⟩ |
      ⟨_, _, rfl, ⟨_, _, rfl, ⟨a, ha, rfl⟩, a', ha', rfl⟩, rfl⟩)
    · exact .inl ⟨a, ha, rfl⟩
    · exact .inr (.inl ⟨a, a', ha, ha', rfl⟩)
    · exact .inr (.inr ⟨a, a', ha, ha', rfl⟩)
  · rintro (⟨a, ha, rfl⟩ | ⟨a, a', ha, ha', rfl⟩ | ⟨a, a', ha, ha', rfl⟩)
    · exact .inl ⟨[a], [], rfl, ⟨a, ha, rfl⟩, .inl rfl⟩
    · exact .inl ⟨[a], [a'], rfl, ⟨a, ha, rfl⟩, .inr ⟨a', ha', rfl⟩⟩
    · exact .inr ⟨[a, a'], ['_'], rfl, ⟨[a], [a'], rfl, ⟨a, ha, rfl⟩, a', ha', rfl⟩, rfl⟩

end Pattern

namespace NamePatterns

/-- A name is short exactly if the pattern for short names matches the whole of it. -/
theorem isShort_eq_true_iff {name : String} :
    isShort name = true ↔
      (∃ a, a ≠ '\n' ∧ name.toList = [a]) ∨
        (∃ a a', a ≠ '\n' ∧ a' ≠ '\n' ∧ name.toList = [a, a']) ∨
          ∃ a a', a ≠ '\n' ∧ a' ≠ '\n' ∧ name.toList = [a, a', '_'] := by
  rw [isShort]
  split
  · rename_i hname
    simp [hname]
  · rename_i hname
    simp [hname]
  · rename_i a b c hname
    rw [hname]
    constructor
    · intro h
      simp only [Bool.and_eq_true, bne_iff_ne, beq_iff_eq] at h
      exact .inr (.inr ⟨a, b, h.1.1, h.1.2, by rw [h.2]⟩)
    · rintro (⟨_, _, ⟨⟩⟩ | ⟨_, _, _, _, ⟨⟩⟩ | ⟨_, _, ha, hb, ⟨⟩⟩)
      simp [ha, hb]
  · rename_i hone htwo hthree
    simp only [Bool.false_eq_true, false_iff, not_or, not_exists, not_and]
    exact ⟨fun a _ => hone a, fun a a' _ _ => htwo a a', fun a a' _ _ => hthree a a' '_'⟩

end NamePatterns

open Pattern in
instance : PatternEngine.ReadsUsual where
  test?_outside := by
    have hparse : parse? "^[^/]*$" = some (whole (many (.oneOf (.compl (.single '/'))))) := by
      decide +kernel
    refine (congrArg (Option.map isMatch) hparse).trans (congrArg some (funext fun name => ?_))
    rw [Bool.eq_iff_iff, isMatch_whole_iff, matches_many_oneOf_iff]
    simp only [NamePatterns.isOutside, packageMark, CharSet.contains_compl,
      CharSet.contains_single, Bool.not_eq_true', decide_eq_false_iff_not, List.contains_eq_mem]
    exact ⟨fun h hmem => h _ hmem rfl, fun h c hc heq => h (heq ▸ hc)⟩
  test?_short := by
    have hparse : parse? "^(.\x7b1,2\x7d|.\x7b2\x7d_)$" = some (whole shortName) := by
      decide +kernel
    refine (congrArg (Option.map isMatch) hparse).trans (congrArg some (funext fun name => ?_))
    rw [Bool.eq_iff_iff, isMatch_whole_iff, matches_shortName_iff, NamePatterns.isShort_eq_true_iff]

end StableNaming
