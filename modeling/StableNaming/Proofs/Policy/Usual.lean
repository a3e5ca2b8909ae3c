import StableNaming.Naming.Config
import StableNaming.Policy.Chain

/-!
# The usual choice

Without policies the name patterns alone decide. What the usual texts mean is a matter
of the engine; an engine that reads them as the notation says has a class need a name
exactly if it lies outside any package, and a member only if its own name has at most
three characters, so that it is never a generated one.
-/

namespace StableNaming

namespace NamePatterns

/-- Whether a name lies outside any package. -/
def isOutside (name : String) : Bool := !name.toList.contains packageMark

/-- Whether a name is one or two characters, or two characters and an underscore. A line end is no
such character. -/
def isShort (name : String) : Bool :=
  match name.toList with
  | [a] => a != '\n'
  | [a, b] => a != '\n' && b != '\n'
  | [a, b, c] => a != '\n' && b != '\n' && c == '_'
  | _ => false

/-- The tests that the usual texts stand for. -/
def usual : NamePatterns where
  classes := [isOutside]
  fields := [isShort]
  methods := [isShort]

end NamePatterns

/-- Whether an engine reads the usual texts as the notation says. -/
class PatternEngine.ReadsUsual [PatternEngine] : Prop where
  /-- No character of the whole name is a slash. -/
  test?_outside : test? "^[^/]*$" = some NamePatterns.isOutside
  /-- The whole name is one or two characters, or two characters and an underscore. -/
  test?_short : test? "^(.\x7b1,2\x7d|.\x7b2\x7d_)$" = some NamePatterns.isShort

namespace NamePatterns

/-- The usual texts denote the usual tests. -/
theorem compile?_usual [PatternEngine] [PatternEngine.ReadsUsual] :
    PatternTexts.usual.compile? = some usual := by
  have houtside := PatternEngine.ReadsUsual.test?_outside
  have hshort := PatternEngine.ReadsUsual.test?_short
  simp only [PatternTexts.compile?, PatternTexts.usual, List.mapM_cons, List.mapM_nil, houtside,
    hshort]
  rfl

/-- The usual pattern for classes matches the names outside any package. -/
theorem anyMatch_usual_classes_iff {name : String} :
    anyMatch usual.classes name = true ↔ packageMark ∉ name.toList := by
  simp [anyMatch, usual, isOutside]

/-- The usual patterns for members match short names only. -/
theorem length_le_of_anyMatch_usual {name : String}
    (h : anyMatch [isShort] name = true) : name.toList.length ≤ 3 := by
  simp only [anyMatch, List.any_cons, List.any_nil, Bool.or_false] at h
  rw [isShort] at h
  split at h <;> simp_all

end NamePatterns

namespace PolicyChain

variable {chain : PolicyChain}

/-- Without policies the default policy decides. -/
theorem decideBy_of_no_policies (h : chain.policies = []) (symbol : String)
    (vote : NamingPolicy → Int32) :
    chain.decideBy symbol vote = .ok (decide (vote chain.default > 0)) := by
  rw [decideBy, h]
  rfl

/-- A weak vote counts as it says. -/
theorem weakVote_pos_iff (inFavour : Bool) :
    decide (NamePatterns.weakVote inFavour > 0) = inFavour := by
  cases inFavour <;> decide

section Patterns

variable {patterns : NamePatterns} (hpolicies : chain.policies = [])
  (hdefault : chain.default = patterns.policy)
include hpolicies hdefault

/-- Without policies a class needs a name if its own matches a pattern. -/
theorem needsClassName_eq (c : ClassSymbol) :
    chain.needsClassName c = .ok (NamePatterns.anyMatch patterns.classes c.name) := by
  rw [needsClassName, decideBy_of_no_policies hpolicies, hdefault,
    ← weakVote_pos_iff (NamePatterns.anyMatch _ _)]
  rfl

/-- The same for fields. -/
theorem needsFieldName_eq (c : ClassSymbol) (f : Member) :
    chain.needsFieldName c f = .ok (NamePatterns.anyMatch patterns.fields f.key.name) := by
  rw [needsFieldName, decideBy_of_no_policies hpolicies, hdefault,
    ← weakVote_pos_iff (NamePatterns.anyMatch _ _)]
  rfl

/-- The same for methods, but for initializers. -/
theorem needsMethodName_eq (c : ClassSymbol) (m : MethodSymbol) :
    chain.needsMethodName c m =
      .ok (NamePatterns.anyMatch patterns.methods m.key.name && !m.key.isInitializer) := by
  rw [needsMethodName, decideBy_of_no_policies hpolicies, hdefault,
    ← weakVote_pos_iff (NamePatterns.anyMatch _ _ && _)]
  rfl

end Patterns

end PolicyChain

end StableNaming
