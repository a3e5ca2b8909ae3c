import StableNaming.Pattern.Search
import StableNaming.Pattern.Syntax
import StableNaming.Policy.Basic

/-!
# The pattern engine

An engine for the notation that `Pattern.parse?` reads. It has the anchors, sets of
characters and their ranges, groups, choices and repetitions, and escapes for single
characters; it refuses the rest, such as named classes of characters and flags.
-/

namespace StableNaming

/-- A text denotes the search for the pattern that it is read as. -/
instance : PatternEngine where
  test? text := (Pattern.parse? text).map Pattern.isMatch

end StableNaming
