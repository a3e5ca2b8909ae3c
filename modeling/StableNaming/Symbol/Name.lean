import StableNaming.Text.Split

/-!
# Class names

A class name is a path of packages separated by slashes. The name of a nested
class is the name of its container, a dollar sign and a segment of its own.
-/

namespace StableNaming

/-- Separates a nested class from its container. -/
def nestingMark : Char := '$'

/-- Separates packages. -/
def packageMark : Char := '/'

/-- The segment after the last dollar sign; the whole name if there is none. -/
def simpleSegment (name : String) : String := Text.afterLast nestingMark name

/-- The simple segment of the part after the last slash, so `class_5` for both
`net/class_5` and `net/class_1$class_5`. -/
def innermostName (name : String) : String := simpleSegment (Text.afterLast packageMark name)

/-- The container that a name announces: the part before the last dollar sign, when
neither that part nor the segment after it is empty. -/
def containerName? (name : String) : Option String :=
  match Text.cutLast? [nestingMark] name.toList with
  | some (head, tail) => if head = [] ∨ tail = [] then none else some (String.ofList head)
  | none => none

/-- The name of a container is shorter than the name that announces it. -/
theorem length_containerName_lt {name container : String}
    (h : containerName? name = some container) :
    container.toList.length < name.toList.length := by
  simp only [containerName?] at h
  split at h
  · rename_i head tail hcut
    split at h
    · simp at h
    · simp only [Option.some.injEq] at h
      have := congrArg List.length (Text.append_of_cutLast? hcut)
      simp only [List.length_append, List.length_cons, List.length_nil] at this
      rw [← h, String.toList_ofList]
      omega
  · simp at h

/-- The leading ASCII digits of a segment. -/
def leadingDigits (segment : String) : String :=
  String.ofList (segment.toList.takeWhile Char.isDigit)

/-- The segment without its leading ASCII digits. -/
def dropLeadingDigits (segment : String) : String :=
  String.ofList (segment.toList.dropWhile Char.isDigit)

/-- A segment is its leading digits and the rest. -/
theorem leadingDigits_append (segment : String) :
    leadingDigits segment ++ dropLeadingDigits segment = segment := by
  rw [leadingDigits, dropLeadingDigits, ← String.ofList_append,
    List.takeWhile_append_dropWhile, String.ofList_toList]

end StableNaming
