/-!
# Renaming the classes of a descriptor

A class reference is the text between an `L` and the next semicolon. Renaming
replaces the name in each reference and copies everything else, also in a text
that is no descriptor; a reference without a semicolon is copied. The renaming
that asks an effectful question per reference and the pure one agree.
-/

namespace StableNaming.Descriptor

variable {m : Type → Type} [Monad m]

/-- Rename the references of a text. The first argument is the name read so far
when the text starts inside a reference. -/
def renameChars (f : String → Option String) : Option (List Char) → List Char → List Char
  | none, [] => []
  | none, c :: cs => c :: renameChars f (if c = 'L' then some [] else none) cs
  | some name, [] => name
  | some name, c :: cs =>
    if c = ';' then
      ((f (String.ofList name)).elim name String.toList) ++ ';' :: renameChars f none cs
    else renameChars f (some (name ++ [c])) cs

/-- Rename the references of a text, asking for each name in turn. -/
def renameCharsM (f : String → m (Option String)) :
    Option (List Char) → List Char → m (List Char)
  | none, [] => pure []
  | none, c :: cs => do
    let rest ← renameCharsM f (if c = 'L' then some [] else none) cs
    pure (c :: rest)
  | some name, [] => pure name
  | some name, c :: cs =>
    if c = ';' then do
      let answer ← f (String.ofList name)
      let rest ← renameCharsM f none cs
      pure (answer.elim name String.toList ++ ';' :: rest)
    else renameCharsM f (some (name ++ [c])) cs

/-- Rename the classes of a descriptor; a class for which `f` has no answer stays. -/
def rename (f : String → Option String) (desc : String) : String :=
  String.ofList (renameChars f none desc.toList)

/-- Rename the classes of a descriptor, asking for each class in turn. -/
def renameM (f : String → m (Option String)) (desc : String) : m String := do
  let renamed ← renameCharsM f none desc.toList
  pure (String.ofList renamed)

theorem renameCharsM_pure [LawfulMonad m] (f : String → Option String)
    (inside : Option (List Char)) (cs : List Char) :
    renameCharsM (fun name => (pure (f name) : m (Option String))) inside cs =
      pure (renameChars f inside cs) := by
  induction cs generalizing inside with
  | nil => cases inside <;> rfl
  | cons c cs ih =>
    cases inside with
    | none => simp only [renameCharsM, renameChars, ih, pure_bind]
    | some name =>
      simp only [renameCharsM, renameChars]
      split
      · simp only [ih, pure_bind]
      · exact ih _

/-- Asking without effects is the pure renaming. -/
theorem renameM_pure [LawfulMonad m] (f : String → Option String) (desc : String) :
    renameM (fun name => (pure (f name) : m (Option String))) desc = pure (rename f desc) := by
  simp only [renameM, renameCharsM_pure, pure_bind, rename]

/-- Where every answer is the name that is asked for, nothing changes. -/
theorem rename_eq_self {f : String → Option String} (hf : ∀ name, (f name).getD name = name)
    (desc : String) : rename f desc = desc := by
  have hname : ∀ name : List Char,
      (f (String.ofList name)).elim name String.toList = name := by
    intro name
    have hanswer := hf (String.ofList name)
    cases hname : f (String.ofList name) with
    | none => rfl
    | some answer =>
      rw [hname, Option.getD_some] at hanswer
      rw [hanswer, Option.elim_some, String.toList_ofList]
  have h : ∀ (cs : List Char) (inside : Option (List Char)),
      renameChars f inside cs = inside.getD [] ++ cs := by
    intro cs
    induction cs with
    | nil => intro inside; cases inside <;> simp [renameChars]
    | cons c cs ih =>
      intro inside
      cases inside with
      | none =>
        simp only [renameChars, ih, Option.getD_none, List.nil_append]
        split <;> simp
      | some name =>
        simp only [renameChars, ih, hname]
        split
        · rename_i hc
          simp [hc]
        · simp
  simp [rename, h]

end StableNaming.Descriptor
