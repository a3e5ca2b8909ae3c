import StableNaming.Policy.Basic
import StableNaming.Symbol.MemberRef

/-!
# Chains of policies

Several policies vote together with a default policy. Only the strongest votes
count, and only if they are at least of strength two; otherwise the default
policy decides. Strongest votes that contradict each other are a fault, and so is
a vote without a strength.
-/

namespace StableNaming

/-- Why a chain cannot decide. -/
inductive PolicyFault where
  /-- Policies with votes of one strength disagree. -/
  | tie (symbol : String) (priority : Int32) (policies : List String)
  /-- A vote has no strength. -/
  | overflow
  deriving Repr, DecidableEq

/-- The report of a fault. -/
def PolicyFault.message : PolicyFault → String
  | .tie symbol priority policies =>
    "policies " ++ ", ".intercalate policies ++ " disagree on " ++ symbol ++ " at priority " ++
      toString priority.toInt
  | .overflow => "attempt to negate with overflow"

/-- The vote of a policy. -/
structure Vote where
  /-- The name of the policy. -/
  policy : String
  /-- The vote. -/
  priority : Int32
  deriving Repr, DecidableEq

/-- How strong a vote is. The least number has no absolute value. -/
def Vote.strength? (v : Vote) : Option Int32 :=
  if v.priority = Int32.minValue then none else some v.priority.abs

/-- The strength from which on votes overrule the default policy. -/
def overruling : Int32 := 2

/-- The decision on a symbol, given the votes and that of the default policy. -/
def decideVotes (symbol : String) (baseline : Int32) (votes : List Vote) :
    Except PolicyFault Bool :=
  let cast := votes.filter fun v => v.priority != 0
  match cast.mapM Vote.strength? with
  | none => .error .overflow
  | some strengths =>
    let top := strengths.foldl max 0
    if top < overruling then .ok (baseline > 0)
    else
      let leaders := cast.filter fun v => v.strength? == some top
      let inFavour := leaders.head?.any fun v => v.priority > 0
      if leaders.all fun v => (v.priority > 0 : Bool) == inFavour then .ok inFavour
      else .error (.tie symbol top (leaders.map Vote.policy))

/-- Policies that vote together. -/
structure PolicyChain where
  /-- The policy that decides when nobody overrules it. -/
  default : NamingPolicy
  /-- The policies that may overrule it, in the order in which they were added. -/
  policies : List NamingPolicy := []
  /-- The package for classes for which no policy has one. -/
  defaultPackage : String

namespace PolicyChain

/-- Add a policy. -/
def push (chain : PolicyChain) (p : NamingPolicy) : PolicyChain :=
  { chain with policies := chain.policies ++ [p] }

/-- The decision on a symbol, given how to ask a policy. -/
def decideBy (chain : PolicyChain) (symbol : String) (vote : NamingPolicy → Int32) :
    Except PolicyFault Bool :=
  decideVotes symbol (vote chain.default) (chain.policies.map fun p => ⟨p.name, vote p⟩)

/-- Whether a class needs a generated name. -/
def needsClassName (chain : PolicyChain) (c : ClassSymbol) : Except PolicyFault Bool :=
  chain.decideBy c.name (·.classVote c)

/-- Whether a field needs a generated name. -/
def needsFieldName (chain : PolicyChain) (c : ClassSymbol) (f : Member) :
    Except PolicyFault Bool :=
  chain.decideBy (MemberRef.mk c.name f.key).text (·.fieldVote c f)

/-- Whether a method needs a generated name. -/
def needsMethodName (chain : PolicyChain) (c : ClassSymbol) (m : MethodSymbol) :
    Except PolicyFault Bool :=
  chain.decideBy (MemberRef.mk c.name m.key).text (·.methodVote c m)

/-- The package for a top-level class: that of the first policy that has one. -/
def packageFor (chain : PolicyChain) (c : ClassSymbol) : String :=
  (chain.policies.findSome? (·.package? c)).getD chain.defaultPackage

end PolicyChain

end StableNaming
