import Mathlib.Data.List.Perm.Basic
import Mathlib.Order.Lattice
import StableNaming.Policy.Chain

/-!
# The strongest votes

Only the strongest votes on a symbol decide, by their common sign, and only from strength two on;
votes of one strength that contradict each other are a tie. So neither the order of the policies
nor a weaker vote changes the outcome.

The strength of a vote is a number of 32 bits. The least such number has no absolute value among
them, so with such a vote there is no decision, although it is as far from zero as a vote can be.
-/

namespace StableNaming

namespace Vote

/-- How far a vote is from zero. -/
def magnitude (v : Vote) : Nat := v.priority.toInt.natAbs

/-- Whether a vote asks for a generated name. -/
def inFavour (v : Vote) : Bool := decide (0 < v.priority)

/-- The greatest magnitude of votes, or zero if there are none. -/
def greatest (votes : List Vote) : Nat := votes.foldr (fun v n => max v.magnitude n) 0

/-- The votes of the greatest magnitude, in order. -/
def strongest (votes : List Vote) : List Vote :=
  votes.filter fun v => v.magnitude = greatest votes

end Vote

open Vote

/-- What comes of votes on a symbol where the strongest ones decide. -/
inductive FollowsStrongest (symbol : String) (baseline : Int32) (votes : List Vote) :
    Except PolicyFault Bool → Prop where
  /-- Weak votes leave the decision to the default policy. -/
  | weak (h : greatest votes < 2) : FollowsStrongest symbol baseline votes (.ok (0 < baseline))
  /-- The strongest votes agree. -/
  | agreed (b : Bool) (h : 2 ≤ greatest votes) (hall : ∀ v ∈ strongest votes, v.inFavour = b) :
      FollowsStrongest symbol baseline votes (.ok b)
  /-- The strongest votes disagree. -/
  | tied (h : 2 ≤ greatest votes)
      (hsome : ∃ v ∈ strongest votes, ∃ v' ∈ strongest votes, v.inFavour ≠ v'.inFavour) :
      FollowsStrongest symbol baseline votes
        (.error (.tie symbol (Int32.ofNat (greatest votes)) ((strongest votes).map Vote.policy)))

/-- Whether two outcomes are the same decision, ties of the same policies in some order, or no
decision at all. -/
inductive SameVerdict : Except PolicyFault Bool → Except PolicyFault Bool → Prop where
  /-- The same decision. -/
  | decision (b : Bool) : SameVerdict (.ok b) (.ok b)
  /-- A vote has no strength. -/
  | overflow : SameVerdict (.error .overflow) (.error .overflow)
  /-- Ties of the same policies. -/
  | tie (symbol : String) (priority : Int32) {policies policies' : List String}
      (h : policies.Perm policies') :
      SameVerdict (.error (.tie symbol priority policies)) (.error (.tie symbol priority policies'))

variable {votes votes' front rear : List Vote} {v : Vote} {symbol : String} {baseline : Int32}
  {outcome outcome' : Except PolicyFault Bool}

/-! ## The greatest magnitude -/

namespace Vote

/-- No vote is further from zero than the least number, and no other one is as far. -/
theorem magnitude_le (v : Vote) : v.magnitude ≤ 2147483648 := by
  have hlow := Int32.le_toInt v.priority
  have hhigh := Int32.toInt_lt v.priority
  rw [magnitude]
  omega

theorem magnitude_lt_iff : v.magnitude < 2147483648 ↔ v.priority ≠ Int32.minValue := by
  have hlow := Int32.le_toInt v.priority
  have hhigh := Int32.toInt_lt v.priority
  rw [magnitude, ne_eq, ← Int32.toInt_inj, Int32.toInt_minValue]
  omega

@[simp] theorem greatest_cons (v : Vote) (votes : List Vote) :
    greatest (v :: votes) = max v.magnitude (greatest votes) := rfl

theorem greatest_le_iff {n : Nat} : greatest votes ≤ n ↔ ∀ v ∈ votes, v.magnitude ≤ n := by
  induction votes with
  | nil => simp [greatest]
  | cons v votes ih => rw [greatest_cons, Nat.max_le, ih, List.forall_mem_cons]

theorem magnitude_le_greatest (h : v ∈ votes) : v.magnitude ≤ greatest votes :=
  greatest_le_iff.1 (Nat.le_refl _) v h

theorem mem_strongest_iff : v ∈ strongest votes ↔ v ∈ votes ∧ v.magnitude = greatest votes := by
  rw [strongest, List.mem_filter, decide_eq_true_eq]

/-- One of the votes has the greatest magnitude, unless all are zero. -/
theorem exists_mem_strongest (h : 0 < greatest votes) : ∃ v, v ∈ strongest votes := by
  by_contra hnone
  have hless : greatest votes ≤ greatest votes - 1 := by
    refine greatest_le_iff.2 fun v hv => ?_
    have hle := magnitude_le_greatest hv
    have hne : v.magnitude ≠ greatest votes := fun heq => hnone ⟨v, mem_strongest_iff.2 ⟨hv, heq⟩⟩
    omega
  omega

/-- The greatest magnitude depends only on which votes there are. -/
theorem greatest_congr (h : ∀ v, v ∈ votes ↔ v ∈ votes') : greatest votes = greatest votes' :=
  Nat.le_antisymm (greatest_le_iff.2 fun _ hv => magnitude_le_greatest ((h _).1 hv))
    (greatest_le_iff.2 fun _ hv => magnitude_le_greatest ((h _).2 hv))

theorem strongest_perm (h : votes.Perm votes') : (strongest votes).Perm (strongest votes') := by
  rw [strongest, strongest, greatest_congr fun v => h.mem_iff]
  exact h.filter _

theorem greatest_insert (front rear : List Vote) (v : Vote) :
    greatest (front ++ v :: rear) = max v.magnitude (greatest (front ++ rear)) := by
  rw [← greatest_cons]
  refine greatest_congr fun w => ?_
  simp only [List.mem_append, List.mem_cons]
  exact or_left_comm

/-- A vote of less than the greatest magnitude is not among the strongest. -/
theorem strongest_insert (h : v.magnitude < greatest (front ++ rear)) :
    strongest (front ++ v :: rear) = strongest (front ++ rear) := by
  have hsame : greatest (front ++ v :: rear) = greatest (front ++ rear) := by
    rw [greatest_insert, Nat.max_eq_right (Nat.le_of_lt h)]
  rw [strongest, strongest, hsame, List.filter_append, List.filter_append,
    List.filter_cons_of_neg (by simpa using Nat.ne_of_lt h)]

end Vote

/-! ## What comes of votes -/

namespace FollowsStrongest

/-- The strongest votes leave no choice. -/
theorem unique (h : FollowsStrongest symbol baseline votes outcome)
    (h' : FollowsStrongest symbol baseline votes outcome') : outcome = outcome' := by
  have hsplit : ∀ b, (∀ v ∈ strongest votes, v.inFavour = b) →
      ¬ ∃ v ∈ strongest votes, ∃ v' ∈ strongest votes, v.inFavour ≠ v'.inFavour := by
    rintro b hall ⟨v, hv, v', hv', hne⟩
    exact hne ((hall v hv).trans (hall v' hv').symm)
  cases h with
  | weak hweak =>
    cases h' with
    | weak => rfl
    | agreed _ hstrong => omega
    | tied hstrong => omega
  | agreed b hstrong hall =>
    cases h' with
    | weak hweak => omega
    | agreed b' _ hall' =>
      obtain ⟨v, hv⟩ : ∃ v, v ∈ strongest votes := exists_mem_strongest (by omega)
      rw [← hall v hv, hall' v hv]
    | tied _ hsome => exact absurd hsome (hsplit b hall)
  | tied hstrong hsome =>
    cases h' with
    | weak hweak => omega
    | agreed b _ hall => exact absurd hsome (hsplit b hall)
    | tied => rfl

/-- Votes in another order come to the same. -/
theorem sameVerdict (h : FollowsStrongest symbol baseline votes outcome)
    (h' : FollowsStrongest symbol baseline votes' outcome') (hperm : votes.Perm votes') :
    SameVerdict outcome outcome' := by
  have hgreatest : greatest votes = greatest votes' := greatest_congr fun v => hperm.mem_iff
  have hstrongest := strongest_perm hperm
  cases h with
  | weak hweak =>
    rw [unique h' (.weak (hgreatest ▸ hweak))]
    exact .decision _
  | agreed b hstrong hall =>
    rw [unique h' (.agreed b (hgreatest ▸ hstrong) fun v hv => hall v (hstrongest.mem_iff.2 hv))]
    exact .decision b
  | tied hstrong hsome =>
    obtain ⟨v, hv, w, hw, hne⟩ := hsome
    rw [unique h' (.tied (hgreatest ▸ hstrong)
      ⟨v, hstrongest.mem_iff.1 hv, w, hstrongest.mem_iff.1 hw, hne⟩), hgreatest]
    exact .tie _ _ (hstrongest.map _)

/-- One more vote that is weak, or weaker than another one, comes to nothing. -/
theorem insert (h : FollowsStrongest symbol baseline (front ++ rear) outcome)
    (hv : v.magnitude < max 2 (greatest (front ++ rear))) :
    FollowsStrongest symbol baseline (front ++ v :: rear) outcome := by
  have hgreatest := greatest_insert front rear v
  cases h with
  | weak hweak => exact .weak (by omega)
  | agreed b hstrong hall =>
    have hsame : strongest (front ++ v :: rear) = strongest (front ++ rear) :=
      strongest_insert (by omega)
    exact .agreed b (by omega) (hsame ▸ hall)
  | tied hstrong hsome =>
    have hsame : strongest (front ++ v :: rear) = strongest (front ++ rear) :=
      strongest_insert (by omega)
    have htied : FollowsStrongest symbol baseline (front ++ v :: rear) _ :=
      .tied (by omega) (hsame ▸ hsome)
    rwa [hsame, hgreatest, Nat.max_eq_right (by omega)] at htied

/-- The least number is the strongest vote there can be, and a vote against. -/
theorem of_least (hv : v ∈ votes) (hleast : v.priority = Int32.minValue) :
    FollowsStrongest symbol baseline votes (.ok false) := by
  have hmagnitude : v.magnitude = 2147483648 :=
    Nat.le_antisymm v.magnitude_le (Nat.le_of_not_lt fun hlt => magnitude_lt_iff.1 hlt hleast)
  have hgreatest : greatest votes = 2147483648 :=
    Nat.le_antisymm (greatest_le_iff.2 fun w _ => w.magnitude_le)
      (hmagnitude ▸ magnitude_le_greatest hv)
  refine .agreed false (by omega) fun w hw => decide_eq_false fun hpos => ?_
  have hstrongest := (mem_strongest_iff.1 hw).2.trans hgreatest
  have hhigh := Int32.toInt_lt w.priority
  rw [Int32.lt_iff_toInt_lt, Int32.toInt_zero] at hpos
  rw [magnitude] at hstrongest
  omega

end FollowsStrongest

/-! ## Votes of 32 bits -/

theorem toInt_max (a b : Int32) : (max a b).toInt = max a.toInt b.toInt := by
  have hmax : max a b = if a ≤ b then b else a := rfl
  rw [hmax]
  split <;> rename_i h <;> rw [Int32.le_iff_toInt_le] at h <;> omega

namespace Vote

/-- Exactly the votes with the least number have no strength. -/
theorem strength?_eq_none_iff : v.strength? = none ↔ v.priority = Int32.minValue := by
  rw [strength?]
  split <;> simp_all

/-- The strength of a vote is its magnitude. -/
theorem strength?_eq_some_iff {n : Int32} :
    v.strength? = some n ↔ v.priority ≠ Int32.minValue ∧ n.toInt = v.magnitude := by
  rw [strength?]
  split
  · rename_i hleast
    simp [hleast]
  · rename_i hleast
    have hne : v.priority.toBitVec ≠ BitVec.intMin 32 := fun heq =>
      hleast (Int32.toBitVec_inj.1 (heq.trans Int32.toBitVec_minValue.symm))
    have habs : v.priority.abs.toInt = v.magnitude :=
      BitVec.toInt_abs_eq_natAbs_of_ne_intMin hne
    rw [Option.some_inj, and_iff_right hleast, ← habs, Int32.toInt_inj, eq_comm]

/-- There are no strengths of votes exactly if one has the least number. -/
theorem mapM_strength?_eq_none_iff :
    votes.mapM strength? = none ↔ ∃ v ∈ votes, v.priority = Int32.minValue := by
  induction votes with
  | nil => simp
  | cons v votes ih =>
    rw [List.mapM_cons]
    cases hstrength : v.strength? with
    | none => simp [strength?_eq_none_iff.1 hstrength]
    | some n =>
      have hne := (strength?_eq_some_iff.1 hstrength).1
      cases hrest : votes.mapM strength? with
      | none => simpa [hne, hrest] using ih
      | some strengths => simpa [hne, hrest] using ih

/-- The greatest strength is the greatest magnitude. -/
theorem toInt_foldl_max {strengths : List Int32} (h : votes.mapM strength? = some strengths)
    {top : Int32} (htop : 0 ≤ top.toInt) :
    (strengths.foldl max top).toInt = max top.toInt (greatest votes) := by
  induction votes generalizing strengths top with
  | nil =>
    obtain rfl := Option.some.inj h
    exact (max_eq_left htop).symm
  | cons v votes ih =>
    rw [List.mapM_cons] at h
    obtain ⟨n, hn, h⟩ := Option.bind_eq_some_iff.1 h
    obtain ⟨rest, hrest, h⟩ := Option.bind_eq_some_iff.1 h
    obtain rfl := Option.some.inj h
    have hstrength := (strength?_eq_some_iff.1 hn).2
    have hmax := toInt_max top n
    rw [List.foldl_cons, ih hrest (by omega), hmax, greatest_cons]
    omega

/-- Silent policies do not raise the greatest magnitude. -/
theorem greatest_filter_ne_zero (votes : List Vote) :
    greatest (votes.filter fun v => v.priority != 0) = greatest votes := by
  refine Nat.le_antisymm (greatest_le_iff.2 fun v hv => ?_) (greatest_le_iff.2 fun v hv => ?_)
  · exact magnitude_le_greatest (List.mem_filter.1 hv).1
  · by_cases hzero : v.priority = 0
    · rw [magnitude, hzero]
      exact Nat.zero_le _
    · exact magnitude_le_greatest (List.mem_filter.2 ⟨hv, bne_iff_ne.2 hzero⟩)

/-- The votes of the greatest strength are the strongest ones. -/
theorem filter_strength?_eq {top : Int32} (htop : top.toInt = greatest votes)
    (hstrong : 2 ≤ greatest votes) (hleast : ∀ v ∈ votes, v.priority ≠ Int32.minValue) :
    (votes.filter fun v => v.priority != 0).filter (fun v => v.strength? == some top) =
      strongest votes := by
  rw [strongest, List.filter_filter]
  refine List.filter_congr fun v hv => Bool.eq_iff_iff.2 ?_
  rw [Bool.and_eq_true, beq_iff_eq, bne_iff_ne, decide_eq_true_eq, strength?_eq_some_iff, htop]
  refine ⟨fun h => by omega, fun h => ⟨⟨hleast v hv, by omega⟩, fun hzero => ?_⟩⟩
  have hnone : v.magnitude = 0 := by
    rw [magnitude, hzero]
    rfl
  omega

/-- Votes agree with the first one exactly if no two disagree. -/
theorem all_inFavour_iff (votes : List Vote) :
    votes.all (fun v => v.inFavour == votes.head?.any inFavour) = true ↔
      ¬ ∃ v ∈ votes, ∃ v' ∈ votes, v.inFavour ≠ v'.inFavour := by
  cases votes with
  | nil => simp
  | cons first votes =>
    rw [List.head?_cons, Option.any_some, List.all_eq_true]
    constructor
    · rintro hall ⟨v, hv, v', hv', hne⟩
      exact hne ((beq_iff_eq.1 (hall v hv)).trans (beq_iff_eq.1 (hall v' hv')).symm)
    · intro hnone v hv
      rw [beq_iff_eq]
      by_contra hne
      exact hnone ⟨v, hv, first, List.mem_cons_self, hne⟩

end Vote

/-! ## Decisions -/

/-- With a vote of the least number there is no decision. -/
theorem decideVotes_eq_overflow_of_least (h : ∃ v ∈ votes, v.priority = Int32.minValue) :
    decideVotes symbol baseline votes = .error .overflow := by
  obtain ⟨v, hv, hleast⟩ := h
  have hcast : ∃ v ∈ votes.filter (fun v => v.priority != 0), v.priority = Int32.minValue := by
    refine ⟨v, List.mem_filter.2 ⟨hv, ?_⟩, hleast⟩
    rw [hleast]
    decide
  rw [decideVotes, mapM_strength?_eq_none_iff.2 hcast]

/-- Without such a vote the strongest votes decide. -/
theorem followsStrongest_decideVotes (hleast : ∀ v ∈ votes, v.priority ≠ Int32.minValue) :
    FollowsStrongest symbol baseline votes (decideVotes symbol baseline votes) := by
  obtain ⟨strengths, hstrengths⟩ :
      ∃ strengths, (votes.filter fun v => v.priority != 0).mapM strength? = some strengths := by
    refine Option.ne_none_iff_exists'.1 fun hnone => ?_
    obtain ⟨v, hv, hv'⟩ := mapM_strength?_eq_none_iff.1 hnone
    exact hleast v (List.mem_filter.1 hv).1 hv'
  have hstart : 0 ≤ (0 : Int32).toInt := Int32.toInt_zero ▸ Int.le_refl 0
  have htop := toInt_foldl_max hstrengths hstart
  have hzero : max (0 : Int) (greatest votes) = greatest votes :=
    max_eq_right (Int.natCast_nonneg _)
  rw [greatest_filter_ne_zero, Int32.toInt_zero, hzero] at htop
  have htwo : overruling.toInt = 2 := rfl
  rw [decideVotes, hstrengths]
  dsimp only
  generalize strengths.foldl max 0 = top at htop
  split <;> rename_i hover <;> rw [Int32.lt_iff_toInt_lt, htop, htwo] at hover
  · exact .weak (by omega)
  · have hstrong : 2 ≤ greatest votes := by omega
    have hpriority : top = Int32.ofNat (greatest votes) := by
      have hhigh := Int32.toInt_lt top
      rw [← Int32.toInt_inj, Int32.toInt_ofNat_of_lt (by omega), htop]
    have hagree := all_inFavour_iff (strongest votes)
    rw [filter_strength?_eq htop hstrong hleast]
    split <;> rename_i hall
    · exact .agreed _ hstrong fun v hv => beq_iff_eq.1 (List.all_eq_true.1 hall v hv)
    · rw [hpriority]
      exact .tied hstrong (not_not.1 fun hnone => hall (hagree.2 hnone))

/-- The strongest votes decide exactly if none has the least number. -/
theorem followsStrongest_decideVotes_iff :
    FollowsStrongest symbol baseline votes (decideVotes symbol baseline votes) ↔
      ∀ v ∈ votes, v.priority ≠ Int32.minValue := by
  refine ⟨fun h v hv hleast => ?_, followsStrongest_decideVotes⟩
  rw [decideVotes_eq_overflow_of_least ⟨v, hv, hleast⟩] at h
  cases h

/-- The order of the votes does not matter. -/
theorem sameVerdict_decideVotes (h : votes.Perm votes') :
    SameVerdict (decideVotes symbol baseline votes) (decideVotes symbol baseline votes') := by
  by_cases hleast : ∃ v ∈ votes, v.priority = Int32.minValue
  · have hleast' : ∃ v ∈ votes', v.priority = Int32.minValue := by
      obtain ⟨v, hv, hleast⟩ := hleast
      exact ⟨v, h.mem_iff.1 hv, hleast⟩
    rw [decideVotes_eq_overflow_of_least hleast, decideVotes_eq_overflow_of_least hleast']
    exact .overflow
  · have hnone : ∀ v ∈ votes, v.priority ≠ Int32.minValue := fun v hv heq => hleast ⟨v, hv, heq⟩
    exact (followsStrongest_decideVotes hnone).sameVerdict
      (followsStrongest_decideVotes fun v hv => hnone v (h.mem_iff.2 hv)) h

/-- A vote that is weak, or weaker than another one, comes to nothing. -/
theorem decideVotes_insert (h : v.magnitude < max 2 (greatest (front ++ rear))) :
    decideVotes symbol baseline (front ++ v :: rear) =
      decideVotes symbol baseline (front ++ rear) := by
  have hmem : ∀ w, w ∈ front ++ v :: rear ↔ w = v ∨ w ∈ front ++ rear := by
    intro w
    rw [List.mem_append, List.mem_cons, List.mem_append, or_left_comm]
  by_cases hleast : ∃ w ∈ front ++ rear, w.priority = Int32.minValue
  · have hleast' : ∃ w ∈ front ++ v :: rear, w.priority = Int32.minValue := by
      obtain ⟨w, hw, hleast⟩ := hleast
      exact ⟨w, (hmem w).2 (.inr hw), hleast⟩
    rw [decideVotes_eq_overflow_of_least hleast, decideVotes_eq_overflow_of_least hleast']
  · have hnone : ∀ w ∈ front ++ rear, w.priority ≠ Int32.minValue :=
      fun w hw heq => hleast ⟨w, hw, heq⟩
    have hgreatest : greatest (front ++ rear) ≤ 2147483647 :=
      greatest_le_iff.2 fun w hw => Nat.le_of_lt_succ (magnitude_lt_iff.2 (hnone w hw))
    have hv : v.priority ≠ Int32.minValue := magnitude_lt_iff.1 (by omega)
    have hnone' : ∀ w ∈ front ++ v :: rear, w.priority ≠ Int32.minValue := by
      intro w hw
      rcases (hmem w).1 hw with rfl | hw
      · exact hv
      · exact hnone w hw
    exact (followsStrongest_decideVotes hnone').unique
      ((followsStrongest_decideVotes hnone).insert h)

namespace PolicyChain

/-- The votes that a chain takes when it asks its policies. -/
def votesBy (chain : PolicyChain) (vote : NamingPolicy → Int32) : List Vote :=
  chain.policies.map fun p => ⟨p.name, vote p⟩

/-- The strongest votes decide exactly if no policy votes with the least number; with such a vote
there is no decision. Neither the order of the policies nor one more policy with a weaker vote
changes what comes of them. -/
theorem decideBy_followsStrongest (chain : PolicyChain) (symbol : String)
    (vote : NamingPolicy → Int32) :
    (FollowsStrongest symbol (vote chain.default) (chain.votesBy vote)
        (chain.decideBy symbol vote) ↔ ∀ p ∈ chain.policies, vote p ≠ Int32.minValue) ∧
      ((∃ p ∈ chain.policies, vote p = Int32.minValue) →
        chain.decideBy symbol vote = .error .overflow) ∧
      (∀ policies, chain.policies.Perm policies →
        SameVerdict (chain.decideBy symbol vote) ({ chain with policies }.decideBy symbol vote)) ∧
      ∀ front p rear, chain.policies = front ++ rear →
        (vote p).toInt.natAbs < max 2 (greatest (chain.votesBy vote)) →
          { chain with policies := front ++ p :: rear }.decideBy symbol vote =
            chain.decideBy symbol vote := by
  refine ⟨?_, ?_, ?_, ?_⟩
  · rw [decideBy, votesBy, followsStrongest_decideVotes_iff, List.forall_mem_map]
  · rintro ⟨p, hp, hleast⟩
    exact decideVotes_eq_overflow_of_least ⟨_, List.mem_map_of_mem hp, hleast⟩
  · intro policies hperm
    exact sameVerdict_decideVotes (hperm.map _)
  · intro front p rear hpolicies hweaker
    rw [votesBy, hpolicies, List.map_append] at hweaker
    rw [decideBy, decideBy, hpolicies, List.map_append, List.map_append, List.map_cons]
    exact decideVotes_insert hweaker

/-- Policies that vote for a generated name and against it. -/
def mixed : PolicyChain where
  default := { name := "default", classVote := fun _ => 1 }
  policies := [{ name := "low", classVote := fun _ => -2 },
    { name := "high", classVote := fun _ => 5 },
    { name := "weak", classVote := fun _ => -1 }]
  defaultPackage := ""

/-- What the policies say of a class in any order, and with one more vote, and that a vote with the
least number leaves them without a decision. -/
theorem decideBy_followsStrongest_mixed :
    (∀ p ∈ mixed.policies, p.classVote { name := "a" } ≠ Int32.minValue) ∧
      FollowsStrongest "a" 1 (mixed.votesBy (·.classVote { name := "a" })) (.ok true) ∧
      mixed.needsClassName { name := "a" } = .ok true ∧
      SameVerdict (mixed.needsClassName { name := "a" })
        ({ mixed with policies := mixed.policies.reverse }.needsClassName { name := "a" }) ∧
      ((-4 : Int32).toInt.natAbs < 5 ∧
        ({ mixed with
          policies := { name := "more", classVote := fun _ => -4 } ::
            mixed.policies }).needsClassName { name := "a" } = .ok true) ∧
      (mixed.push { name := "least", classVote := fun _ => Int32.minValue }).needsClassName
        { name := "a" } = .error .overflow := by
  obtain ⟨hstrongest, -, horder, hweaker⟩ :=
    decideBy_followsStrongest mixed "a" (·.classVote { name := "a" })
  have hnone : ∀ p ∈ mixed.policies, p.classVote { name := "a" } ≠ Int32.minValue := by decide
  have hdecision : mixed.needsClassName { name := "a" } = .ok true := by decide
  have hfollows := hstrongest.2 hnone
  have hoverflow := (decideBy_followsStrongest
    (mixed.push { name := "least", classVote := fun _ => Int32.minValue }) "a"
    (·.classVote { name := "a" })).2.1 ⟨_, List.mem_append_right _ List.mem_cons_self, rfl⟩
  refine ⟨hnone, hdecision ▸ hfollows, hdecision, horder _ (List.reverse_perm _).symm,
    ⟨by decide, ?_⟩, hoverflow⟩
  exact (hweaker [] { name := "more", classVote := fun _ => -4 } _ rfl (by decide)).trans hdecision

/-- A chain with one policy, which votes with the least number. -/
def vetoed : PolicyChain where
  default := { name := "default", classVote := fun _ => 1 }
  policies := [{ name := "least", classVote := fun _ => Int32.minValue }]
  defaultPackage := ""

/-- The strongest vote is against a generated name, and the chain does not decide. -/
theorem not_followsStrongest_vetoed :
    vetoed.needsClassName { name := "a" } = .error .overflow ∧
      FollowsStrongest "a" 1 (vetoed.votesBy (·.classVote { name := "a" })) (.ok false) ∧
      ¬ FollowsStrongest "a" 1 (vetoed.votesBy (·.classVote { name := "a" }))
        (vetoed.needsClassName { name := "a" }) := by
  have hdecision : vetoed.needsClassName { name := "a" } = .error .overflow := by decide
  have hrule : FollowsStrongest "a" 1 (vetoed.votesBy (·.classVote { name := "a" })) (.ok false) :=
    .of_least List.mem_cons_self rfl
  refine ⟨hdecision, hrule, fun h => ?_⟩
  have hsame := h.unique hrule
  rw [hdecision] at hsame
  cases hsame

end PolicyChain

end StableNaming
