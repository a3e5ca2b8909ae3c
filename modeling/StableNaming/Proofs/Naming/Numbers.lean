import StableNaming.Proofs.Naming.Run
import StableNaming.Proofs.Symbol.GeneratedName

/-!
# Numbers in the log

A counter stands past every number that the log has met so far: those that were
handed out, and those in names that were offered to be carried over and that fit in
a word. So a number is handed out only if no decision before has met it. A name whose
number fits in no word moves no counter.
-/

namespace StableNaming

/-- The next number after some numbers have been met, starting from `next`. -/
def nextAfter (next : Nat) (numbers : List Nat) : Nat :=
  numbers.foldl (fun next n => max next (n + 1)) next

theorem nextAfter_append (next : Nat) (ns ms : List Nat) :
    nextAfter next (ns ++ ms) = nextAfter (nextAfter next ns) ms :=
  List.foldl_append

theorem nextAfter_cons (next n : Nat) (ns : List Nat) :
    nextAfter next (n :: ns) = nextAfter (max next (n + 1)) ns := rfl

theorem le_nextAfter (next : Nat) (ns : List Nat) : next ≤ nextAfter next ns := by
  induction ns generalizing next with
  | nil => exact Nat.le_refl _
  | cons n ns ih => exact (Nat.le_max_left _ _).trans (ih _)

/-- The next number is greater than all that have been met. -/
theorem lt_nextAfter {n : Nat} {ns : List Nat} (h : n ∈ ns) (next : Nat) :
    n < nextAfter next ns := by
  induction ns generalizing next with
  | nil => exact absurd h List.not_mem_nil
  | cons m ns ih =>
    rw [nextAfter_cons]
    rcases List.mem_cons.1 h with rfl | h
    · have hmax : n + 1 ≤ max next (n + 1) := Nat.le_max_right _ _
      exact Nat.lt_of_succ_le (hmax.trans (le_nextAfter _ _))
    · exact ih h _

/-- The next number is the first one, or follows one that has been met. -/
theorem nextAfter_eq_or (next : Nat) (ns : List Nat) :
    nextAfter next ns = next ∨ ∃ n ∈ ns, nextAfter next ns = n + 1 := by
  induction ns generalizing next with
  | nil => exact .inl rfl
  | cons n ns ih =>
    rw [nextAfter_cons]
    rcases ih (max next (n + 1)) with hstays | ⟨m, hm, hmoves⟩
    · rw [hstays]
      rcases Nat.le_total (n + 1) next with hle | hle
      · exact .inl (Nat.max_eq_left hle)
      · exact .inr ⟨n, List.mem_cons_self, Nat.max_eq_right hle⟩
    · exact .inr ⟨m, List.mem_cons_of_mem n hm, hmoves⟩

/-- Meeting smaller numbers does not move the next one. -/
theorem nextAfter_eq_of_forall_lt {next : Nat} {ns : List Nat} (h : ∀ n ∈ ns, n < next) :
    nextAfter next ns = next := by
  induction ns with
  | nil => rfl
  | cons n ns ih =>
    have hn := h n List.mem_cons_self
    have hmax : max next (n + 1) = next := by omega
    rw [nextAfter_cons, hmax]
    exact ih fun m hm => h m (List.mem_cons_of_mem n hm)

namespace Provenance

/-- The numbers that a decision meets. -/
def numbers (kind : SymbolKind) : Provenance → List Nat
  | kept => []
  | carried _ offered => offered.filterMap kind.suffix?
  | minted number => [number]

/-- Whether a name with the number is carried over. The number need not fit in a word. -/
def Carries (kind : SymbolKind) (number : Nat) : Provenance → Prop
  | carried found _ => kind.number? found = some number
  | _ => False

/-- Whether a carried name is one of those that were offered. -/
def Sound (provenance : Provenance) : Prop :=
  ∀ found offered, provenance = .carried found offered → found ∈ offered

/-- The number of a carried name is met if it fits in a word. -/
theorem Carries.mem_numbers {kind : SymbolKind} {provenance : Provenance} {number : Nat}
    (h : provenance.Carries kind number) (hsound : provenance.Sound)
    (hword : number < Text.wordLimit) : number ∈ provenance.numbers kind := by
  cases provenance with
  | kept => exact h.elim
  | carried found offered =>
    refine List.mem_filterMap.2 ⟨found, hsound found offered rfl, ?_⟩
    exact SymbolKind.suffix?_eq_some_iff.2 ⟨h, hword⟩
  | minted _ => exact h.elim

end Provenance

/-- What is chosen is one of the offered names. -/
theorem sound_of_chooses {kind : SymbolKind} {need : Bool} {offered : List String}
    {c c' : NamingContext} {provenance : Provenance}
    (h : Chooses kind need offered c provenance c') : provenance.Sound := by
  intro found offered' heq
  cases h with
  | kept => cases heq
  | carried hmem _ =>
    obtain ⟨rfl, rfl⟩ := Provenance.carried.inj heq
    exact hmem
  | minted => cases heq

namespace Decision

/-- The numbers of a kind that a decision meets. -/
def numbers (kind : SymbolKind) (d : Decision) : List Nat :=
  if d.subject.kind = kind then d.provenance.numbers kind else []

/-- Whether a decision makes up the name of the kind with the number. -/
def Mints (d : Decision) (kind : SymbolKind) (number : Nat) : Prop :=
  d.subject.kind = kind ∧ d.provenance = .minted number

/-- Whether a decision carries over a name of the kind with the number. -/
def Carries (d : Decision) (kind : SymbolKind) (number : Nat) : Prop :=
  d.subject.kind = kind ∧ d.provenance.Carries kind number

end Decision

theorem Counters.get_skip? {c c' : Counters} {kind : SymbolKind} (h : c.skip? kind = some c')
    (kind' : SymbolKind) :
    c'.get kind' = if kind = kind' then c.get kind + 1 else c.get kind' := by
  obtain ⟨after, hafter, rfl⟩ := Option.map_eq_some_iff.1 h
  rw [get_set, Text.word?_eq_some_iff.1 hafter]

namespace NamingContext

variable {c c' : NamingContext} {kind : SymbolKind}

/-- Making up a name moves the counter of its kind on by one. -/
theorem get_counters_skip? (h : c.skip? kind = some c') (kind' : SymbolKind) :
    c'.counters.get kind' =
      if kind = kind' then c.counters.get kind + 1 else c.counters.get kind' := by
  obtain ⟨counters, hskip, rfl⟩ := Option.map_eq_some_iff.1 h
  exact Counters.get_skip? hskip kind'

/-- There is a number after the next one unless that is the last word. -/
theorem exists_skip?_iff : (∃ c', c.skip? kind = some c') ↔
    c.counters.get kind + 1 < Text.wordLimit := by
  simp only [skip?, Counters.skip?, Option.map_eq_some_iff]
  constructor
  · rintro ⟨_, _, ⟨after, hafter, rfl⟩, rfl⟩
    exact Text.word?_eq_some_iff.1 hafter ▸ Text.toNat_lt_wordLimit after
  · intro h
    obtain ⟨after, hafter⟩ := Text.exists_word? h
    exact ⟨_, _, ⟨after, hafter, rfl⟩, rfl⟩

theorem get_counters_pass? {name : String} (h : c.pass? kind name = some c')
    (kind' : SymbolKind) :
    c'.counters.get kind' =
      if kind = kind' then nextAfter (c.counters.get kind) (kind.suffix? name).toList
      else c.counters.get kind' := by
  rw [pass?] at h
  split at h
  · rename_i n hn
    obtain ⟨next, hnext, rfl⟩ := Option.map_eq_some_iff.1 h
    dsimp only
    rw [Counters.get_observe, Text.word?_eq_some_iff.1 hnext, hn]
    rfl
  · rename_i hnone
    obtain rfl := Option.some.inj h
    rw [hnone]
    split
    · rename_i heq
      rw [← heq]
      rfl
    · rfl

/-- A name can be passed over unless its number is the last word. -/
theorem exists_pass?_iff {name : String} : (∃ c', c.pass? kind name = some c') ↔
    ∀ n, kind.suffix? name = some n → n + 1 < Text.wordLimit := by
  rw [pass?]
  cases hsuffix : kind.suffix? name with
  | none => simp
  | some n =>
    simp only [Option.map_eq_some_iff, Option.some_inj, forall_eq']
    constructor
    · rintro ⟨_, next, hnext, -⟩
      exact Text.word?_eq_some_iff.1 hnext ▸ Text.toNat_lt_wordLimit next
    · intro h
      obtain ⟨next, hnext⟩ := Text.exists_word? h
      exact ⟨_, next, hnext, rfl⟩

/-- Passing over names moves the counter of their kind past their numbers. -/
theorem get_counters_passAll? {names : List String} (h : c.passAll? kind names = some c')
    (kind' : SymbolKind) :
    c'.counters.get kind' =
      if kind = kind' then nextAfter (c.counters.get kind) (names.filterMap kind.suffix?)
      else c.counters.get kind' := by
  induction names generalizing c with
  | nil =>
    obtain rfl := Option.some.inj h
    rw [List.filterMap_nil]
    split
    · rename_i heq
      rw [← heq]
      rfl
    · rfl
  | cons name names ih =>
    rw [passAll?_cons] at h
    obtain ⟨middle, hhead, htail⟩ := Option.bind_eq_some_iff.1 h
    rw [ih htail, get_counters_pass? hhead, get_counters_pass? hhead, if_pos rfl]
    split
    · rw [← nextAfter_append, List.filterMap_cons]
      cases kind.suffix? name <;> rfl
    · rfl

/-- Names can be passed over unless the number of one is the last word. -/
theorem exists_passAll?_iff {names : List String} : (∃ c', c.passAll? kind names = some c') ↔
    ∀ name ∈ names, ∀ n, kind.suffix? name = some n → n + 1 < Text.wordLimit := by
  induction names generalizing c with
  | nil => exact ⟨fun _ _ h => absurd h List.not_mem_nil, fun _ => ⟨c, rfl⟩⟩
  | cons name names ih =>
    simp only [passAll?_cons, Option.bind_eq_some_iff, List.forall_mem_cons]
    constructor
    · rintro ⟨c', middle, hhead, htail⟩
      exact ⟨exists_pass?_iff.1 ⟨middle, hhead⟩, ih.1 ⟨c', htail⟩⟩
    · rintro ⟨hname, hnames⟩
      obtain ⟨middle, hhead⟩ := (exists_pass?_iff (c := c)).2 hname
      obtain ⟨c', htail⟩ := (ih (c := middle)).2 hnames
      exact ⟨c', middle, hhead, htail⟩

end NamingContext

/-- Choosing where a name comes from moves the counter past the numbers met, and no other
counter. -/
theorem get_counters_of_chooses {kind : SymbolKind} {need : Bool} {offered : List String}
    {c c' : NamingContext} {provenance : Provenance}
    (h : Chooses kind need offered c provenance c') (kind' : SymbolKind) :
    c'.counters.get kind' =
      nextAfter (c.counters.get kind') (if kind = kind' then provenance.numbers kind else []) := by
  cases h with
  | kept =>
    rw [Provenance.numbers, ite_self]
    rfl
  | carried _ hpassed =>
    rw [NamingContext.get_counters_passAll? hpassed, Provenance.numbers]
    split
    · rename_i heq
      rw [heq]
    · rfl
  | minted hskip =>
    rw [NamingContext.get_counters_skip? hskip, Provenance.numbers]
    split
    · rename_i heq
      rw [heq, nextAfter_cons, nextAfter, List.foldl_nil]
      omega
    · rfl

namespace NamingTask

variable {task : NamingTask} {c c' : NamingContext}

/-- Every decision chooses where a name comes from, and moves the counters by that only. -/
theorem Decides.exists_chooses {d : Decision} (h : task.Decides c d c') :
    ∃ need offered c₁, Chooses d.subject.kind need offered c d.provenance c₁ ∧
      c'.counters = c₁.counters := by
  cases h with
  | type _ _ _ _ chooses => exact ⟨_, _, _, chooses, rfl⟩
  | field _ _ _ _ chooses => exact ⟨_, _, _, chooses, rfl⟩
  | method _ _ _ chooses => exact ⟨_, _, _, chooses, rfl⟩

/-- A decision moves each counter past the numbers that it meets. -/
theorem Decides.get_counters {d : Decision} (h : task.Decides c d c') (kind : SymbolKind) :
    c'.counters.get kind = nextAfter (c.counters.get kind) (d.numbers kind) := by
  obtain ⟨need, offered, c₁, hchooses, hcounters⟩ := h.exists_chooses
  rw [hcounters, get_counters_of_chooses hchooses, Decision.numbers]
  split
  · rename_i heq
    rw [heq]
  · rfl

/-- A counter stands past all numbers that the log has met. -/
theorem Log.get_counters {ds : List Decision} (h : task.Log c ds c') (kind : SymbolKind) :
    c'.counters.get kind = nextAfter (c.counters.get kind) (ds.flatMap (·.numbers kind)) := by
  induction h with
  | nil => rfl
  | snoc _ hd ih =>
    rw [hd.get_counters, ih, List.flatMap_append, List.flatMap_singleton, nextAfter_append]

theorem Leads.get_counters_le (h : task.Leads c c') (kind : SymbolKind) :
    c.counters.get kind ≤ c'.counters.get kind := by
  obtain ⟨ds, hds⟩ := h
  rw [hds.get_counters]
  exact le_nextAfter _ _

/-- A carried number is one of those that the decision meets if it fits in a word. -/
theorem Decides.mem_numbers {d : Decision} (h : task.Decides c d c') {kind : SymbolKind}
    {number : Nat} (hd : d.Carries kind number) (hword : number < Text.wordLimit) :
    number ∈ d.numbers kind := by
  obtain ⟨hkind, hcarries⟩ := hd
  obtain ⟨need, offered, c₁, hchooses, -⟩ := h.exists_chooses
  rw [Decision.numbers, if_pos hkind]
  exact hcarries.mem_numbers (sound_of_chooses hchooses) hword

/-- A number that is handed out is the next one. -/
theorem Decides.number_eq {d : Decision} (h : task.Decides c d c') {kind : SymbolKind}
    {number : Nat} (hd : d.Mints kind number) : number = c.counters.get kind := by
  obtain ⟨hkind, hminted⟩ := hd
  obtain ⟨need, offered, c₁, hchooses, -⟩ := h.exists_chooses
  rw [hminted, hkind] at hchooses
  exact (of_chooses_minted hchooses).2.2.1

/-- A number that is handed out fits in a word. -/
theorem Decides.lt_wordLimit {d : Decision} (h : task.Decides c d c') {kind : SymbolKind}
    {number : Nat} (hd : d.Mints kind number) : number < Text.wordLimit :=
  h.number_eq hd ▸ c.counters.get_lt kind

/-- A number that is handed out is the next one after all that the log has met before. -/
theorem Log.number_eq {before after : List Decision} {d : Decision}
    (h : task.Log c (before ++ d :: after) c') {kind : SymbolKind} {number : Nat}
    (hd : d.Mints kind number) :
    number = nextAfter (c.counters.get kind) (before.flatMap (·.numbers kind)) := by
  obtain ⟨c₁, c₂, hbefore, hdecides, -⟩ := h.divide
  rw [hdecides.number_eq hd, hbefore.get_counters]

end NamingTask

end StableNaming
