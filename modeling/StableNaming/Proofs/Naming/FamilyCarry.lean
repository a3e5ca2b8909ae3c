import StableNaming.Proofs.Graph.Families
import StableNaming.Proofs.Naming.Failure
import StableNaming.Proofs.Naming.FamilyNames
import StableNaming.Proofs.Naming.Reaching

/-!
# Names that are carried over into a family

A family is named once, when a run comes to the first class where it starts. What counts
are the names that are carried over to any of its classes: a single one is taken, without
one a name is made up, and among several a resolver chooses. So it matters neither which
class carries a name over nor at which class the family is named. The counter is moved past
all carried numbers that are words. Greater numbers do not move it, and if there is no word
past a number the run stops.
-/

namespace StableNaming

open NamingM

/-! ## Names that are offered -/

namespace NamingTask

variable {ρ : Type} {task : NamingTask} {s t : NamingState ρ}

/-- The names that are carried over to the classes of the family of a method, in the order of the
classes, each once. -/
def carriedNames (task : NamingTask) (id : ClassId) (key : MemberKey) : List String :=
  ((task.hierarchy.family id key).filterMap fun c =>
    (task.heritage.methodName? ⟨task.graph.nameAt c, key⟩).map Prod.fst).eraseDups

/-- The conflict that shows at a class if several names are carried over into the family of a
method. -/
def familyConflict (task : NamingTask) (id : ClassId) (key : MemberKey) : NamingConflict :=
  ⟨⟨task.graph.nameAt id, key⟩, task.candidates (task.hierarchy.family id key) key⟩

theorem names_familyConflict (id : ClassId) (key : MemberKey) :
    (task.familyConflict id key).names = task.carriedNames id key :=
  keys_candidates _ _

/-- Whether the second state is the one in which the name of a family is chosen: all carried names
have been passed over. -/
def Passes (task : NamingTask) (id : ClassId) (key : MemberKey) (s u : NamingState ρ) : Prop :=
  ∃ c, s.context.passAll? .method (task.carriedNames id key) = some c ∧ u = { s with context := c }

/-- The names can be passed over if there is room for the name of the family. -/
theorem exists_passes {id : ClassId} {key : MemberKey}
    (h : Room .method (task.carriedNames id key) s.context) : ∃ u, task.Passes id key s u := by
  obtain ⟨c, hpassed⟩ := NamingContext.exists_passAll?_iff.2 h.carried
  exact ⟨_, c, hpassed, rfl⟩

/-- Without carried names nothing is passed over. -/
theorem Passes.eq_of_nil {id : ClassId} {key : MemberKey} {u : NamingState ρ}
    (h : task.Passes id key s u) (hnames : task.carriedNames id key = []) : u = s := by
  obtain ⟨c, hpassed, rfl⟩ := h
  rw [hnames] at hpassed
  rw [← Option.some.inj hpassed]

/-- Passing over names leaves the resolver alone. -/
theorem Passes.resolver_eq {id : ClassId} {key : MemberKey} {u : NamingState ρ}
    (h : task.Passes id key s u) : u.resolver = s.resolver := by
  obtain ⟨c, -, rfl⟩ := h
  rfl

/-- The counter is moved past the numbers of all carried names that are words. -/
theorem Passes.get_counters {id : ClassId} {key : MemberKey} {u : NamingState ρ}
    (h : task.Passes id key s u) : u.context.counters.get .method =
      nextAfter (s.context.counters.get .method)
        (((task.carriedNames id key).filterMap SymbolKind.method.number?).filter
          (· < Text.wordLimit)) := by
  obtain ⟨c, hpassed, rfl⟩ := h
  have hsuffix : SymbolKind.method.suffix? =
      fun name => (SymbolKind.method.number? name).filter (· < Text.wordLimit) :=
    funext SymbolKind.method.suffix?_eq_filter
  rw [NamingContext.get_counters_passAll? hpassed, if_pos rfl, List.filter_filterMap, ← hsuffix]

/-! ## Choosing a name -/

variable [ConflictResolver ρ]

/-- The choice of a name for a family, after all carried names have been passed over. -/
def chooseFamilyName (task : NamingTask) (id : ClassId) (key : MemberKey) : NamingM ρ String :=
  chooseName ⟨task.graph.nameAt id, key⟩ (task.familyConflict id key).candidates

/-- Without a carried name the next one is made up. -/
theorem exists_succeeds_chooseFamilyName_of_nil {id : ClassId} {key : MemberKey}
    (h : task.carriedNames id key = []) (hroom : Room .method [] s.context) :
    ∃ c, s.context.skip? .method = some c ∧ Succeeds (task.chooseFamilyName id key) s
      (SymbolKind.method.generatedName (s.context.counters.get .method))
      { s with context := c } := by
  obtain ⟨c, hskip⟩ := NamingContext.exists_skip?_iff.2 (hroom.minted rfl)
  have hkeys : (task.familyConflict id key).candidates.keys = [] := h ▸ names_familyConflict id key
  refine ⟨c, hskip, ?_⟩
  rw [chooseFamilyName, chooseName, hkeys]
  exact succeeds_mint_iff.2 ⟨rfl, c, hskip, rfl⟩

/-- A single carried name is taken. -/
theorem succeeds_chooseFamilyName_of_singleton {id : ClassId} {key : MemberKey} {only : String}
    (h : task.carriedNames id key = [only]) :
    Succeeds (task.chooseFamilyName id key) s only s := by
  have hkeys : (task.familyConflict id key).candidates.keys = [only] :=
    h ▸ names_familyConflict id key
  rw [chooseFamilyName, chooseName, hkeys]
  exact succeeds_pure_iff.2 ⟨rfl, rfl⟩

/-- Among several carried names the resolver chooses by index. -/
theorem chooseFamilyName_eq_of_two_le {id : ClassId} {key : MemberKey}
    (h : 2 ≤ (task.carriedNames id key).length) :
    (task.chooseFamilyName id key : NamingM ρ String) =
      resolve (task.familyConflict id key) >>= fun index =>
        match (task.carriedNames id key)[index]? with
        | some name => pure name
        | none => throw (.invalidChoice index (task.carriedNames id key).length) := by
  have hkeys : (task.familyConflict id key).candidates.keys = task.carriedNames id key :=
    names_familyConflict id key
  rw [chooseFamilyName, chooseName, hkeys]
  cases hnames : task.carriedNames id key with
  | nil => simp [hnames] at h
  | cons first rest =>
    cases rest with
    | nil => simp [hnames] at h
    | cons second rest => rfl

section Conflict

variable {id : ClassId} {key : MemberKey} (h : 2 ≤ (task.carriedNames id key).length)
include h

/-- The name at the index that the resolver answers is taken. -/
theorem succeeds_chooseFamilyName_of_resolve {index : Nat} {r : ρ}
    (hresolve : ConflictResolver.resolve (task.familyConflict id key) s.resolver = (.ok index, r))
    (hindex : index < (task.carriedNames id key).length) :
    Succeeds (task.chooseFamilyName id key) s (task.carriedNames id key)[index]
      { s with resolver := r } := by
  have hanswer : Succeeds (resolve (task.familyConflict id key)) s index
      { s with resolver := r } :=
    succeeds_resolve_iff.2 ⟨by rw [hresolve], by rw [hresolve]⟩
  rw [Succeeds, chooseFamilyName_eq_of_two_le h, run_bind_of_succeeds hanswer,
    List.getElem?_eq_getElem hindex]
  rfl

/-- An answer that is no index is a fault. -/
theorem run_chooseFamilyName_of_length_le {index : Nat} {r : ρ}
    (hresolve : ConflictResolver.resolve (task.familyConflict id key) s.resolver = (.ok index, r))
    (hindex : (task.carriedNames id key).length ≤ index) :
    (task.chooseFamilyName id key).run s =
      (.error (.invalidChoice index (task.carriedNames id key).length),
        { s with resolver := r }) := by
  have hanswer : Succeeds (resolve (task.familyConflict id key)) s index
      { s with resolver := r } :=
    succeeds_resolve_iff.2 ⟨by rw [hresolve], by rw [hresolve]⟩
  rw [chooseFamilyName_eq_of_two_le h, run_bind_of_succeeds hanswer,
    List.getElem?_eq_none hindex]
  rfl

/-- A fault of the resolver is passed on. -/
theorem run_chooseFamilyName_of_error {fault : NamingFault} {r : ρ}
    (hresolve : ConflictResolver.resolve (task.familyConflict id key) s.resolver =
      (.error fault, r)) :
    (task.chooseFamilyName id key).run s = (.error fault, { s with resolver := r }) := by
  have hanswer : (resolve (task.familyConflict id key)).run s =
      (.error fault, { s with resolver := r }) := by
    rw [run_resolve, hresolve]
  rw [chooseFamilyName_eq_of_two_le h, run_bind_of_error hanswer]

end Conflict

/-- If names are carried over, choosing one moves no counter. -/
theorem keeps_counters_chooseFamilyName {id : ClassId} {key : MemberKey}
    (h : task.carriedNames id key ≠ []) {counters : Counters} :
    Moves (Keeps fun t => t.context.counters = counters)
      (task.chooseFamilyName id key : NamingM ρ String) := by
  have hkeys : (task.familyConflict id key).candidates.keys = task.carriedNames id key :=
    names_familyConflict id key
  rw [chooseFamilyName, chooseName, hkeys]
  split
  · rename_i hnil
    exact absurd hnil h
  · exact moves_pure _
  · refine Moves.bind (fun t ht => ?_) fun index => ?_
    · rw [run_resolve]
      exact ht
    · split
      · exact moves_pure _
      · exact moves_throw _

/-! ## Naming a family -/

section Naming

variable (hgraph : task.graph.Finished) {id : ClassId} {key : MemberKey} {method : MethodId}
  (hslot : task.graph.slot? id key = some method)
  (hnew : s.context.methodNames.find? method = none)
include hgraph hslot hnew

/-- The name of a family that has none is chosen once all carried names have been passed over, and
it is stored for the method that all classes of the family share. -/
theorem run_methodNameFor_of_new :
    (task.methodNameFor id key method).run s = (do
      (task.carriedNames id key).forM (observe .method)
      let name ← task.chooseFamilyName id key
      modifyContext (·.setMethod method name)
      pure name : NamingM ρ String).run s := by
  have hkeys : (task.candidates (task.hierarchy.family id key) key).keys =
      task.carriedNames id key := names_familyConflict id key
  -- All classes of the family hold one method, so storing the name for each stores it once.
  have hstore : ∀ name : String, (fun c : NamingContext => c.setMethods
      (method :: (task.hierarchy.family id key).filterMap (task.graph.slot? · key)) name) =
        fun c => c.setMethod method name := fun name => funext fun c =>
    NamingContext.setMethods_eq_setMethod name fun m hm => eq_of_mem_shared hgraph hslot hm
  rw [methodNameFor, run_context_bind, hnew]
  simp only [hstore]
  rw [newMethodName, hkeys, bind_assoc]
  rfl

/-- If a name cannot be passed over or made up, naming the family stops. -/
theorem exists_run_methodNameFor_of_not_room
    (h : ¬ Room .method (task.carriedNames id key) s.context) :
    ∃ t, (task.methodNameFor id key method).run s = (.error .overflow, t) := by
  rw [run_methodNameFor_of_new hgraph hslot hnew]
  rcases succeeds_or_fails ((task.carriedNames id key).forM (observe .method)) s with
    ⟨_, u, hsucceeds⟩ | ⟨fault, t, hfails⟩
  · obtain ⟨c, hpassed, rfl⟩ := succeeds_observeAll_iff.1 hsucceeds
    have hcarried := NamingContext.exists_passAll?_iff.1 ⟨c, hpassed⟩
    -- All names have been passed over, so none is carried and there is no number left.
    have hnil : task.carriedNames id key = [] := by
      by_contra hne
      exact h ⟨hcarried, fun hnil => absurd hnil hne⟩
    have hskip : s.context.skip? .method = none := by
      cases hskip : s.context.skip? .method with
      | none => rfl
      | some c' =>
        exact absurd ⟨hcarried, fun _ => NamingContext.exists_skip?_iff.1 ⟨c', hskip⟩⟩ h
    rw [hnil] at hpassed
    obtain rfl := Option.some.inj hpassed
    have hkeys : (task.familyConflict id key).candidates.keys = [] :=
      hnil ▸ names_familyConflict id key
    have hmint : Fails (task.chooseFamilyName id key) s .overflow s := by
      rw [chooseFamilyName, chooseName, hkeys]
      exact fails_mint_iff.2 ⟨hskip, rfl, rfl⟩
    exact ⟨s, (run_bind_of_succeeds hsucceeds _).trans (run_bind_of_error hmint _)⟩
  · obtain ⟨-, rfl⟩ := of_fails_observeAll hfails
    exact ⟨t, run_bind_of_error hfails _⟩

variable {u : NamingState ρ} (hpasses : task.Passes id key s u)
include hpasses

/-- Once the names have been passed over, the choice decides. -/
theorem run_methodNameFor_of_passes :
    (task.methodNameFor id key method).run s = (do
      let name ← task.chooseFamilyName id key
      modifyContext (·.setMethod method name)
      pure name : NamingM ρ String).run u := by
  have hobserved : Succeeds ((task.carriedNames id key).forM (observe .method)) s PUnit.unit u :=
    succeeds_observeAll_iff.2 hpasses
  rw [run_methodNameFor_of_new hgraph hslot hnew, run_bind_of_succeeds hobserved]

/-- The name that is chosen is that of the family. -/
theorem succeeds_methodNameFor_of_choice {name : String}
    (h : Succeeds (task.chooseFamilyName id key) u name t) :
    Succeeds (task.methodNameFor id key method) s name
      { t with context := t.context.setMethod method name } := by
  rw [Succeeds, run_methodNameFor_of_passes hgraph hslot hnew hpasses, run_bind_of_succeeds h]
  rfl

/-- If no name is chosen, naming the family fails. -/
theorem run_methodNameFor_of_error {fault : NamingFault}
    (h : (task.chooseFamilyName id key).run u = (.error fault, t)) :
    (task.methodNameFor id key method).run s = (.error fault, t) := by
  rw [run_methodNameFor_of_passes hgraph hslot hnew hpasses, run_bind_of_error h]

/-- If names are carried over, the counters stay as they are once these have been passed over, also
if no name is chosen. -/
theorem counters_methodNameFor (hcarried : task.carriedNames id key ≠ []) :
    ((task.methodNameFor id key method).run s).2.context.counters = u.context.counters := by
  rw [run_methodNameFor_of_passes hgraph hslot hnew hpasses]
  have hmoves : Moves (Keeps fun t => t.context.counters = u.context.counters) (do
      let name ← task.chooseFamilyName id key
      modifyContext (·.setMethod method name)
      pure name : NamingM ρ String) := by
    refine (keeps_counters_chooseFamilyName hcarried).bind fun name => Moves.bind ?_ moves_pure
    exact fun _ ht => ht
  exact hmoves u rfl

end Naming

/-! ## Coming to a family -/

/-- A run that comes to a method at which a family starts that needs a name goes on with the name
of the family. -/
theorem ComesTo.goesOnWith_methodNameFor {start : NamingState ρ} (hgraph : task.graph.Finished)
    {id : ClassId} {key : MemberKey} {method : MethodId} {symbol : MethodSymbol}
    (h : task.ComesTo start id (key, method) s) (hstarts : task.Starts id key method symbol)
    (hneed : task.chain.needsMethodName (task.graph.classAt id) symbol = .ok true) :
    GoesOnWith Later task.run start (task.methodNameFor id key method) s := by
  have hentry : (task.methodEntry id (key, method) : NamingM ρ _) =
      task.methodNameFor id key method >>= fun name => pure (some ⟨key, name⟩) := by
    rw [methodEntry, hstarts.not_initializer, hstarts.source, if_neg (by decide), hstarts.declared]
    dsimp only
    rw [sourceEntry, hneed, ask, pure_bind, if_pos rfl]
  obtain ⟨rest, hrun, hrest⟩ := h.goesOnWith hgraph
  rw [hentry, bind_assoc] at hrun
  exact ⟨_, hrun, fun name => (moves_pure _).bind hrest⟩

end NamingTask

/-! ## Calls that come to a family -/

namespace Generator

variable {ρ : Type} [ConflictResolver ρ]

/-- Whether a call comes in a state of its run to a family that has no name, at a class where the
family starts and needs one. -/
inductive ReachesFamily (gen : Generator ρ) (id : ClassId) (key : MemberKey) (s : NamingState ρ) :
    Prop where
  /-- The run of the call comes to the method of the class. -/
  | intro {stored : Counters} {method : MethodId} {symbol : MethodSymbol}
    (stored_eq : gen.storedCounters = .ok stored)
    (comesTo : gen.task.ComesTo gen.startState id (key, method) s)
    (starts : gen.task.Starts id key method symbol)
    (needed : gen.task.chain.needsMethodName (gen.task.graph.classAt id) symbol = .ok true)
    (new : s.context.methodNames.find? method = none)

/-- Whether after a call all classes of the family of a method answer one name for it. -/
def NamesFamily (gen : Generator ρ) (id : ClassId) (key : MemberKey) (name : String) : Prop :=
  ∀ c ∈ gen.task.hierarchy.family id key,
    gen.generate.2.methodName? ⟨gen.task.graph.nameAt c, key⟩ = some name

/-- What a call finds for a family to which it comes in a state of its run. -/
structure GathersNames (gen : Generator ρ) (id : ClassId) (key : MemberKey) (s : NamingState ρ) :
    Prop where
  /-- The classes are asked in the order of their names. -/
  ascending : (gen.task.hierarchy.family id key).Pairwise
    (gen.task.graph.nameAt · < gen.task.graph.nameAt ·)
  /-- All classes of the family carry over the same names. -/
  shared : ∀ c ∈ gen.task.hierarchy.family id key,
    gen.task.carriedNames c key = gen.task.carriedNames id key
  /-- Only generated names are carried over. -/
  generated : ∀ name ∈ gen.task.carriedNames id key,
    SymbolKind.method.isGenerated (innermostName name) = true
  /-- A resolver whose answers leave it as it is is asked as it was at the start. -/
  steady : (∀ c, (ConflictResolver.resolve c gen.resolver).2 = gen.resolver) →
    s.resolver = gen.resolver

/-- What a call does about a family to which it comes in a state of its run, if there is room for
the name. -/
structure SettlesFamily (gen : Generator ρ) (id : ClassId) (key : MemberKey) (s : NamingState ρ) :
    Prop where
  /-- Without a carried name all classes answer the next one that is made up. -/
  minted : gen.task.carriedNames id key = [] →
    gen.NamesFamily id key
      (SymbolKind.method.generatedName (s.context.counters.get .method)) ∧
    gen.startCounters.get .method ≤ s.context.counters.get .method ∧
    s.context.counters.get .method < gen.generate.2.context.counters.get .method
  /-- A single carried name is answered by all classes. -/
  carried : ∀ {only}, gen.task.carriedNames id key = [only] → gen.NamesFamily id key only
  /-- Among several carried names all classes answer the one that the resolver chooses. -/
  chosen : 2 ≤ (gen.task.carriedNames id key).length →
    ∀ {index r}, ConflictResolver.resolve (gen.task.familyConflict id key) s.resolver =
      (.ok index, r) → ∀ h : index < (gen.task.carriedNames id key).length,
        gen.NamesFamily id key (gen.task.carriedNames id key)[index]
  /-- A choice that is the index of no carried name stops the run. -/
  invalid : 2 ≤ (gen.task.carriedNames id key).length →
    ∀ {index r}, ConflictResolver.resolve (gen.task.familyConflict id key) s.resolver =
      (.ok index, r) → (gen.task.carriedNames id key).length ≤ index →
        gen.generate.1 = .error (.invalidChoice index (gen.task.carriedNames id key).length)
  /-- A resolver that does not choose stops the run with its fault. -/
  unsettled : 2 ≤ (gen.task.carriedNames id key).length →
    ∀ {fault r}, ConflictResolver.resolve (gen.task.familyConflict id key) s.resolver =
      (.error fault, r) → gen.generate.1 = .error fault
  /-- A resolver that refuses all conflicts stops the run with the list of the carried names. -/
  refused : 2 ≤ (gen.task.carriedNames id key).length →
    (∀ c, ConflictResolver.resolve c gen.resolver = (.error c.fault, gen.resolver)) →
      gen.generate.1 = .error (.conflict ⟨gen.task.graph.nameAt id, key⟩
        (gen.task.carriedNames id key))
  /-- The counter stands past the numbers of all carried names that are words, whichever name is
  taken and also if the run fails. -/
  reserved : ∀ name ∈ gen.task.carriedNames id key, ∀ n,
    SymbolKind.method.number? name = some n → n < Text.wordLimit →
      n < gen.generate.2.context.counters.get .method
  /-- It is these numbers that the counter is moved past when the family is named. Greater ones do
  not move it. -/
  counted : gen.task.carriedNames id key ≠ [] → ∀ {method},
    gen.task.graph.slot? id key = some method →
      ((gen.task.methodNameFor id key method).run s).2.context.counters.get .method =
        nextAfter (s.context.counters.get .method)
          (((gen.task.carriedNames id key).filterMap SymbolKind.method.number?).filter
            (· < Text.wordLimit))

section Reaches

variable {gen : Generator ρ} (hgraph : gen.task.graph.Finished) {id : ClassId} {key : MemberKey}
  {s t u : NamingState ρ} (h : gen.ReachesFamily id key s)
include hgraph h

/-- A resolver whose answers leave it as it is stays so until the run comes to the family. -/
theorem ReachesFamily.resolver_eq
    (hstays : ∀ c, (ConflictResolver.resolve c gen.resolver).2 = gen.resolver) :
    s.resolver = gen.resolver := by
  obtain ⟨-, hcomes, -, -, -⟩ := h
  exact (hcomes.later hgraph).resolver_eq hstays

/-- If there is no room for the name of the family, the call fails. -/
theorem ReachesFamily.generate_eq_overflow
    (hfull : ¬ Room .method (gen.task.carriedNames id key) s.context) :
    gen.generate.1 = .error .overflow := by
  obtain ⟨hstored, hcomes, hstarts, hneed, hnew⟩ := h
  obtain ⟨t, herror⟩ :=
    NamingTask.exists_run_methodNameFor_of_not_room hgraph hstarts.slot hnew hfull
  rw [(generate_of_stored hstored).1,
    (hcomes.goesOnWith_methodNameFor hgraph hstarts hneed).of_error herror]

variable (hpasses : gen.task.Passes id key s u)
include hpasses

/-- The chosen name is answered by all classes of the family, and what comes after only raises
counters. -/
theorem ReachesFamily.namesFamily {name : String}
    (hchoice : Succeeds (gen.task.chooseFamilyName id key) u name t) :
    gen.NamesFamily id key name ∧ ∀ kind,
      t.context.counters.get kind ≤ gen.generate.2.context.counters.get kind := by
  obtain ⟨hstored, hcomes, hstarts, hneed, hnew⟩ := h
  obtain ⟨-, htask, hcontext⟩ := generate_of_stored hstored
  have hnamed :=
    NamingTask.succeeds_methodNameFor_of_choice hgraph hstarts.slot hnew hpasses hchoice
  have hlater := (hcomes.goesOnWith_methodNameFor hgraph hstarts hneed).of_moves
  rw [hnamed] at hlater
  rw [hcontext]
  refine ⟨fun c hc => ?_, hlater.get_counters_le⟩
  have hslot := (hgraph.mem_family_iff_holds _ hstarts.slot).1 hc
  have hgraph' : gen.generate.2.task.graph = gen.task.graph := by rw [htask]
  rw [methodName?_nameAt hgraph' hgraph.names (ClassGraph.lt_size_of_slot? hslot), hslot, hcontext,
    Option.bind_some]
  refine hlater.persists.method ?_
  dsimp only [NamingContext.setMethod]
  rw [Dictionary.find?_insert, if_pos rfl]

/-- If no name is chosen, the call fails. -/
theorem ReachesFamily.generate_eq_error {fault : NamingFault}
    (hchoice : (gen.task.chooseFamilyName id key).run u = (.error fault, t)) :
    gen.generate.1 = .error fault := by
  obtain ⟨hstored, hcomes, hstarts, hneed, hnew⟩ := h
  have herror :=
    NamingTask.run_methodNameFor_of_error hgraph hstarts.slot hnew hpasses hchoice
  rw [(generate_of_stored hstored).1,
    (hcomes.goesOnWith_methodNameFor hgraph hstarts hneed).of_error herror]

/-- When the family is named, the counter is moved past the numbers of all carried names that are
words. -/
theorem ReachesFamily.counted (hcarried : gen.task.carriedNames id key ≠ []) {method : MethodId}
    (hslot : gen.task.graph.slot? id key = some method) :
    ((gen.task.methodNameFor id key method).run s).2.context.counters.get .method =
      nextAfter (s.context.counters.get .method)
        (((gen.task.carriedNames id key).filterMap SymbolKind.method.number?).filter
          (· < Text.wordLimit)) := by
  obtain ⟨-, -, hstarts, -, hnew⟩ := h
  obtain rfl := Option.some.inj (hslot.symm.trans hstarts.slot)
  rw [NamingTask.counters_methodNameFor hgraph hslot hnew hpasses hcarried, hpasses.get_counters]

/-- The counter stands past the numbers of all carried names that are words after the call. -/
theorem ReachesFamily.lt_counters {name : String} (hname : name ∈ gen.task.carriedNames id key)
    {n : Nat} (hn : SymbolKind.method.number? name = some n) (hword : n < Text.wordLimit) :
    n < gen.generate.2.context.counters.get .method := by
  obtain @⟨stored, method, symbol, hstored, hcomes, hstarts, hneed, hnew⟩ := h
  have hmet :
      n < ((gen.task.methodNameFor id key method).run s).2.context.counters.get .method := by
    rw [NamingTask.counters_methodNameFor hgraph hstarts.slot hnew hpasses
      (List.ne_nil_of_mem hname), hpasses.get_counters]
    refine lt_nextAfter (List.mem_filter.2 ⟨?_, decide_eq_true hword⟩) _
    exact List.mem_filterMap.2 ⟨name, hname, hn⟩
  have hlater := (hcomes.goesOnWith_methodNameFor hgraph hstarts hneed).of_moves
  rw [(generate_of_stored hstored).2.2]
  exact hmet.trans_le (hlater.get_counters_le .method)

/-- If no name is carried over, all classes answer one that is made up. -/
theorem ReachesFamily.minted (hnames : gen.task.carriedNames id key = [])
    (hroom : Room .method [] s.context) :
    gen.NamesFamily id key
      (SymbolKind.method.generatedName (s.context.counters.get .method)) ∧
    gen.startCounters.get .method ≤ s.context.counters.get .method ∧
    s.context.counters.get .method < gen.generate.2.context.counters.get .method := by
  obtain rfl := hpasses.eq_of_nil hnames
  obtain ⟨c, hskip, hchoice⟩ :=
    NamingTask.exists_succeeds_chooseFamilyName_of_nil hnames hroom
  obtain ⟨hfamily, hcounters⟩ := h.namesFamily hgraph hpasses hchoice
  have hnext := hcounters .method
  rw [NamingContext.get_counters_skip? hskip, if_pos rfl] at hnext
  obtain ⟨-, hcomes, -, -, -⟩ := h
  exact ⟨hfamily, (hcomes.later hgraph).get_counters_le .method, hnext⟩

end Reaches

/-- A successful call comes to every family that has no name and starts at a class where it needs
one. -/
theorem exists_reachesFamily {gen : Generator ρ} (hgraph : gen.task.graph.Finished)
    (hok : gen.generate.1.isOk = true) {id : ClassId} {key : MemberKey} {method : MethodId}
    {symbol : MethodSymbol} (hstarts : gen.task.Starts id key method symbol)
    (hneed : gen.task.chain.needsMethodName (gen.task.graph.classAt id) symbol = .ok true)
    (hnew : gen.context.methodNames.find? method = none) :
    ∃ c ∈ gen.task.hierarchy.family id key, ∃ s, gen.ReachesFamily c key s := by
  obtain ⟨stored, hstored⟩ : ∃ stored, gen.storedCounters = .ok stored := by
    cases hstored : gen.storedCounters with
    | ok stored => exact ⟨stored, rfl⟩
    | error fault =>
      rw [generate, hstored] at hok
      exact absurd hok Bool.false_ne_true
  obtain ⟨set, hset⟩ := exists_generate_eq_of_isOk hok
  obtain ⟨t, hrun, -⟩ := exists_succeeds_of_generate hset
  obtain ⟨-, hsettled, -⟩ := NamingTask.of_succeeds_run hgraph hrun
  obtain ⟨need, hneed', hnamed⟩ :=
    (hsettled id (ClassGraph.lt_size_of_slot? hstarts.slot)).of_starts hstarts
  obtain ⟨name, hname⟩ := hnamed (Except.ok.inj (hneed'.symm.trans hneed))
  have hgets : t.context.methodNames.find? method ≠ none := by
    rw [hname]
    exact Option.some_ne_none name
  obtain ⟨c, key', symbol', s, hcomes, hstarts', hneeds, hs⟩ :=
    NamingTask.exists_comesTo hgraph hrun hnew hgets
  obtain ⟨rfl, -⟩ := (hgraph.slot_eq_iff hstarts.slot hstarts'.slot).1 rfl
  exact ⟨c, (hgraph.mem_family_iff_holds _ hstarts.slot).2 hstarts'.slot, s,
    .intro hstored hcomes hstarts' hneeds hs⟩

/-- If there is room, the call settles the family. -/
theorem ReachesFamily.settlesFamily {gen : Generator ρ} (hgraph : gen.task.graph.Finished)
    {id : ClassId} {key : MemberKey} {s : NamingState ρ} (h : gen.ReachesFamily id key s)
    (hroom : Room .method (gen.task.carriedNames id key) s.context) :
    gen.SettlesFamily id key s := by
  obtain ⟨u, hpasses⟩ := NamingTask.exists_passes hroom
  have hresolver := hpasses.resolver_eq
  constructor
  · intro hnil
    exact h.minted hgraph hpasses hnil (hnil ▸ hroom)
  · intro only honly
    exact (h.namesFamily hgraph hpasses
      (NamingTask.succeeds_chooseFamilyName_of_singleton honly)).1
  · intro hseveral index r hresolve hindex
    rw [← hresolver] at hresolve
    exact (h.namesFamily hgraph hpasses
      (NamingTask.succeeds_chooseFamilyName_of_resolve hseveral hresolve hindex)).1
  · intro hseveral index r hresolve hindex
    rw [← hresolver] at hresolve
    exact h.generate_eq_error hgraph hpasses
      (NamingTask.run_chooseFamilyName_of_length_le hseveral hresolve hindex)
  · intro hseveral fault r hresolve
    rw [← hresolver] at hresolve
    exact h.generate_eq_error hgraph hpasses
      (NamingTask.run_chooseFamilyName_of_error hseveral hresolve)
  · intro hseveral hrefuses
    have hsame := h.resolver_eq hgraph fun c => by rw [hrefuses]
    have hresolve := hrefuses (gen.task.familyConflict id key)
    rw [← hsame, ← hresolver] at hresolve
    have hfault := NamingTask.run_chooseFamilyName_of_error hseveral hresolve
    rw [h.generate_eq_error hgraph hpasses hfault, NamingConflict.fault,
      NamingTask.names_familyConflict]
    rfl
  · exact fun name hname n hn hword => h.lt_counters hgraph hpasses hname hn hword
  · exact fun hcarried {method} hslot => h.counted hgraph hpasses hcarried hslot

/-- A call that comes to a family gathers the names that are carried over to its classes, and if
there is room it settles the family by them. A successful call comes to every family that has no
name and starts at some class where it needs one, and there is room for its name. -/
theorem settlesFamily_of_reachesFamily (files : List ClassFile) {gen : Generator ρ}
    (hgraph : gen.task.graph = GraphBuilder.build files) :
    (∀ id key s, gen.ReachesFamily id key s → gen.GathersNames id key s ∧
      (Room .method (gen.task.carriedNames id key) s.context → gen.SettlesFamily id key s)) ∧
    (gen.generate.1.isOk = true → ∀ id key method symbol,
      gen.task.Starts id key method symbol →
      gen.task.chain.needsMethodName (gen.task.graph.classAt id) symbol = .ok true →
      gen.context.methodNames.find? method = none →
        ∃ c ∈ gen.task.hierarchy.family id key, ∃ s, gen.ReachesFamily c key s ∧
          Room .method (gen.task.carriedNames c key) s.context) := by
  have hfinished : gen.task.graph.Finished := hgraph ▸ GraphBuilder.finished_build files
  refine ⟨fun id key s h => ⟨?_, h.settlesFamily hfinished⟩,
    fun hok id key method symbol hstarts hneed hnew => ?_⟩
  · have hfamily : ∀ c, gen.task.hierarchy.family c key =
        gen.task.graph.hierarchy.family c key :=
      fun c => congrFun (congrFun (Hierarchy.family_congr _ _) c) key
    constructor
    · rw [hfamily, hgraph]
      exact GraphBuilder.pairwise_family_build files id key
    · intro c hc
      have hsame : gen.task.hierarchy.family c key = gen.task.hierarchy.family id key := by
        rw [hfamily, hgraph] at hc
        rw [hfamily, hfamily, hgraph, GraphBuilder.family_build_of_mem hc]
      rw [NamingTask.carriedNames, hsame, NamingTask.carriedNames]
    · intro name hname
      obtain ⟨c, -, hc⟩ := List.mem_filterMap.1 (List.mem_eraseDups.1 hname)
      obtain ⟨⟨found, ref⟩, hoffer, rfl⟩ := Option.map_eq_some_iff.1 hc
      exact Heritage.isGenerated_of_methodName? hoffer
    · exact h.resolver_eq hfinished
  · obtain ⟨c, hc, s, h⟩ := exists_reachesFamily hfinished hok hstarts hneed hnew
    refine ⟨c, hc, s, h, ?_⟩
    by_contra hfull
    rw [h.generate_eq_overflow hfinished hfull] at hok
    exact absurd hok Bool.false_ne_true

/-- An interface with a method, and two classes that implement it. -/
def rivalFiles : List ClassFile :=
  [{ name := "i", methods := [{ key := ⟨"f", "()V"⟩ }] },
    { name := "x", interfaces := ["i"], methods := [{ key := ⟨"f", "()V"⟩ }] },
    { name := "y", interfaces := ["i"], methods := [{ key := ⟨"f", "()V"⟩ }] }]

/-- An earlier mapping that names the method at the first class. -/
def rivalPrior : MappingTable where
  source := "official"
  target := "intermediary"
  methods := .ofList [(⟨"x", ⟨"f", "()V"⟩⟩, ⟨"net/minecraft/class_2", ⟨"method_5", "()V"⟩⟩)]

/-- The second class is matched with an old one. -/
def rivalMatches : MappingTable where
  source := "new"
  target := "old"
  classes := .ofList [("y", "w")]

/-- The mapping of the old class names the method too. -/
def rivalOld : MappingTable where
  source := "official"
  target := "intermediary"
  methods := .ofList [(⟨"w", ⟨"f", "()V"⟩⟩, ⟨"net/minecraft/class_3", ⟨"method_9", "()V"⟩⟩)]

/-- A generator that knows both mappings and takes the first name of every conflict. -/
def rivalGenerator : Except NamingFault (Generator Resolver) :=
  (fresh (GraphBuilder.build rivalFiles) { patterns := ⟨[], [], []⟩ } [everyMethod] {} .first
    none >>= (·.withPrior rivalPrior)).map fun gen =>
      gen.withUpdate
        (GraphBuilder.build [{ name := "w", methods := [{ key := ⟨"f", "()V"⟩ }] }])
        rivalMatches rivalOld

/-- The interface is named first, all three classes answer the name of the first class, and the
number of the other name is passed over. -/
theorem namesFamily_rivals :
    ∃ gen, rivalGenerator = .ok gen ∧ ∃ c s, gen.ReachesFamily c ⟨"f", "()V"⟩ s ∧
      gen.task.carriedNames c ⟨"f", "()V"⟩ = ["method_5", "method_9"] ∧
      gen.NamesFamily c ⟨"f", "()V"⟩ "method_5" ∧
      9 < gen.generate.2.context.counters.get .method := by
  obtain ⟨gen, hgen⟩ : ∃ gen, rivalGenerator = .ok gen := ⟨_, rfl⟩
  have hgraph : gen.task.graph = GraphBuilder.build rivalFiles := by
    cases hgen
    rfl
  obtain ⟨hsettles, hreaches⟩ := settlesFamily_of_reachesFamily rivalFiles hgraph
  have hok : gen.generate.1.isOk = true := by
    cases hgen
    decide +kernel
  have hdeclared : (gen.task.graph.methodAt? 0).map
      (gen.task.chain.needsMethodName (gen.task.graph.classAt 0)) = some (.ok true) := by
    cases hgen
    decide +kernel
  obtain ⟨symbol, hsymbol, hneed⟩ := Option.map_eq_some_iff.1 hdeclared
  have hstarts : gen.task.Starts 0 ⟨"f", "()V"⟩ 0 symbol := by
    refine ⟨?_, ?_, rfl, ?_, hsymbol⟩ <;> cases hgen <;> decide +kernel
  have hnames : ∀ c ∈ gen.task.hierarchy.family 0 ⟨"f", "()V"⟩,
      gen.task.carriedNames c ⟨"f", "()V"⟩ = ["method_5", "method_9"] := by
    cases hgen
    decide +kernel
  have hresolver : gen.resolver = .first := by
    cases hgen
    rfl
  obtain ⟨c, hc, s, hs, hroom⟩ := hreaches hok 0 _ 0 symbol hstarts hneed (by cases hgen; rfl)
  obtain ⟨hgathered, hsettled⟩ := hsettles c _ s hs
  have hsettled := hsettled hroom
  have hcarried := hnames c hc
  have hsteady : s.resolver = .first :=
    (hgathered.steady fun _ => by rw [hresolver]; rfl).trans hresolver
  have hanswer : ConflictResolver.resolve (gen.task.familyConflict c ⟨"f", "()V"⟩) s.resolver =
      (.ok 0, .first) := by
    rw [hsteady]
    rfl
  have hchosen := hsettled.chosen (by rw [hcarried]; decide) hanswer (by rw [hcarried]; decide)
  have hreserved := hsettled.reserved "method_9" (by rw [hcarried]; decide) 9 (by decide +kernel)
    (by decide)
  simp only [hcarried, List.getElem_cons_zero] at hchosen
  exact ⟨gen, hgen, c, s, hs, hcarried, hchosen, hreserved⟩

/-- A class with a method. -/
def loneFiles : List ClassFile := [{ name := "a", methods := [{ key := ⟨"f", "()V"⟩ }] }]

/-- An earlier mapping that names the method with a number that is no word. -/
def greatPrior : MappingTable where
  source := "official"
  target := "intermediary"
  methods := .ofList [(⟨"a", ⟨"f", "()V"⟩⟩,
    ⟨"net/minecraft/class_1", ⟨"method_18446744073709551616", "()V"⟩⟩)]

/-- A generator for the class that knows the mapping. -/
def greatGenerator : Except NamingFault (Generator Resolver) :=
  fresh (GraphBuilder.build loneFiles) { patterns := ⟨[], [], []⟩ } [everyMethod] {} .refuse none
    >>= (·.withPrior greatPrior)

/-- The method gets the carried name, and the counter stays at one. -/
theorem counter_not_past_carried_number :
    ∃ gen s, greatGenerator = .ok gen ∧ gen.generate.1.isOk = true ∧
      gen.ReachesFamily 0 ⟨"f", "()V"⟩ s ∧
      gen.task.carriedNames 0 ⟨"f", "()V"⟩ = ["method_18446744073709551616"] ∧
      gen.NamesFamily 0 ⟨"f", "()V"⟩ "method_18446744073709551616" ∧
      SymbolKind.method.number? "method_18446744073709551616" = some 18446744073709551616 ∧
      gen.generate.2.context.counters.get .method = 1 := by
  obtain ⟨gen, hgen⟩ : ∃ gen, greatGenerator = .ok gen := ⟨_, rfl⟩
  have hgraph : gen.task.graph.Finished := by
    cases hgen
    exact GraphBuilder.finished_build loneFiles
  have hok : gen.generate.1.isOk = true := by
    cases hgen
    decide +kernel
  have hdeclared : (gen.task.graph.methodAt? 0).map
      (gen.task.chain.needsMethodName (gen.task.graph.classAt 0)) = some (.ok true) := by
    cases hgen
    decide +kernel
  obtain ⟨symbol, hsymbol, hneed⟩ := Option.map_eq_some_iff.1 hdeclared
  have hstarts : gen.task.Starts 0 ⟨"f", "()V"⟩ 0 symbol := by
    refine ⟨?_, ?_, rfl, ?_, hsymbol⟩ <;> cases hgen <;> decide +kernel
  have hfamily : gen.task.hierarchy.family 0 ⟨"f", "()V"⟩ = [0] := by
    cases hgen
    decide +kernel
  obtain ⟨c, hc, s, hs⟩ := exists_reachesFamily hgraph hok hstarts hneed (by cases hgen; rfl)
  rw [hfamily, List.mem_singleton] at hc
  have hcarried : gen.task.carriedNames 0 ⟨"f", "()V"⟩ = ["method_18446744073709551616"] := by
    cases hgen
    decide +kernel
  have hanswer : gen.generate.2.methodName? ⟨gen.task.graph.nameAt 0, ⟨"f", "()V"⟩⟩ =
      some "method_18446744073709551616" := by
    cases hgen
    decide +kernel
  have hcounter : gen.generate.2.context.counters.get .method = 1 := by
    cases hgen
    decide +kernel
  refine ⟨gen, s, hgen, hok, hc ▸ hs, hcarried, fun c' hc' => ?_, by decide +kernel, hcounter⟩
  rw [hfamily, List.mem_singleton] at hc'
  rw [hc']
  exact hanswer

end Generator

end StableNaming
