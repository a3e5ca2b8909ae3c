import Mathlib.Data.List.Basic
import StableNaming.Policy.VoteTable
import StableNaming.Proofs.Graph.Reordering
import StableNaming.Proofs.Naming.Inheritance
import StableNaming.Proofs.Naming.Lifetime
import StableNaming.Proofs.Naming.Steps
import StableNaming.Proofs.Policy.Engine

/-!
# Runs on reordered class files

Two runs go on side by side if their graphs differ in numbers only: the walks meet corresponding
classes, and at each of them the same is asked, found and decided. So the order in which class files
are added shows neither in what a run gives, nor in the fault that stops it, nor in what the
generator answers afterwards. Policies are shown symbols that have numbers in them, and lists in the
order of discovery; so this is about policies that vote alike whatever these are, and a policy that
goes by the first subclass shows the order.
-/

namespace StableNaming

open ClassGraph

/-! ## Steps side by side -/

namespace NamingM

variable {ρ α β γ : Type} {R : NamingState ρ → NamingState ρ → Prop} {s s' : NamingState ρ}

/-- Whether two steps from two states have one outcome and lead to states that are related. -/
def InStep (R : NamingState ρ → NamingState ρ → Prop) (x x' : NamingM ρ α)
    (s s' : NamingState ρ) : Prop :=
  (x'.run s').1 = (x.run s).1 ∧ R (x.run s).2 (x'.run s').2

theorem inStep_pure (hs : R s s') (a : α) : InStep R (pure a) (pure a) s s' := ⟨rfl, hs⟩

theorem inStep_throw (hs : R s s') (fault : NamingFault) :
    InStep R (throw fault : NamingM ρ α) (throw fault) s s' := ⟨rfl, hs⟩

theorem inStep_ask (hs : R s s') (answer : Except PolicyFault α) :
    InStep R (ask answer) (ask answer) s s' := by
  cases answer with
  | ok a => exact inStep_pure hs a
  | error fault => exact inStep_throw hs _

theorem inStep_context_bind {f f' : NamingContext → NamingM ρ β}
    (h : InStep R (f s.context) (f' s'.context) s s') :
    InStep R (context >>= f) (context >>= f') s s' := h

theorem inStep_modifyContext {f f' : NamingContext → NamingContext}
    (h : R { s with context := f s.context } { s' with context := f' s'.context }) :
    InStep R (modifyContext f) (modifyContext f') s s' := ⟨rfl, h⟩

theorem InStep.bind {x x' : NamingM ρ α} {f f' : α → NamingM ρ β} (hx : InStep R x x' s s')
    (hf : ∀ a {t t'}, R t t' → InStep R (f a) (f' a) t t') :
    InStep R (x >>= f) (x' >>= f') s s' := by
  obtain ⟨houtcome, hstates⟩ := hx
  cases hrun : x.run s with
  | mk outcome t =>
    cases hrun' : x'.run s' with
    | mk outcome' t' =>
      rw [hrun, hrun'] at houtcome hstates
      dsimp only at houtcome hstates
      subst houtcome
      cases outcome' with
      | error fault =>
        rw [InStep, run_bind_of_error hrun, run_bind_of_error hrun']
        exact ⟨rfl, hstates⟩
      | ok a =>
        rw [InStep, run_bind_of_succeeds hrun, run_bind_of_succeeds hrun']
        exact hf a hstates

theorem inStep_forM {f f' : α → NamingM ρ PUnit} {xs : List α} (hs : R s s')
    (hf : ∀ x ∈ xs, ∀ {t t'}, R t t' → InStep R (f x) (f' x) t t') :
    InStep R (xs.forM f) (xs.forM f') s s' := by
  induction xs generalizing s s' with
  | nil => exact inStep_pure hs PUnit.unit
  | cons x xs ih =>
    refine (hf x List.mem_cons_self hs).bind fun _ {t t'} ht => ?_
    exact ih ht fun y hy => hf y (List.mem_cons_of_mem x hy)

/-- Two runs along lists of corresponding elements. -/
theorem inStep_filterMapM {f : α → NamingM ρ (Option β)} {f' : γ → NamingM ρ (Option β)}
    {φ : α → γ} {xs : List α} (hs : R s s')
    (hf : ∀ x ∈ xs, ∀ {t t'}, R t t' → InStep R (f x) (f' (φ x)) t t') :
    InStep R (xs.filterMapM f) ((xs.map φ).filterMapM f') s s' := by
  induction xs generalizing s s' with
  | nil => exact inStep_pure hs []
  | cons x xs ih =>
    have hrest := fun {t t'} (ht : R t t') =>
      ih ht fun y hy => hf y (List.mem_cons_of_mem x hy)
    rw [List.map_cons, List.filterMapM_cons, List.filterMapM_cons]
    refine (hf x List.mem_cons_self hs).bind fun b {t t'} ht => ?_
    cases b with
    | none => exact hrest ht
    | some b => exact (hrest ht).bind fun _ {u u'} hu => inStep_pure hu _

end NamingM

/-! ## States that correspond -/

section States

variable {ρ : Type} {g g' : ClassGraph} {r : Renumbering g g'}

/-- Whether the same has been decided, up to the numbers of methods. -/
structure NamingContext.Renumbered (r : Renumbering g g') (c c' : NamingContext) : Prop where
  /-- The counters are the same. -/
  counters_eq : c'.counters = c.counters
  /-- The names of classes are the same. -/
  classNames_eq : c'.classNames = c.classNames
  /-- The names of fields are the same. -/
  fieldNames_eq : c'.fieldNames = c.fieldNames
  /-- Corresponding methods have the same name. -/
  methodNames_eq : ∀ {id : ClassId} {key : MemberKey} {m : MethodId}, g.slot? id key = some m →
    c'.methodNames.find? (r.methodOf m) = c.methodNames.find? m

/-- Whether moreover the resolver is in the same state. -/
structure NamingState.Renumbered (r : Renumbering g g') (s s' : NamingState ρ) : Prop where
  /-- The same has been decided. -/
  context : s.context.Renumbered r s'.context
  /-- The resolver is in the same state. -/
  resolver_eq : s'.resolver = s.resolver

namespace NamingContext.Renumbered

variable {c c' : NamingContext} (h : c.Renumbered r c')
include h

theorem setClass (className name : String) :
    (c.setClass className name).Renumbered r (c'.setClass className name) where
  counters_eq := h.counters_eq
  classNames_eq := congrArg (·.insert className name) h.classNames_eq
  fieldNames_eq := h.fieldNames_eq
  methodNames_eq := h.methodNames_eq

theorem setField (field : MemberRef) (name : String) :
    (c.setField field name).Renumbered r (c'.setField field name) where
  counters_eq := h.counters_eq
  classNames_eq := h.classNames_eq
  fieldNames_eq := congrArg (·.insert field name) h.fieldNames_eq
  methodNames_eq := h.methodNames_eq

theorem setMethod {id : ClassId} {key : MemberKey} {method : MethodId}
    (hslot : g.slot? id key = some method) (name : String) :
    (c.setMethod method name).Renumbered r (c'.setMethod (r.methodOf method) name) where
  counters_eq := h.counters_eq
  classNames_eq := h.classNames_eq
  fieldNames_eq := h.fieldNames_eq
  methodNames_eq {_ _ m} hm := by
    dsimp only [NamingContext.setMethod]
    rw [Dictionary.find?_insert, Dictionary.find?_insert, h.methodNames_eq hm]
    by_cases hsame : method = m
    · rw [if_pos hsame, if_pos (congrArg r.methodOf hsame)]
    · rw [if_neg hsame, if_neg fun heq => hsame (r.findsMethods.inj hslot hm heq)]

/-- Counters that are changed in one way stay the same. -/
theorem counters (f : Counters → Counters) :
    ({ c with counters := f c.counters } : NamingContext).Renumbered r
      { c' with counters := f c'.counters } where
  counters_eq := congrArg f h.counters_eq
  classNames_eq := h.classNames_eq
  fieldNames_eq := h.fieldNames_eq
  methodNames_eq := h.methodNames_eq

/-- Both counters can be kept past a name, or neither. -/
theorem rel_pass? (kind : SymbolKind) (name : String) :
    Option.Rel (NamingContext.Renumbered r) (c.pass? kind name) (c'.pass? kind name) := by
  unfold NamingContext.pass?
  cases kind.suffix? name with
  | none => exact .some h
  | some n =>
    dsimp only
    cases Text.word? (n + 1) with
    | none => exact .none
    | some next => exact .some (h.counters (·.observe kind next))

/-- Both contexts make the same new name, or neither makes one. -/
theorem rel_mint? (kind : SymbolKind) :
    Option.Rel (fun minted minted' => minted'.1 = minted.1 ∧ minted.2.Renumbered r minted'.2)
      (c.mint? kind) (c'.mint? kind) := by
  rw [NamingContext.mint?, NamingContext.mint?, h.counters_eq]
  cases c.counters.next? kind with
  | none => exact .none
  | some next => exact .some ⟨rfl, h.counters fun _ => next.2⟩

end NamingContext.Renumbered

open NamingM

variable {s s' : NamingState ρ} (hs : s.Renumbered r s')
include hs

theorem NamingState.Renumbered.withContext {c c' : NamingContext} (hc : c.Renumbered r c') :
    NamingState.Renumbered r { s with context := c } { s' with context := c' } :=
  ⟨hc, hs.resolver_eq⟩

theorem inStep_observe (kind : SymbolKind) (name : String) :
    InStep (NamingState.Renumbered r) (observe kind name) (observe kind name) s s' := by
  refine inStep_context_bind ?_
  have hpassed := hs.context.rel_pass? kind name
  generalize s.context.pass? kind name = passed at hpassed ⊢
  generalize s'.context.pass? kind name = passed' at hpassed ⊢
  cases hpassed with
  | none => exact inStep_throw hs _
  | some hc => exact inStep_modifyContext (hs.withContext hc)

theorem inStep_mint (kind : SymbolKind) :
    InStep (NamingState.Renumbered r) (mint kind) (mint kind) s s' := by
  refine inStep_context_bind ?_
  have hminted := hs.context.rel_mint? kind
  generalize s.context.mint? kind = minted at hminted ⊢
  generalize s'.context.mint? kind = minted' at hminted ⊢
  cases hminted with
  | none => exact inStep_throw hs _
  | @some next next' hnext =>
    obtain ⟨name, c⟩ := next
    obtain ⟨name', c'⟩ := next'
    obtain ⟨rfl, hc⟩ := hnext
    refine (inStep_modifyContext (hs.withContext hc)).bind fun _ {t t'} ht => ?_
    exact inStep_pure ht _

theorem inStep_resolve [ConflictResolver ρ] (conflict : NamingConflict) :
    InStep (NamingState.Renumbered r) (resolve conflict : NamingM ρ Nat) (resolve conflict)
      s s' := by
  rw [InStep, run_resolve, run_resolve, hs.resolver_eq]
  exact ⟨rfl, hs.context, rfl⟩

end States

/-! ## Policies -/

namespace NamingPolicy

/-- Whether a policy votes alike on classes that differ in numbers and in the order of discovery
only. -/
structure IgnoresOrder (p : NamingPolicy) : Prop where
  /-- The votes on classes are the same. -/
  classVote_eq : ∀ {c c' : ClassSymbol}, c.Resembles c' → p.classVote c' = p.classVote c
  /-- The votes on fields are the same. -/
  fieldVote_eq : ∀ {c c' : ClassSymbol}, c.Resembles c' → ∀ f, p.fieldVote c' f = p.fieldVote c f
  /-- The votes on methods are the same. -/
  methodVote_eq : ∀ {c c' : ClassSymbol}, c.Resembles c' →
    ∀ m, p.methodVote c' m = p.methodVote c m
  /-- The packages are the same. -/
  package?_eq : ∀ {c c' : ClassSymbol}, c.Resembles c' → p.package? c' = p.package? c

/-- Whether a policy votes on a class by what its class file says of it and its fields. -/
structure ReadsFiles (p : NamingPolicy) : Prop where
  /-- The vote on a class depends on nothing else. -/
  classVote_outline : ∀ c, p.classVote c.outline = p.classVote c
  /-- Nor does the vote on a field. -/
  fieldVote_outline : ∀ c f, p.fieldVote c.outline f = p.fieldVote c f
  /-- Nor does the vote on a method. -/
  methodVote_outline : ∀ c m, p.methodVote c.outline m = p.methodVote c m
  /-- Nor does the package. -/
  package?_outline : ∀ c, p.package? c.outline = p.package? c

/-- What class files say does not depend on the order of discovery. -/
theorem ReadsFiles.ignoresOrder {p : NamingPolicy} (h : p.ReadsFiles) : p.IgnoresOrder where
  classVote_eq {c c'} hc := by
    rw [← h.classVote_outline c', hc.outline_eq, h.classVote_outline]
  fieldVote_eq {c c'} hc f := by
    rw [← h.fieldVote_outline c', hc.outline_eq, h.fieldVote_outline]
  methodVote_eq {c c'} hc m := by
    rw [← h.methodVote_outline c', hc.outline_eq, h.methodVote_outline]
  package?_eq {c c'} hc := by
    rw [← h.package?_outline c', hc.outline_eq, h.package?_outline]

end NamingPolicy

theorem NamePatterns.readsFiles_policy (p : NamePatterns) : p.policy.ReadsFiles :=
  ⟨fun _ => rfl, fun _ _ => rfl, fun _ _ => rfl, fun _ => rfl⟩

theorem VoteTable.readsFiles_policy (t : VoteTable) : t.policy.ReadsFiles :=
  ⟨fun _ => rfl, fun _ _ => rfl, fun _ _ => rfl, fun _ => rfl⟩

namespace PolicyChain

variable {chain : PolicyChain}

/-- Only the votes count. -/
theorem decideBy_congr {symbol : String} {vote vote' : NamingPolicy → Int32}
    (h : ∀ p ∈ chain.default :: chain.policies, vote' p = vote p) :
    chain.decideBy symbol vote' = chain.decideBy symbol vote := by
  obtain ⟨hdefault, hpolicies⟩ := List.forall_mem_cons.1 h
  have hvotes : (chain.policies.map fun p => (⟨p.name, vote' p⟩ : Vote)) =
      chain.policies.map fun p => ⟨p.name, vote p⟩ :=
    List.map_congr_left fun p hp => by rw [hpolicies p hp]
  rw [decideBy, decideBy, hdefault, hvotes]

/-- Only the packages count. -/
theorem packageFor_congr {c c' : ClassSymbol}
    (h : ∀ p ∈ chain.policies, p.package? c' = p.package? c) :
    chain.packageFor c' = chain.packageFor c := by
  have hpackages := congrArg (List.findSome? id) (List.map_congr_left h)
  rw [List.findSome?_map, List.findSome?_map] at hpackages
  exact congrArg (·.getD chain.defaultPackage) hpackages

end PolicyChain

/-! ## Tasks that correspond -/

/-- Whether two heritages offer the same names. -/
structure Heritage.Alike (h h' : Heritage) : Prop where
  /-- The earlier mapping is the same. -/
  prior_eq : h'.prior = h.prior
  /-- The same is matched. -/
  matched_eq : h'.matched = h.matched
  /-- The mapping of the old version is the same. -/
  old_eq : h'.old = h.old
  /-- It says the same of families of the old version. -/
  judgeOldMethod_eq : h'.judgeOldMethod = h.judgeOldMethod

namespace Heritage.Alike

variable {h h' : Heritage} (halike : h.Alike h')
include halike

theorem className?_eq : h'.className? = h.className? := by
  funext name
  rw [className?, className?, halike.prior_eq, halike.matched_eq, halike.old_eq]

theorem oldMember?_eq : h'.oldMember? = h.oldMember? := by
  funext kind ref
  rw [oldMember?, oldMember?, halike.matched_eq]

theorem fieldName?_eq : h'.fieldName? = h.fieldName? := by
  funext ref
  rw [fieldName?, fieldName?, halike.prior_eq, halike.oldMember?_eq, halike.old_eq]

theorem methodName?_eq : h'.methodName? = h.methodName? := by
  funext ref
  rw [methodName?, methodName?, halike.prior_eq, halike.oldMember?_eq, halike.judgeOldMethod_eq]

end Heritage.Alike

/-- The numbers of a task in another one that names the same under other numbers. -/
structure NamingTask.Renumbering (task task' : NamingTask) extends
    ClassGraph.Renumbering task.graph task'.graph where
  /-- The graph is finished. -/
  finished : task.graph.Finished
  /-- So is the other one. -/
  finished' : task'.graph.Finished
  /-- The caller's choices are the same. -/
  config_eq : task'.config = task.config
  /-- The policies are the same. -/
  chain_eq : task'.chain = task.chain
  /-- They ignore the order of discovery. -/
  ignoresOrder : ∀ p ∈ task.chain.default :: task.chain.policies, p.IgnoresOrder
  /-- Corresponding classes differ in that order and in numbers only. -/
  resembles : ∀ {id : ClassId}, id < task.graph.size →
    (task.graph.classAt id).Resembles (task'.graph.classAt (classOf id))
  /-- The same names are offered. -/
  heritage : task.heritage.Alike task'.heritage

namespace NamingTask

open NamingM

variable {ρ : Type} {task task' : NamingTask} (r : task.Renumbering task')

namespace Renumbering

section Class

variable {id : ClassId} (hid : id < task.graph.size)
include hid

/-- Corresponding classes have one name. -/
theorem name_eq : (task'.graph.classAt (r.classOf id)).name = (task.graph.classAt id).name :=
  r.nameAt_eq hid

/-- The same classes need names. -/
theorem needsClassName_eq : task'.chain.needsClassName (task'.graph.classAt (r.classOf id)) =
    task.chain.needsClassName (task.graph.classAt id) := by
  rw [r.chain_eq, PolicyChain.needsClassName, PolicyChain.needsClassName, r.name_eq hid]
  refine PolicyChain.decideBy_congr fun p hp => ?_
  exact (r.ignoresOrder p hp).classVote_eq (r.resembles hid)

/-- The same fields need names. -/
theorem needsFieldName_eq (f : Member) :
    task'.chain.needsFieldName (task'.graph.classAt (r.classOf id)) f =
      task.chain.needsFieldName (task.graph.classAt id) f := by
  rw [r.chain_eq, PolicyChain.needsFieldName, PolicyChain.needsFieldName, r.name_eq hid]
  refine PolicyChain.decideBy_congr fun p hp => ?_
  exact (r.ignoresOrder p hp).fieldVote_eq (r.resembles hid) f

/-- The same methods need names. -/
theorem needsMethodName_eq (symbol : MethodSymbol) :
    task'.chain.needsMethodName (task'.graph.classAt (r.classOf id)) symbol =
      task.chain.needsMethodName (task.graph.classAt id) symbol := by
  rw [r.chain_eq, PolicyChain.needsMethodName, PolicyChain.needsMethodName, r.name_eq hid]
  refine PolicyChain.decideBy_congr fun p hp => ?_
  exact (r.ignoresOrder p hp).methodVote_eq (r.resembles hid) symbol

/-- Generated names stand behind the same text. -/
theorem classNameStart_eq (parent : Option String) :
    task'.classNameStart (task'.graph.classAt (r.classOf id)) parent =
      task.classNameStart (task.graph.classAt id) parent := by
  have hpackage : task.chain.packageFor (task'.graph.classAt (r.classOf id)) =
      task.chain.packageFor (task.graph.classAt id) := by
    refine PolicyChain.packageFor_congr fun p hp => ?_
    exact (r.ignoresOrder p (List.mem_cons_of_mem _ hp)).package?_eq (r.resembles hid)
  rw [classNameStart, classNameStart, r.chain_eq, hpackage,
    r.apply_eq ClassSymbol.isLocal (fun _ => rfl) hid,
    r.apply_eq ClassSymbol.simpleName (fun _ => rfl) hid]

/-- The names of classes are decided in the same way. -/
theorem newClassName_eq (parent : Option String) :
    (task'.newClassName (task'.graph.classAt (r.classOf id)) parent : NamingM ρ String) =
      task.newClassName (task.graph.classAt id) parent := by
  have hkept : keptClassName (task'.graph.classAt (r.classOf id)) parent =
      keptClassName (task.graph.classAt id) parent :=
    r.apply_eq (keptClassName · parent) (fun _ => rfl) hid
  rw [newClassName, newClassName, r.needsClassName_eq hid, r.name_eq hid, hkept,
    r.heritage.className?_eq, r.classNameStart_eq hid,
    r.apply_eq ClassSymbol.isAnonymous (fun _ => rfl) hid]
  simp only [carriedClassName, r.classNameStart_eq hid]

end Class

/-- The same names are carried over into corresponding families, in the same order. -/
theorem candidates_eq {family : List ClassId} (hfamily : ∀ id ∈ family, id < task.graph.size)
    (key : MemberKey) :
    task'.candidates (family.map r.classOf) key = task.candidates family key := by
  rw [candidates, candidates, List.foldl_map]
  refine List.foldl_ext _ _ _ fun found id hid => ?_
  have hid := hfamily id hid
  dsimp only
  rw [r.name_eq hid, r.heritage.methodName?_eq, r.apply_eq ClassSymbol.heading (fun _ => rfl) hid]

end Renumbering

/-! ## New names -/

section NewNames

variable {g g' : ClassGraph} {numbers : ClassGraph.Renumbering g g'} {s s' : NamingState ρ}
  (hs : s.Renumbered numbers s')
include hs

theorem inStep_newClassName (c : ClassSymbol) (parent : Option String) :
    InStep (NamingState.Renumbered numbers) (task.newClassName c parent)
      (task.newClassName c parent) s s' := by
  rw [newClassName_eq]
  refine InStep.bind ?_ fun needed {t t'} ht => ?_
  · split
    · exact inStep_ask hs _
    · exact inStep_pure hs _
  · rw [nameClass]
    split
    · split
      · exact (inStep_observe ht _ _).bind fun _ {_ _} hu => inStep_pure hu _
      · exact (inStep_mint ht _).bind fun _ {_ _} hu => inStep_pure hu _
    · exact inStep_pure ht _

theorem inStep_newFieldName (ref : MemberRef) :
    InStep (NamingState.Renumbered numbers) (task.newFieldName ref) (task.newFieldName ref)
      s s' := by
  rw [newFieldName]
  split
  · exact (inStep_observe hs _ _).bind fun _ {_ _} ht => inStep_pure ht _
  · exact inStep_mint hs _

variable [ConflictResolver ρ]

theorem inStep_chooseName (member : MemberRef) (candidates : Candidates) :
    InStep (NamingState.Renumbered numbers) (chooseName member candidates)
      (chooseName member candidates) s s' := by
  rw [chooseName]
  split
  · exact inStep_mint hs _
  · exact inStep_pure hs _
  · refine (inStep_resolve hs _).bind fun index {t t'} ht => ?_
    split
    · exact inStep_pure ht _
    · exact inStep_throw ht _

theorem inStep_newMethodName (member : MemberRef) (family : List ClassId) :
    InStep (NamingState.Renumbered numbers) (task.newMethodName member family)
      (task.newMethodName member family) s s' := by
  rw [newMethodName]
  refine (inStep_forM hs fun name _ {_ _} ht => inStep_observe ht _ name).bind fun _ {_ _} ht => ?_
  exact inStep_chooseName ht _ _

end NewNames

/-! ## Visits -/

section Visits

variable {s s' : NamingState ρ} (hs : s.Renumbered r.toRenumbering s') {id : ClassId}
  (hid : id < task.graph.size)
include hs hid

/-- The names of corresponding classes are found or decided side by side. -/
theorem inStep_classNameFor :
    InStep (NamingState.Renumbered r.toRenumbering) (task.classNameFor (task.graph.classAt id))
      (task'.classNameFor (task'.graph.classAt (r.classOf id))) s s' := by
  have hparent : ((task'.graph.classAt (r.classOf id)).outer.bind fun outer =>
      s'.context.classNames.find? (task'.graph.nameAt outer)) =
        (task.graph.classAt id).outer.bind fun outer =>
          s.context.classNames.find? (task.graph.nameAt outer) := by
    rw [r.outer_eq hid, hs.context.classNames_eq]
    cases houter : (task.graph.classAt id).outer with
    | none => rfl
    | some outer =>
      rw [Option.map_some, Option.bind_some, Option.bind_some,
        r.nameAt_eq (r.finished.forest.outer_lt houter)]
  rw [classNameFor, classNameFor, r.name_eq hid]
  refine inStep_context_bind ?_
  rw [hs.context.classNames_eq] at hparent ⊢
  cases s.context.classNames.find? (task.graph.classAt id).name with
  | some known => exact inStep_pure hs known
  | none =>
    dsimp only
    rw [hparent, r.newClassName_eq hid]
    refine (inStep_newClassName hs _ _).bind fun name {t t'} ht => ?_
    refine (inStep_modifyContext (ht.withContext (ht.context.setClass _ name))).bind ?_
    exact fun _ {_ _} hu => inStep_pure hu name

/-- So are those of fields. -/
theorem inStep_fieldEntry (f : Member) :
    InStep (NamingState.Renumbered r.toRenumbering) (task.fieldEntry (task.graph.classAt id) f)
      (task'.fieldEntry (task'.graph.classAt (r.classOf id)) f) s s' := by
  rw [fieldEntry, fieldEntry, r.needsFieldName_eq hid f, r.name_eq hid, keptEntry, keptEntry,
    r.config_eq]
  refine (inStep_ask hs _).bind fun needed {t t'} ht => ?_
  split
  · refine InStep.bind ?_ fun name {_ _} hu => inStep_pure hu _
    rw [fieldNameFor, fieldNameFor, newFieldName, newFieldName, r.heritage.fieldName?_eq,
      ← newFieldName]
    refine inStep_context_bind ?_
    rw [ht.context.fieldNames_eq]
    split
    · exact inStep_pure ht _
    · refine (inStep_newFieldName ht _).bind fun name {u u'} hu => ?_
      refine (inStep_modifyContext (hu.withContext (hu.context.setField _ name))).bind ?_
      exact fun _ {_ _} hv => inStep_pure hv name
  · exact inStep_pure ht _

variable [ConflictResolver ρ]

/-- So are those of families. -/
theorem inStep_methodNameFor {key : MemberKey} {method : MethodId}
    (hslot : task.graph.slot? id key = some method) :
    InStep (NamingState.Renumbered r.toRenumbering) (task.methodNameFor id key method)
      (task'.methodNameFor (r.classOf id) key (r.methodOf method)) s s' := by
  have hslot' := r.findsMethods.slot?_eq hid key
  rw [hslot, Option.map_some] at hslot'
  have hfamily : task'.hierarchy.family (r.classOf id) key =
      (task.hierarchy.family id key).map r.classOf := by
    rw [Hierarchy.family_congr task'.hierarchy task'.graph.hierarchy,
      Hierarchy.family_congr task.hierarchy task.graph.hierarchy, r.family_eq hid]
  have hmember : ∀ x ∈ task.hierarchy.family id key, x < task.graph.size := fun x hx =>
    lt_size_of_slot? ((r.finished.mem_family_iff_holds task.hierarchy hslot).1 hx)
  rw [methodNameFor, methodNameFor]
  refine inStep_context_bind ?_
  rw [hs.context.methodNames_eq hslot]
  cases s.context.methodNames.find? method with
  | some known => exact inStep_pure hs known
  | none =>
    dsimp only
    have hname : (task'.newMethodName ⟨task'.graph.nameAt (r.classOf id), key⟩
        (task'.hierarchy.family (r.classOf id) key) : NamingM ρ String) =
          task.newMethodName ⟨task.graph.nameAt id, key⟩ (task.hierarchy.family id key) := by
      rw [newMethodName, newMethodName, r.nameAt_eq hid, hfamily, r.candidates_eq hmember]
    rw [hname]
    refine (inStep_newMethodName hs _ _).bind fun name {t t'} ht => ?_
    refine (inStep_modifyContext (ht.withContext ?_)).bind fun _ {_ _} hu => inStep_pure hu name
    -- in both runs all classes of the family share the one method
    rw [NamingContext.setMethods_eq_setMethod name fun m hm => eq_of_mem_shared r.finished hslot hm,
      NamingContext.setMethods_eq_setMethod name fun m hm => eq_of_mem_shared r.finished' hslot' hm]
    exact ht.context.setMethod hslot name

/-- So are the entries of methods. -/
theorem inStep_methodEntry {slot : MemberKey × MethodId}
    (hmem : slot ∈ (task.graph.classAt id).methods.entries) :
    InStep (NamingState.Renumbered r.toRenumbering) (task.methodEntry id slot)
      (task'.methodEntry (r.classOf id) (slot.1, r.methodOf slot.2)) s s' := by
  have hslot : task.graph.slot? id slot.1 = some slot.2 := KeyMap.find?_eq_some_iff.2 hmem
  have hsource := r.isSource_eq r.finished.names r.finished'.names (declares_iff.2 ⟨_, hslot⟩)
    task.hierarchy task'.hierarchy
  rw [methodEntry, methodEntry, hsource, r.methodAt?_eq hslot]
  split
  · exact inStep_pure hs none
  · split
    · exact inStep_pure hs none
    · rename_i symbol hsymbol
      rw [sourceEntry, sourceEntry, r.needsMethodName_eq hid symbol, keptEntry, keptEntry,
        r.config_eq]
      refine (inStep_ask hs _).bind fun needed {t t'} ht => ?_
      split
      · exact (inStep_methodNameFor r ht hid hslot).bind fun _ {_ _} hu => inStep_pure hu _
      · exact inStep_pure ht _

/-- Corresponding classes are visited side by side. -/
theorem inStep_visit :
    InStep (NamingState.Renumbered r.toRenumbering) (task.visit id) (task'.visit (r.classOf id))
      s s' := by
  have hfields := r.apply_eq ClassSymbol.fields (fun _ => rfl) hid
  have hentries : (task'.graph.classAt (r.classOf id)).methods.entries =
      (task.graph.classAt id).methods.entries.map fun slot => (slot.1, r.methodOf slot.2) :=
    congrArg KeyMap.entries (r.methods_eq hid)
  rw [visit, visit]
  refine (inStep_classNameFor r hs hid).bind fun target {t t'} ht => ?_
  rw [r.apply_eq ClassSymbol.loaded (fun _ => rfl) hid, hfields, hentries, r.name_eq hid]
  split
  · refine InStep.bind ?_ fun fields {u u'} hu => InStep.bind ?_ fun methods {_ _} hv =>
      inStep_pure hv _
    · have hboth : InStep (NamingState.Renumbered r.toRenumbering)
          ((task.graph.classAt id).fields.values.filterMapM
            (task.fieldEntry (task.graph.classAt id)))
          (((task.graph.classAt id).fields.values.map fun f => f).filterMapM
            (task'.fieldEntry (task'.graph.classAt (r.classOf id)))) t t' :=
        inStep_filterMapM ht fun f _ {_ _} hu => inStep_fieldEntry r hu hid f
      rwa [List.map_id'] at hboth
    · exact inStep_filterMapM hu fun slot hslot {_ _} hv => inStep_methodEntry r hv hid hslot
  · exact inStep_pure ht none

end Visits

/-- Runs go on side by side to the end. -/
theorem inStep_run [ConflictResolver ρ] {s s' : NamingState ρ}
    (hs : s.Renumbered r.toRenumbering s') :
    InStep (NamingState.Renumbered r.toRenumbering) task.run task'.run s s' := by
  have hwalk := r.walk_eq r.finished.names r.finished'.names r.finished.forest r.finished'.forest
  have hlt : ∀ {id}, id ∈ task.graph.walk → id < task.graph.size :=
    (r.finished.forest.mem_walk_iff r.finished.names).1
  rw [run, run, hwalk, r.config_eq]
  refine InStep.bind ?_ fun classes {t t'} ht => inStep_context_bind ?_
  · exact inStep_filterMapM hs fun id hid {_ _} ht => inStep_visit r ht (hlt hid)
  · rw [ht.context.counters_eq]
    exact inStep_pure ht _

end NamingTask

/-! ## Generators -/

/-- What a generator is given before it runs. -/
inductive GeneratorOption where
  /-- An earlier mapping of the same classes. -/
  | prior (table : MappingTable)
  /-- The mapping of an old version, with what matches. -/
  | update (oldGraph : ClassGraph) (matched old : MappingTable)
  /-- A policy. -/
  | policy (policy : NamingPolicy)
  /-- Counters to start from. -/
  | counters (counters : Counters)

namespace Generator

variable {ρ : Type}

/-- Give a generator one option. -/
def give (gen : Generator ρ) : GeneratorOption → Except NamingFault (Generator ρ)
  | .prior table => gen.withPrior table
  | .update oldGraph matched old => .ok (gen.withUpdate oldGraph matched old)
  | .policy policy => .ok (gen.withPolicy policy)
  | .counters counters => .ok (gen.withCounters counters)

/-- Set up a generator and give it options. -/
def setUp [PatternEngine] (graph : ClassGraph) (config : NamingConfig) (resolver : ρ)
    (counterFile : Option File) (options : List GeneratorOption) :
    Except NamingFault (Generator ρ) := do
  let gen ← create graph config resolver counterFile
  options.foldlM give gen

/-- What a run comes to: what it gives, and what the generator has and answers afterwards. -/
structure Report (ρ : Type) where
  /-- The mapping set, or the fault that stops the run. -/
  outcome : Except NamingFault MappingSet
  /-- The names of classes. -/
  className? : String → Option String
  /-- The names of fields. -/
  fieldName? : MemberRef → Option String
  /-- The names of methods. -/
  methodName? : MemberRef → Option String
  /-- The next numbers. -/
  counters : Counters
  /-- The state of the resolver. -/
  resolver : ρ
  /-- The counter file. -/
  counterFile : Option File

/-- What a generator has and answers after a run with an outcome. -/
def reportOf (outcome : Except NamingFault MappingSet) (after : Generator ρ) : Report ρ where
  outcome
  className? := after.className?
  fieldName? := after.fieldName?
  methodName? := after.methodName?
  counters := after.context.counters
  resolver := after.resolver
  counterFile := after.counterFile

/-- What runs of a generator come to, one after the other. -/
def reports [ConflictResolver ρ] : Nat → Generator ρ → List (Report ρ)
  | 0, _ => []
  | runs + 1, gen =>
    let (outcome, after) := gen.generate
    reportOf outcome after :: after.reports runs

/-- Whether two generators have the same to name, under other numbers, and have decided the same. -/
structure Alike (gen gen' : Generator ρ) : Prop where
  /-- The tasks and what has been decided correspond. -/
  exists_renumbering : ∃ r : gen.task.Renumbering gen'.task,
    gen.context.Renumbered r.toRenumbering gen'.context
  /-- The resolver is in the same state. -/
  resolver_eq : gen'.resolver = gen.resolver
  /-- The counter file is the same. -/
  counterFile_eq : gen'.counterFile = gen.counterFile

namespace Alike

variable {gen gen' : Generator ρ} (h : gen.Alike gen')
include h

/-! ### Options -/

theorem withPolicy {p : NamingPolicy} (hp : p.IgnoresOrder) :
    (gen.withPolicy p).Alike (gen'.withPolicy p) := by
  obtain ⟨r, hcontext⟩ := h.exists_renumbering
  refine ⟨⟨⟨r.toRenumbering, r.finished, r.finished', r.config_eq, congrArg (·.push p) r.chain_eq,
    fun q hq => ?_, r.resembles, r.heritage⟩, hcontext⟩, h.resolver_eq, h.counterFile_eq⟩
  obtain hq | hq := List.mem_append.1 (show q ∈
    (gen.task.chain.default :: gen.task.chain.policies) ++ [p] from hq)
  · exact r.ignoresOrder q hq
  · rw [List.mem_singleton.1 hq]
    exact hp

theorem withCounters (counters : Counters) :
    (gen.withCounters counters).Alike (gen'.withCounters counters) := by
  obtain ⟨r, hcontext⟩ := h.exists_renumbering
  exact ⟨⟨r, hcontext.counters (·.merge counters)⟩, h.resolver_eq, h.counterFile_eq⟩

theorem withUpdate (oldGraph : ClassGraph) (matched old : MappingTable) :
    (gen.withUpdate oldGraph matched old).Alike (gen'.withUpdate oldGraph matched old) := by
  obtain ⟨r, hcontext⟩ := h.exists_renumbering
  exact ⟨⟨⟨r.toRenumbering, r.finished, r.finished', r.config_eq, r.chain_eq, r.ignoresOrder,
    r.resembles, ⟨r.heritage.prior_eq, rfl, rfl, rfl⟩⟩, hcontext.counters (·.merge old.counters)⟩,
    h.resolver_eq, h.counterFile_eq⟩

/-- A table is read by both generators or by none. -/
theorem withPrior (table : MappingTable) :
    (∃ fault, gen.withPrior table = .error fault ∧ gen'.withPrior table = .error fault) ∨
      ∃ next next', gen.withPrior table = .ok next ∧ gen'.withPrior table = .ok next' ∧
        next.Alike next' := by
  obtain ⟨r, hcontext⟩ := h.exists_renumbering
  rw [Generator.withPrior, Generator.withPrior, r.config_eq]
  dsimp only
  split
  · refine .inr ⟨_, _, rfl, rfl, ⟨⟨⟨r.toRenumbering, r.finished, r.finished', r.config_eq,
      r.chain_eq, r.ignoresOrder, r.resembles, ⟨rfl, r.heritage.matched_eq, r.heritage.old_eq,
        r.heritage.judgeOldMethod_eq⟩⟩, hcontext.counters (·.merge table.counters)⟩,
      h.resolver_eq, h.counterFile_eq⟩⟩
  · exact .inl ⟨_, rfl, rfl⟩

/-! ### Runs -/

/-- A run gives the same, and the generators stay alike. -/
theorem generate [ConflictResolver ρ] :
    gen'.generate.1 = gen.generate.1 ∧ gen.generate.2.Alike gen'.generate.2 := by
  obtain ⟨r, hcontext⟩ := h.exists_renumbering
  have hstored : gen'.storedCounters = gen.storedCounters := by
    rw [storedCounters, storedCounters, h.counterFile_eq]
  rw [Generator.generate, Generator.generate, hstored]
  cases gen.storedCounters with
  | error fault => exact ⟨rfl, h⟩
  | ok stored =>
    have hstart : NamingState.Renumbered r.toRenumbering
        ⟨gen.context.mergeCounters stored, gen.resolver⟩
        ⟨gen'.context.mergeCounters stored, gen'.resolver⟩ :=
      ⟨hcontext.counters (·.merge stored), h.resolver_eq⟩
    obtain ⟨houtcome, hstates⟩ := NamingTask.inStep_run r hstart
    dsimp only
    generalize (gen.task.run (ρ := ρ)).run ⟨gen.context.mergeCounters stored, gen.resolver⟩ =
      result at houtcome hstates
    generalize (gen'.task.run (ρ := ρ)).run ⟨gen'.context.mergeCounters stored, gen'.resolver⟩ =
      result' at houtcome hstates
    obtain ⟨outcome, t⟩ := result
    obtain ⟨outcome', t'⟩ := result'
    obtain rfl : outcome' = outcome := houtcome
    have hcontext' : t.context.Renumbered r.toRenumbering t'.context := hstates.context
    cases outcome' with
    | error fault => exact ⟨rfl, ⟨r, hcontext'⟩, hstates.resolver_eq, h.counterFile_eq⟩
    | ok set =>
      refine ⟨rfl, ⟨r, hcontext'⟩, hstates.resolver_eq, ?_⟩
      dsimp only [storeCounters]
      rw [h.counterFile_eq, hcontext'.counters_eq]

/-- Generators that are alike have and answer the same. -/
theorem reportOf_eq (outcome : Except NamingFault MappingSet) :
    reportOf outcome gen' = reportOf outcome gen := by
  obtain ⟨r, hcontext⟩ := h.exists_renumbering
  have hclass : gen'.className? = gen.className? := by
    funext name
    rw [className?, className?, hcontext.classNames_eq]
  have hfield : gen'.fieldName? = gen.fieldName? := by
    funext ref
    rw [fieldName?, fieldName?, hcontext.fieldNames_eq]
  have hmethod : gen'.methodName? = gen.methodName? := by
    funext ref
    rw [methodName?, methodName?, r.idOf?_eq r.finished'.names r.onto]
    cases hid : gen.task.graph.idOf? ref.owner with
    | none => rfl
    | some id =>
      have hslot := r.findsMethods.slot?_eq (of_idOf? hid).1 ref.key
      dsimp only [Option.map_some, Option.bind_eq_bind, Option.bind_some]
      rw [hslot]
      cases hm : gen.task.graph.slot? id ref.key with
      | none => rfl
      | some m => exact hcontext.methodNames_eq hm
  rw [reportOf, reportOf, hclass, hfield, hmethod, hcontext.counters_eq, h.resolver_eq,
    h.counterFile_eq]

/-- All runs come to the same. -/
theorem reports_eq [ConflictResolver ρ] (runs : Nat) : gen'.reports runs = gen.reports runs := by
  induction runs generalizing gen gen' with
  | zero => rfl
  | succ runs ih =>
    obtain ⟨houtcome, hafter⟩ := h.generate
    rw [reports, reports]
    dsimp only
    rw [houtcome, hafter.reportOf_eq, ih hafter]

/-- Whatever options are given, the runs come to the same. -/
theorem reports_foldlM_give [ConflictResolver ρ] {options : List GeneratorOption}
    (hpolicies : ∀ p, .policy p ∈ options → p.IgnoresOrder) (runs : Nat) :
    (options.foldlM give gen').map (reports runs) =
      (options.foldlM give gen).map (reports runs) := by
  induction options generalizing gen gen' with
  | nil => exact congrArg Except.ok (h.reports_eq runs)
  | cons option options ih =>
    have hrest : ∀ p, .policy p ∈ options → p.IgnoresOrder :=
      fun p hp => hpolicies p (List.mem_cons_of_mem _ hp)
    rw [List.foldlM_cons, List.foldlM_cons]
    cases option with
    | prior table =>
      obtain ⟨fault, hfault, hfault'⟩ | ⟨next, next', hnext, hnext', halike⟩ := h.withPrior table
      · rw [give, give, hfault, hfault']
      · rw [give, give, hnext, hnext']
        exact ih halike hrest
    | update oldGraph matched old => exact ih (h.withUpdate oldGraph matched old) hrest
    | policy p => exact ih (h.withPolicy (hpolicies p List.mem_cons_self)) hrest
    | counters counters => exact ih (h.withCounters counters) hrest

end Alike

/-- Generators that are set up alike for graphs that differ in numbers only are alike. -/
theorem create_renumbered [PatternEngine] {g g' : ClassGraph} (r : Renumbering g g')
    (hg : g.Finished) (hg' : g'.Finished)
    (hresembles : ∀ {id}, id < g.size → (g.classAt id).Resembles (g'.classAt (r.classOf id)))
    (config : NamingConfig) (resolver : ρ) (counterFile : Option File) :
    (∃ fault, create g config resolver counterFile = .error fault ∧
      create g' config resolver counterFile = .error fault) ∨
    ∃ gen gen', create g config resolver counterFile = .ok gen ∧
      create g' config resolver counterFile = .ok gen' ∧ gen.Alike gen' := by
  rw [create, create]
  cases config.patterns.compile? with
  | none => exact .inl ⟨_, rfl, rfl⟩
  | some patterns =>
    refine .inr ⟨_, _, rfl, rfl, ⟨⟨⟨r, hg, hg', rfl, rfl, fun p hp => ?_, hresembles,
      ⟨rfl, rfl, rfl, ?_⟩⟩, ⟨rfl, rfl, rfl, fun _ => rfl⟩⟩, rfl, rfl⟩⟩
    · rw [List.mem_singleton.1 hp]
      exact patterns.readsFiles_policy.ignoresOrder
    · funext ref
      rw [Heritage.judgeOldMethod_of_identity rfl, Heritage.judgeOldMethod_of_identity rfl]

open GraphBuilder

/-- If the class files have distinct names and no stated containers form a cycle, the order of the
class files shows in nothing. With the same configuration, options and resolver, and policies that
ignore the order of discovery, setting up a generator and running it, once or several times, comes
to the same: the same mapping sets with the same counters or the same faults, and the same answers
afterwards. -/
theorem reports_build_of_perm [PatternEngine] [ConflictResolver ρ] {files files' : List ClassFile}
    (hnames : (files.map (·.name)).Nodup) (hperm : files'.Perm files)
    (hacyclic : ∀ id, ¬ Relation.TransGen (build files).StatedIn id id) (config : NamingConfig)
    (resolver : ρ) (counterFile : Option File) {options : List GeneratorOption}
    (hpolicies : ∀ p, .policy p ∈ options → p.IgnoresOrder) (runs : Nat) :
    (setUp (build files') config resolver counterFile options).map (reports runs) =
      (setUp (build files) config resolver counterFile options).map (reports runs) := by
  obtain ⟨r⟩ := exists_renumbering_of_perm hnames hperm hacyclic
  have hfinished := finished_build files
  have hfinished' := finished_build files'
  have hresembles : ∀ {id}, id < (build files).size →
      ((build files).classAt id).Resembles ((build files').classAt (r.classOf id)) := fun hid =>
    r.resembles hfinished hfinished' (listsBelow_build files) (listsBelow_build files') hid
  obtain ⟨fault, hfault, hfault'⟩ | ⟨gen, gen', hgen, hgen', halike⟩ :=
    create_renumbered r hfinished hfinished' hresembles config resolver counterFile
  · rw [setUp, setUp, hfault, hfault']
  · rw [setUp, setUp, hgen, hgen']
    exact halike.reports_foldlM_give hpolicies runs

/-- Stated containers that were discovered before what they contain form no cycle. -/
theorem not_transGen_statedIn {g : ClassGraph}
    (hannounced : ∀ a < g.size, ∀ b ∈ g.announced? a, b < a)
    (hclaimed : ∀ a < g.size, ∀ b ∈ g.claimed? a, b < a) (id : ClassId) :
    ¬ Relation.TransGen g.StatedIn id id := by
  have hfalling : Relation.TransGen g.StatedIn ≤ (· > ·) := by
    refine Relation.transGen_minimal fun a b hab => hab.elim (fun h => ?_) fun h => ?_
    · exact hannounced a (lt_size_of_announced? h) b h
    · exact hclaimed a (lt_size_of_claimed? h) b h
  exact fun hcycle => Nat.lt_irrefl id (hfalling id id hcycle)

/-- Class files of a class and of two subclasses. -/
def siblingFiles : List ClassFile :=
  [{ name := "a" }, { name := "b", superName := some "a" }, { name := "c", superName := some "a" }]

/-- A policy that spares the classes of which a class was discovered as the first subclass. -/
def sparingParentOf (firstborn : String) : NamingPolicy where
  name := "spare the parent"
  classVote c := if c.subclasses.head? = some firstborn then -2 else 0

/-- Where such a policy votes, the order of the class files shows: in one order the parent is given
a name, in the other one it keeps its own. -/
theorem generate_siblingFiles_ne :
    (siblingFiles.map (·.name)).Nodup ∧ siblingFiles.reverse.Perm siblingFiles ∧
      (∀ id, ¬ Relation.TransGen (build siblingFiles).StatedIn id id) ∧
      (setUp (build siblingFiles.reverse) {} Resolver.refuse none
        [.policy (sparingParentOf "b")]).map (·.generate.1) ≠
      (setUp (build siblingFiles) {} Resolver.refuse none
        [.policy (sparingParentOf "b")]).map (·.generate.1) := by
  have hacyclic := not_transGen_statedIn (g := build siblingFiles) (by decide +kernel)
    (by decide +kernel)
  refine ⟨by decide, siblingFiles.reverse_perm, hacyclic, ?_⟩
  rw [setUp, setUp, create_of_usual _ rfl, create_of_usual _ rfl]
  decide +kernel

/-- Class files of a family of three classes, of a class that claims a container, and of one whose
name announces a container without a class file. -/
def scatteredFiles : List ClassFile :=
  [{ name := "a", methods := [{ key := ⟨"f", "()V"⟩ }], fields := [{ key := ⟨"x", "I"⟩ }] },
    { name := "b", superName := some "a", methods := [{ key := ⟨"f", "()V"⟩ }] },
    { name := "c", declaring := some "b", fields := [{ key := ⟨"x", "I"⟩ }] },
    { name := "p$d", superName := some "a", methods := [{ key := ⟨"f", "()V"⟩ }] }]

/-- A policy that spares one class. -/
def sparingTable : VoteTable where
  name := "spare b"
  classes := ⟨[("b", -2)], by simp⟩

/-- In the reverse order these class files give another graph, and the same mapping set. -/
theorem reports_scatteredFiles :
    build scatteredFiles.reverse ≠ build scatteredFiles ∧
      (setUp (build scatteredFiles.reverse) {} Resolver.refuse none
        [.policy sparingTable.policy]).map (reports 2) =
      (setUp (build scatteredFiles) {} Resolver.refuse none
        [.policy sparingTable.policy]).map (reports 2) ∧
      ∃ gen, setUp (build scatteredFiles) {} Resolver.refuse none
        [.policy sparingTable.policy] = .ok gen ∧ gen.generate.1.isOk = true := by
  have hnames : (scatteredFiles.map (·.name)).Nodup := by decide
  have hacyclic := not_transGen_statedIn (g := build scatteredFiles) (by decide +kernel)
    (by decide +kernel)
  refine ⟨by decide +kernel, ?_, ?_⟩
  · refine reports_build_of_perm hnames scatteredFiles.reverse_perm hacyclic {} Resolver.refuse none
      (fun p hp => ?_) 2
    obtain rfl : p = sparingTable.policy := GeneratorOption.policy.inj (List.mem_singleton.1 hp)
    exact sparingTable.readsFiles_policy.ignoresOrder
  · rw [setUp, create_of_usual _ rfl]
    exact ⟨_, rfl, by decide +kernel⟩

end Generator

end StableNaming
