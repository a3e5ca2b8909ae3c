import StableNaming.Policy.VoteTable
import StableNaming.Proofs.Graph.Families
import StableNaming.Proofs.Naming.Emission
import StableNaming.Proofs.Policy.Engine

/-!
# Lines at the roots of a family

A family may start at several classes, and the policies are asked at each of them. The
classes at which they want a name all have a line with the one name of the family. The
others have none, or a line with the old name if all symbols get lines. Without policies the
patterns decide by the name of the method, so all roots are treated alike.
-/

namespace StableNaming

namespace NamingTask

/-- Whether the policies have decided about the method that a class holds under a key. -/
def Judges (task : NamingTask) (id : ClassId) (key : MemberKey) (need : Bool) : Prop :=
  ∃ symbol, task.graph.methodIn? id key = some symbol ∧
    task.chain.needsMethodName (task.graph.classAt id) symbol = .ok need

instance (task : NamingTask) (id : ClassId) (key : MemberKey) (need : Bool) :
    Decidable (task.Judges id key need) :=
  match hmethod : task.graph.methodIn? id key with
  | none => isFalse fun ⟨_, hsymbol, _⟩ => by simp [hmethod] at hsymbol
  | some symbol =>
    decidable_of_iff (task.chain.needsMethodName (task.graph.classAt id) symbol = .ok need)
      ⟨fun hneed => ⟨symbol, hmethod, hneed⟩, fun ⟨_, hsymbol, hneed⟩ =>
        Option.some.inj (hmethod.symm.trans hsymbol) ▸ hneed⟩

variable {task : NamingTask} {c : NamingContext} {id : ClassId} {key : MemberKey}

/-- The line for a method where its family starts, if the policies want a name. -/
theorem methodEntryIn_of_wanted {m : MethodId} (hslot : task.graph.slot? id key = some m)
    (hsource : task.hierarchy.isSource id key = true) (hinit : key.isInitializer = false)
    (hjudged : task.Judges id key true) :
    task.methodEntryIn c id (key, m) = (c.methodNames.find? m).map fun name => ⟨key, name⟩ := by
  obtain ⟨symbol, hsymbol, hneed⟩ := hjudged
  rw [ClassGraph.methodIn?, hslot, Option.bind_some] at hsymbol
  rw [methodEntryIn]
  dsimp only
  rw [hinit, hsource, if_neg (by decide), hsymbol]
  dsimp only
  rw [hneed]

/-- The line for a method where its family starts, if the policies want none. -/
theorem methodEntryIn_of_unwanted {m : MethodId} (hslot : task.graph.slot? id key = some m)
    (hsource : task.hierarchy.isSource id key = true) (hinit : key.isInitializer = false)
    (hjudged : task.Judges id key false) :
    task.methodEntryIn c id (key, m) = task.keptEntry key := by
  obtain ⟨symbol, hsymbol, hneed⟩ := hjudged
  rw [ClassGraph.methodIn?, hslot, Option.bind_some] at hsymbol
  rw [methodEntryIn]
  dsimp only
  rw [hinit, hsource, if_neg (by decide), hsymbol]
  dsimp only
  rw [hneed]

/-- Only where a family starts there are entries, and initializers have none. -/
theorem isSource_of_methodEntryIn {m : MethodId} {entry : MemberEntry}
    (h : task.methodEntryIn c id (key, m) = some entry) :
    task.hierarchy.isSource id key = true ∧ key.isInitializer = false := by
  rw [methodEntryIn] at h
  split at h
  · cases h
  · rename_i hskip
    rw [Bool.or_eq_true, not_or, Bool.not_eq_true, Bool.not_eq_true, Bool.not_eq_false'] at hskip
    exact ⟨hskip.2, hskip.1⟩

/-- Without policies all classes that hold a method are judged alike. -/
theorem Judges.of_slot_eq {patterns : NamePatterns} (hpolicies : task.chain.policies = [])
    (hdefault : task.chain.default = patterns.policy) {other : ClassId} {need : Bool}
    (hsame : task.graph.slot? id key = task.graph.slot? other key)
    (h : task.Judges id key need) : task.Judges other key need := by
  obtain ⟨symbol, hsymbol, hneed⟩ := h
  rw [ClassGraph.methodIn?, hsame] at hsymbol
  rw [PolicyChain.needsMethodName_eq hpolicies hdefault] at hneed
  exact ⟨symbol, hsymbol, (PolicyChain.needsMethodName_eq hpolicies hdefault _ _).trans hneed⟩

section Settled

variable (hgraph : task.graph.Finished) (hloaded : (task.graph.classAt id).loaded = true)
  {m : MethodId} (hslot : task.graph.slot? id key = some m)
include hgraph hloaded hslot

/-- The lines for a method that a class holds are its entry. -/
theorem hasLine_setIn_iff_of_slot {name : String} :
    (task.setIn c).HasLine (task.graph.nameAt id) key name ↔
      task.methodEntryIn c id (key, m) = some ⟨key, name⟩ := by
  rw [hasLine_setIn_iff hgraph (ClassGraph.lt_size_of_slot? hslot) fun _ => hloaded]
  constructor
  · rintro ⟨m', hslot', hentry⟩
    rwa [Option.some.inj (hslot.symm.trans hslot')]
  · exact fun hentry => ⟨m, hslot, hentry⟩

/-- After a run the policies have decided where a family starts, and if they want a name it has
one. -/
theorem exists_judges (hsettled : task.ClassSettled c id)
    (hsource : task.hierarchy.isSource id key = true) (hinit : key.isInitializer = false) :
    ∃ need, task.Judges id key need ∧
      (task.Judges id key true → ∃ name, c.methodNames.find? m = some name) := by
  obtain ⟨symbol, hsymbol, -⟩ := hgraph.symbol_of_slot hslot
  have hmethod : task.graph.methodIn? id key = some symbol := by
    rw [ClassGraph.methodIn?, hslot, Option.bind_some, hsymbol]
  obtain ⟨need, hneed, hnamed⟩ :=
    hsettled.of_starts ⟨hloaded, hslot, hinit, hsource, hsymbol⟩
  refine ⟨need, ⟨symbol, hmethod, hneed⟩, ?_⟩
  rintro ⟨symbol', hmethod', hneed'⟩
  obtain rfl : symbol = symbol' := Option.some.inj (hmethod.symm.trans hmethod')
  exact hnamed (Except.ok.inj (hneed.symm.trans hneed'))

end Settled

end NamingTask

namespace Generator

variable {ρ : Type}

/-- Which lines a mapping set has for the family of a method that a class holds, given the
generator after the run. -/
structure EmitsFamily (gen : Generator ρ) (set : MappingSet) (id : ClassId) (key : MemberKey) :
    Prop where
  /-- Only where the family starts there are lines, and initializers have none. -/
  starts : ∀ d ∈ gen.task.hierarchy.family id key, ∀ name,
    set.HasLine (gen.task.graph.nameAt d) key name →
      gen.task.hierarchy.isSource d key = true ∧ key.isInitializer = false
  /-- The policies have decided wherever the family starts. -/
  judged : ∀ d ∈ gen.task.hierarchy.family id key, gen.task.hierarchy.isSource d key = true →
    key.isInitializer = false → ∃ need, gen.task.Judges d key need
  /-- Where they want a name, there is a line with the name of the family. -/
  wanted : ∀ d ∈ gen.task.hierarchy.family id key, gen.task.hierarchy.isSource d key = true →
    key.isInitializer = false → gen.task.Judges d key true →
      ∃ given, gen.methodName? ⟨gen.task.graph.nameAt id, key⟩ = some given ∧
        ∀ name, set.HasLine (gen.task.graph.nameAt d) key name ↔ name = given
  /-- Where they want none, there is a line only if all symbols get lines, with the old name. -/
  unwanted : ∀ d ∈ gen.task.hierarchy.family id key, gen.task.hierarchy.isSource d key = true →
    key.isInitializer = false → gen.task.Judges d key false →
      ∀ name, set.HasLine (gen.task.graph.nameAt d) key name ↔
        gen.task.config.writeAll = true ∧ name = key.name
  /-- Without policies the patterns decide alike everywhere. -/
  alike : gen.task.chain.policies = [] →
    ∀ patterns : NamePatterns, gen.task.chain.default = patterns.policy →
      ∀ d ∈ gen.task.hierarchy.family id key, ∀ e ∈ gen.task.hierarchy.family id key,
        ∀ need, gen.task.Judges d key need → gen.task.Judges e key need

/-- After a successful call, all classes where a family starts and the policies want a name have a
line with the one name of the family, whatever the policies decide about the others. -/
theorem emitsFamily_of_generate [ConflictResolver ρ] {files : List ClassFile}
    {gen after : Generator ρ} {set : MappingSet}
    (hgraph : gen.task.graph = GraphBuilder.build files)
    (hrun : gen.generate = (.ok set, after)) (id : ClassId) (key : MemberKey) :
    after.EmitsFamily set id key := by
  obtain ⟨htask, hsettled, hset⟩ :=
    settled_of_generate (hgraph ▸ GraphBuilder.finished_build files) hrun
  rw [← htask] at hgraph
  have hfinished : after.task.graph.Finished := hgraph ▸ GraphBuilder.finished_build files
  -- all classes of the family hold the method that the class holds
  have hshared : ∀ {d}, d ∈ after.task.hierarchy.family id key →
      ∃ m, after.task.graph.slot? id key = some m ∧ after.task.graph.slot? d key = some m ∧
        (after.task.graph.classAt d).loaded = true := by
    intro d hd
    cases hslot : after.task.graph.slot? id key with
    | none =>
      rw [Hierarchy.family, ClassGraph.methodIn?, hslot] at hd
      exact absurd hd List.not_mem_nil
    | some m =>
      have hholds := (hfinished.mem_family_iff_holds _ hslot).1 hd
      refine ⟨m, rfl, hholds, ?_⟩
      rw [hgraph] at hholds ⊢
      exact GraphBuilder.loaded_of_slot? hholds
  refine ⟨fun d hd name hhas => ?_, fun d hd hsource hinit => ?_,
    fun d hd hsource hinit hjudged => ?_, fun d hd hsource hinit hjudged name => ?_,
    fun hpolicies patterns hdefault d hd e he need hjudged => ?_⟩
  · obtain ⟨m, -, hslot, hloaded⟩ := hshared hd
    rw [hset, NamingTask.hasLine_setIn_iff_of_slot hfinished hloaded hslot] at hhas
    exact NamingTask.isSource_of_methodEntryIn hhas
  · obtain ⟨m, -, hslot, hloaded⟩ := hshared hd
    obtain ⟨need, hneed, -⟩ := NamingTask.exists_judges hfinished hloaded hslot
      (hsettled d (ClassGraph.lt_size_of_slot? hslot)) hsource hinit
    exact ⟨need, hneed⟩
  · obtain ⟨m, hid, hslot, hloaded⟩ := hshared hd
    obtain ⟨-, -, hnamed⟩ := NamingTask.exists_judges hfinished hloaded hslot
      (hsettled d (ClassGraph.lt_size_of_slot? hslot)) hsource hinit
    obtain ⟨given, hgiven⟩ := hnamed hjudged
    refine ⟨given, ?_, fun name => ?_⟩
    · rw [methodName?_nameAt rfl hfinished.names (ClassGraph.lt_size_of_slot? hid), hid]
      exact hgiven
    · rw [hset, NamingTask.hasLine_setIn_iff_of_slot hfinished hloaded hslot,
        NamingTask.methodEntryIn_of_wanted hslot hsource hinit hjudged, hgiven, Option.map_some,
        Option.some_inj, MemberEntry.mk.injEq]
      exact (and_iff_right rfl).trans eq_comm
  · obtain ⟨m, -, hslot, hloaded⟩ := hshared hd
    rw [hset, NamingTask.hasLine_setIn_iff_of_slot hfinished hloaded hslot,
      NamingTask.methodEntryIn_of_unwanted hslot hsource hinit hjudged, NamingTask.keptEntry]
    cases after.task.config.writeAll with
    | false => simp
    | true => simp [eq_comm]
  · obtain ⟨m, hid, hslot, -⟩ := hshared hd
    obtain ⟨m', hid', hslot', -⟩ := hshared he
    exact hjudged.of_slot_eq hpolicies hdefault
      ((hslot.trans hid.symm).trans (hid'.trans hslot'.symm))

/-- Three interfaces that declare a method, and a class that implements all of them. -/
def rootFiles : List ClassFile :=
  [{ name := "a", methods := [{ key := ⟨"f", "()V"⟩ }] },
    { name := "b", methods := [{ key := ⟨"f", "()V"⟩ }] },
    { name := "c", methods := [{ key := ⟨"f", "()V"⟩ }] },
    { name := "d", interfaces := ["a", "b", "c"], methods := [{ key := ⟨"f", "()V"⟩ }] }]

/-- The policy that overrules the patterns for the method of the second interface. -/
def sparingPolicy : NamingPolicy :=
  VoteTable.policy { name := "spare", methods := Dictionary.empty.insert "b.f()V" (-2) }

/-- The first and the third interface have lines with the same name, the second has none. -/
theorem emitsFamily_rootFiles :
    ∃ (gen after : Generator Resolver) (set : MappingSet) (name : String),
      fresh (GraphBuilder.build rootFiles) {} [sparingPolicy] {} .refuse = .ok gen ∧
      gen.generate = (.ok set, after) ∧
      (∀ name', set.HasLine "a" ⟨"f", "()V"⟩ name' ↔ name' = name) ∧
      (∀ name', set.HasLine "c" ⟨"f", "()V"⟩ name' ↔ name' = name) ∧
      ∀ name', ¬ set.HasLine "b" ⟨"f", "()V"⟩ name' := by
  obtain ⟨gen, hgen⟩ : ∃ gen, freshWith (GraphBuilder.build rootFiles) {} .usual [sparingPolicy] {}
      Resolver.refuse none = gen := ⟨_, rfl⟩
  have hfresh : fresh (GraphBuilder.build rootFiles) {} [sparingPolicy] {} Resolver.refuse =
      .ok gen := fresh_eq_ok_iff.2 ⟨_, NamePatterns.compile?_usual, hgen⟩
  obtain ⟨set, hrun⟩ : ∃ set, gen.generate = (.ok set, gen.generate.2) := by
    refine exists_generate_eq_of_isOk ?_
    cases hgen
    decide +kernel
  have hroots : ∀ d ∈ [0, 1, 2], d ∈ gen.generate.2.task.hierarchy.family 0 ⟨"f", "()V"⟩ ∧
      gen.generate.2.task.hierarchy.isSource d ⟨"f", "()V"⟩ = true ∧
      gen.generate.2.task.Judges d ⟨"f", "()V"⟩ (d != 1) := by
    cases hgen
    decide +kernel
  have hconfig : gen.generate.2.task.config.writeAll = false := by
    cases hgen
    decide +kernel
  have hnames : (gen.generate.2.task.graph.nameAt 0, gen.generate.2.task.graph.nameAt 1,
      gen.generate.2.task.graph.nameAt 2) = ("a", "b", "c") := by
    cases hgen
    decide +kernel
  rw [Prod.mk.injEq, Prod.mk.injEq] at hnames
  have hemits := emitsFamily_of_generate (graph_of_fresh hfresh) hrun 0 ⟨"f", "()V"⟩
  obtain ⟨hfirst, hsource, hjudged⟩ := hroots 0 (by decide)
  obtain ⟨name, hname, hlines⟩ := hemits.wanted 0 hfirst hsource rfl hjudged
  obtain ⟨hthird, hsource, hjudged⟩ := hroots 2 (by decide)
  obtain ⟨name', hname', hlines'⟩ := hemits.wanted 2 hthird hsource rfl hjudged
  obtain rfl : name = name' := Option.some.inj (hname.symm.trans hname')
  obtain ⟨hsecond, hsource, hjudged⟩ := hroots 1 (by decide)
  have hspared := hemits.unwanted 1 hsecond hsource rfl hjudged
  rw [hnames.1] at hlines
  rw [hnames.2.2] at hlines'
  rw [hnames.2.1] at hspared
  refine ⟨gen, _, set, name, hfresh, hrun, hlines, hlines', fun other hline => ?_⟩
  rw [hspared, hconfig] at hline
  cases hline.1

/-- One interface of a family has a line with a generated name, and another one where the family
starts has none. -/
theorem exists_root_without_line :
    ∃ (gen after : Generator Resolver) (set : MappingSet),
      fresh (GraphBuilder.build rootFiles) {} [sparingPolicy] {} .refuse = .ok gen ∧
      gen.generate = (.ok set, after) ∧
      set.HasLine "a" ⟨"f", "()V"⟩ "method_1" ∧
      SymbolKind.method.isGenerated "method_1" = true ∧
      (GraphBuilder.build rootFiles).idOf? "a" = some 0 ∧
      (GraphBuilder.build rootFiles).idOf? "b" = some 1 ∧
      1 ∈ (GraphBuilder.build rootFiles).hierarchy.family 0 ⟨"f", "()V"⟩ ∧
      (GraphBuilder.build rootFiles).hierarchy.isSource 1 ⟨"f", "()V"⟩ = true ∧
      ¬ set.HasLine "b" ⟨"f", "()V"⟩ "method_1" := by
  obtain ⟨gen, hgen⟩ : ∃ gen, freshWith (GraphBuilder.build rootFiles) {} .usual [sparingPolicy] {}
      Resolver.refuse none = gen := ⟨_, rfl⟩
  have hfresh : fresh (GraphBuilder.build rootFiles) {} [sparingPolicy] {} Resolver.refuse =
      .ok gen := fresh_eq_ok_iff.2 ⟨_, NamePatterns.compile?_usual, hgen⟩
  obtain ⟨set, hrun⟩ : ∃ set, gen.generate = (.ok set, gen.generate.2) := by
    refine exists_generate_eq_of_isOk ?_
    cases hgen
    decide +kernel
  have hlines : ∀ set ∈ gen.generate.1.toOption,
      set.HasLine "a" ⟨"f", "()V"⟩ "method_1" ∧ ¬ set.HasLine "b" ⟨"f", "()V"⟩ "method_1" := by
    cases hgen
    decide +kernel
  obtain ⟨hline, hnone⟩ := hlines set (by rw [hrun]; rfl)
  exact ⟨gen, _, set, hfresh, hrun, hline, by decide +kernel, by decide +kernel,
    by decide +kernel, by decide +kernel, by decide +kernel, hnone⟩

end Generator

end StableNaming
