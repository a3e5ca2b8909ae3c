import StableNaming.Pattern.Engine
import StableNaming.Proofs.Naming.Generation

/-!
# Names that are made up and names that are carried over

A made up name can have the number of a name that is carried over only if the walk
comes to the made up one first and the counters that the run started with are not
past the number. A counter learns of carried names one by one, so it does not help
that the walk would meet the name later.
-/

namespace StableNaming

namespace NamingTask

variable {task : NamingTask} {c c' : NamingContext}

/-- A number that is carried before is not handed out. -/
theorem Log.not_carries {before later : List Decision} {d e : Decision}
    (h : task.Log c (before ++ d :: later) c') {kind : SymbolKind} {number : Nat}
    (hd : d.Mints kind number) (he : e ∈ before) : ¬ e.Carries kind number := by
  intro hcarries
  obtain ⟨_, _, -, hmints, -⟩ := h.divide
  have hword := hmints.lt_wordLimit hd
  obtain ⟨front, back, rfl⟩ := List.append_of_mem he
  have hnumber := h.number_eq hd
  have happend : front ++ e :: back ++ d :: later = front ++ e :: (back ++ d :: later) := by
    rw [List.append_assoc, List.cons_append]
  rw [happend] at h
  obtain ⟨c₁, c₂, -, hdecides, -⟩ := h.divide
  have hmem : number ∈ (front ++ e :: back).flatMap (·.numbers kind) :=
    List.mem_flatMap.2 ⟨e, he, hdecides.mem_numbers hcarries hword⟩
  have hlt := lt_nextAfter hmem (c.counters.get kind)
  omega

/-- The number of a made up name is carried over if and only if it is carried over later. -/
theorem Log.carries_iff {before later : List Decision} {d : Decision}
    (h : task.Log c (before ++ d :: later) c') {kind : SymbolKind} {number : Nat}
    (hd : d.Mints kind number) :
    (∃ e ∈ before ++ d :: later, e.Carries kind number) ↔ ∃ e ∈ later, e.Carries kind number := by
  constructor
  · rintro ⟨e, he, hcarries⟩
    rcases List.mem_append.1 he with he | he
    · exact absurd hcarries (h.not_carries hd he)
    · rcases List.mem_cons.1 he with rfl | he
      · have hminted := hd.2
        rw [Decision.Carries, hminted] at hcarries
        exact absurd hcarries.2 id
      · exact ⟨e, he, hcarries⟩
  · rintro ⟨e, he, hcarries⟩
    exact ⟨e, List.mem_append_right _ (List.mem_cons_of_mem _ he), hcarries⟩

/-- The number of a made up name lies between the counters before and after. -/
theorem Log.number_bounds {before later : List Decision} {d : Decision}
    (h : task.Log c (before ++ d :: later) c') {kind : SymbolKind} {number : Nat}
    (hd : d.Mints kind number) :
    c.counters.get kind ≤ number ∧ number < c'.counters.get kind := by
  have hnumber := h.number_eq hd
  have hle := le_nextAfter (c.counters.get kind) (before.flatMap (·.numbers kind))
  have hlast := h.get_counters kind
  have hmem : number ∈ (before ++ d :: later).flatMap (·.numbers kind) := by
    refine List.mem_flatMap.2 ⟨d, List.mem_append_right _ List.mem_cons_self, ?_⟩
    rw [Decision.numbers, if_pos hd.1, hd.2]
    exact List.mem_cons_self
  have hlt := lt_nextAfter hmem (c.counters.get kind)
  omega

end NamingTask

namespace Generator

variable {ρ : Type}

/-- After a successful run, whatever names were carried over, the number of a made up name is that
of a carried one exactly if a name with the number is carried over after it, and then the counters
that the run started with were not past the number. -/
theorem carries_iff_carries_later [ConflictResolver ρ] (files : List ClassFile)
    {gen after : Generator ρ} {set : MappingSet}
    (hgraph : gen.task.graph = GraphBuilder.build files)
    (hrun : gen.generate = (.ok set, after)) :
    (∃ ds, gen.task.Log { gen.context with counters := gen.startCounters } ds after.context) ∧
    ∀ ds, gen.task.Log { gen.context with counters := gen.startCounters } ds after.context →
      (∀ d ∈ ds, gen.task.nameIn? after.context d.subject =
        some (gen.task.nameBy after.context d)) ∧
      ∀ before d later kind number, ds = before ++ d :: later → d.Mints kind number →
        gen.startCounters.get kind ≤ number ∧ number < after.context.counters.get kind ∧
        ((∃ e ∈ ds, e.Carries kind number) ↔ ∃ e ∈ later, e.Carries kind number) := by
  obtain ⟨t, hsucceeds, hafter⟩ := exists_succeeds_of_generate hrun
  have hcontext : after.context = t.context := by rw [hafter]; rfl
  have hfinished : gen.task.graph.Finished := hgraph ▸ GraphBuilder.finished_build files
  obtain ⟨hleads, -, -⟩ := NamingTask.of_succeeds_run hfinished hsucceeds
  rw [hcontext]
  refine ⟨hleads, fun ds hlog => ⟨fun d hd => hlog.nameIn?_eq hd, ?_⟩⟩
  intro before d later kind number hds hd
  rw [hds] at hlog ⊢
  obtain ⟨hle, hlt⟩ := hlog.number_bounds hd
  exact ⟨hle, hlt, hlog.carries_iff hd⟩

/-- Two top-level classes. -/
def pairFiles : List ClassFile := [{ name := "a" }, { name := "b" }]

/-- An earlier mapping that knows the second class only, without counters. -/
def pairPrior : MappingTable where
  source := "official"
  target := "intermediary"
  classes := .ofList [("b", "net/minecraft/class_1")]

/-- A policy that wants a name for every class. -/
def everyClass : NamingPolicy := { name := "every class", classVote := fun _ => 2 }

/-- A generator for the two classes that knows the earlier mapping. -/
def pairGenerator : Except NamingFault (Generator Resolver) :=
  fresh (GraphBuilder.build pairFiles) { patterns := ⟨[], [], []⟩ } [everyClass] {} .refuse none
    >>= (·.withPrior pairPrior)

/-- The run of the two classes has a log whose decisions say what the classes are called. -/
theorem exists_log_pair :
    ∃ (gen after : Generator Resolver) (set : MappingSet), pairGenerator = .ok gen ∧
      gen.generate = (.ok set, after) ∧
      ∃ ds, gen.task.Log { gen.context with counters := gen.startCounters } ds after.context ∧
        ∀ d ∈ ds, gen.task.nameIn? after.context d.subject =
          some (gen.task.nameBy after.context d) := by
  obtain ⟨gen, hgen⟩ : ∃ gen, pairGenerator = .ok gen := ⟨_, rfl⟩
  obtain ⟨set, hrun⟩ : ∃ set, gen.generate = (.ok set, gen.generate.2) := by
    refine exists_generate_eq_of_isOk ?_
    cases hgen
    decide +kernel
  have hgraph : gen.task.graph = GraphBuilder.build pairFiles := by
    cases hgen
    rfl
  obtain ⟨⟨ds, hds⟩, hall⟩ := carries_iff_carries_later pairFiles hgraph hrun
  exact ⟨gen, _, set, hgen, hrun, ds, hds, (hall ds hds).1⟩

/-- A name is made up for the first of the two classes before the walk comes to the second one,
which carries over the same name. -/
theorem made_up_name_collides :
    ∃ (gen : Generator Resolver), pairGenerator = .ok gen ∧ gen.generate.1.isOk = true ∧
      gen.task.heritage.className? "a" = none ∧
      gen.generate.2.className? "a" = some "net/minecraft/class_1" ∧
      gen.task.heritage.className? "b" = some "net/minecraft/class_1" ∧
      gen.generate.2.className? "b" = some "net/minecraft/class_1" := by
  obtain ⟨gen, hgen⟩ : ∃ gen, pairGenerator = .ok gen := ⟨_, rfl⟩
  refine ⟨gen, hgen, ?_⟩
  cases hgen
  decide +kernel

end Generator

end StableNaming
