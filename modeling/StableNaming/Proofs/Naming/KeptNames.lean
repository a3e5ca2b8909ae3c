import StableNaming.Proofs.Graph.TopLevel
import StableNaming.Proofs.Naming.Accounts
import StableNaming.Proofs.Naming.Lifetime
import StableNaming.Proofs.Policy.Engine

/-!
# Names that are kept

A class that needs no name keeps its segment, under the name of its container. So if none of its
containers needs a name either, its name is put together from the segments on the way down from the
top level. This is its own name if it and its containers are inside the containers that their names
announce. But class files may say that a class is inside another one, and then its name changes
although no policy asks for it.
-/

namespace StableNaming

open Relation

namespace ClassGraph

variable {g : ClassGraph}

/-! ## Segments along the way up -/

/-- The name that the segments of a class and its containers make, given the class and the way up
from it. The class at the top level gives its whole name. A class that has a name gives that. -/
def pathName (g : ClassGraph) (known : String → Option String) : List ClassId → String
  | [] => ""
  | [id] => (known (g.nameAt id)).getD (g.nameAt id)
  | id :: outer :: outers => (known (g.nameAt id)).getD
      (g.pathName known (outer :: outers) ++ "$" ++ (g.classAt id).simpleName)

/-- The name that the segments of a class and its containers make. -/
def placeName (g : ClassGraph) (known : String → Option String) (id : ClassId) : String :=
  g.pathName known (id :: g.containers id)

/-- The way up from a class begins with its container. -/
theorem Forest.containers_eq_cons (h : g.Forest) {id outer : ClassId}
    (houter : g.ContainedIn id outer) : g.containers id = outer :: g.containers outer := by
  obtain ⟨fuel, hfuel⟩ := Nat.exists_eq_succ_of_ne_zero (Nat.ne_zero_of_lt houter.lt_size)
  have hlength := h.length_containersFrom_lt (fuel + 1) (h.outer_lt houter)
  rw [hfuel] at hlength
  rw [containers, containers, hfuel, containersFrom_eq_cons houter,
    containersFrom_succ_of_length_le (Nat.le_of_lt_succ hlength)]

section PlaceName

variable {known : String → Option String} {id outer : ClassId}

theorem placeName_of_known {name : String} (h : known (g.nameAt id) = some name) :
    g.placeName known id = name := by
  rw [placeName]
  cases g.containers id <;> rw [pathName, h, Option.getD_some]

theorem placeName_of_top (houter : (g.classAt id).outer = none)
    (hnew : known (g.nameAt id) = none) : g.placeName known id = g.nameAt id := by
  rw [placeName, containers, Forest.containersFrom_eq_nil houter, pathName, hnew, Option.getD_none]

theorem placeName_of_containedIn (h : g.Forest) (houter : g.ContainedIn id outer)
    (hnew : known (g.nameAt id) = none) :
    g.placeName known id = g.placeName known outer ++ "$" ++ (g.classAt id).simpleName := by
  rw [placeName, h.containers_eq_cons houter, pathName, hnew, Option.getD_none, placeName]

/-- A class at the top level keeps its name, and any other one does if it is called by the place of
its container and by its segment. -/
theorem placeName_eq_nameAt_iff (h : g.Forest) (hnew : known (g.nameAt id) = none) :
    g.placeName known id = g.nameAt id ↔ ∀ outer, g.ContainedIn id outer →
      g.nameAt id = g.placeName known outer ++ "$" ++ (g.classAt id).simpleName := by
  cases houter : (g.classAt id).outer with
  | none =>
    have hvoid : ∀ outer, ¬ g.ContainedIn id outer := fun outer hcontained => by
      rw [ContainedIn, houter] at hcontained
      cases hcontained
    exact iff_of_true (placeName_of_top houter hnew) fun outer hcontained =>
      absurd hcontained (hvoid outer)
  | some outer =>
    rw [placeName_of_containedIn h houter hnew]
    constructor
    · intro heq other hother
      rw [rightUnique_containedIn hother houter, heq]
    · exact fun hall => (hall outer houter).symm

/-- A class keeps its name if it and its containers are where their names announce. -/
theorem placeName_eq_nameAt (h : g.Forest)
    (hannounced : ∀ x, ReflTransGen g.ContainedIn id x → known (g.nameAt x) = none ∧
      ∀ outer, g.ContainedIn x outer → containerName? (g.nameAt x) = some (g.nameAt outer)) :
    g.placeName known id = g.nameAt id := by
  induction h.ends id with
  | intro id _ ih =>
    obtain ⟨hnew, hcontainer⟩ := hannounced id .refl
    refine (placeName_eq_nameAt_iff h hnew).2 fun outer houter => ?_
    rw [ih outer houter fun x hx => hannounced x (.head houter hx)]
    exact (eq_append_of_containerName? (hcontainer outer houter)).1

end PlaceName

end ClassGraph

/-! ## Classes that need no names -/

namespace NamingTask

variable {task : NamingTask} {c c' : NamingContext} {id : ClassId}

/-- A class that the policies do not want named needs no name. -/
theorem classDecision_of_needsClassName
    (h : task.chain.needsClassName (task.graph.classAt id) = .ok false) :
    task.classDecision id = .ok false := by
  rw [classDecision]
  split
  · rfl
  · exact h

/-- A class that needs no name, and that had none before a log, stands under its container. -/
theorem Leads.eq_keptClassName (h : task.Leads c c') (hnames : task.graph.DistinctNames)
    (hid : id < task.graph.size) (hneeds : task.classDecision id = .ok false)
    (hnew : c.classNames.find? (task.graph.nameAt id) = none) {name : String}
    (hname : c'.classNames.find? (task.graph.nameAt id) = some name) :
    name = keptClassName (task.graph.classAt id) (task.parentName c' id) := by
  obtain ⟨need, provenance, htraced⟩ := h.exists_classTraced hnames hid hnew hname
  obtain rfl := Except.ok.inj (htraced.decision.symm.trans hneeds)
  obtain rfl := htraced.traced.eq_kept
  exact htraced.name_eq

/-- If neither a class nor one of its containers needs a name, it is called by its place. -/
theorem Leads.find?_eq_placeName (h : task.Leads c c') (hgraph : task.graph.Finished)
    (hnamed : ∀ id < task.graph.size, ∃ name,
      c'.classNames.find? (task.graph.nameAt id) = some name)
    (hid : id < task.graph.size)
    (hneeds : ∀ x, ReflTransGen task.graph.ContainedIn id x → task.classDecision x = .ok false) :
    c'.classNames.find? (task.graph.nameAt id) =
      some (task.graph.placeName c.classNames.find? id) := by
  -- the name of a container is known before that of a class inside it
  induction hgraph.forest.ends id with
  | intro id _ ih =>
    obtain ⟨name, hname⟩ := hnamed id hid
    cases hknown : c.classNames.find? (task.graph.nameAt id) with
    | some known =>
      rw [ClassGraph.placeName_of_known hknown]
      exact h.persists.type hknown
    | none =>
      have hkept := h.eq_keptClassName hgraph.names hid (hneeds id .refl) hknown hname
      rw [hname, hkept, parentName]
      cases houter : (task.graph.classAt id).outer with
      | none =>
        rw [ClassGraph.placeName_of_top houter hknown]
        rfl
      | some outer =>
        have hplace := ih outer houter (hgraph.forest.outer_lt houter)
          fun x hx => hneeds x (.head houter hx)
        rw [Option.bind_some, hplace, keptClassName,
          ClassGraph.placeName_of_containedIn hgraph.forest houter hknown]

end NamingTask

namespace Generator

variable {ρ : Type}

/-- After a successful run on the graph of class files, with any policies, tables and
configuration, a class is called by its place if neither it nor one of its containers needs a
name. If it had no name before, it keeps its own name exactly if it is called by the name of its
container and its segment; so it does if it and its containers are inside the containers that
their names announce. -/
theorem className?_eq_placeName [ConflictResolver ρ] {files : List ClassFile}
    {gen after : Generator ρ} {set : MappingSet} {id : ClassId}
    (hgraph : gen.task.graph = GraphBuilder.build files) (hrun : gen.generate = (.ok set, after))
    (hid : id < gen.task.graph.size)
    (hneeds : ∀ x, ReflTransGen gen.task.graph.ContainedIn id x →
      gen.task.chain.needsClassName (gen.task.graph.classAt x) = .ok false) :
    after.className? (gen.task.graph.nameAt id) =
        some (gen.task.graph.placeName gen.className? id) ∧
      (gen.className? (gen.task.graph.nameAt id) = none →
        (after.className? (gen.task.graph.nameAt id) = some (gen.task.graph.nameAt id) ↔
          ∀ outer, gen.task.graph.ContainedIn id outer →
            ∃ path, after.className? (gen.task.graph.nameAt outer) = some path ∧
              gen.task.graph.nameAt id =
                path ++ "$" ++ (gen.task.graph.classAt id).simpleName)) ∧
      ((∀ x, ReflTransGen gen.task.graph.ContainedIn id x →
          gen.className? (gen.task.graph.nameAt x) = none ∧
            ∀ outer, gen.task.graph.ContainedIn x outer →
              containerName? (gen.task.graph.nameAt x) = some (gen.task.graph.nameAt outer)) →
        after.className? (gen.task.graph.nameAt id) = some (gen.task.graph.nameAt id)) := by
  have hfinished : gen.task.graph.Finished := hgraph ▸ GraphBuilder.finished_build files
  obtain ⟨t, hsucceeds, hafter⟩ := exists_succeeds_of_generate hrun
  obtain ⟨hleads, hsettled, -⟩ := NamingTask.of_succeeds_run hfinished hsucceeds
  have hplace : ∀ x, ReflTransGen gen.task.graph.ContainedIn id x →
      after.className? (gen.task.graph.nameAt x) =
        some (gen.task.graph.placeName gen.className? x) := by
    intro x hx
    rw [className?, hafter]
    exact hleads.find?_eq_placeName hfinished (fun y hy => (hsettled y hy).name)
      (hfinished.forest.lt_size_of_reflTransGen hx hid) fun y hy =>
        NamingTask.classDecision_of_needsClassName (hneeds y (hx.trans hy))
  refine ⟨hplace id .refl, fun hnew => ?_, fun hannounced => ?_⟩
  · rw [hplace id .refl, Option.some_inj, ClassGraph.placeName_eq_nameAt_iff hfinished.forest hnew]
    refine forall₂_congr fun outer houter => ?_
    rw [hplace outer (.single houter)]
    simp
  · refine (hplace id .refl).trans (congrArg some ?_)
    exact ClassGraph.placeName_eq_nameAt hfinished.forest hannounced

/-- A class in a package, a class inside it, and a class that its class file says is defined in it,
although its name announces another container. -/
def packagedFiles : List ClassFile :=
  [{ name := "p/c" }, { name := "p/c$d" }, { name := "p/a$1", enclosure := some ⟨"p/c", none⟩ }]

/-- With the usual choice none of these classes needs a name. -/
theorem needsClassName_packagedFiles {gen : Generator Resolver}
    (hgen : freshWith (GraphBuilder.build packagedFiles) {} .usual [] {} .refuse none = gen)
    {id x : ClassId} (hid : id < gen.task.graph.size)
    (hx : ReflTransGen gen.task.graph.ContainedIn id x) :
    gen.task.chain.needsClassName (gen.task.graph.classAt x) = .ok false := by
  have hfinished : gen.task.graph.Finished := by
    rw [← hgen]
    exact GraphBuilder.finished_build packagedFiles
  have hall : ∀ x < gen.task.graph.size,
      gen.task.chain.needsClassName (gen.task.graph.classAt x) = .ok false := by
    cases hgen
    decide +kernel
  exact hall x (hfinished.forest.lt_size_of_reflTransGen hx hid)

/-- The class inside the package class keeps its name, and the stray one is called by its place. -/
theorem className?_eq_placeName_packagedFiles :
    ∃ (gen after : Generator Resolver) (set : MappingSet),
      create (GraphBuilder.build packagedFiles) {} .refuse = .ok gen ∧
      gen.generate = (.ok set, after) ∧ after.className? "p/c$d" = some "p/c$d" ∧
      after.className? "p/a$1" = some "p/c$1" := by
  obtain ⟨gen, set, hgen, hcreate, hrun⟩ :=
    exists_create_generate (GraphBuilder.build packagedFiles) Resolver.refuse (by decide +kernel)
  have hgraph : gen.task.graph = GraphBuilder.build packagedFiles := by
    rw [← hgen]
    rfl
  have hforest : gen.task.graph.Forest :=
    hgraph ▸ (GraphBuilder.finished_build packagedFiles).forest
  have hsize : gen.task.graph.size = 4 := by
    rw [hgraph]
    decide +kernel
  have hplace : gen.task.graph.nameAt 1 = "p/c$d" ∧ gen.task.graph.nameAt 3 = "p/a$1" ∧
      gen.task.graph.placeName gen.className? 3 = "p/c$1" := by
    cases hgen
    decide +kernel
  have hannounced : ∀ x < 4, gen.task.graph.isNestedIn 1 x = true →
      gen.className? (gen.task.graph.nameAt x) = none ∧
        ∀ outer ∈ (gen.task.graph.classAt x).outer,
          containerName? (gen.task.graph.nameAt x) = some (gen.task.graph.nameAt outer) := by
    cases hgen
    decide +kernel
  obtain ⟨hname, hstray, hplaceName⟩ := hplace
  have hone : 1 < gen.task.graph.size := by omega
  have hthree : 3 < gen.task.graph.size := by omega
  obtain ⟨-, -, hkept⟩ := className?_eq_placeName hgraph hrun hone fun x hx =>
    needsClassName_packagedFiles hgen hone hx
  obtain ⟨hmoved, -, -⟩ := className?_eq_placeName hgraph hrun hthree fun x hx =>
    needsClassName_packagedFiles hgen hthree hx
  rw [hname] at hkept
  rw [hstray, hplaceName] at hmoved
  refine ⟨gen, _, set, hcreate, hrun, hkept fun x hx => ?_, hmoved⟩
  exact hannounced x (hsize ▸ hforest.lt_size_of_reflTransGen hx hone)
    ((hforest.isNestedIn_iff).2 hx)

/-- The stray class gets another name than its own, although neither it nor its container needs
one. -/
theorem className?_ne_nameAt :
    ∃ (gen after : Generator Resolver) (set : MappingSet) (id : ClassId),
      create (GraphBuilder.build packagedFiles) {} .refuse = .ok gen ∧
      gen.generate = (.ok set, after) ∧ id < gen.task.graph.size ∧
      (∀ x, ReflTransGen gen.task.graph.ContainedIn id x →
        gen.task.chain.needsClassName (gen.task.graph.classAt x) = .ok false) ∧
      gen.task.graph.nameAt id = "p/a$1" ∧ after.className? "p/a$1" = some "p/c$1" := by
  obtain ⟨gen, set, hgen, hcreate, hrun⟩ :=
    exists_create_generate (GraphBuilder.build packagedFiles) Resolver.refuse (by decide +kernel)
  obtain ⟨hthree, hname, hmoved⟩ : 3 < gen.task.graph.size ∧ gen.task.graph.nameAt 3 = "p/a$1" ∧
      gen.generate.2.className? "p/a$1" = some "p/c$1" := by
    cases hgen
    decide +kernel
  exact ⟨gen, _, set, 3, hcreate, hrun, hthree,
    fun x hx => needsClassName_packagedFiles hgen hthree hx, hname, hmoved⟩

end Generator

end StableNaming
