import Mathlib.Data.Finite.Prod
import StableNaming.Proofs.Graph.Families
import StableNaming.Proofs.Graph.Source

/-!
# Topmost declarations

The sources of a method are the topmost declarations that it overrides, or the method itself if
there is none. There is at least one, it is its own source, and it belongs to the family, in every
graph of class files. Where no class above inherits from itself, the sources are what one expects:
the declarations above with none strictly above them.
-/

namespace StableNaming

open Relation

namespace ClassGraph

variable {g : ClassGraph}

/-- Whether a class declares an overridable method under a key and none of the classes above it
does. -/
def Topmost (g : ClassGraph) (key : MemberKey) (x : ClassId) : Prop :=
  g.overridable key x = true ∧
    ∀ y, TransGen (fun a b => b ∈ g.supertypes a) x y → g.overridable key y = false

/-- Whether no class from which a class inherits inherits from itself. -/
def NoCycleAbove (g : ClassGraph) (id : ClassId) : Prop :=
  ∀ x, g.Inherits id x → ¬ TransGen (fun a b => b ∈ g.supertypes a) x x

/-- A declaration is topmost if it overrides nothing. -/
theorem topmost_iff {key : MemberKey} {x : ClassId} (hopen : g.overridable key x = true) :
    g.Topmost key x ↔ ∀ y, ¬ g.Overrides key x y := by
  rw [Topmost, and_iff_right hopen]
  constructor
  · intro htop y hy
    obtain ⟨hopen', hup⟩ := transGen_overrides_iff.1 (.single hy)
    rw [htop y hup] at hopen'
    cases hopen'
  · intro hnone y hup
    rw [← Bool.not_eq_true]
    intro hopen'
    obtain ⟨z, hz, -⟩ := TransGen.head'_iff.1 (transGen_overrides_iff.2 ⟨hopen', hup⟩)
    exact hnone z hz

/-- Going up from a class comes to an end if no class above inherits from itself. -/
theorem NoCycleAbove.wellFounded {id : ClassId} (h : g.NoCycleAbove id) :
    WellFounded fun a b : Fin g.size =>
      g.Inherits id b ∧ TransGen (fun a b => b ∈ g.supertypes a) b.1 a.1 := by
  have htrans : IsTrans (Fin g.size) fun a b =>
      g.Inherits id b ∧ TransGen (fun a b => b ∈ g.supertypes a) b.1 a.1 :=
    ⟨fun _ _ _ hab hbc => ⟨hbc.1, hbc.2.trans hab.2⟩⟩
  have hirrefl : Std.Irrefl fun a b : Fin g.size =>
      g.Inherits id b ∧ TransGen (fun a b => b ∈ g.supertypes a) b.1 a.1 :=
    ⟨fun a ha => h a ha.1 ha.2⟩
  exact Finite.wellFounded_of_trans_of_irrefl _

/-- Above a class that overrides something there is a declaration that overrides nothing, if no
class above inherits from itself. -/
theorem NoCycleAbove.exists_top {key : MemberKey} {id x : ClassId} (h : g.NoCycleAbove id)
    (hx : TransGen (g.Overrides key) id x) :
    ∃ top, TransGen (g.Overrides key) id top ∧ ∀ y, ¬ g.Overrides key top y := by
  have hlt : ∀ {y}, TransGen (g.Overrides key) id y → y < g.size := fun hy =>
    lt_size_of_overridable (transGen_overrides_iff.1 hy).1
  have hends : ∀ y : Fin g.size, TransGen (g.Overrides key) id y →
      ∃ top, TransGen (g.Overrides key) id top ∧ ∀ z, ¬ g.Overrides key top z := by
    intro y
    induction y using h.wellFounded.induction with
    | _ y ih =>
      intro hy
      by_cases htop : ∃ z, g.Overrides key y z
      · obtain ⟨z, hz⟩ := htop
        have hbelow : g.Inherits id y := (transGen_overrides_iff.1 hy).2.to_reflTransGen
        have habove := (transGen_overrides_iff.1 (.single hz)).2
        exact ih ⟨z, hlt (hy.tail hz)⟩ ⟨hbelow, habove⟩ (hy.tail hz)
      · exact ⟨y, hy, not_exists.1 htop⟩
  exact hends ⟨x, hlt hx⟩ hx

end ClassGraph

namespace Hierarchy

variable {g : ClassGraph} (h : Hierarchy g) {id x : ClassId} {key : MemberKey}

/-- Names ascend along the sources, and no class comes twice. -/
theorem pairwise_sources (hnames : g.DistinctNames) (id : ClassId) (key : MemberKey) :
    (h.sources id key).Pairwise (g.nameAt · < g.nameAt ·) := by
  rw [sources]
  split
  · exact List.pairwise_singleton _ _
  · dsimp only
    split
    · exact List.pairwise_singleton _ _
    · refine Collection.pairwise_lt_sortOn ((Search.nodup_reach _ _ _).filter _)
        fun x hx y hy hxy => ?_
      have hlt : ∀ {z}, TransGen (g.Overrides key) id z → z < g.size := fun hz =>
        ClassGraph.lt_size_of_overridable (ClassGraph.transGen_overrides_iff.1 hz).1
      have hroot := h.mem_roots_iff key id
      exact hnames (hlt ((hroot x).1 hx).1) (hlt ((hroot y).1 hy).1) hxy

/-- Where no class above inherits from itself, the sources are the topmost declarations among a
class and those above it. -/
theorem mem_sources_iff_of_noCycleAbove (hopen : g.overridable key id = true)
    (hacyclic : g.NoCycleAbove id) :
    x ∈ h.sources id key ↔ g.Inherits id x ∧ g.Topmost key x := by
  rw [h.mem_sources_iff hopen]
  constructor
  · rintro (⟨hup, htop⟩ | ⟨rfl, hsource⟩)
    · obtain ⟨hopen', hinherits⟩ := ClassGraph.transGen_overrides_iff.1 hup
      exact ⟨hinherits.to_reflTransGen, (ClassGraph.topmost_iff hopen').2 htop⟩
    · refine ⟨.refl, (ClassGraph.topmost_iff hopen).2 fun y hy => ?_⟩
      -- what overrides something overrides something topmost, and a source does not
      obtain ⟨top, hup, htop⟩ := hacyclic.exists_top (.single hy)
      obtain ⟨z, hz⟩ := (h.isSource_iff.1 hsource).2 hopen top hup
      exact htop z hz
  · rintro ⟨hinherits, htop⟩
    have hnone := (ClassGraph.topmost_iff htop.1).1 htop
    rcases reflTransGen_iff_eq_or_transGen.1 hinherits with rfl | hup
    · obtain ⟨m, -, hslot, -⟩ := ClassGraph.overridable_iff.1 hopen
      refine .inr ⟨rfl, h.isSource_iff.2 ⟨Option.isSome_iff_exists.2 ⟨m, hslot⟩, fun _ y hy => ?_⟩⟩
      obtain ⟨z, hz, -⟩ := TransGen.head'_iff.1 hy
      exact absurd hz (hnone z)
    · exact .inl ⟨ClassGraph.transGen_overrides_iff.2 ⟨htop.1, hup⟩, hnone⟩

end Hierarchy

namespace GraphBuilder

open ClassGraph

/-- A method has sources in every graph of class files: they are listed by name, each is its own
source and belongs to the family, and where no class above inherits from itself they are the topmost
declarations among the class and those above it. So every family has a class with a class file where
it starts. -/
theorem sources_build {files : List ClassFile} {c : ClassId} {k : MemberKey}
    (hc : (build files).declares c k = true) :
    (build files).hierarchy.sources c k ≠ [] ∧
    (∀ d ∈ (build files).hierarchy.sources c k, d ∈ (build files).hierarchy.family c k ∧
      (build files).hierarchy.isSource d k = true) ∧
    ((build files).hierarchy.sources c k).Pairwise
      ((build files).nameAt · < (build files).nameAt ·) ∧
    ((build files).overridable k c = true → (build files).NoCycleAbove c →
      ∀ d, d ∈ (build files).hierarchy.sources c k ↔
        (build files).Inherits c d ∧ (build files).Topmost k d) ∧
    ∃ d ∈ (build files).hierarchy.family c k, (build files).hierarchy.isSource d k = true ∧
      (build files).slot? d k = (build files).slot? c k ∧
      ((build files).classAt d).loaded = true := by
  have hfinished := finished_build files
  have hall : ∀ d ∈ (build files).hierarchy.sources c k, d ∈ (build files).hierarchy.family c k ∧
      (build files).hierarchy.isSource d k = true := fun d hd =>
    ⟨Hierarchy.mem_family_of_mem_sources _ hfinished hc hd,
      Hierarchy.isSource_of_mem_sources _ hc hd⟩
  obtain ⟨root, hroot⟩ := (build files).hierarchy.exists_mem_sources hc
  refine ⟨List.ne_nil_of_mem hroot, hall, Hierarchy.pairwise_sources _ hfinished.names c k,
    fun hopen hacyclic d => Hierarchy.mem_sources_iff_of_noCycleAbove _ hopen hacyclic, root,
    (hall root hroot).1, (hall root hroot).2, ?_⟩
  obtain ⟨m, hslot⟩ := Option.isSome_iff_exists.1 hc
  have hheld := (hfinished.mem_family_iff_slot hslot).1 (hall root hroot).1
  exact ⟨hheld.trans hslot.symm, loaded_of_slot? hheld⟩

/-- An interface and a class at the top declare a method; a class below both declares it private,
the next one not at all, and the last one overrides it. -/
def overlaidFiles : List ClassFile :=
  [{ name := "a", methods := [{ key := ⟨"f", "()V"⟩ }] },
    { name := "b", methods := [{ key := ⟨"f", "()V"⟩ }] },
    { name := "c", superName := some "b", interfaces := ["a"],
      methods := [{ key := ⟨"f", "()V"⟩, access := ⟨Access.privateBit⟩ }] },
    { name := "d", superName := some "c" },
    { name := "e", superName := some "d", methods := [{ key := ⟨"f", "()V"⟩ }] }]

/-- The method of the last class has both classes at the top as its sources. -/
theorem topmost_overlaidFiles :
    (build overlaidFiles).declares 4 ⟨"f", "()V"⟩ = true ∧
      (build overlaidFiles).overridable ⟨"f", "()V"⟩ 4 = true ∧
      (build overlaidFiles).NoCycleAbove 4 ∧
      (build overlaidFiles).hierarchy.sources 4 ⟨"f", "()V"⟩ = [0, 1] ∧
      (build overlaidFiles).Topmost ⟨"f", "()V"⟩ 0 ∧ (build overlaidFiles).Topmost ⟨"f", "()V"⟩ 1 ∧
      ¬ (build overlaidFiles).Topmost ⟨"f", "()V"⟩ 4 := by
  have hdeclares : (build overlaidFiles).declares 4 ⟨"f", "()V"⟩ = true := by decide +kernel
  have hopen : (build overlaidFiles).overridable ⟨"f", "()V"⟩ 4 = true := by decide +kernel
  have hsources : (build overlaidFiles).hierarchy.sources 4 ⟨"f", "()V"⟩ = [0, 1] := by
    decide +kernel
  have hsize : (build overlaidFiles).size = 5 := by decide +kernel
  -- supertypes have smaller numbers
  have hdown : ∀ x < 5, ∀ y ∈ (build overlaidFiles).supertypes x, y < x := by decide +kernel
  have hlt : ∀ {x y}, TransGen (fun a b => b ∈ (build overlaidFiles).supertypes a) x y →
      x < 5 → y < x := by
    intro x y hup
    induction hup with
    | single hstep => exact fun hx => hdown x hx _ hstep
    | tail _ hstep ih =>
      intro hx
      have hmiddle := ih hx
      exact (hdown _ (hmiddle.trans hx) _ hstep).trans hmiddle
  have hacyclic : (build overlaidFiles).NoCycleAbove 4 := by
    intro x hx hcycle
    obtain ⟨y, -, hlast⟩ := TransGen.tail'_iff.1 hcycle
    exact Nat.lt_irrefl x (hlt hcycle (hsize ▸ lt_size_of_mem_supertypes hlast))
  obtain ⟨-, -, -, hmem, -⟩ := sources_build hdeclares
  have hiff := hmem hopen hacyclic
  rw [hsources] at hiff
  refine ⟨hdeclares, hopen, hacyclic, hsources, ((hiff 0).1 (by simp)).2, ((hiff 1).1 (by simp)).2,
    fun htop => ?_⟩
  have hself := (hiff 4).2 ⟨.refl, htop⟩
  simp at hself

end GraphBuilder

end StableNaming
