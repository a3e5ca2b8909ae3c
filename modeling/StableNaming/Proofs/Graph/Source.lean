import StableNaming.Proofs.Graph.Joining

/-!
# Where families start

A method overrides the nearest declarations above it. Its sources are the topmost
declarations that it overrides, directly or indirectly. A class is the source of its
own method exactly if there are none: at the top of a hierarchy there is nothing to
override, and in a cycle there is no top.
-/

namespace StableNaming

open Relation

namespace ClassGraph

section Overriding

variable (g : ClassGraph)

/-- Whether a class is passed through on the way up to one of its supertypes. -/
def PassedThrough (key : MemberKey) (x y : ClassId) : Prop :=
  g.overridable key x = false ∧ y ∈ g.supertypes x

/-- Whether a class declares one of the nearest overridable methods above another one. -/
def Overrides (key : MemberKey) (x y : ClassId) : Prop :=
  g.overridable key y = true ∧
    ∃ s ∈ g.supertypes x, ReflTransGen (g.PassedThrough key) s y

end Overriding

variable {g : ClassGraph}

/-- On the way up to an overridable declaration one comes to a nearest one, and from there to the
others by overriding. -/
theorem exists_nearest {key : MemberKey} {x y : ClassId} (hopen : g.overridable key y = true)
    (hup : g.Inherits x y) :
    ∃ z, g.overridable key z = true ∧ ReflTransGen (g.PassedThrough key) x z ∧
      ReflTransGen (g.Overrides key) z y := by
  induction hup using ReflTransGen.head_induction_on with
  | refl => exact ⟨y, hopen, .refl, .refl⟩
  | @head x s hs _ ih =>
    obtain ⟨z, hz, hpassed, hoverrides⟩ := ih
    cases hx : g.overridable key x with
    | true => exact ⟨x, hx, .refl, .head ⟨hz, s, hs, hpassed⟩ hoverrides⟩
    | false => exact ⟨z, hz, .head ⟨hx, hs⟩ hpassed, hoverrides⟩

/-- A class overrides, directly or indirectly, all overridable declarations strictly above it. -/
theorem transGen_overrides_iff {key : MemberKey} {x y : ClassId} :
    TransGen (g.Overrides key) x y ↔
      g.overridable key y = true ∧ TransGen (fun a b => b ∈ g.supertypes a) x y := by
  constructor
  · intro hup
    induction hup with
    | single hstep =>
      obtain ⟨hopen, s, hs, hpassed⟩ := hstep
      exact ⟨hopen, .head' hs (ReflTransGen.mono (fun _ _ hstep => hstep.2) _ _ hpassed)⟩
    | tail _ hstep ih =>
      obtain ⟨hopen, s, hs, hpassed⟩ := hstep
      have hchain := ReflTransGen.mono (fun _ _ hstep => hstep.2) _ _ hpassed
      exact ⟨hopen, ih.2.trans (.head' hs hchain)⟩
  · rintro ⟨hopen, hup⟩
    obtain ⟨s, hs, hrest⟩ := TransGen.head'_iff.1 hup
    obtain ⟨z, hz, hpassed, hoverrides⟩ := exists_nearest hopen hrest
    exact .head' ⟨hz, s, hs, hpassed⟩ hoverrides

end ClassGraph

namespace Hierarchy

variable {g : ClassGraph} (h : Hierarchy g)

theorem mem_declaringAncestors_iff {key : MemberKey} {x y : ClassId} :
    y ∈ h.declaringAncestors key x ↔ g.Overrides key x y := by
  have hup : ∀ {a b : ClassId},
      b ∈ (if g.overridable key a then [] else h.supertypes a) ↔ g.PassedThrough key a b := by
    intro a b
    rw [ClassGraph.PassedThrough, supertypes_eq]
    cases g.overridable key a <;> simp
  have hstep : (fun a b => b ∈ (if g.overridable key a then [] else h.supertypes a)) =
      g.PassedThrough key := by
    funext a b
    exact propext hup
  rw [declaringAncestors, List.mem_filter, Search.mem_reach_iff,
    Search.reachable_iff fun hz => ClassGraph.lt_size_of_mem_supertypes (hup.1 hz).2, hstep,
    ClassGraph.Overrides, and_comm, supertypes_eq]
  refine and_congr_right fun _ => ⟨?_, ?_⟩
  · rintro ⟨s, hs, -, hreach⟩
    exact ⟨s, hs, hreach⟩
  · rintro ⟨s, hs, hreach⟩
    exact ⟨s, hs, ClassGraph.lt_size_of_mem_supertypes hs, hreach⟩

theorem isEmpty_declaringAncestors_iff {key : MemberKey} {x : ClassId} :
    (h.declaringAncestors key x).isEmpty = true ↔ ∀ y, ¬ g.Overrides key x y := by
  rw [List.isEmpty_iff, List.eq_nil_iff_forall_not_mem]
  simp only [h.mem_declaringAncestors_iff]

/-- What a class overrides directly or indirectly. -/
theorem mem_reach_declaringAncestors_iff {key : MemberKey} {id x : ClassId} :
    x ∈ Search.reach (h.declaringAncestors key) g.size (h.declaringAncestors key id) ↔
      TransGen (g.Overrides key) id x := by
  have hlt : ∀ {y z}, z ∈ h.declaringAncestors key y → z < g.size := fun hz =>
    ClassGraph.lt_size_of_overridable (h.mem_declaringAncestors_iff.1 hz).1
  have hstep : (fun y z => z ∈ h.declaringAncestors key y) = g.Overrides key := by
    funext y z
    exact propext h.mem_declaringAncestors_iff
  rw [Search.mem_reach_iff, Search.reachable_iff hlt, hstep, TransGen.head'_iff]
  simp only [h.mem_declaringAncestors_iff]
  refine exists_congr fun y => and_congr_right fun hy => ?_
  exact and_iff_right (ClassGraph.lt_size_of_overridable hy.1)

/-- A topmost declaration among what a class overrides overrides nothing. -/
theorem mem_roots_iff (key : MemberKey) (id x : ClassId) :
    x ∈ (Search.reach (h.declaringAncestors key) g.size (h.declaringAncestors key id)).filter
        (fun x => (h.declaringAncestors key x).isEmpty) ↔
      TransGen (g.Overrides key) id x ∧ ∀ y, ¬ g.Overrides key x y := by
  rw [List.mem_filter, h.mem_reach_declaringAncestors_iff, h.isEmpty_declaringAncestors_iff]

/-- A class is the source of its method exactly if every declaration that it overrides, directly
or indirectly, overrides one more. -/
theorem isSource_iff {id : ClassId} {key : MemberKey} :
    h.isSource id key = true ↔ g.declares id key = true ∧
      (g.overridable key id = true →
        ∀ x, TransGen (g.Overrides key) id x → ∃ y, g.Overrides key x y) := by
  rw [isSource, Bool.and_eq_true, beq_iff_eq]
  refine and_congr_right fun hdeclares => ?_
  rw [sources, hdeclares]
  cases hopen : g.overridable key id with
  | false => simp
  | true =>
    rw [if_neg (by simp)]
    dsimp only
    have hroot := h.mem_roots_iff key id
    generalize (Search.reach (h.declaringAncestors key) g.size
      (h.declaringAncestors key id)).filter (fun x => (h.declaringAncestors key x).isEmpty) = roots
      at hroot
    cases roots with
    | nil =>
      refine ⟨fun _ _ x hx => ?_, fun _ => rfl⟩
      by_contra hnone
      exact List.not_mem_nil ((hroot x).2 ⟨hx, not_exists.1 hnone⟩)
    | cons root roots =>
      obtain ⟨hup, htop⟩ := (hroot root).1 List.mem_cons_self
      constructor
      · -- a class that overrides something is not topmost
        intro hsorted
        have hsorted : g.sortByName (root :: roots) = [id] := by simpa using hsorted
        have hmem : id ∈ g.sortByName (root :: roots) := hsorted ▸ List.mem_cons_self
        obtain ⟨hcycle, hnone⟩ := (hroot id).1 (Collection.mem_sortOn.1 hmem)
        obtain ⟨y, hy, -⟩ := TransGen.head'_iff.1 hcycle
        exact absurd hy (hnone y)
      · intro hall
        obtain ⟨y, hy⟩ := hall rfl root hup
        exact absurd hy (htop y)

/-- Where families start does not depend on where the hierarchy comes from. -/
theorem isSource_congr (h h' : Hierarchy g) : h.isSource = h'.isSource := by
  funext id key
  rw [Bool.eq_iff_iff, h.isSource_iff, h'.isSource_iff]

section Sources

variable {id x : ClassId} {key : MemberKey}

/-- A method that takes no part in dispatch is its own source. -/
theorem sources_of_not_overridable (hdeclares : g.declares id key = true)
    (hclosed : g.overridable key id = false) : h.sources id key = [id] := by
  rw [sources, hdeclares, hclosed]
  rfl

/-- The sources of an overridable method are the topmost declarations that it overrides, and the
class itself if there is none. -/
theorem mem_sources_iff (hopen : g.overridable key id = true) :
    x ∈ h.sources id key ↔
      TransGen (g.Overrides key) id x ∧ (∀ y, ¬ g.Overrides key x y) ∨
        x = id ∧ h.isSource id key = true := by
  obtain ⟨m, -, hslot, -⟩ := ClassGraph.overridable_iff.1 hopen
  have hdeclares : g.declares id key = true := Option.isSome_iff_exists.2 ⟨m, hslot⟩
  rw [h.isSource_iff, and_iff_right hdeclares, sources, hdeclares, hopen, if_neg (by simp)]
  dsimp only
  have hroot := h.mem_roots_iff key id
  generalize (Search.reach (h.declaringAncestors key) g.size
    (h.declaringAncestors key id)).filter (fun x => (h.declaringAncestors key x).isEmpty) = roots
    at hroot
  cases roots with
  | nil =>
    have hnone : ∀ y, ¬ (TransGen (g.Overrides key) id y ∧ ∀ z, ¬ g.Overrides key y z) :=
      fun y hy => List.not_mem_nil ((hroot y).2 hy)
    rw [or_iff_right (hnone x)]
    refine List.mem_singleton.trans (and_iff_left fun _ y hy => ?_).symm
    by_contra hlast
    exact hnone y ⟨hy, not_exists.1 hlast⟩
  | cons root roots =>
    obtain ⟨hup, htop⟩ := (hroot root).1 List.mem_cons_self
    rw [or_iff_left, ← hroot]
    · exact Collection.mem_sortOn
    · rintro ⟨-, hall⟩
      obtain ⟨y, hy⟩ := hall rfl root hup
      exact htop y hy

/-- Every source is its own source. -/
theorem isSource_of_mem_sources (hdeclares : g.declares id key = true)
    (hx : x ∈ h.sources id key) : h.isSource x key = true := by
  cases hopen : g.overridable key id with
  | false =>
    have hself := h.sources_of_not_overridable hdeclares hopen
    rw [hself, List.mem_singleton] at hx
    rw [hx, isSource, hdeclares, hself, Bool.true_and, beq_self_eq_true]
  | true =>
    rcases (h.mem_sources_iff hopen).1 hx with ⟨hup, htop⟩ | ⟨rfl, hsource⟩
    · obtain ⟨m, -, hslot, -⟩ :=
        ClassGraph.overridable_iff.1 (ClassGraph.transGen_overrides_iff.1 hup).1
      refine h.isSource_iff.2 ⟨Option.isSome_iff_exists.2 ⟨m, hslot⟩, fun _ y hy => ?_⟩
      obtain ⟨z, hz, -⟩ := TransGen.head'_iff.1 hy
      exact absurd hz (htop z)
    · exact hsource

/-- There is a source, whatever the hierarchy is. -/
theorem exists_mem_sources (hdeclares : g.declares id key = true) :
    ∃ x, x ∈ h.sources id key := by
  cases hopen : g.overridable key id with
  | false =>
    rw [h.sources_of_not_overridable hdeclares hopen]
    exact ⟨id, List.mem_cons_self⟩
  | true =>
    by_cases hsource : h.isSource id key = true
    · exact ⟨id, (h.mem_sources_iff hopen).2 (.inr ⟨rfl, hsource⟩)⟩
    · rw [h.isSource_iff] at hsource
      push Not at hsource
      obtain ⟨-, x, hup, htop⟩ := hsource hdeclares
      exact ⟨x, (h.mem_sources_iff hopen).2 (.inl ⟨hup, htop⟩)⟩

/-- The sources of a method belong to its family. -/
theorem mem_family_of_mem_sources (hgraph : g.Finished) (hdeclares : g.declares id key = true)
    (hx : x ∈ h.sources id key) : x ∈ h.family id key := by
  obtain ⟨m, hslot⟩ := Option.isSome_iff_exists.1 hdeclares
  have hself := (hgraph.mem_family_iff_holds h hslot).2 hslot
  cases hopen : g.overridable key id with
  | false =>
    rw [h.sources_of_not_overridable hdeclares hopen, List.mem_singleton] at hx
    exact hx ▸ hself
  | true =>
    rcases (h.mem_sources_iff hopen).1 hx with ⟨hup, -⟩ | ⟨rfl, -⟩
    · obtain ⟨hopen', hinherits⟩ := ClassGraph.transGen_overrides_iff.1 hup
      have hlinked : g.Linked key id x := ⟨hopen, hopen', id, .refl, hinherits.to_reflTransGen⟩
      rw [family_congr h g.hierarchy]
      exact (hgraph.mem_family_iff_kindred hopen).2 (.single hlinked)
    · exact hself

end Sources

/-- Every family starts somewhere. -/
theorem exists_isSource (hgraph : g.Finished) {id : ClassId} {key : MemberKey} {m : MethodId}
    (hslot : g.slot? id key = some m) :
    ∃ x, g.slot? x key = some m ∧ h.isSource x key = true := by
  have hdeclares : g.declares id key = true := Option.isSome_iff_exists.2 ⟨m, hslot⟩
  obtain ⟨x, hx⟩ := h.exists_mem_sources hdeclares
  exact ⟨x,
    (hgraph.mem_family_iff_holds h hslot).1 (h.mem_family_of_mem_sources hgraph hdeclares hx),
    h.isSource_of_mem_sources hdeclares hx⟩

end Hierarchy

end StableNaming
