import StableNaming.Proofs.Graph.Closure
import StableNaming.Proofs.Graph.Loading

/-!
# Families as classes of an equivalence

In every graph of class files the family of an overridable method is the component of
its class among the classes that are linked by common subtypes: the classes to which
chains of links lead, each once and in the order of names. So it does not matter which
class of a family is asked for it.
-/

namespace StableNaming

namespace ClassGraph.Finished

variable {g : ClassGraph} (hgraph : g.Finished)
include hgraph

/-- Being of one family is symmetric, whatever the classes declare. -/
theorem mem_family_comm {c d : ClassId} {k : MemberKey} :
    d ∈ g.hierarchy.family c k ↔ c ∈ g.hierarchy.family d k := by
  have hone : ∀ {x y}, y ∈ g.hierarchy.family x k → x ∈ g.hierarchy.family y k := by
    intro x y hy
    obtain ⟨m, hslot⟩ := slot?_of_mem_family hy
    have hheld := (hgraph.mem_family_iff_slot hslot).1 hy
    exact (hgraph.mem_family_iff_slot hheld).2 hslot
  exact ⟨hone, hone⟩

/-- Families have classes of the graph only. -/
theorem lt_size_of_mem_family {c d : ClassId} {k : MemberKey} (hd : d ∈ g.hierarchy.family c k) :
    d < g.size := by
  obtain ⟨m, hslot⟩ := slot?_of_mem_family hd
  exact lt_size_of_slot? ((hgraph.mem_family_iff_slot hslot).1 hd)

/-- A family without a second class is that of its own class. -/
theorem family_eq_singleton {c : ClassId} {k : MemberKey} {m : MethodId}
    (hslot : g.slot? c k = some m) (halone : ¬ 2 ≤ (g.hierarchy.family c k).length) :
    g.hierarchy.family c k = [c] := by
  have hself : c ∈ g.hierarchy.family c k := (hgraph.mem_family_iff_slot hslot).2 hslot
  obtain ⟨first, hfirst⟩ := List.length_eq_one_iff.1
    (Nat.le_antisymm (Nat.le_of_lt_succ (Nat.lt_of_not_le halone)) (List.length_pos_of_mem hself))
  rw [hfirst, List.mem_singleton] at hself
  rw [hfirst, hself]

end ClassGraph.Finished

namespace GraphBuilder

open ClassGraph

/-- Names ascend along a family, and no class comes twice. -/
theorem pairwise_family_build (files : List ClassFile) (c : ClassId) (k : MemberKey) :
    ((build files).hierarchy.family c k).Pairwise
      ((build files).nameAt · < (build files).nameAt ·) := by
  have hunjoined := unjoined_unjoined files
  rw [build_eq_join, hunjoined.family_join_eq_closure]
  exact Hierarchy.pairwise_closure _ hunjoined.edgesAgree_join hunjoined.distinctNames_join c k

/-- A family is one list for all its classes, whatever they declare. -/
theorem family_build_of_mem {files : List ClassFile} {c d : ClassId} {k : MemberKey}
    (hd : d ∈ (build files).hierarchy.family c k) :
    (build files).hierarchy.family d k = (build files).hierarchy.family c k := by
  have hfinished := finished_build files
  have hc : c ∈ (build files).hierarchy.family d k := hfinished.mem_family_comm.1 hd
  have hmem : ∀ x, x ∈ (build files).hierarchy.family d k ↔
      x ∈ (build files).hierarchy.family c k := by
    intro x
    obtain ⟨m, hslot⟩ := slot?_of_mem_family hc
    have hheld := (hfinished.mem_family_iff_slot hslot).1 hc
    rw [hfinished.mem_family_iff_slot hslot, hfinished.mem_family_iff_slot hheld]
  exact Collection.eq_of_pairwise_of_mem_iff (fun _ _ => String.lt_asymm)
    (pairwise_family_build files d k) (pairwise_family_build files c k) hmem

/-- The family of a method that its class declares neither private nor static is, ordered by name
and without repetition, the component of the class among the classes linked under the key. It is
one list for all its classes, and whether a class takes part is what its own class file says. -/
theorem family_build_eq_component {files : List ClassFile} {c : ClassId} {k : MemberKey}
    (hc : (build files).overridable k c = true) :
    ((build files).hierarchy.family c k).Pairwise
      ((build files).nameAt · < (build files).nameAt ·) ∧
    (∀ d, d ∈ (build files).hierarchy.family c k ↔ (build files).Kindred k c d) ∧
    (∀ d, d ∈ (build files).hierarchy.family c k ↔ c ∈ (build files).hierarchy.family d k) ∧
    (∀ d ∈ (build files).hierarchy.family c k,
      (build files).hierarchy.family d k = (build files).hierarchy.family c k) ∧
    ∀ d < (build files).size, (build files).overridable k d =
      ((ClassFile.named? files ((build files).nameAt d)).bind (·.method? k)).any fun m =>
        !m.access.isPrivateOrStatic := by
  have hfinished := finished_build files
  have hmem := fun d => hfinished.mem_family_iff_kindred (x := d) hc
  exact ⟨pairwise_family_build files c k, hmem, fun d => hfinished.mem_family_comm,
    fun d hd => family_build_of_mem hd, fun d hd => overridable_build hd k⟩

/-- A circle of four classes: two declare the method, one declares it private, and the fourth
does not declare it but implements an interface that does. -/
def circle : List ClassFile :=
  [{ name := "a", superName := some "e", methods := [{ key := ⟨"f", "()V"⟩ }] },
    { name := "c", superName := some "a", interfaces := ["i"] },
    { name := "d", superName := some "c",
      methods := [{ key := ⟨"f", "()V"⟩, access := ⟨Access.privateBit⟩ }] },
    { name := "e", superName := some "d", methods := [{ key := ⟨"f", "()V"⟩ }] },
    { name := "i", methods := [{ key := ⟨"f", "()V"⟩ }] }]

/-- The interface and both ends of the circle are of one family, and the private method stays
out. -/
theorem kindred_circle :
    (build circle).overridable ⟨"f", "()V"⟩ 0 = true ∧
      (build circle).Kindred ⟨"f", "()V"⟩ 0 3 ∧ (build circle).Kindred ⟨"f", "()V"⟩ 0 4 ∧
      ¬ (build circle).Kindred ⟨"f", "()V"⟩ 0 2 := by
  have hopen : (build circle).overridable ⟨"f", "()V"⟩ 0 = true := by decide +kernel
  obtain ⟨-, hkindred, -⟩ := family_build_eq_component hopen
  have hfamily : (build circle).hierarchy.family 0 ⟨"f", "()V"⟩ = [0, 3, 4] := by decide +kernel
  refine ⟨hopen, (hkindred 3).1 ?_, (hkindred 4).1 ?_, fun hprivate => ?_⟩
  · exact hfamily ▸ by simp
  · exact hfamily ▸ by simp
  · have hmem := (hkindred 2).2 hprivate
    rw [hfamily] at hmem
    simp at hmem

end GraphBuilder

end StableNaming
