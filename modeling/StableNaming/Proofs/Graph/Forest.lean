import Mathlib.Data.Finset.Card
import Mathlib.Data.Finset.Range
import Mathlib.Logic.Relation
import Mathlib.Order.WellFounded
import StableNaming.Naming.Walk
import StableNaming.Proofs.Collection.Lookup
import StableNaming.Proofs.Graph.Lookup

/-!
# The forest of containers

Containers form a forest: the lists of inner classes and the links to the outer
class say the same, and following outer classes ends. From this it follows that
the fuel of walks up and down the forest suffices, and that the naming walk
meets every class exactly once, each one after the class that contains it.
-/

namespace StableNaming.ClassGraph

open Relation

variable {g : ClassGraph}

/-- Whether the second class contains the first one directly. -/
def ContainedIn (g : ClassGraph) (id outer : ClassId) : Prop := (g.classAt id).outer = some outer

/-- Whether the second class may come after the first one in a walk: it is another class, and
it does not contain the first one. -/
def MayFollow (g : ClassGraph) (a b : ClassId) : Prop := a ≠ b ∧ ¬ g.ContainedIn a b

/-- Whether the naming walk meets the first class before the second one: it contains it at some
depth, or both are, or are inside, two siblings of which the first one comes first by name. -/
inductive ComesBefore (g : ClassGraph) (x y : ClassId) : Prop where
  /-- Containers come before the classes that they contain. -/
  | around (h : TransGen g.ContainedIn y x)
  /-- Siblings, with what they contain, come in the order of their names. -/
  | beside {a b : ClassId} (siblings : (g.classAt a).outer = (g.classAt b).outer)
    (lt : g.nameAt a < g.nameAt b) (left : ReflTransGen g.ContainedIn x a)
    (right : ReflTransGen g.ContainedIn y b)

/-- The links between classes and their containers are those of a forest. -/
structure Forest (g : ClassGraph) : Prop where
  /-- Containers are classes of the graph. -/
  outer_lt : ∀ {id outer : ClassId}, g.ContainedIn id outer → outer < g.size
  /-- A class is listed exactly by the class that contains it. -/
  mem_inner_iff : ∀ {id outer : ClassId}, id ∈ (g.classAt outer).inner ↔ g.ContainedIn id outer
  /-- No class is listed twice. -/
  nodup_inner : ∀ outer : ClassId, (g.classAt outer).inner.Nodup
  /-- Following containers ends. -/
  ends : ∀ id : ClassId, Acc (fun outer inner => g.ContainedIn inner outer) id

/-- Only classes of the graph have containers. -/
theorem ContainedIn.lt_size {id outer : ClassId} (h : g.ContainedIn id outer) : id < g.size := by
  refine lt_size_of_classAt_ne fun hdefault => ?_
  rw [ContainedIn, hdefault] at h
  exact absurd h (by simp [default])

theorem rightUnique_containedIn : Relator.RightUnique g.ContainedIn := by
  intro id a b ha hb
  exact Option.some.inj (ha.symm.trans hb)

/-- The containers of a class of the graph, at any depth, are classes of the graph. -/
theorem Forest.lt_size_of_reflTransGen (h : g.Forest) {id x : ClassId}
    (hx : ReflTransGen g.ContainedIn id x) (hid : id < g.size) : x < g.size := by
  rcases hx.cases_tail with rfl | ⟨y, -, hy⟩
  · exact hid
  · exact h.outer_lt hy

/-! ## Classes without a container -/

/-- Under distinct names the top level holds all classes without a container. -/
theorem mem_topLevel_iff (h : g.DistinctNames) {id : ClassId} :
    id ∈ g.topLevel ↔ id < g.size ∧ (g.classAt id).outer = none := by
  have hlast : id < g.size → (g.classAt id).outer = none →
      lastIndex? (fun c => c.outer.isNone && c.name = g.nameAt id) g.classes.toList = some id := by
    intro hid houter
    cases hfound : lastIndex? (fun c => c.outer.isNone && c.name = g.nameAt id)
        g.classes.toList with
    | none =>
      have hnot := lastIndex?_eq_none_iff.1 hfound _ (mem_classes_iff.2 ⟨id, hid, rfl⟩)
      simp [houter, nameAt] at hnot
    | some j =>
      obtain ⟨c, hc, hp⟩ := getElem?_of_lastIndex? hfound
      rw [Array.getElem?_toList] at hc
      have hj : j < g.size := (Array.getElem?_eq_some_iff.1 hc).1
      rw [getElem?_classes hj] at hc
      have hname : g.nameAt j = g.nameAt id := by
        rw [← Option.some.inj hc] at hp
        exact of_decide_eq_true (Bool.and_eq_true_iff.1 hp).2
      rw [h hj hid hname]
  simp only [topLevel, sortByName, Collection.mem_sortOn, List.mem_filter, ids, List.mem_range,
    Bool.and_eq_true, Option.isNone_iff_eq_none, beq_iff_eq]
  constructor
  · rintro ⟨hid, houter, -⟩
    exact ⟨hid, houter⟩
  · rintro ⟨hid, houter⟩
    exact ⟨hid, houter, hlast hid houter⟩

/-- Classes without a container come in the order of their names. -/
theorem pairwise_topLevel (h : g.DistinctNames) :
    g.topLevel.Pairwise (g.nameAt · < g.nameAt ·) := by
  refine Collection.pairwise_lt_sortOn (List.nodup_range.filter _) fun x hx y hy hxy => ?_
  have hlt : ∀ {p : ClassId → Bool} {id}, id ∈ g.ids.filter p → id < g.size := fun hid =>
    List.mem_range.1 (List.mem_filter.1 hid).1
  exact h (hlt hx) (hlt hy) hxy

namespace Forest

/-- No class contains itself, at any depth. -/
theorem not_transGen_self (h : g.Forest) (id : ClassId) : ¬ TransGen g.ContainedIn id id := by
  intro hcycle
  have hswap : TransGen (fun outer inner => g.ContainedIn inner outer) id id :=
    transGen_swap.1 hcycle
  exact (WellFounded.transGen ⟨h.ends⟩).irrefl.irrefl id hswap

/-- Two classes with one container that both contain a class, or are it, are equal. -/
theorem eq_of_common_inner (h : g.Forest) {a b x : ClassId}
    (houter : (g.classAt a).outer = (g.classAt b).outer)
    (ha : ReflTransGen g.ContainedIn x a) (hb : ReflTransGen g.ContainedIn x b) : a = b := by
  have heq : ∀ {a b : ClassId}, (g.classAt a).outer = (g.classAt b).outer →
      ReflTransGen g.ContainedIn a b → a = b := by
    intro a b houter hab
    rcases hab.cases_head with rfl | ⟨c, hac, hcb⟩
    · rfl
    · have hbc : g.ContainedIn b c := houter.symm.trans hac
      exact absurd (TransGen.head' hbc hcb) (h.not_transGen_self b)
  rcases ReflTransGen.total_of_right_unique rightUnique_containedIn ha hb with hab | hba
  · exact heq houter hab
  · exact (heq houter.symm hba).symm

/-! ## Going up -/

theorem containersFrom_eq_cons {fuel : Nat} {id outer : ClassId} (h : g.ContainedIn id outer) :
    g.containersFrom (fuel + 1) id = outer :: g.containersFrom fuel outer := by
  rw [ContainedIn] at h
  rw [containersFrom, h]

theorem containersFrom_eq_nil {fuel : Nat} {id : ClassId} (h : (g.classAt id).outer = none) :
    g.containersFrom fuel id = [] := by
  cases fuel with
  | zero => rfl
  | succ fuel => rw [containersFrom, h]

/-- What is met on the way up contains the class. -/
theorem transGen_of_mem_containersFrom {fuel : Nat} {id x : ClassId}
    (h : x ∈ g.containersFrom fuel id) : TransGen g.ContainedIn id x := by
  induction fuel generalizing id with
  | zero => simp [containersFrom] at h
  | succ fuel ih =>
    cases houter : (g.classAt id).outer with
    | none => rw [containersFrom_eq_nil houter] at h; simp at h
    | some outer =>
      rw [containersFrom_eq_cons houter] at h
      rcases List.mem_cons.1 h with rfl | h
      · exact .single houter
      · exact .head houter (ih h)

/-- The way up from a class meets no class twice, and never the class itself. -/
theorem nodup_cons_containersFrom (h : g.Forest) (fuel : Nat) (id : ClassId) :
    (id :: g.containersFrom fuel id).Nodup := by
  induction fuel generalizing id with
  | zero => simp [containersFrom]
  | succ fuel ih =>
    refine List.nodup_cons.2 ⟨fun hmem => ?_, ?_⟩
    · exact h.not_transGen_self id (transGen_of_mem_containersFrom hmem)
    · cases houter : (g.classAt id).outer with
      | none => rw [containersFrom_eq_nil houter]; exact List.nodup_nil
      | some outer => rw [containersFrom_eq_cons houter]; exact ih outer

/-- The way up ends before the fuel does. -/
theorem length_containersFrom_lt (h : g.Forest) (fuel : Nat) {id : ClassId} (hid : id < g.size) :
    (g.containersFrom fuel id).length < g.size := by
  have hnodup := h.nodup_cons_containersFrom fuel id
  have hsub : (id :: g.containersFrom fuel id).toFinset ⊆ Finset.range g.size := by
    intro x hx
    rw [List.mem_toFinset] at hx
    rw [Finset.mem_range]
    rcases List.mem_cons.1 hx with rfl | hx
    · exact hid
    · obtain ⟨y, -, hyx⟩ := TransGen.tail'_iff.1 (transGen_of_mem_containersFrom hx)
      exact h.outer_lt hyx
  have hcard := Finset.card_le_card hsub
  rw [List.toFinset_card_of_nodup hnodup, Finset.card_range, List.length_cons] at hcard
  exact hcard

/-- The way up either uses all fuel or meets every container. -/
theorem mem_containersFrom_of_transGen {fuel : Nat} {id x : ClassId}
    (h : TransGen g.ContainedIn id x) (hfuel : (g.containersFrom fuel id).length < fuel) :
    x ∈ g.containersFrom fuel id := by
  induction fuel generalizing id with
  | zero => simp at hfuel
  | succ fuel ih =>
    obtain ⟨outer, houter, hrest⟩ := TransGen.head'_iff.1 h
    rw [containersFrom_eq_cons houter] at hfuel ⊢
    rcases hrest.cases_head with rfl | ⟨y, hy, hyx⟩
    · exact List.mem_cons_self
    · refine List.mem_cons_of_mem _ (ih (.head' hy hyx) ?_)
      simpa using hfuel

/-- Fuel that is not used up makes no difference. -/
theorem containersFrom_succ_of_length_le {fuel : Nat} {id : ClassId}
    (h : (g.containersFrom (fuel + 1) id).length ≤ fuel) :
    g.containersFrom (fuel + 1) id = g.containersFrom fuel id := by
  induction fuel generalizing id with
  | zero =>
    rw [containersFrom, List.eq_nil_of_length_eq_zero (Nat.le_zero.1 h)]
  | succ fuel ih =>
    cases houter : (g.classAt id).outer with
    | none => rw [containersFrom_eq_nil houter, containersFrom_eq_nil houter]
    | some outer =>
      rw [containersFrom_eq_cons houter] at h ⊢
      rw [containersFrom_eq_cons houter, ih (by simpa using h)]

/-- The containers of a class are exactly the classes that contain it, at any depth. -/
theorem mem_containers_iff (h : g.Forest) {id x : ClassId} :
    x ∈ g.containers id ↔ TransGen g.ContainedIn id x := by
  refine ⟨transGen_of_mem_containersFrom, fun hx => ?_⟩
  obtain ⟨outer, houter, -⟩ := TransGen.head'_iff.1 hx
  exact mem_containersFrom_of_transGen hx (h.length_containersFrom_lt _ houter.lt_size)

/-- A class is nested in another exactly if following containers leads there. -/
theorem isNestedIn_iff (h : g.Forest) {id x : ClassId} :
    g.isNestedIn id x = true ↔ ReflTransGen g.ContainedIn id x := by
  rw [isNestedIn, Bool.or_eq_true, beq_iff_eq, List.contains_iff_mem, h.mem_containers_iff,
    reflTransGen_iff_eq_or_transGen]
  exact or_congr eq_comm Iff.rfl

/-! ## Going down -/

theorem mem_innerClasses_iff (h : g.Forest) {id outer : ClassId} :
    id ∈ g.innerClasses outer ↔ g.ContainedIn id outer :=
  Collection.mem_sortOn.trans h.mem_inner_iff

/-- What is met on the way down from a class is contained in it. -/
theorem reflTransGen_of_mem_subtreeFrom (h : g.Forest) {fuel : Nat} {root x : ClassId}
    (hx : x ∈ g.subtreeFrom fuel root) : ReflTransGen g.ContainedIn x root := by
  induction fuel generalizing root with
  | zero => simp [subtreeFrom] at hx
  | succ fuel ih =>
    rw [subtreeFrom, List.mem_cons, List.mem_flatMap] at hx
    rcases hx with rfl | ⟨inner, hinner, hx⟩
    · exact .refl
    · exact (ih hx).tail (h.mem_innerClasses_iff.1 hinner)

/-- The way up to a class ends with one of its inner classes. -/
theorem exists_inner_of_mem_containersFrom {fuel : Nat} {root x : ClassId}
    (hx : root ∈ g.containersFrom (fuel + 1) x) :
    ∃ inner, (x = inner ∨ inner ∈ g.containersFrom fuel x) ∧ g.ContainedIn inner root := by
  induction fuel generalizing x with
  | zero =>
    cases houter : (g.classAt x).outer with
    | none => rw [containersFrom_eq_nil houter] at hx; simp at hx
    | some outer =>
      rw [containersFrom_eq_cons houter] at hx
      rcases List.mem_cons.1 hx with rfl | hx
      · exact ⟨x, .inl rfl, houter⟩
      · simp [containersFrom] at hx
  | succ fuel ih =>
    cases houter : (g.classAt x).outer with
    | none => rw [containersFrom_eq_nil houter] at hx; simp at hx
    | some outer =>
      rw [containersFrom_eq_cons houter] at hx ⊢
      rcases List.mem_cons.1 hx with rfl | hx
      · exact ⟨x, .inl rfl, houter⟩
      · obtain ⟨inner, hinner, hup⟩ := ih hx
        refine ⟨inner, .inr ?_, hup⟩
        rcases hinner with rfl | hinner
        · exact List.mem_cons_self
        · exact List.mem_cons_of_mem _ hinner

/-- The way down meets every class that the way up from it leads back from. -/
theorem mem_subtreeFrom (h : g.Forest) {fuel : Nat} {root x : ClassId}
    (hx : x = root ∨ root ∈ g.containersFrom fuel x) : x ∈ g.subtreeFrom (fuel + 1) root := by
  induction fuel generalizing root with
  | zero =>
    rcases hx with rfl | hx
    · exact List.mem_cons_self
    · simp [containersFrom] at hx
  | succ fuel ih =>
    rcases hx with rfl | hx
    · exact List.mem_cons_self
    · obtain ⟨inner, hinner, hup⟩ := exists_inner_of_mem_containersFrom hx
      rw [subtreeFrom, List.mem_cons, List.mem_flatMap]
      exact .inr ⟨inner, h.mem_innerClasses_iff.2 hup, ih hinner⟩

/-- Inner classes come in the order of their names. -/
theorem pairwise_innerClasses (h : g.Forest) (hnames : g.DistinctNames) (outer : ClassId) :
    (g.innerClasses outer).Pairwise (g.nameAt · < g.nameAt ·) := by
  have hlt : ∀ {id}, id ∈ (g.classAt outer).inner → id < g.size := fun hid =>
    ContainedIn.lt_size (h.mem_inner_iff.1 hid)
  exact Collection.pairwise_lt_sortOn (h.nodup_inner outer) fun x hx y hy hxy =>
    hnames (hlt hx) (hlt hy) hxy

theorem pairwise_subtreeFrom (h : g.Forest) (hnames : g.DistinctNames) (fuel : Nat)
    (root : ClassId) : (g.subtreeFrom fuel root).Pairwise g.ComesBefore := by
  induction fuel generalizing root with
  | zero => exact List.Pairwise.nil
  | succ fuel ih =>
    rw [subtreeFrom, List.pairwise_cons, List.pairwise_flatMap]
    refine ⟨fun x hx => ?_, fun inner _ => ih inner, ?_⟩
    · obtain ⟨inner, hinner, hx⟩ := List.mem_flatMap.1 hx
      exact .around (.tail' (h.reflTransGen_of_mem_subtreeFrom hx)
        (h.mem_innerClasses_iff.1 hinner))
    · refine (h.pairwise_innerClasses hnames root).imp_of_mem fun {a b} ha hb hab x hx y hy => ?_
      have houter : (g.classAt a).outer = (g.classAt b).outer :=
        (h.mem_innerClasses_iff.1 ha).trans (h.mem_innerClasses_iff.1 hb).symm
      exact .beside houter hab (h.reflTransGen_of_mem_subtreeFrom hx)
        (h.reflTransGen_of_mem_subtreeFrom hy)

/-- Siblings around two classes of which one contains the other, or is it, are one class. -/
theorem not_lt_of_reflTransGen (h : g.Forest) {a b x y : ClassId}
    (houter : (g.classAt a).outer = (g.classAt b).outer) (hx : ReflTransGen g.ContainedIn x a)
    (hy : ReflTransGen g.ContainedIn y b) (hxy : ReflTransGen g.ContainedIn x y) :
    ¬ g.nameAt a < g.nameAt b := by
  obtain rfl := h.eq_of_common_inner houter hx (hxy.trans hy)
  exact String.lt_irrefl _

/-- Two pairs of siblings around two classes are in one order. -/
theorem not_lt_of_siblings (h : g.Forest) {a b c d x y : ClassId}
    (hab : (g.classAt a).outer = (g.classAt b).outer)
    (hcd : (g.classAt c).outer = (g.classAt d).outer)
    (hxa : ReflTransGen g.ContainedIn x a) (hyb : ReflTransGen g.ContainedIn y b)
    (hyc : ReflTransGen g.ContainedIn y c) (hxd : ReflTransGen g.ContainedIn x d)
    (hlt : g.nameAt a < g.nameAt b) : ¬ g.nameAt c < g.nameAt d := by
  intro hlt'
  rcases ReflTransGen.total_of_right_unique rightUnique_containedIn hxa hxd with had | hda
  · rcases had.cases_head with rfl | ⟨outer, houter, hup⟩
    · -- one sibling is the same, so the other one is, too
      obtain rfl := h.eq_of_common_inner (hab.symm.trans hcd.symm) hyb hyc
      exact String.lt_irrefl _ (String.lt_trans hlt hlt')
    · -- the container of the first pair lies inside the second pair
      have hyd : ReflTransGen g.ContainedIn y d := hyb.trans (.head (hab.symm.trans houter) hup)
      exact h.not_lt_of_reflTransGen hcd hyc hyd .refl hlt'
  · rcases hda.cases_head with rfl | ⟨outer, houter, hup⟩
    · obtain rfl := h.eq_of_common_inner (hab.symm.trans hcd.symm) hyb hyc
      exact String.lt_irrefl _ (String.lt_trans hlt hlt')
    · have hya : ReflTransGen g.ContainedIn y a := hyc.trans (.head (hcd.trans houter) hup)
      exact h.not_lt_of_reflTransGen hab hya hyb .refl hlt

/-- Of two classes at most one comes before the other one. -/
theorem not_comesBefore (h : g.Forest) {x y : ClassId} (hxy : g.ComesBefore x y) :
    ¬ g.ComesBefore y x := by
  intro hyx
  cases hxy with
  | around hinside =>
    cases hyx with
    | around hinside' => exact h.not_transGen_self x (hinside'.trans hinside)
    | beside houter hlt hya hxb =>
      exact h.not_lt_of_reflTransGen houter hya hxb hinside.to_reflTransGen hlt
  | beside houter hlt hxa hyb =>
    cases hyx with
    | around hinside =>
      exact h.not_lt_of_reflTransGen houter hxa hyb hinside.to_reflTransGen hlt
    | beside houter' hlt' hyc hxd =>
      exact h.not_lt_of_siblings houter houter' hxa hyb hyc hxd hlt hlt'

/-- What comes before a class is another class, and is not contained in it. -/
theorem mayFollow_of_comesBefore (h : g.Forest) {x y : ClassId} (hxy : g.ComesBefore x y) :
    g.MayFollow x y := by
  refine ⟨?_, fun hinside => h.not_comesBefore hxy (.around (.single hinside))⟩
  rintro rfl
  exact h.not_comesBefore hxy hxy

/-! ## The naming walk -/

/-- Above every class there is one without a container. -/
theorem exists_root (h : g.Forest) (id : ClassId) :
    ∃ root, (g.classAt root).outer = none ∧ ReflTransGen g.ContainedIn id root := by
  induction h.ends id with
  | intro id _ ih =>
    cases houter : (g.classAt id).outer with
    | none => exact ⟨id, houter, .refl⟩
    | some outer =>
      obtain ⟨root, hroot, hup⟩ := ih outer houter
      exact ⟨root, hroot, .head houter hup⟩

/-- The walk meets exactly the classes of the graph. -/
theorem mem_walk_iff (h : g.Forest) (hnames : g.DistinctNames) {id : ClassId} :
    id ∈ g.walk ↔ id < g.size := by
  rw [walk, List.mem_flatMap]
  constructor
  · rintro ⟨root, hroot, hid⟩
    rcases (h.reflTransGen_of_mem_subtreeFrom hid).cases_head with rfl | ⟨outer, houter, -⟩
    · exact ((mem_topLevel_iff hnames).1 hroot).1
    · exact ContainedIn.lt_size houter
  · intro hid
    obtain ⟨root, hroot, hup⟩ := h.exists_root id
    have hlt : root < g.size := by
      rcases hup.cases_tail with rfl | ⟨x, -, hx⟩
      · exact hid
      · exact h.outer_lt hx
    refine ⟨root, (mem_topLevel_iff hnames).2 ⟨hlt, hroot⟩, ?_⟩
    obtain ⟨fuel, hfuel⟩ := Nat.exists_eq_succ_of_ne_zero (Nat.ne_zero_of_lt hid)
    rw [hfuel]
    refine h.mem_subtreeFrom ?_
    rcases reflTransGen_iff_eq_or_transGen.1 hup with heq | hup
    · exact .inl heq.symm
    · right
      have hlength := h.length_containersFrom_lt (fuel + 1) hid
      rw [hfuel] at hlength
      rw [← containersFrom_succ_of_length_le (Nat.le_of_lt_succ hlength), ← Nat.succ_eq_add_one,
        ← hfuel]
      exact h.mem_containers_iff.2 hup

/-- The walk meets the classes in order. -/
theorem pairwise_comesBefore_walk (h : g.Forest) (hnames : g.DistinctNames) :
    g.walk.Pairwise g.ComesBefore := by
  rw [walk, List.pairwise_flatMap]
  refine ⟨fun root _ => h.pairwise_subtreeFrom hnames _ root, ?_⟩
  refine (pairwise_topLevel hnames).imp_of_mem fun {a b} ha hb hab x hx y hy => ?_
  have houter : (g.classAt a).outer = (g.classAt b).outer :=
    ((mem_topLevel_iff hnames).1 ha).2.trans ((mem_topLevel_iff hnames).1 hb).2.symm
  exact .beside houter hab (h.reflTransGen_of_mem_subtreeFrom hx)
    (h.reflTransGen_of_mem_subtreeFrom hy)

/-- The walk meets no class twice, and none after one that it contains. -/
theorem pairwise_walk (h : g.Forest) (hnames : g.DistinctNames) :
    g.walk.Pairwise g.MayFollow :=
  (h.pairwise_comesBefore_walk hnames).imp h.mayFollow_of_comesBefore

/-- The walk meets no class twice. -/
theorem nodup_walk (h : g.Forest) (hnames : g.DistinctNames) : g.walk.Nodup :=
  (h.pairwise_walk hnames).imp fun hab => hab.1

/-- When the walk comes to a class, it has met the container of the class. -/
theorem outer_mem_of_walk_eq (h : g.Forest) (hnames : g.DistinctNames) {id outer : ClassId}
    {before after : List ClassId} (hwalk : g.walk = before ++ id :: after)
    (houter : g.ContainedIn id outer) : outer ∈ before := by
  have hpairs := h.pairwise_walk hnames
  have hmem : outer ∈ g.walk := (h.mem_walk_iff hnames).2 (h.outer_lt houter)
  rw [hwalk] at hpairs hmem
  rcases List.mem_append.1 hmem with hbefore | hrest
  · exact hbefore
  · have hid := (List.pairwise_cons.1 (List.pairwise_append.1 hpairs).2.1).1
    rcases List.mem_cons.1 hrest with rfl | hafter
    · exact absurd (.single houter) (h.not_transGen_self _)
    · exact absurd houter (hid outer hafter).2

end Forest

end StableNaming.ClassGraph
