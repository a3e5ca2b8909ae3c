import StableNaming.Proofs.Graph.JoinPass
import StableNaming.Proofs.Symbol.GeneratedName

/-!
# The top level

A class whose name announces a container is created inside it, and a class leaves its
container only for another one. So the name of a class without a container announces none:
the part before its last dollar sign or the part after it is empty.
-/

namespace StableNaming

/-- The last dollar sign of a name is the one in front of its segment. -/
theorem cutLast?_nested (container : String) {segment : String}
    (hsegment : nestingMark ∉ segment.toList) :
    Text.cutLast? [nestingMark] (container ++ "$" ++ segment).toList =
      some (container.toList, segment.toList) := by
  have hname : (container ++ "$" ++ segment).toList =
      container.toList ++ ([nestingMark] ++ segment.toList) := by
    simp [nestingMark]
  rw [hname]
  exact Text.cutLast?_append List.not_mem_nil hsegment container.toList

/-- So the container and the segment of a name are told from each other. -/
theorem nested_inj {container container' segment segment' : String}
    (hsegment : nestingMark ∉ segment.toList) (hsegment' : nestingMark ∉ segment'.toList) :
    container ++ "$" ++ segment = container' ++ "$" ++ segment' ↔
      container = container' ∧ segment = segment' := by
  constructor
  · intro h
    have hcut := cutLast?_nested container hsegment
    rw [h, cutLast?_nested container' hsegment', Option.some_inj, Prod.mk.injEq] at hcut
    exact ⟨String.toList_inj.1 hcut.1.symm, String.toList_inj.1 hcut.2.symm⟩
  · rintro ⟨rfl, rfl⟩
    rfl

/-- A name with a container and a segment that are not empty announces the container. -/
theorem containerName?_nested {container segment : String} (hcontainer : container ≠ "")
    (hsegment : segment ≠ "") (hsimple : nestingMark ∉ segment.toList) :
    containerName? (container ++ "$" ++ segment) = some container := by
  have hhead : container.toList ≠ [] := fun h => hcontainer (String.toList_inj.1 h)
  have htail : segment.toList ≠ [] := fun h => hsegment (String.toList_inj.1 h)
  rw [containerName?, cutLast?_nested container hsimple]
  dsimp only
  rw [if_neg (not_or.2 ⟨hhead, htail⟩), String.ofList_toList]

/-- A name that announces a container is that container and a segment that is not empty. -/
theorem eq_append_of_containerName? {name container : String}
    (h : containerName? name = some container) :
    name = container ++ "$" ++ simpleSegment name ∧ simpleSegment name ≠ "" := by
  rw [simpleSegment, Text.afterLast]
  rw [containerName?] at h
  split at h
  · rename_i head tail hcut
    split at h
    · cases h
    · rename_i hne
      rw [not_or] at hne
      rw [hcut, ← Option.some.inj h]
      have happend := Text.append_of_cutLast? hcut
      refine ⟨String.toList_inj.1 ?_, fun hempty => hne.2 ?_⟩
      · rw [← happend]
        simp [nestingMark]
      · exact String.ofList_eq_empty_iff.1 hempty
  · cases h

namespace ClassGraph

variable {g g' : ClassGraph}

/-- Whether no class whose name announces a container is without one. -/
def HeedsNames (g : ClassGraph) : Prop :=
  ∀ id < g.size, (g.classAt id).outer = none → containerName? (g.nameAt id) = none

/-- Classes that keep their names and are not taken out of containers still heed their names. -/
theorem HeedsNames.congr (h : g.HeedsNames) (hsize : g'.size = g.size)
    (hname : ∀ id, g'.nameAt id = g.nameAt id)
    (houter : ∀ id, (g'.classAt id).outer = none → (g.classAt id).outer = none) :
    g'.HeedsNames := by
  intro id hid hnone
  rw [hname]
  exact h id (hsize ▸ hid) (houter id hnone)

theorem HeedsNames.addSymbol (h : g.HeedsNames) {name : String} {outer : Option ClassId}
    (ho : ∀ o ∈ outer, o < g.size) (hname : outer = none → containerName? name = none) :
    (g.addSymbol name outer).2.HeedsNames := by
  intro id hid hnone
  rw [size_addSymbol] at hid
  rw [nameAt_addSymbol g name ho]
  rw [outer_addSymbol g name ho] at hnone
  split
  · rename_i hnew
    rw [if_pos hnew] at hnone
    exact hname hnone
  · rename_i hold
    rw [if_neg hold] at hnone
    exact h id (Nat.lt_of_le_of_ne (Nat.le_of_lt_succ hid) hold) hnone

/-- A class is created inside the container that its name announces. -/
theorem HeedsNames.ensureClass (h : g.HeedsNames) (hnames : g.DistinctNames)
    (hforest : g.Forest) (name : String) : (g.ensureClass name).2.HeedsNames := by
  induction hlength : name.toList.length using Nat.strong_induction_on generalizing name with
  | _ length ih =>
    subst hlength
    rw [ClassGraph.ensureClass]
    split
    · exact h
    · split
      · rename_i hcontainer
        exact h.addSymbol (by simp) fun _ => hcontainer
      · rename_i container hcontainer
        have hgrown := ih _ (length_containerName_lt hcontainer) container rfl
        have hensured := ensured_ensureClass hnames hforest container
        refine hgrown.addSymbol (fun o ho => ?_) fun hnone => ?_
        · rw [← Option.some.inj ho]
          exact hensured.lt_size
        · cases hnone

theorem HeedsNames.addClass (h : g.HeedsNames) (hgrowing : g.Growing) (file : ClassFile) :
    (g.addClass file).2.HeedsNames := by
  have hensured := h.ensureClass hgrowing.names hgrowing.forest file.name
  unfold ClassGraph.addClass
  generalize g.ensureClass file.name = result at hensured
  obtain ⟨id, grown⟩ := result
  dsimp only at hensured ⊢
  split
  · exact hensured
  · refine hensured.congr (size_modifyClass _ _ _) (fun x => ?_) fun x hnone => ?_
    · rw [nameAt, classAt_load]
      split <;> rfl
    · rw [classAt_load] at hnone
      split at hnone <;> exact hnone

/-- A class that is moved has a container, and the others keep theirs. -/
theorem outer_nest {id x : ClassId} (h : ((g.nest id).classAt x).outer = none) :
    (g.classAt x).outer = none := by
  have hmodify : ∀ {g : ClassGraph} {o : ClassId} {f : ClassSymbol → ClassSymbol},
      ((g.modifyClass o f).classAt x).outer = none →
      (∀ c, (f c).outer = none → c.outer = none) → (g.classAt x).outer = none := by
    intro g o f hnone hf
    rw [classAt_modifyClass] at hnone
    split at hnone
    · exact hf _ hnone
    · exact hnone
  unfold nest at h
  split at h
  · exact h
  · split at h
    · exact h
    · rw [moveUnder] at h
      split at h
      · exact h
      · have hmoved := hmodify h fun _ hnone => hnone
        have hreleased := hmodify hmoved fun _ hnone => absurd hnone (Option.some_ne_none _)
        split at hreleased
        · exact hmodify hreleased fun _ hnone => hnone
        · exact hreleased

theorem HeedsNames.nestAll (h : g.HeedsNames) : g.nestAll.HeedsNames := by
  have hsame := SameButNested.nestAll g
  refine h.congr hsame.size_eq hsame.nameAt_eq fun x hnone => ?_
  have hfold : ∀ (ids : List ClassId) (g₁ : ClassGraph),
      ((ids.foldl nest g₁).classAt x).outer = none → (g₁.classAt x).outer = none := by
    intro ids
    induction ids with
    | nil => exact fun _ hnone => hnone
    | cons id ids ih => exact fun g₁ hnone => outer_nest (ih _ hnone)
  exact hfold g.ids g hnone

end ClassGraph

namespace GraphBuilder

open ClassGraph

/-- Adding class files keeps what holds of the top level. -/
theorem heedsNames_foldl_addClass (files : List ClassFile) (b : GraphBuilder)
    (hgrowing : b.draft.Growing) (h : b.draft.HeedsNames) :
    (files.foldl (fun (b : GraphBuilder) file => (b.addClass file).2) b).draft.HeedsNames := by
  induction files generalizing b with
  | nil => exact h
  | cons file files ih => exact ih _ (hgrowing.addClass file) (h.addClass hgrowing file)

/-- In the graph of class files only classes are without a container whose names announce none. -/
theorem heedsNames_build (files : List ClassFile) : (build files).HeedsNames := by
  have hempty : (({} : GraphBuilder).draft).HeedsNames := fun id hid =>
    absurd hid (Nat.not_lt_zero id)
  have hdraft := heedsNames_foldl_addClass files {} .empty hempty
  have hrelated := hdraft.congr (size_relate _) (nameAt_relate _) fun id hnone => by
    rw [classAt_relate] at hnone
    exact hnone
  have hunjoined : (unjoined files).HeedsNames := hrelated.nestAll
  refine hunjoined.congr (size_build files) (nameAt_build files) fun id hnone => ?_
  rw [build_eq_join, classAt_join] at hnone
  exact hnone

end GraphBuilder

end StableNaming
