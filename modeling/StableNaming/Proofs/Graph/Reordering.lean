import StableNaming.Proofs.Graph.Correspondence
import StableNaming.Proofs.Graph.Edges
import StableNaming.Proofs.Graph.Families
import StableNaming.Proofs.Graph.Index
import StableNaming.Proofs.Graph.Placement

/-!
# Class files in another order

Classes and methods are numbered as they are discovered, and what is listed as it is discovered has
the order of discovery. So class files in another order give another graph. If the containers that
are stated form no cycle, it is the same one up to numbers and that order: its classes have the same
names and say the same, they are in the same containers and families, and the naming walk meets them
in one order.
-/

namespace StableNaming

open Relation

/-- Whether the first name announces the second one as a container at any depth, or is it. -/
def Announces : String → String → Prop :=
  ReflTransGen fun name container => containerName? name = some container

/-- Whether two classes say the same, up to the numbers in them and the order in which the classes
below them were discovered. -/
structure ClassSymbol.Resembles (c c' : ClassSymbol) : Prop where
  /-- Their class files say the same. -/
  outline_eq : c'.outline = c.outline
  /-- They hold methods under the same keys. -/
  keys_eq : c'.methods.keys = c.methods.keys
  /-- They have the same subclasses. -/
  subclasses_perm : c'.subclasses.Perm c.subclasses
  /-- They have the same implementers. -/
  implementers_perm : c'.implementers.Perm c.implementers
  /-- Both are in a container, or neither is. -/
  isSome_outer_eq : c'.outer.isSome = c.outer.isSome
  /-- They contain the same number of classes. -/
  length_inner_eq : c'.inner.length = c.inner.length

namespace ClassFile

variable {files files' : List ClassFile} (hnames : (files.map (·.name)).Nodup)
include hnames

/-- Of class files with distinct names each one counts. -/
theorem named?_eq_some_iff {name : String} {file : ClassFile} :
    named? files name = some file ↔ file ∈ files ∧ file.name = name := by
  constructor
  · intro h
    exact ⟨List.mem_of_find?_eq_some h, name_of_named? h⟩
  · rintro ⟨hfile, rfl⟩
    cases hfound : named? files file.name with
    | none => exact absurd (decide_eq_true rfl) (List.find?_eq_none.1 hfound file hfile)
    | some found =>
      rw [List.inj_on_of_nodup_map hnames (List.mem_of_find?_eq_some hfound) hfile
        (name_of_named? hfound)]

/-- Which class file counts does not depend on the order. -/
theorem named?_of_perm (hperm : files'.Perm files) (name : String) :
    named? files' name = named? files name := by
  have hnames' : (files'.map (·.name)).Nodup := (hperm.map _).nodup_iff.2 hnames
  refine Option.ext fun file => ?_
  rw [named?_eq_some_iff hnames, named?_eq_some_iff hnames', hperm.mem_iff]

end ClassFile

namespace ClassGraph

variable {g g' : ClassGraph}

/-! ## Names -/

/-- Whether all classes have names of one kind. -/
def NamesIn (g : ClassGraph) (kind : String → Prop) : Prop := ∀ id < g.size, kind (g.nameAt id)

section NamesIn

variable {kind : String → Prop}

theorem NamesIn.addSymbol (h : g.NamesIn kind) {name : String} (hname : kind name)
    {outer : Option ClassId} (ho : ∀ o ∈ outer, o < g.size) :
    (g.addSymbol name outer).2.NamesIn kind := by
  intro id hid
  rw [size_addSymbol] at hid
  rw [nameAt_addSymbol g name ho]
  split
  · exact hname
  · rename_i hold
    exact h id (Nat.lt_of_le_of_ne (Nat.le_of_lt_succ hid) hold)

variable (hclosed : ∀ {name container}, kind name → containerName? name = some container →
  kind container)
include hclosed

/-- Only classes that a name announces are created for it. -/
theorem NamesIn.ensureClass (h : g.NamesIn kind) (hnames : g.DistinctNames) (hforest : g.Forest)
    {name : String} (hname : kind name) : (g.ensureClass name).2.NamesIn kind := by
  induction hlength : name.toList.length using Nat.strong_induction_on generalizing name with
  | _ length ih =>
    subst hlength
    rw [ensureClass_eq]
    cases hfound : g.idOf? name with
    | some id => exact h
    | none =>
      dsimp only
      cases hcontainer : containerName? name with
      | none => exact h.addSymbol hname (by simp)
      | some container =>
        have hgrown := ih _ (length_containerName_lt hcontainer) (hclosed hname hcontainer) rfl
        have hensured := ensured_ensureClass hnames hforest container
        refine hgrown.addSymbol hname fun o ho => ?_
        rw [← Option.some.inj ho]
        exact hensured.lt_size

theorem NamesIn.addClass (h : g.NamesIn kind) (hgrowing : g.Growing) {file : ClassFile}
    (hname : kind file.name) : (g.addClass file).2.NamesIn kind := by
  have hgrown := h.ensureClass hclosed hgrowing.names hgrowing.forest hname
  unfold ClassGraph.addClass
  generalize g.ensureClass file.name = result at hgrown
  obtain ⟨id, grown⟩ := result
  dsimp only at hgrown ⊢
  split
  · exact hgrown
  · intro x hx
    have hsize := size_modifyClass grown id fun c => c.load file grown.methods.size
    have hsame := hgrown x (hsize ▸ hx)
    rw [nameAt, classAt_load]
    split <;> exact hsame

end NamesIn

end ClassGraph

namespace GraphBuilder

open ClassGraph

/-- Adding class files creates only classes that their names announce. -/
theorem namesIn_foldl_addClass {kind : String → Prop}
    (hclosed : ∀ {name container}, kind name → containerName? name = some container →
      kind container)
    {files : List ClassFile} (hfiles : ∀ file ∈ files, kind file.name) (b : GraphBuilder)
    (hgrowing : b.draft.Growing) (h : b.draft.NamesIn kind) :
    (files.foldl (fun (b : GraphBuilder) file => (b.addClass file).2) b).draft.NamesIn kind := by
  induction files generalizing b with
  | nil => exact h
  | cons file files ih =>
    obtain ⟨hfile, hfiles⟩ := List.forall_mem_cons.1 hfiles
    exact ih hfiles _ (hgrowing.addClass file) (h.addClass hclosed hgrowing hfile)

/-- The classes of a graph are those that the names of its class files announce. -/
theorem exists_nameAt_build_iff {files : List ClassFile} {name : String} :
    (∃ id < (build files).size, (build files).nameAt id = name) ↔
      ∃ file ∈ files, Announces file.name name := by
  obtain ⟨draft, hdraft⟩ : ∃ draft : ClassGraph, draft =
    (files.foldl (fun (b : GraphBuilder) file => (b.addClass file).2) {}).draft := ⟨_, rfl⟩
  have hsame := SameButNested.nestAll draft.relate
  have hsize : (build files).size = draft.size := by
    rw [size_build, unjoined, ← hdraft, hsame.size_eq, size_relate]
  have hname : ∀ id, (build files).nameAt id = draft.nameAt id := by
    intro id
    rw [nameAt_build, unjoined, ← hdraft, hsame.nameAt_eq, nameAt_relate]
  constructor
  · have hnamed : draft.NamesIn fun name => ∃ file ∈ files, Announces file.name name := by
      rw [hdraft]
      refine namesIn_foldl_addClass ?_ (fun file hfile => ⟨file, hfile, .refl⟩) {} .empty
        fun id hid => absurd hid (Nat.not_lt_zero id)
      rintro name container ⟨file, hfile, hup⟩ hcontainer
      exact ⟨file, hfile, hup.tail hcontainer⟩
    rintro ⟨id, hid, rfl⟩
    rw [hname]
    exact hnamed id (hsize ▸ hid)
  · rintro ⟨file, hfile, hup⟩
    induction hup with
    | refl => exact exists_nameAt_build hfile
    | tail _ hcontainer ih =>
      obtain ⟨id, hid, rfl⟩ := ih
      have hgrowing := growing_foldl_addClass files {} .empty
      have hput := putByName_foldl_addClass files {} .empty .empty id
      rw [← hdraft] at hgrowing hput
      rw [outerName?, ← hname, hcontainer] at hput
      obtain ⟨outer, houter, rfl⟩ := Option.map_eq_some_iff.1 hput
      exact ⟨outer, hsize ▸ hgrowing.forest.outer_lt houter, hname outer⟩

end GraphBuilder

namespace ClassGraph

variable {g g' : ClassGraph}

/-! ## Embeddings onto a graph -/

namespace Embedding

/-- Whether the larger graph has no further classes. -/
def Onto (e : Embedding g g') : Prop := ∀ id' < g'.size, ∃ id < g.size, e.classOf id = id'

/-- Whether corresponding classes are in corresponding containers. -/
def KeepsContainers (e : Embedding g g') : Prop := ∀ {id : ClassId}, id < g.size →
  (g'.classAt (e.classOf id)).outer = (g.classAt id).outer.map e.classOf

/-- Whether methods are found under other numbers. -/
structure FindsMethods (e : Embedding g g') (methodOf : MethodId → MethodId) : Prop where
  /-- Classes hold corresponding methods. -/
  slot?_eq : ∀ {id : ClassId}, id < g.size → ∀ key,
    g'.slot? (e.classOf id) key = (g.slot? id key).map methodOf
  /-- No two methods correspond to one. -/
  inj : ∀ {c d : ClassId} {k l : MemberKey} {m n : MethodId},
    g.slot? c k = some m → g.slot? d l = some n → methodOf m = methodOf n → m = n

section Onto

variable (e : Embedding g g') (hg' : g'.DistinctNames) (honto : e.Onto)
include hg' honto

/-- Names lead to corresponding classes. -/
theorem idOf?_eq (name : String) : g'.idOf? name = (g.idOf? name).map e.classOf := by
  cases hfound : g.idOf? name with
  | some id =>
    obtain ⟨hid, rfl⟩ := of_idOf? hfound
    exact hg'.idOf?_eq_some_iff.2 ⟨e.lt_size hid, e.nameAt_eq hid⟩
  | none =>
    refine idOf?_eq_none_iff.2 fun id' hid' hname => ?_
    obtain ⟨id, hid, rfl⟩ := honto id' hid'
    rw [e.nameAt_eq hid] at hname
    exact idOf?_eq_none_iff.1 hfound id hid hname

/-- Corresponding containers are announced and claimed. -/
theorem stated_eq {id : ClassId} (hid : id < g.size) :
    g'.announced? (e.classOf id) = (g.announced? id).map e.classOf ∧
      g'.claimed? (e.classOf id) = (g.claimed? id).map e.classOf := by
  have hlookup : g'.idOf? = fun name => (g.idOf? name).map e.classOf :=
    funext (e.idOf?_eq hg' honto)
  have hclaimed := e.apply_eq claimedContainer? (fun _ => rfl) hid
  rw [announced?, announced?, claimed?, claimed?, e.nameAt_eq hid, hclaimed, hlookup,
    Option.map_bind, Option.map_bind]
  exact ⟨rfl, rfl⟩

/-- Cycles of stated containers correspond to cycles. -/
theorem acyclic (hacyclic : ∀ id', ¬ TransGen g'.StatedIn id' id') (id : ClassId) :
    ¬ TransGen g.StatedIn id id := by
  intro hcycle
  refine hacyclic (e.classOf id) (TransGen.lift e.classOf (fun a b hab => ?_) _ _ hcycle)
  have ha : a < g.size := hab.elim lt_size_of_announced? lt_size_of_claimed?
  obtain ⟨hannounced, hclaimed⟩ := e.stated_eq hg' honto ha
  refine hab.imp (fun h => ?_) fun h => ?_
  · rw [hannounced, h, Option.map_some]
  · rw [hclaimed, h, Option.map_some]

/-- Classes of which the same is said are listed under the same names. -/
theorem perm_firstNames (hg : g.DistinctNames) (below : ClassSymbol → Bool)
    (hbelow : ∀ c, below c.outline = below c) :
    (g'.firstNames g'.size fun y => below (g'.classAt y)).Perm
      (g.firstNames g.size fun y => below (g.classAt y)) := by
  have hnodup' := nodup_firstNames hg' (Nat.le_refl g'.size) fun y => below (g'.classAt y)
  have hnodup := nodup_firstNames hg (Nat.le_refl g.size) fun y => below (g.classAt y)
  refine (List.perm_ext_iff_of_nodup hnodup' hnodup).2 fun name => ?_
  simp only [firstNames, List.mem_map, List.mem_filter, List.mem_range]
  constructor
  · rintro ⟨y', ⟨hy', hlisted⟩, rfl⟩
    obtain ⟨y, hy, rfl⟩ := honto y' hy'
    rw [e.apply_eq below hbelow hy] at hlisted
    exact ⟨y, ⟨hy, hlisted⟩, (e.nameAt_eq hy).symm⟩
  · rintro ⟨y, ⟨hy, hlisted⟩, rfl⟩
    rw [← e.apply_eq below hbelow hy] at hlisted
    exact ⟨e.classOf y, ⟨e.lt_size hy, hlisted⟩, e.nameAt_eq hy⟩

/-- Where all classes are in their containers, these correspond. -/
theorem keepsContainers (hhonoured : g.Honoured) (hhonoured' : g'.Honoured) :
    e.KeepsContainers := by
  intro id hid
  obtain ⟨hannounced, hclaimed⟩ := e.stated_eq hg' honto hid
  rw [hhonoured' _ (e.lt_size hid), hhonoured id hid, container?, container?, hannounced, hclaimed]
  cases g.claimed? id with
  | none => rfl
  | some outer => rfl

/-- Graphs that have the same classes in the same containers correspond, with all keys as they
are. -/
def correspondence (hg : g.DistinctNames) (houter : e.KeepsContainers) :
    Correspondence g g' where
  classOf := e.classOf
  fieldKey _ key := key
  methodKey _ key := key
  lt_size := e.lt_size
  inj {x y} hx hy hsame := hg hx hy <| by rw [← e.nameAt_eq hx, hsame, e.nameAt_eq hy]
  surj {x'} hx' := honto x' hx'
  supertypes_iff {x y} hx hy := by
    rw [mem_supertypes_iff hg, mem_supertypes_iff hg', e.nameAt_eq hy,
      e.apply_eq ClassSymbol.supertypeNames (fun _ => rfl) hx]
    exact and_congr_left fun _ => iff_of_true hy (e.lt_size hy)
  outer_eq := houter
  isAnonymous_eq := e.apply_eq ClassSymbol.isAnonymous fun _ => rfl
  isLocal_eq := e.apply_eq ClassSymbol.isLocal fun _ => rfl
  field {x} hx f hf := by
    refine ⟨f, ?_, rfl⟩
    rw [e.apply_eq ClassSymbol.fields (fun _ => rfl) hx]
    exact hf
  method {x k} hk := by
    rw [e.declares_eq (lt_size_of_declares hk)]
    exact hk
  method_surj {x k'} hx hk' := by
    rw [e.declares_eq hx] at hk'
    exact ⟨k', hk', rfl⟩
  overridable_eq {x k} hk := e.overridable_eq (lt_size_of_declares hk) k
  isInitializer_eq _ := rfl
  key_iff _ _ _ _ := Iff.rfl

end Onto

variable {e : Embedding g g'} (honto : e.Onto) (hg : g.Finished) (hg' : g'.Finished)
include honto hg hg'

/-- In graphs with the same classes in the same containers methods correspond. -/
theorem exists_findsMethods (houter : e.KeepsContainers) :
    ∃ methodOf : MethodId → MethodId, e.FindsMethods methodOf := by
  obtain ⟨corr, hcorr⟩ : ∃ corr : Correspondence g g',
    corr = e.correspondence hg'.names honto hg.names houter := ⟨_, rfl⟩
  obtain ⟨methodOf, hmethodOf⟩ := corr.exists_methodOf hg hg'
  refine ⟨methodOf, fun {id} hid key => ?_, fun {c d k l m n} hm hn hsame => ?_⟩
  · have hdeclares := e.declares_eq hid key
    cases hslot : g.slot? id key with
    | none =>
      rw [declares, declares, hslot] at hdeclares
      exact Option.isNone_iff_eq_none.1 (Option.isSome_eq_false_iff.1 hdeclares)
    | some m =>
      have hslot' := hmethodOf hslot
      rw [hcorr] at hslot'
      exact hslot'
  · exact (corr.slot_eq_iff hg hg' hm hn (hmethodOf hm) (hmethodOf hn)).2 hsame

/-- Families whose classes have one order by name correspond if their methods do. -/
theorem family_eq {methodOf : MethodId → MethodId} (hmethods : e.FindsMethods methodOf)
    (hsorted : ∀ id key, (g.hierarchy.family id key).Pairwise (g.nameAt · < g.nameAt ·))
    (hsorted' : ∀ id key, (g'.hierarchy.family id key).Pairwise (g'.nameAt · < g'.nameAt ·))
    {id : ClassId} (hid : id < g.size) (key : MemberKey) :
    g'.hierarchy.family (e.classOf id) key = (g.hierarchy.family id key).map e.classOf := by
  cases hm : g.slot? id key with
  | none =>
    have hm' := hmethods.slot?_eq hid key
    rw [hm, Option.map_none] at hm'
    rw [Hierarchy.family, Hierarchy.family, methodIn?, methodIn?, hm, hm']
    rfl
  | some m =>
    have hm' := hmethods.slot?_eq hid key
    rw [hm, Option.map_some] at hm'
    have hmem := fun x => hg.mem_family_iff_slot (x := x) hm
    have hlt : ∀ {x}, x ∈ g.hierarchy.family id key → x < g.size := fun hx =>
      lt_size_of_slot? ((hmem _).1 hx)
    refine Collection.eq_of_pairwise_of_mem_iff (fun _ _ => String.lt_asymm) (hsorted' _ key) ?_
      fun x' => ?_
    · refine List.pairwise_map.2 ((hsorted id key).imp_of_mem fun {x y} hx hy hxy => ?_)
      rw [e.nameAt_eq (hlt hx), e.nameAt_eq (hlt hy)]
      exact hxy
    · rw [hg'.mem_family_iff_slot hm', List.mem_map]
      constructor
      · intro hx'
        obtain ⟨x, hx, rfl⟩ := honto _ (lt_size_of_slot? hx')
        rw [hmethods.slot?_eq hx] at hx'
        obtain ⟨n, hn, hsame⟩ := Option.map_eq_some_iff.1 hx'
        exact ⟨x, (hmem x).2 (hmethods.inj hn hm hsame ▸ hn), rfl⟩
      · rintro ⟨x, hx, rfl⟩
        rw [hmethods.slot?_eq (hlt hx), (hmem x).1 hx, Option.map_some]

end Embedding

/-! ## Graphs that differ in numbers -/

/-- The numbers of a graph in another one that has the same classes and methods under other
numbers. -/
structure Renumbering (g g' : ClassGraph) extends Embedding g g' where
  /-- The other graph has no further classes. -/
  onto : toEmbedding.Onto
  /-- Containers are kept. -/
  outer_eq : toEmbedding.KeepsContainers
  /-- The method in the other graph. -/
  methodOf : MethodId → MethodId
  /-- Methods are found there. -/
  findsMethods : toEmbedding.FindsMethods methodOf
  /-- The same is said of the method. -/
  methodAt?_eq : ∀ {id : ClassId} {key : MemberKey} {m : MethodId}, g.slot? id key = some m →
    g'.methodAt? (methodOf m) = g.methodAt? m
  /-- Families are kept, and their order. -/
  family_eq : ∀ {id : ClassId}, id < g.size → ∀ key,
    g'.hierarchy.family (classOf id) key = (g.hierarchy.family id key).map classOf

namespace Renumbering

variable (r : Renumbering g g')

/-- A class holds its methods under the same keys. -/
theorem methods_eq {id : ClassId} (hid : id < g.size) :
    (g'.classAt (r.classOf id)).methods = (g.classAt id).methods.mapValues fun _ => r.methodOf := by
  refine KeyMap.ext_find? fun key => ?_
  rw [KeyMap.find?_mapValues]
  exact r.findsMethods.slot?_eq hid key

/-- A class contains corresponding classes. -/
theorem perm_inner (hg : g.DistinctNames) (hforest : g.Forest) (hforest' : g'.Forest)
    {id : ClassId} (hid : id < g.size) :
    (g'.classAt (r.classOf id)).inner.Perm ((g.classAt id).inner.map r.classOf) := by
  have hinj : ∀ {x y}, x < g.size → y < g.size → r.classOf x = r.classOf y → x = y :=
    fun hx hy hsame => hg hx hy <| by rw [← r.nameAt_eq hx, hsame, r.nameAt_eq hy]
  have hlt : ∀ {x}, x ∈ (g.classAt id).inner → x < g.size := fun hx =>
    (hforest.mem_inner_iff.1 hx).lt_size
  have hnodup := (hforest.nodup_inner id).map_on fun x hx y hy => hinj (hlt hx) (hlt hy)
  refine (List.perm_ext_iff_of_nodup (hforest'.nodup_inner _) hnodup).2 fun x' => ?_
  rw [hforest'.mem_inner_iff, List.mem_map]
  constructor
  · intro hx'
    obtain ⟨x, hx, rfl⟩ := r.onto x' hx'.lt_size
    rw [ContainedIn, r.outer_eq hx] at hx'
    obtain ⟨outer, houter, hsame⟩ := Option.map_eq_some_iff.1 hx'
    obtain rfl := hinj (hforest.outer_lt houter) hid hsame
    exact ⟨x, hforest.mem_inner_iff.2 houter, rfl⟩
  · rintro ⟨x, hx, rfl⟩
    rw [ContainedIn, r.outer_eq (hlt hx), hforest.mem_inner_iff.1 hx, Option.map_some]

/-- Corresponding classes resemble each other. -/
theorem resembles (hg : g.Finished) (hg' : g'.Finished) (hbelow : g.ListsBelow)
    (hbelow' : g'.ListsBelow) {id : ClassId} (hid : id < g.size) :
    (g.classAt id).Resembles (g'.classAt (r.classOf id)) where
  outline_eq := r.outline_eq hid
  keys_eq := by
    rw [r.methods_eq hid]
    exact List.map_map
  subclasses_perm := by
    rw [hbelow'.subclasses_eq _ (r.lt_size hid), hbelow.subclasses_eq id hid, r.nameAt_eq hid]
    exact r.perm_firstNames hg'.names r.onto hg.names (·.superName == some (g.nameAt id))
      fun _ => rfl
  implementers_perm := by
    rw [hbelow'.implementers_eq _ (r.lt_size hid), hbelow.implementers_eq id hid, r.nameAt_eq hid]
    exact r.perm_firstNames hg'.names r.onto hg.names (·.interfaces.contains (g.nameAt id))
      fun _ => rfl
  isSome_outer_eq := by rw [r.outer_eq hid, Option.isSome_map]
  length_inner_eq := by
    rw [(r.perm_inner hg.names hg.forest hg'.forest hid).length_eq, List.length_map]

/-- A family starts at corresponding classes. -/
theorem isSource_eq (hg : g.DistinctNames) (hg' : g'.DistinctNames) {id : ClassId}
    {key : MemberKey} (hdeclares : g.declares id key = true) (h : Hierarchy g) (h' : Hierarchy g') :
    h'.isSource (r.classOf id) key = h.isSource id key :=
  (r.correspondence hg' r.onto hg r.outer_eq).isSource_eq hdeclares h h'

/-- Of corresponding classes the same one comes first. -/
theorem comesBefore (hforest : g.Forest) {x y : ClassId} (hx : x < g.size) (hy : y < g.size)
    (h : g.ComesBefore x y) : g'.ComesBefore (r.classOf x) (r.classOf y) := by
  have hinside : ∀ {a b}, g.ContainedIn a b → g'.ContainedIn (r.classOf a) (r.classOf b) := by
    intro a b hab
    rw [ContainedIn, r.outer_eq hab.lt_size, hab, Option.map_some]
  cases h with
  | around hup => exact .around (TransGen.lift r.classOf (fun _ _ => hinside) _ _ hup)
  | @beside a b houter hlt hxa hyb =>
    have ha := hforest.lt_size_of_reflTransGen hxa hx
    have hb := hforest.lt_size_of_reflTransGen hyb hy
    refine .beside (a := r.classOf a) (b := r.classOf b) ?_ ?_
      (ReflTransGen.lift r.classOf (fun _ _ => hinside) _ _ hxa)
      (ReflTransGen.lift r.classOf (fun _ _ => hinside) _ _ hyb)
    · rw [r.outer_eq ha, r.outer_eq hb, houter]
    · rw [r.nameAt_eq ha, r.nameAt_eq hb]
      exact hlt

/-- The naming walk meets corresponding classes in the same order. -/
theorem walk_eq (hg : g.DistinctNames) (hg' : g'.DistinctNames) (hforest : g.Forest)
    (hforest' : g'.Forest) : g'.walk = g.walk.map r.classOf := by
  have hmem : ∀ {id}, id ∈ g.walk ↔ id < g.size := hforest.mem_walk_iff hg
  refine Collection.eq_of_pairwise_of_mem_iff (fun _ _ => hforest'.not_comesBefore)
    (hforest'.pairwise_comesBefore_walk hg') ?_ fun id' => ?_
  · refine List.pairwise_map.2 ((hforest.pairwise_comesBefore_walk hg).imp_of_mem ?_)
    exact fun hx hy h => r.comesBefore hforest (hmem.1 hx) (hmem.1 hy) h
  · rw [hforest'.mem_walk_iff hg', List.mem_map]
    constructor
    · intro hid'
      obtain ⟨id, hid, rfl⟩ := r.onto id' hid'
      exact ⟨id, hmem.2 hid, rfl⟩
    · rintro ⟨id, hid, rfl⟩
      exact r.lt_size (hmem.1 hid)

end Renumbering

end ClassGraph

namespace GraphBuilder

open ClassGraph

/-- What lists say of classes below each other holds in the graph of class files. -/
theorem listsBelow_build (files : List ClassFile) : (build files).ListsBelow :=
  finish_calls_files files ▸ listsBelow_calls (files.map .file)

/-- The method that the classes of a family hold is the one that the class file of the first of them
declares, and it lists the family if that has several classes. -/
theorem methodAt?_build {files : List ClassFile} {id : ClassId} {key : MemberKey} {m : MethodId}
    (hslot : (build files).slot? id key = some m) :
    ∃ first rest member, (build files).hierarchy.family id key = first :: rest ∧
      (ClassFile.named? files ((build files).nameAt first)).bind (·.method? key) = some member ∧
      (build files).methodAt? m = some
        { toMember := member
          owner := (build files).nameAt first
          related :=
            if 2 ≤ ((build files).hierarchy.family id key).length then
              ((build files).hierarchy.family id key).map (build files).nameAt
            else [] } := by
  have hunjoined := unjoined_unjoined files
  have hname : (build files).nameAt = (unjoined files).nameAt := funext (nameAt_build files)
  rw [hname]
  rw [build_eq_join] at hslot ⊢
  obtain ⟨own, hown, -⟩ := Option.map_eq_some_iff.1 ((slot?_join _ id key).symm.trans hslot)
  obtain ⟨first, rest, m', hfamily, hm, hjoined⟩ := hunjoined.exists_leader hown
  obtain rfl : m' = m := Option.some.inj (hjoined.symm.trans hslot)
  obtain ⟨symbol, hsymbol, -, howner, -⟩ := hunjoined.own hm
  have hfirst : first < (build files).size := size_build files ▸ lt_size_of_slot? hm
  have hmember := (described_unjoined hfirst).methodIn?_eq key
  rw [methodIn?, hm, Option.bind_some, hsymbol, Option.map_some, nameAt_build] at hmember
  refine ⟨first, rest, symbol.toMember, ?_, hmember.symm, ?_⟩
  · rw [hunjoined.family_join hslot, hfamily]
  · rw [methodAt?_join, hsymbol, Option.map_some, hunjoined.joinedNames_eq hown hslot hsymbol,
      hunjoined.family_join hslot, ← howner]

section Reordering

variable {files files' : List ClassFile} (hnames : (files.map (·.name)).Nodup)
  (hperm : files'.Perm files)
include hnames hperm

/-- The graph of class files in another order has the same classes. -/
theorem exists_embedding_of_perm : ∃ e : Embedding (build files) (build files'), e.Onto := by
  have hfound : ∀ {name}, (∃ id < (build files').size, (build files').nameAt id = name) ↔
      ∃ id < (build files).size, (build files).nameAt id = name := by
    intro name
    rw [exists_nameAt_build_iff, exists_nameAt_build_iff]
    exact exists_congr fun file => and_congr_left fun _ => hperm.mem_iff
  obtain ⟨e⟩ : Nonempty (Embedding (build files) (build files')) := by
    refine Embedding.exists_of_named fun id hid => ?_
    obtain ⟨id', hid', hname⟩ := hfound.2 ⟨id, hid, rfl⟩
    exact ⟨id', hid', hname, ClassFile.named?_of_perm hnames hperm _⟩
  refine ⟨e, fun id' hid' => ?_⟩
  obtain ⟨id, hid, hname⟩ := hfound.1 ⟨id', hid', rfl⟩
  rw [← e.nameAt_eq hid] at hname
  exact ⟨id, hid, (finished_build files').names (e.lt_size hid) hid' hname⟩

/-- The same is said of corresponding methods. -/
theorem methodAt?_build_of_perm {classOf : ClassId → ClassId} {methodOf : MethodId → MethodId}
    {id : ClassId} {key : MemberKey} {m : MethodId} (hm : (build files).slot? id key = some m)
    (hm' : (build files').slot? (classOf id) key = some (methodOf m))
    (hname : ∀ x ∈ (build files).hierarchy.family id key,
      (build files').nameAt (classOf x) = (build files).nameAt x)
    (hfamily : (build files').hierarchy.family (classOf id) key =
      ((build files).hierarchy.family id key).map classOf) :
    (build files').methodAt? (methodOf m) = (build files).methodAt? m := by
  obtain ⟨first, rest, member, hfirst, hmember, hsymbol⟩ := methodAt?_build hm
  obtain ⟨first', rest', member', hfirst', hmember', hsymbol'⟩ := methodAt?_build hm'
  rw [hfamily, hfirst, List.map_cons, List.cons.injEq] at hfirst'
  obtain ⟨rfl, -⟩ := hfirst'
  have hleader := hname first (hfirst ▸ List.mem_cons_self)
  rw [hleader, ClassFile.named?_of_perm hnames hperm, hmember, Option.some_inj] at hmember'
  have hnames : ((build files).hierarchy.family id key).map
      ((build files').nameAt ∘ classOf) =
        ((build files).hierarchy.family id key).map (build files).nameAt :=
    List.map_congr_left hname
  rw [hsymbol, hsymbol', hfamily, List.length_map, List.map_map, hnames, hleader, hmember']

/-- Without cycles of stated containers it differs in numbers only. -/
theorem exists_renumbering_of_perm (hacyclic : ∀ id, ¬ TransGen (build files).StatedIn id id) :
    Nonempty (Renumbering (build files) (build files')) := by
  obtain ⟨e, honto⟩ := exists_embedding_of_perm hnames hperm
  have hfinished := finished_build files
  have hfinished' := finished_build files'
  have hacyclic' : ∀ id, ¬ TransGen (build files').StatedIn id id := by
    have hnames' : (files'.map (·.name)).Nodup := (hperm.map _).nodup_iff.2 hnames
    obtain ⟨e', honto'⟩ := exists_embedding_of_perm hnames' hperm.symm
    exact e'.acyclic hfinished.names honto' hacyclic
  have houter : e.KeepsContainers := e.keepsContainers hfinished'.names honto
    (honoured_build_of_acyclic files hacyclic) (honoured_build_of_acyclic files' hacyclic')
  obtain ⟨methodOf, hmethods⟩ := Embedding.exists_findsMethods honto hfinished hfinished' houter
  have hfamily : ∀ {id}, id < (build files).size → ∀ key,
      (build files').hierarchy.family (e.classOf id) key =
        ((build files).hierarchy.family id key).map e.classOf :=
    Embedding.family_eq honto hfinished hfinished' hmethods (pairwise_family_build files)
      (pairwise_family_build files')
  refine ⟨{ e with
    onto := honto, outer_eq := houter, methodOf, findsMethods := hmethods
    methodAt?_eq := fun {id key m} hm => ?_, family_eq := hfamily }⟩
  have hid := lt_size_of_slot? hm
  have hm' := hmethods.slot?_eq hid key
  rw [hm, Option.map_some] at hm'
  refine methodAt?_build_of_perm hnames hperm hm hm' (fun x hx => ?_) (hfamily hid key)
  exact e.nameAt_eq (lt_size_of_slot? ((hfinished.mem_family_iff_slot hm).1 hx))

end Reordering

end GraphBuilder

end StableNaming
