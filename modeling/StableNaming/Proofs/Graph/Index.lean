import StableNaming.Graph.Index
import StableNaming.Proofs.Graph.JoinPass

/-!
# The tables of a graph

Every call on a graph that is being built, and every step that finishes it, leaves the tables with
what the graph has: the table of names answers with the class of a name, and the table of the top
level with the classes without a container. So the links of a finished graph are those of a forest
in all four places where they are kept, and from the top level one path leads down to each class.
-/

namespace StableNaming

open Relation

namespace ClassGraph

variable {g : ClassGraph}

/-- A class that is found or created has no methods that list names. -/
theorem Unshared.ensureClass (hlist : g.Unshared) (h : g.Growing) (name : String) :
    (g.ensureClass name).2.Unshared := by
  intro m symbol hsymbol
  rw [methodAt?, (ensured_ensureClass h.names h.forest name).extended.methods_eq] at hsymbol
  exact hlist hsymbol

/-- A class that is not found is created after its container. -/
theorem ensureClass_eq (g : ClassGraph) (name : String) :
    g.ensureClass name =
      match g.idOf? name with
      | some id => (id, g)
      | none =>
        match containerName? name with
        | none => g.addSymbol name none
        | some container =>
          (g.ensureClass container).2.addSymbol name (some (g.ensureClass container).1) := by
  cases hid : g.idOf? name with
  | some id => rw [ensureClass, hid]
  | none =>
    rw [ensureClass, hid]
    dsimp only
    split
    · rename_i hcontainer
      simp only [hcontainer]
    · rename_i hcontainer
      simp only [hcontainer]

end ClassGraph

namespace GraphBuilder

/-- What calls build is a growing graph, and none of its methods lists names. -/
theorem growing_calls (cs : List BuilderCall) :
    (calls cs).draft.Growing ∧ (calls cs).draft.Unshared := by
  have hfold : ∀ (cs : List BuilderCall) (b : GraphBuilder), b.draft.Growing → b.draft.Unshared →
      (cs.foldl (fun (b : GraphBuilder) c => (b.call c).2) b).draft.Growing ∧
        (cs.foldl (fun (b : GraphBuilder) c => (b.call c).2) b).draft.Unshared := by
    intro cs
    induction cs with
    | nil => exact fun b h hlist => ⟨h, hlist⟩
    | cons c cs ih =>
      intro b h hlist
      cases c with
      | file file => exact ih _ (h.addClass file) (hlist.addClass h file)
      | name name => exact ih _ (h.ensureClass name) (hlist.ensureClass h name)
  exact hfold cs {} .empty fun m symbol hsymbol => by cases hsymbol

/-- Calls enter no edges. -/
theorem edgeless_calls (cs : List BuilderCall) : (calls cs).draft.Edgeless := by
  induction cs using List.reverseRecOn with
  | nil => exact .empty
  | append_singleton cs c ih =>
    rw [calls, List.foldl_append]
    cases c with
    | file file => exact ih.addClass file
    | name name => exact ih.ensureClass name

/-- The relation pass enters all edges and nests all classes. -/
theorem relationPass_calls (cs : List BuilderCall) :
    (calls cs).draft.relationPass = (calls cs).draft.relate.nestAll :=
  (edgeless_calls cs).relationPass_eq (growing_calls cs).1.names

/-- The graph that is finished is joined from one that is ready to be joined. -/
theorem finish_calls (cs : List BuilderCall) :
    (calls cs).draft.relate.nestAll.Unjoined ∧
      (calls cs).finish = (calls cs).draft.relate.nestAll.join := by
  obtain ⟨hgrowing, hlist⟩ := growing_calls cs
  have hunjoined : (calls cs).draft.relate.nestAll.Unjoined :=
    ⟨hgrowing.relate.nestAll, (ClassGraph.edgesAgree_relate _).nestAll⟩
  rw [finish, relationPass_calls]
  refine ⟨hunjoined, hunjoined.joinPass_eq_join fun m symbol hsymbol => ?_⟩
  rw [ClassGraph.methodAt?, (ClassGraph.SameButNested.nestAll _).methods_eq] at hsymbol
  exact hlist hsymbol

/-- Whatever the calls are, the graph is finished. -/
theorem finished_calls (cs : List BuilderCall) : (calls cs).finish.Finished := by
  obtain ⟨hunjoined, hfinish⟩ := finish_calls cs
  rw [hfinish]
  exact hunjoined.finished_join

/-- Class files are added by calls. -/
theorem finish_calls_files (files : List ClassFile) :
    (calls (files.map .file)).finish = build files := by
  rw [calls, build, List.foldl_map]
  rfl

end GraphBuilder

namespace IndexedGraph

open ClassGraph

/-- A class that is not found is created after its container. -/
theorem ensureClass_eq (ix : IndexedGraph) (name : String) :
    ix.ensureClass name =
      match ix.idOf? name with
      | some id => (id, ix)
      | none =>
        match containerName? name with
        | none => ix.addSymbol name none
        | some container =>
          (ix.ensureClass container).2.addSymbol name (some (ix.ensureClass container).1) := by
  cases hid : ix.idOf? name with
  | some id => rw [ensureClass, hid]
  | none =>
    rw [ensureClass, hid]
    dsimp only
    split
    · rename_i hcontainer
      simp only [hcontainer]
    · rename_i hcontainer
      simp only [hcontainer]

/-! ## Tables of classes -/

/-- Whether a table has the classes below a number that are to be listed, under their names. -/
def Lists (table : Std.TreeMap String ClassId) (n : Nat) (listed : ClassId → Prop)
    (nameAt : ClassId → String) : Prop :=
  ∀ (name : String) (id : ClassId), table[name]? = some id ↔ id < n ∧ listed id ∧ nameAt id = name

namespace Lists

variable {table : Std.TreeMap String ClassId} {n : Nat} {listed listed' : ClassId → Prop}
  {nameAt nameAt' : ClassId → String}

theorem empty : Lists ∅ 0 listed nameAt := by
  intro name id
  rw [Std.TreeMap.getElem?_emptyc]
  exact ⟨nofun, fun h => absurd h.1 (Nat.not_lt_zero id)⟩

theorem congr (h : Lists table n listed nameAt) (hlisted : ∀ id < n, (listed' id ↔ listed id))
    (hname : ∀ id < n, nameAt' id = nameAt id) : Lists table n listed' nameAt' := fun name id =>
  (h name id).trans (and_congr_right fun hid => by rw [hlisted id hid, hname id hid])

/-- The next class enters the table under a new name. -/
theorem insert (h : Lists table n listed nameAt) (hlisted : listed n)
    (hnew : ∀ id < n, nameAt id ≠ nameAt n) :
    Lists (table.insert (nameAt n) n) (n + 1) listed nameAt := by
  intro name id
  simp only [Std.TreeMap.getElem?_insert, Std.LawfulEqCmp.compare_eq_iff_eq]
  by_cases hname : nameAt n = name
  · rw [if_pos hname, Option.some_inj]
    constructor
    · rintro rfl
      exact ⟨Nat.lt_succ_self n, hlisted, hname⟩
    · rintro ⟨hlt, -, hid⟩
      refine (Nat.eq_of_lt_succ_of_not_lt hlt fun hlt => ?_).symm
      exact hnew id hlt (hid.trans hname.symm)
  · rw [if_neg hname, h]
    refine and_congr_left fun hid => ⟨Nat.lt_succ_of_lt, fun hlt => ?_⟩
    refine Nat.lt_of_le_of_ne (Nat.le_of_lt_succ hlt) ?_
    rintro rfl
    exact hname hid.2

/-- The next class is not to be listed. -/
theorem skip (h : Lists table n listed nameAt) (hlisted : ¬ listed n) :
    Lists table (n + 1) listed nameAt := by
  intro name id
  rw [h]
  refine and_congr_left fun hid => ⟨Nat.lt_succ_of_lt, fun hlt => ?_⟩
  refine Nat.lt_of_le_of_ne (Nat.le_of_lt_succ hlt) ?_
  rintro rfl
  exact hlisted hid.1

/-- A class leaves the table. -/
theorem erase (h : Lists table n listed nameAt) (x : ClassId)
    (hname : ∀ id < n, nameAt id = nameAt x → id = x) :
    Lists (table.erase (nameAt x)) n (fun id => id ≠ x ∧ listed id) nameAt := by
  intro name id
  simp only [Std.TreeMap.getElem?_erase, Std.LawfulEqCmp.compare_eq_iff_eq]
  by_cases hsame : nameAt x = name
  · rw [if_pos hsame]
    refine ⟨nofun, ?_⟩
    rintro ⟨hlt, ⟨hne, -⟩, hid⟩
    exact absurd (hname id hlt (hid.trans hsame.symm)) hne
  · rw [if_neg hsame, h]
    refine and_congr_right fun _ => and_congr_left fun hid => (and_iff_right ?_).symm
    rintro rfl
    exact hsame hid

end Lists

/-- Whether tables have what a graph has, and belong to it. -/
structure Follows (ix : IndexedGraph) (g : ClassGraph) : Prop where
  /-- The graph is this one. -/
  graph_eq : ix.graph = g
  /-- The table of names has the classes under their names. -/
  idOf?_iff : ∀ {name : String} {id : ClassId},
    ix.idOf? name = some id ↔ id < g.size ∧ g.nameAt id = name
  /-- The table of the top level has the classes without a container under their names. -/
  topLevel_iff : ∀ {name : String} {id : ClassId},
    ix.topLevel[name]? = some id ↔
      id < g.size ∧ (g.classAt id).outer = none ∧ g.nameAt id = name

namespace Follows

variable {ix ix' : IndexedGraph} {g g' : ClassGraph}

theorem of_lists (hgraph : ix.graph = g)
    (hbyName : Lists ix.byName g.size (fun _ => True) g.nameAt)
    (htopLevel : Lists ix.topLevel g.size (fun id => (g.classAt id).outer = none) g.nameAt) :
    ix.Follows g where
  graph_eq := hgraph
  idOf?_iff := by
    intro name id
    rw [← true_and (g.nameAt id = name)]
    exact hbyName name id
  topLevel_iff := htopLevel _ _

theorem empty : Follows {} {} := .of_lists rfl .empty .empty

/-- A table of names tells classes apart. -/
theorem names (h : ix.Follows g) : g.DistinctNames := by
  intro i j hi hj hname
  have hfound := h.idOf?_iff.2 ⟨hi, hname⟩
  rw [h.idOf?_iff.2 ⟨hj, rfl⟩] at hfound
  exact (Option.some.inj hfound).symm

/-- The table of names answers as looking through the classes does. -/
theorem idOf?_eq (h : ix.Follows g) (name : String) : ix.idOf? name = g.idOf? name :=
  Option.ext fun _ => h.idOf?_iff.trans h.names.idOf?_eq_some_iff.symm

theorem lists_byName (h : ix.Follows g) : Lists ix.byName g.size (fun _ => True) g.nameAt := by
  intro name id
  rw [true_and]
  exact h.idOf?_iff

theorem lists_topLevel (h : ix.Follows g) :
    Lists ix.topLevel g.size (fun id => (g.classAt id).outer = none) g.nameAt :=
  fun _ _ => h.topLevel_iff

/-- Tables are left as they are when names and containers are. -/
theorem congr (h : ix.Follows g) (hgraph : ix'.graph = g') (hbyName : ix'.byName = ix.byName)
    (htopLevel : ix'.topLevel = ix.topLevel) (hsize : g'.size = g.size)
    (hname : ∀ id, g'.nameAt id = g.nameAt id)
    (houter : ∀ id, (g'.classAt id).outer = (g.classAt id).outer) : ix'.Follows g' := by
  refine .of_lists hgraph ?_ ?_
  · rw [hbyName, hsize]
    exact h.lists_byName.congr (fun _ _ => Iff.rfl) fun id _ => hname id
  · rw [htopLevel, hsize]
    exact h.lists_topLevel.congr (fun id _ => by rw [houter]) fun id _ => hname id

/-! ## Creating classes -/

/-- A new class enters the tables. -/
theorem addSymbol (h : ix.Follows g) {name : String} (hnew : g.idOf? name = none)
    {outer : Option ClassId} (ho : ∀ o ∈ outer, o < g.size) :
    (ix.addSymbol name outer).1 = (g.addSymbol name outer).1 ∧
      (ix.addSymbol name outer).2.Follows (g.addSymbol name outer).2 := by
  obtain rfl := h.graph_eq
  have hid : (ix.addSymbol name outer).1 = ix.graph.size := addSymbol_fst ix.graph name outer
  have hbyName : (ix.addSymbol name outer).2.byName = ix.byName.insert name ix.graph.size := by
    rw [← hid]
    rfl
  have hname := nameAt_addSymbol ix.graph name ho
  have hplace := outer_addSymbol ix.graph name ho
  have hold : ∀ id < ix.graph.size,
      (ix.graph.addSymbol name outer).2.nameAt id = ix.graph.nameAt id := fun id hlt => by
    rw [hname, if_neg (Nat.ne_of_lt hlt)]
  have hlast : (ix.graph.addSymbol name outer).2.nameAt ix.graph.size = name := by
    rw [hname, if_pos rfl]
  have hfresh : ∀ id < ix.graph.size, (ix.graph.addSymbol name outer).2.nameAt id ≠
      (ix.graph.addSymbol name outer).2.nameAt ix.graph.size := fun id hlt => by
    rw [hold id hlt, hlast]
    exact idOf?_eq_none_iff.1 hnew id hlt
  have hlists : Lists ix.topLevel ix.graph.size
      (fun id => ((ix.graph.addSymbol name outer).2.classAt id).outer = none)
      (ix.graph.addSymbol name outer).2.nameAt :=
    h.lists_topLevel.congr (fun id hlt => by rw [hplace, if_neg (Nat.ne_of_lt hlt)]) hold
  refine ⟨rfl, .of_lists rfl ?_ ?_⟩
  · have hentered := (h.lists_byName.congr (fun _ _ => Iff.rfl) hold).insert trivial hfresh
    rw [hlast] at hentered
    rw [size_addSymbol, hbyName]
    exact hentered
  · rw [size_addSymbol]
    have hplaced : ((ix.graph.addSymbol name outer).2.classAt ix.graph.size).outer = outer := by
      rw [hplace, if_pos rfl]
    cases outer with
    | none =>
      have hentered := hlists.insert hplaced hfresh
      rw [hlast] at hentered
      exact hentered
    | some o => exact hlists.skip fun hnone => Option.some_ne_none o (hplaced.symm.trans hnone)

/-- A class is found, or created after its container, as without tables. -/
theorem ensureClass (h : ix.Follows g) (hforest : g.Forest) (name : String) :
    (ix.ensureClass name).1 = (g.ensureClass name).1 ∧
      (ix.ensureClass name).2.Follows (g.ensureClass name).2 := by
  induction hlength : name.toList.length using Nat.strong_induction_on generalizing name with
  | _ length ih =>
    subst hlength
    rw [ensureClass_eq, ClassGraph.ensureClass_eq, h.idOf?_eq]
    cases hnew : g.idOf? name with
    | some id => exact ⟨rfl, h⟩
    | none =>
      dsimp only
      cases hcontainer : containerName? name with
      | none => exact h.addSymbol hnew nofun
      | some container =>
        have hshorter := length_containerName_lt hcontainer
        obtain ⟨hid, hgrown⟩ := ih _ hshorter container rfl
        have hensured := ensured_ensureClass h.names hforest container
        dsimp only
        rw [hid]
        refine hgrown.addSymbol (hensured.idOf?_eq_none hshorter hnew) fun o ho => ?_
        rw [← Option.some.inj ho]
        exact hensured.lt_size

/-- A class file is added as without tables. -/
theorem addClass (h : ix.Follows g) (hforest : g.Forest) (file : ClassFile) :
    (ix.addClass file).1 = (g.addClass file).1 ∧
      (ix.addClass file).2.Follows (g.addClass file).2 := by
  obtain ⟨hid, hgrown⟩ := h.ensureClass hforest file.name
  unfold IndexedGraph.addClass ClassGraph.addClass
  generalize ix.ensureClass file.name = result at hid hgrown
  generalize g.ensureClass file.name = result' at hid hgrown
  obtain ⟨id, ix'⟩ := result
  obtain ⟨id', g'⟩ := result'
  dsimp only at hid hgrown ⊢
  subst hid
  obtain rfl := hgrown.graph_eq
  split
  · exact ⟨rfl, hgrown⟩
  · refine ⟨rfl, hgrown.congr rfl rfl rfl (size_modifyClass _ _ _) (fun x => ?_) fun x => ?_⟩
    · rw [nameAt, classAt_load]
      split <;> rfl
    · rw [classAt_load]
      split <;> rfl

/-! ## Finishing -/

/-- Edges are entered as without tables. -/
theorem enterEdges (h : ix.Follows g) (id : ClassId) :
    Follows { ix with graph := ix.graph.enterEdges ix.idOf? id } (g.enterEdges g.idOf? id) := by
  have hfind : ix.idOf? = g.idOf? := funext h.idOf?_eq
  have hsame := (enterEdges_spec g g.idOf? id).1
  refine h.congr ?_ rfl rfl hsame.size_eq hsame.nameAt_eq hsame.outer_eq
  rw [hfind, h.graph_eq]

/-- A class that is moved is not at the top level any more. -/
theorem moveUnder (h : ix.Follows g) (hforest : g.Forest) {id outer : ClassId} (hid : id < g.size)
    (houter : outer < g.size) : (ix.moveUnder id outer).Follows (g.moveUnder id outer) := by
  obtain rfl := h.graph_eq
  have hsame := SameButNested.moveUnder ix.graph id outer
  have hname : (ix.graph.moveUnder id outer).nameAt = ix.graph.nameAt := funext hsame.nameAt_eq
  have hplace : ∀ x, ((ix.graph.moveUnder id outer).classAt x).outer =
      if x = id then some outer else (ix.graph.classAt x).outer := by
    intro x
    by_cases hcurrent : (ix.graph.classAt id).outer = some outer
    · rw [ClassGraph.moveUnder, if_pos hcurrent]
      split
      · rename_i hx
        rw [hx, hcurrent]
      · rfl
    · exact (classAt_moveUnder hforest hid houter hcurrent x).1
  have hlisted : ∀ x, ((ix.graph.moveUnder id outer).classAt x).outer = none ↔
      x ≠ id ∧ (ix.graph.classAt x).outer = none := by
    intro x
    rw [hplace]
    by_cases hx : x = id <;> simp [hx]
  refine .of_lists rfl ?_ ?_ <;> rw [hsame.size_eq, hname]
  · exact h.lists_byName
  · cases hcurrent : (ix.graph.classAt id).outer with
    | none =>
      have htable : (ix.moveUnder id outer).topLevel = ix.topLevel.erase (ix.graph.nameAt id) := by
        simp [IndexedGraph.moveUnder, hcurrent]
      have hleft := h.lists_topLevel.erase id fun x hx => h.names hx hid
      rw [htable]
      exact hleft.congr (fun x _ => hlisted x) fun _ _ => rfl
    | some old =>
      have htable : (ix.moveUnder id outer).topLevel = ix.topLevel := by
        simp [IndexedGraph.moveUnder, hcurrent]
      rw [htable]
      refine h.lists_topLevel.congr (fun x _ => (hlisted x).trans (and_iff_right_of_imp ?_))
        fun _ _ => rfl
      rintro hnone rfl
      exact Option.some_ne_none old (hcurrent.symm.trans hnone)

theorem nest (h : ix.Follows g) (hforest : g.Forest) {id : ClassId} (hid : id < g.size) :
    (ix.nest id).Follows (g.nest id) := by
  rw [IndexedGraph.nest, ClassGraph.nest, h.graph_eq]
  have hfound : ix.idOf? = g.idOf? := funext h.idOf?_eq
  rw [hfound]
  cases hclaimed : (claimedContainer? (g.classAt id)).bind g.idOf? with
  | none => exact h
  | some outer =>
    dsimp only
    split
    · exact h
    · obtain ⟨name, -, hname⟩ := Option.bind_eq_some_iff.1 hclaimed
      exact h.moveUnder hforest hid (of_idOf? hname).1

/-- The turn of a class is as without tables. -/
theorem relateClass (h : ix.Follows g) (hforest : g.Forest) {id : ClassId} (hid : id < g.size) :
    (ix.relateClass id).Follows (g.relateClass id) := by
  have hsame := (enterEdges_spec g g.idOf? id).1
  exact (h.enterEdges id).nest (hsame.forest hforest) (hsame.size_eq.symm ▸ hid)

/-- All classes have their turns as without tables. -/
theorem relationPass (h : ix.Follows g) (hforest : g.Forest) :
    ix.relationPass.Follows g.relationPass := by
  have hfold : ∀ (ids : List ClassId) (ix : IndexedGraph) (g : ClassGraph), ix.Follows g →
      g.Forest → (∀ id ∈ ids, id < g.size) →
      (ids.foldl IndexedGraph.relateClass ix).Follows (ids.foldl ClassGraph.relateClass g) := by
    intro ids
    induction ids with
    | nil => exact fun ix g h _ _ => h
    | cons id ids ih =>
      intro ix g h hforest hids
      obtain ⟨hid, hids⟩ := List.forall_mem_cons.1 hids
      refine ih _ _ (h.relateClass hforest hid) (hforest.relateClass hid) fun x hx => ?_
      rw [size_relateClass]
      exact hids x hx
  rw [IndexedGraph.relationPass, h.graph_eq]
  exact hfold g.ids ix g h hforest fun id hid => List.mem_range.1 hid

end Follows

/-- Calls are answered as without tables. -/
theorem follows_call {ix : IndexedGraph} {b : GraphBuilder} (h : ix.Follows b.draft)
    (hforest : b.draft.Forest) (c : BuilderCall) :
    (ix.call c).1 = (b.call c).1 ∧ (ix.call c).2.Follows (b.call c).2.draft := by
  cases c with
  | file file => exact h.addClass hforest file
  | name name => exact h.ensureClass hforest name

theorem follows_calls (cs : List BuilderCall) :
    (cs.foldl (fun (ix : IndexedGraph) c => (ix.call c).2) {}).Follows
      (GraphBuilder.calls cs).draft := by
  induction cs using List.reverseRecOn with
  | nil => exact .empty
  | append_singleton cs c ih =>
    rw [GraphBuilder.calls, List.foldl_append, List.foldl_append]
    exact (follows_call ih (GraphBuilder.growing_calls cs).1.forest c).2

/-- The graph with tables that calls build is the one without, and its tables have what it has. -/
theorem follows_build (cs : List BuilderCall) :
    (build cs).Follows (GraphBuilder.calls cs).finish := by
  obtain ⟨hunjoined, hfinish⟩ := GraphBuilder.finish_calls cs
  have hnested := (follows_calls cs).relationPass (GraphBuilder.growing_calls cs).1.forest
  rw [GraphBuilder.relationPass_calls] at hnested
  refine hnested.congr ?_ rfl rfl ?_ (fun id => ?_) fun id => ?_
  · rw [build, finish, GraphBuilder.finish, GraphBuilder.relationPass_calls]
    exact congrArg joinPass hnested.graph_eq
  · rw [hfinish, size_join]
  · rw [hfinish, nameAt_join]
  · rw [hfinish, classAt_join]

/-! ## Filling the tables anew -/

/-- When the classes below a number have been entered, the tables have those. -/
theorem foldl_enter {g : ClassGraph} (hnames : g.DistinctNames) {n : Nat} (hn : n ≤ g.size) :
    let ix := (List.range n).foldl enter { graph := g }
    ix.graph = g ∧ Lists ix.byName n (fun _ => True) g.nameAt ∧
      Lists ix.topLevel n (fun id => (g.classAt id).outer = none) g.nameAt := by
  induction n with
  | zero => exact ⟨rfl, .empty, .empty⟩
  | succ n ih =>
    obtain ⟨hgraph, hbyName, htopLevel⟩ := ih (Nat.le_of_succ_le hn)
    rw [List.range_succ, List.foldl_append]
    generalize (List.range n).foldl enter { graph := g } = ix at hgraph hbyName htopLevel
    subst hgraph
    have hfresh : ∀ id < n, ix.graph.nameAt id ≠ ix.graph.nameAt n := fun id hid heq =>
      Nat.ne_of_lt hid (hnames (Nat.lt_of_lt_of_le hid (Nat.le_of_succ_le hn)) hn heq)
    refine ⟨rfl, hbyName.insert trivial hfresh, ?_⟩
    cases houter : (ix.graph.classAt n).outer with
    | none =>
      have hlists := htopLevel.insert houter hfresh
      simpa [enter, houter] using hlists
    | some outer =>
      have hlists := htopLevel.skip (houter ▸ Option.some_ne_none outer)
      simpa [enter, houter] using hlists

/-- Tables that are filled anew have what their graph has. -/
theorem follows_reindex (ix : IndexedGraph) (hnames : ix.graph.DistinctNames) :
    ix.reindex.Follows ix.graph := by
  obtain ⟨hgraph, hbyName, htopLevel⟩ := foldl_enter hnames (Nat.le_refl ix.graph.size)
  exact .of_lists hgraph hbyName htopLevel

/-! ## The forest -/

/-- Whether a list of classes leads from a class up to the top level, along the lists of inner
classes. -/
inductive Path (ix : IndexedGraph) : ClassId → List ClassId → Prop where
  /-- The class is at the top level. -/
  | top {name : String} {id : ClassId} : ix.topLevel[name]? = some id → Path ix id [id]
  /-- A class lists the class, and the list leads on from there. -/
  | inner {id outer : ClassId} {path : List ClassId} :
    id ∈ (ix.graph.classAt outer).inner → Path ix outer path → Path ix id (id :: path)

/-- Whether the links between classes and containers are those of a forest, in all places that
keep them. -/
structure IsForest (ix : IndexedGraph) : Prop where
  /-- No two classes have one name. -/
  names : ix.graph.DistinctNames
  /-- The table of names has the classes under their names. -/
  idOf?_iff : ∀ {name : String} {id : ClassId},
    ix.idOf? name = some id ↔ id < ix.graph.size ∧ ix.graph.nameAt id = name
  /-- Following containers never leads back. -/
  acyclic : ∀ id, ¬ TransGen ix.graph.ContainedIn id id
  /-- A class is listed once by its container, and by no other class. -/
  count_inner : ∀ id outer, (ix.graph.classAt outer).inner.count id =
    if (ix.graph.classAt id).outer = some outer then 1 else 0
  /-- The table of the top level has the classes without a container under their names. -/
  topLevel_iff : ∀ {name : String} {id : ClassId}, ix.topLevel[name]? = some id ↔
    id < ix.graph.size ∧ (ix.graph.classAt id).outer = none ∧ ix.graph.nameAt id = name
  /-- One path leads from the top level down to each class. -/
  path : ∀ id < ix.graph.size, ∃! path, ix.Path id path

variable {ix : IndexedGraph} {g : ClassGraph}

/-- Tables that follow a forest describe a forest. -/
theorem Follows.isForest (h : ix.Follows g) (hforest : g.Forest) : ix.IsForest := by
  have hnames := h.names
  obtain rfl := h.graph_eq
  have hunique : ∀ {id path path'}, ix.Path id path → ix.Path id path' → path = path' := by
    intro id path path' hpath
    induction hpath generalizing path' with
    | top htop =>
      intro hpath'
      cases hpath' with
      | top => rfl
      | inner hinner =>
        have houter := hforest.mem_inner_iff.1 hinner
        rw [ContainedIn, (h.topLevel_iff.1 htop).2.1] at houter
        cases houter
    | inner hinner _ ih =>
      intro hpath'
      have houter := hforest.mem_inner_iff.1 hinner
      cases hpath' with
      | top htop =>
        rw [ContainedIn, (h.topLevel_iff.1 htop).2.1] at houter
        cases houter
      | inner hinner' hup =>
        obtain rfl := rightUnique_containedIn houter (hforest.mem_inner_iff.1 hinner')
        rw [ih hup]
  refine ⟨hnames, h.idOf?_iff, hforest.not_transGen_self, fun id outer => ?_, h.topLevel_iff,
    fun id hid => ?_⟩
  · rw [(hforest.nodup_inner outer).count]
    simp only [hforest.mem_inner_iff, ContainedIn]
  · have hexists : ∃ path, ix.Path id path := by
      induction hforest.ends id with
      | intro id _ ih =>
        cases houter : (ix.graph.classAt id).outer with
        | none => exact ⟨[id], .top (h.topLevel_iff.2 ⟨hid, houter, rfl⟩)⟩
        | some outer =>
          obtain ⟨path, hpath⟩ := ih outer houter (hforest.outer_lt houter)
          exact ⟨id :: path, .inner (hforest.mem_inner_iff.2 houter) hpath⟩
    obtain ⟨path, hpath⟩ := hexists
    exact ⟨path, hpath, fun path' hpath' => hunique hpath' hpath⟩

/-- The table of the top level has its classes in the order of their names. -/
theorem Follows.topLevelIds_eq (h : ix.Follows g) : ix.topLevelIds = g.topLevel := by
  have hmem : ∀ id, id ∈ ix.topLevelIds ↔ id ∈ g.topLevel := by
    intro id
    rw [topLevelIds, List.mem_map, mem_topLevel_iff h.names]
    constructor
    · rintro ⟨⟨name, id⟩, hentry, rfl⟩
      obtain ⟨hid, houter, -⟩ :=
        h.topLevel_iff.1 (Std.TreeMap.mem_toList_iff_getElem?_eq_some.1 hentry)
      exact ⟨hid, houter⟩
    · rintro ⟨hid, houter⟩
      exact ⟨(g.nameAt id, id), Std.TreeMap.mem_toList_iff_getElem?_eq_some.2
        (h.topLevel_iff.2 ⟨hid, houter, rfl⟩), rfl⟩
  have hsorted : ix.topLevelIds.Pairwise (g.nameAt · < g.nameAt ·) := by
    rw [topLevelIds, List.pairwise_map]
    refine Std.TreeMap.ordered_keys_toList.imp_of_mem fun {a b} ha hb hab => ?_
    have hname : ∀ {e : String × ClassId}, e ∈ ix.topLevel.toList → g.nameAt e.2 = e.1 := fun he =>
      (h.topLevel_iff.1 (Std.TreeMap.mem_toList_iff_getElem?_eq_some.1 he)).2.2
    rw [hname ha, hname hb]
    exact compareOfLessAndEq_eq_lt.1 hab
  exact Collection.eq_of_pairwise_of_mem_iff (fun _ _ => String.lt_asymm) hsorted
    (pairwise_topLevel h.names) hmem

/-- Whatever the calls are, the classes of the finished graph form a forest, and so say all its
links and tables. The graph is the one that the calls build without tables, and both find its
classes by name and list its top level alike. -/
theorem isForest_build (cs : List BuilderCall) :
    (build cs).IsForest ∧ (build cs).graph = (GraphBuilder.calls cs).finish ∧
      (∀ name, (build cs).idOf? name = (GraphBuilder.calls cs).finish.idOf? name) ∧
      (build cs).topLevelIds = (GraphBuilder.calls cs).finish.topLevel := by
  have hfollows := follows_build cs
  exact ⟨hfollows.isForest (GraphBuilder.finished_calls cs).forest, hfollows.graph_eq,
    hfollows.idOf?_eq, hfollows.topLevelIds_eq⟩

end IndexedGraph

end StableNaming
