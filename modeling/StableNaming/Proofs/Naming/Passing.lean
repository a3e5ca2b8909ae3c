import StableNaming.Proofs.Naming.Accounts
import StableNaming.Proofs.Naming.Recorded

/-!
# Numbers that a table has passed

The counters in the table of a run stand past the number in every name that can be
carried over from the table. So a later run that takes names from the table only
meets numbers below these counters, but for those that it hands out itself.
-/

namespace StableNaming

/-! ## Numbers in names -/

/-- A text that occurs in a part of another one occurs in that one. -/
theorem SymbolKind.isGenerated_of_isInfix {kind : SymbolKind} {s name : String}
    (hpart : s.toList <:+: name.toList) (h : kind.isGenerated s = true) :
    kind.isGenerated name = true :=
  Text.occursIn_of_isInfix ((Text.isInfix_of_occursIn h).trans hpart)

namespace Provenance

variable {kind : SymbolKind} {provenance : Provenance} {n : Nat}

/-- The number in the name of a member is handed out or carried over. -/
theorem minted_or_carries_of_number?_name (hn : kind.number? (provenance.name kind) = some n) :
    provenance = .minted n ∨ provenance.Carries kind n := by
  cases provenance with
  | kept =>
    have hgenerated := SymbolKind.isGenerated_of_number? hn
    cases kind <;> cases hgenerated
  | carried found offered => exact .inr hn
  | minted number =>
    have hnumber := @SymbolKind.number?_generatedName "" "" endsSegment_empty
      (fun ch hch => absurd hch List.not_mem_nil) kind number
    rw [String.append_empty, String.empty_append] at hnumber
    exact .inl (congrArg minted (Option.some.inj (hnumber.symm.trans hn)))

/-- A number that is handed out or carried over is met if it fits in a word. -/
theorem mem_numbers_of_minted_or_carries (hsound : provenance.Sound)
    (h : provenance = .minted n ∨ provenance.Carries kind n) (hword : n < Text.wordLimit) :
    n ∈ provenance.numbers kind := by
  rcases h with rfl | hcarries
  · exact List.mem_singleton_self n
  · exact hcarries.mem_numbers hsound hword

end Provenance

namespace NamingTask

variable {task : NamingTask} {start : Counters} {c c' : NamingContext} {t : MappingTable}

/-- The name that is carried over to a class keeps its number. -/
theorem number?_carriedClassName {id : ClassId} {parent : Option String} (found : String)
    (hpackage : IsPackage (task.chain.packageFor (task.graph.classAt id))) :
    SymbolKind.type.number? (task.carriedClassName (task.graph.classAt id) parent found) =
      SymbolKind.type.number? found := by
  obtain ⟨place, digits, hplace, hdigits, hstart⟩ :=
    @exists_classNameStart_eq task id parent hpackage
  rw [carriedClassName]
  split
  · rfl
  · rw [hstart, SymbolKind.type.number?_moved hplace hdigits]

/-- A class that keeps its name does not look generated, unless it did before. -/
theorem isGenerated_keptClassName {symbol : ClassSymbol} (parent : Option String)
    (hplain : SymbolKind.type.isGenerated symbol.name = false) :
    SymbolKind.type.isGenerated (innermostName (keptClassName symbol parent)) = false := by
  have hend : (innermostName (keptClassName symbol parent)).toList <:+ symbol.name.toList := by
    cases parent with
    | none =>
      have hname := innermostName_append_suffix endsSegment_empty symbol.name
      rwa [String.empty_append] at hname
    | some parent =>
      exact (innermostName_append_suffix (endsSegment_dollar parent) symbol.simpleName).trans
        (Text.afterLast_suffix nestingMark symbol.name)
  cases hgenerated : SymbolKind.type.isGenerated (innermostName (keptClassName symbol parent)) with
  | false => rfl
  | true =>
    rw [SymbolKind.isGenerated_of_isInfix hend.isInfix hgenerated] at hplain
    cases hplain

/-- The number in the name of a class is handed out or carried over. -/
theorem minted_or_carries_of_number?_classNameBy {id : ClassId} {parent : Option String}
    {provenance : Provenance} {n : Nat}
    (hpackage : IsPackage (task.chain.packageFor (task.graph.classAt id)))
    (hplain : SymbolKind.type.isGenerated (task.graph.nameAt id) = false)
    (hn : SymbolKind.type.number? (task.classNameBy id parent provenance) = some n) :
    provenance = .minted n ∨ provenance.Carries .type n := by
  cases provenance with
  | kept =>
    have hgenerated := SymbolKind.isGenerated_of_number? hn
    have hnot := isGenerated_keptClassName parent hplain
    cases hgenerated.symm.trans hnot
  | carried found offered =>
    exact .inr ((number?_carriedClassName found hpackage).symm.trans hn)
  | minted number =>
    obtain ⟨place, digits, hplace, hdigits, hstart⟩ :=
      @exists_classNameStart_eq task id parent hpackage
    have hn : SymbolKind.type.number? (task.classNameStart (task.graph.classAt id) parent ++
      SymbolKind.type.generatedName number) = some n := hn
    rw [hstart, SymbolKind.number?_generatedName hplace hdigits] at hn
    exact .inl (congrArg Provenance.minted (Option.some.inj hn))

end NamingTask

/-! ## What a table has passed -/

/-- Whether counters stand past the numbers in all names that can be carried over from a table. -/
structure MappingTable.PassedBy (t : MappingTable) (counters : Counters) : Prop where
  /-- They do for the names of classes. -/
  type : ∀ {name found : String},
    Carried.judge .type name (t.classTarget? name) = .generated found →
      ∀ n, SymbolKind.type.suffix? found = some n → n < counters.get .type
  /-- They do for the names of members. -/
  member : ∀ {kind : MemberKind} {ref : MemberRef} {found : String},
    Heritage.judgeMember t kind ref = .generated found →
      ∀ n, kind.symbol.suffix? found = some n → n < counters.get kind.symbol

/-- Nothing is carried over from the identity. -/
theorem MappingTable.passedBy_theIdentity (counters : Counters) :
    theIdentity.PassedBy counters where
  type h := by
    rw [classTarget?_theIdentity, Carried.judge_self] at h
    cases h
  member h := by
    rw [Heritage.judgeMember_theIdentity] at h
    cases h

namespace Heritage

variable {h : Heritage} {counters : Counters} (hprior : h.prior.PassedBy counters)
  (hold : h.old.PassedBy counters)
include hprior hold

/-- Names that are offered to classes have been passed if those in both tables have. -/
theorem lt_of_className? {name found : String} (hfound : h.className? name = some found) {n : Nat}
    (hn : SymbolKind.type.suffix? found = some n) : n < counters.get .type := by
  rw [Heritage.className?] at hfound
  split at hfound
  · obtain ⟨old, -, hfound⟩ := Option.bind_eq_some_iff.1 hfound
    exact hold.type (Carried.name?_eq_some_iff.1 hfound) n hn
  · exact hprior.type (Carried.name?_eq_some_iff.1 hfound) n hn

/-- The same for fields. -/
theorem lt_of_fieldName? {ref : MemberRef} {found : String} (hfound : h.fieldName? ref = some found)
    {n : Nat} (hn : SymbolKind.field.suffix? found = some n) : n < counters.get .field := by
  rw [Heritage.fieldName?] at hfound
  split at hfound
  · obtain ⟨old, -, hfound⟩ := Option.bind_eq_some_iff.1 hfound
    have hjudge := Carried.name?_eq_some_iff.1 hfound
    exact hold.member hjudge n hn
  · have hjudge := Carried.name?_eq_some_iff.1 hfound
    exact hprior.member hjudge n hn

omit hprior hold in
/-- What is known of an old method is known of some class that holds it. -/
theorem exists_of_judgeOldMethod {ref : MemberRef} {found : String}
    (hfound : h.judgeOldMethod ref = .generated found) :
    ∃ ref', judgeMember h.old .method ref' = .generated found := by
  rw [judgeOldMethod] at hfound
  split at hfound
  · rw [judgeFamily] at hfound
    split at hfound
    · cases hfound
    · rename_i id _
      obtain ⟨judged, hjudged⟩ : ∃ judged, judged =
        ((h.oldHierarchy.family id ref.key).map fun member =>
          judgeMember h.old .method ⟨h.oldGraph.nameAt member, ref.key⟩).find?
            (fun judged => decide (judged ≠ .missing)) := ⟨_, rfl⟩
      dsimp only at hfound
      rw [← hjudged] at hfound
      cases judged with
      | none => cases hfound
      | some carried =>
        obtain ⟨member, -, hmember⟩ :=
          List.mem_map.1 (List.mem_of_find?_eq_some hjudged.symm)
        exact ⟨_, hmember.trans hfound⟩
  · exact ⟨ref, hfound⟩

/-- The same for methods. -/
theorem lt_of_methodName? {ref ref' : MemberRef} {found : String}
    (hfound : h.methodName? ref = some (found, ref')) {n : Nat}
    (hn : SymbolKind.method.suffix? found = some n) : n < counters.get .method := by
  rw [Heritage.methodName?] at hfound
  split at hfound
  · obtain ⟨old, -, hfound⟩ := Option.bind_eq_some_iff.1 hfound
    obtain ⟨name, hname, heq⟩ := Option.map_eq_some_iff.1 hfound
    obtain ⟨rfl, -⟩ := Prod.mk.inj heq
    obtain ⟨ref', hjudge⟩ := exists_of_judgeOldMethod (Carried.name?_eq_some_iff.1 hname)
    exact hold.member hjudge n hn
  · obtain ⟨name, hname, heq⟩ := Option.map_eq_some_iff.1 hfound
    obtain ⟨rfl, -⟩ := Prod.mk.inj heq
    exact hprior.member (Carried.name?_eq_some_iff.1 hname) n hn

end Heritage

/-- A run has passed the number in a name that it decided for a member. -/
theorem Traced.lt_of_suffix?_name {kind : SymbolKind} {start last : Counters}
    {offered : List String} {provenance : Provenance}
    (h : Traced kind start last true offered provenance) {n : Nat}
    (hn : kind.suffix? (provenance.name kind) = some n) : n < last.get kind := by
  obtain ⟨hnumber, hword⟩ := SymbolKind.suffix?_eq_some_iff.1 hn
  have hor := Provenance.minted_or_carries_of_number?_name hnumber
  exact h.lt_of_mem_numbers (Provenance.mem_numbers_of_minted_or_carries h.sound hor hword)

/-- A choice meets a number in a name that is offered, or hands the number out. -/
theorem lt_or_minted_of_chooses {kind : SymbolKind} {need : Bool} {offered : List String}
    {c c' : NamingContext} {provenance : Provenance} {bound n : Nat}
    (h : Chooses kind need offered c provenance c')
    (hoffered : ∀ found ∈ offered, ∀ m, kind.suffix? found = some m → m < bound)
    (hn : n ∈ provenance.numbers kind) : n < bound ∨ provenance = .minted n := by
  cases h with
  | kept => exact absurd hn List.not_mem_nil
  | carried hmem =>
    obtain ⟨found, hfound, hsuffix⟩ := List.mem_filterMap.1 hn
    exact .inl (hoffered found hfound n hsuffix)
  | minted => exact .inr (congrArg Provenance.minted (List.mem_singleton.1 hn).symm)

namespace NamingTask

variable {task : NamingTask} {start : Counters} {c : NamingContext} {t : MappingTable}

section Answers

variable (ht : (task.setIn c).Answers t)
include ht

/-- The table answers with the target of a class that has an entry. -/
theorem exists_of_classTarget? (hgraph : task.graph.Finished)
    (hsettled : ∀ id < task.graph.size, task.ClassSettled c id) {name found : String}
    (h : t.classTarget? name = some found) :
    ∃ id < task.graph.size, c.classNames.find? (task.graph.nameAt id) = some found := by
  obtain ⟨entry, hmem, -, htarget⟩ := ht.classTarget?_iff.1 h
  obtain ⟨id, hwalk, hentry⟩ := List.mem_filterMap.1 hmem
  have hid : id < task.graph.size := (hgraph.forest.mem_walk_iff hgraph.names).1 hwalk
  obtain ⟨decided, hdecided⟩ := (hsettled id hid).name
  rw [classEntryIn] at hentry
  split at hentry
  · rw [← Option.some.inj hentry] at htarget
    dsimp only at htarget
    rw [hdecided, Option.getD_some] at htarget
    exact ⟨id, hid, htarget ▸ hdecided⟩
  · cases hentry

/-- What the table answers for a field is a decided name, or the one that the field keeps. -/
theorem of_fieldTarget? {ref : MemberRef} {found : String}
    (h : (t.memberTarget? .field ref).map (·.key.name) = some found) :
    (∃ ref', c.fieldNames.find? ref' = some found) ∨ found = ref.key.name := by
  obtain ⟨entry, hmem, -, hfield⟩ := ht.fieldTarget?_iff.1 h
  obtain ⟨id, -, hentry⟩ := List.mem_filterMap.1 hmem
  rw [classEntryIn] at hentry
  split at hentry
  · rw [← Option.some.inj hentry] at hfield
    obtain ⟨f, -, hf⟩ := List.mem_filterMap.1 hfield
    obtain ⟨hkey, hname⟩ := of_fieldEntryIn hf
    dsimp only at hkey hname
    rw [hkey]
    exact hname.imp_left fun hdecided => ⟨_, hdecided⟩
  · cases hentry

end Answers

namespace Accounted

variable (h : task.Accounted start c)
include h

/-- A run has passed the number in the name of a class that did not look generated before. -/
theorem lt_of_className {id : ClassId} (hid : id < task.graph.size)
    (hpackage : IsPackage (task.chain.packageFor (task.graph.classAt id)))
    (hplain : SymbolKind.type.isGenerated (task.graph.nameAt id) = false) {found : String}
    (hname : c.classNames.find? (task.graph.nameAt id) = some found) {n : Nat}
    (hn : SymbolKind.type.suffix? found = some n) : n < c.counters.get .type := by
  obtain ⟨need, provenance, htraced⟩ := h.type hid hname
  obtain ⟨hnumber, hword⟩ := SymbolKind.suffix?_eq_some_iff.1 hn
  rw [htraced.name_eq] at hnumber
  have hor := minted_or_carries_of_number?_classNameBy hpackage hplain hnumber
  exact htraced.traced.lt_of_mem_numbers
    (Provenance.mem_numbers_of_minted_or_carries htraced.traced.sound hor hword)

/-- A run has passed the number in a name that it decided for a field. -/
theorem lt_of_fieldName {ref : MemberRef} {found : String}
    (hname : c.fieldNames.find? ref = some found) {n : Nat}
    (hn : SymbolKind.field.suffix? found = some n) : n < c.counters.get .field := by
  obtain ⟨provenance, htraced, rfl⟩ := h.field hname
  exact htraced.lt_of_suffix?_name hn

/-- The same for a method. -/
theorem lt_of_methodName {method : MethodId} {found : String}
    (hname : c.methodNames.find? method = some found) {n : Nat}
    (hn : SymbolKind.method.suffix? found = some n) : n < c.counters.get .method := by
  obtain ⟨_, _, _, provenance, htraced⟩ := h.method hname
  rw [htraced.name_eq] at hn
  exact htraced.traced.lt_of_suffix?_name hn

/-- A run whose names are accounted for has passed the numbers in its table. -/
theorem passedBy (hgraph : task.graph.Finished)
    (hsettled : ∀ id < task.graph.size, task.ClassSettled c id)
    (hpackages : ∀ id < task.graph.size,
      IsPackage (task.chain.packageFor (task.graph.classAt id)))
    (hplain : ∀ id < task.graph.size,
      SymbolKind.type.isGenerated (task.graph.nameAt id) = false)
    (ht : (task.setIn c).Answers t) : t.PassedBy c.counters where
  type {name found} hjudge n hn := by
    obtain ⟨htarget, -, -⟩ := Carried.of_judge_eq_generated hjudge
    obtain ⟨id, hid, hname⟩ := exists_of_classTarget? ht hgraph hsettled htarget
    exact h.lt_of_className hid (hpackages id hid) (hplain id hid) hname hn
  member {kind ref found} hjudge n hn := by
    obtain ⟨htarget, hne, -⟩ := Carried.of_judge_eq_generated hjudge
    cases kind with
    | field =>
      obtain ⟨ref', hname⟩ := (of_fieldTarget? ht htarget).resolve_right hne
      exact h.lt_of_fieldName hname hn
    | method =>
      obtain ⟨-, -, -, method, -, hname⟩ :=
        (of_methodTarget? hgraph ht htarget).resolve_right hne
      exact h.lt_of_methodName hname hn

end Accounted

/-- A decision meets a number that both tables have passed, or hands the number out. -/
theorem Decides.lt_or_mints {c₁ c₂ : NamingContext} {d : Decision} (hd : task.Decides c₁ d c₂)
    {counters : Counters} (hprior : task.heritage.prior.PassedBy counters)
    (hold : task.heritage.old.PassedBy counters) {kind : SymbolKind} {n : Nat}
    (hn : n ∈ d.numbers kind) : n < counters.get kind ∨ d.Mints kind n := by
  rw [Decision.numbers] at hn
  split at hn
  · rename_i hkind
    subst hkind
    have hor : n < counters.get d.subject.kind ∨ d.provenance = .minted n := by
      cases hd with
      | type _ _ _ _ chooses =>
        refine lt_or_minted_of_chooses chooses (fun found hfound m hm => ?_) hn
        exact Heritage.lt_of_className? hprior hold (Option.mem_toList.1 hfound) hm
      | field _ _ _ _ chooses =>
        refine lt_or_minted_of_chooses chooses (fun found hfound m hm => ?_) hn
        exact Heritage.lt_of_fieldName? hprior hold (Option.mem_toList.1 hfound) hm
      | method _ _ _ chooses =>
        refine lt_or_minted_of_chooses chooses (fun found hfound m hm => ?_) hn
        obtain ⟨x, -, ref, hoffer⟩ := mem_keys_candidates_iff.1 hfound
        exact Heritage.lt_of_methodName? hprior hold hoffer hm
    exact hor.imp_right fun hminted => ⟨rfl, hminted⟩
  · exact absurd hn List.not_mem_nil

end NamingTask

end StableNaming
