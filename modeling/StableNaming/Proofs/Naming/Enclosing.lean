import StableNaming.Proofs.Naming.Renaming

/-!
# Enclosing methods in renamed graphs

A class that is defined in the body of a method names that method by its class and its key.
Renaming looks the key up at that class only, while the method itself is looked up at all
classes that share it. So the reference is lost if the method overrides one of another class
and gets another name.
-/

namespace StableNaming.Generator

open ClassGraph

variable {ρ : Type}

/-- After renaming a graph with the table of a run without policies, the enclosing method of a class
is a key of the renamed enclosing class. It is the key under which that class holds the method that
it held under the old one exactly if the family of the method starts at the enclosing class or the
method keeps its name, and no method with a greater key gets the same key. -/
theorem slot?_enclosingMethod_iff [PatternEngine] [ConflictResolver ρ] {files : List ClassFile}
    {config : NamingConfig} {allowed : MappingTable → Prop} {gen after : Generator ρ}
    {set : MappingSet} {t : MappingTable}
    (harises : Arises (GraphBuilder.build files) config allowed gen)
    (hrun : gen.generate = (.ok set, after)) (ht : set.toTable = .ok t)
    {id o : ClassId} {className : String} {key : MemberKey} {m : MethodId}
    (henclosure : ((GraphBuilder.build files).classAt id).enclosure = some ⟨className, some key⟩)
    (howner : (GraphBuilder.build files).idOf? className = some o)
    (hslot : (GraphBuilder.build files).slot? o key = some m) :
    ∃ key', (((GraphBuilder.build files).rename t).classAt id).enclosure =
        some ⟨((GraphBuilder.build files).rename t).nameAt o, some key'⟩ ∧
      (((GraphBuilder.build files).rename t).slot? o key' = some m ↔
        ((GraphBuilder.build files).hierarchy.isSource o key = true ∨
          after.methodName? ⟨className, key⟩ = none ∨
          after.methodName? ⟨className, key⟩ = some key.name) ∧
        ∀ k n, (GraphBuilder.build files).slot? o k = some n → key < k →
          after.answeredKey t .method ⟨className, k⟩ ≠
            after.answeredKey t .method ⟨className, key⟩) := by
  obtain ⟨t', ht', htabled, hgraph⟩ := exists_tabled harises hrun
  obtain rfl : t' = t := Except.ok.inj (ht'.symm.trans ht)
  rw [← hgraph] at henclosure howner hslot ⊢
  have hid : id < after.task.graph.size := by
    refine lt_size_of_classAt_ne fun hdefault => ?_
    rw [hdefault] at henclosure
    cases henclosure
  obtain ⟨ho, rfl⟩ := of_idOf? howner
  refine ⟨renamedKey t' .method [after.task.graph.nameAt o] key, ?_, ?_⟩
  · rw [enclosure_rename t' hid, henclosure, nameAt_rename t' ho]
    rfl
  have hkey := renamedSlotKey_eq_answeredKey htabled hslot
  have hfound := htabled.renamedKey_method_eq_iff hslot
  rw [methodName?_nameAt rfl htabled.graph.names ho, hslot, Option.bind_some,
    Hierarchy.isSource_congr _ after.task.hierarchy, ← hfound, slot?_rename_eq_some_iff]
  constructor
  · rintro ⟨key', hslot', hsame, hgreatest⟩
    -- a class holds a method under one key only
    obtain ⟨rfl, -⟩ := (htabled.graph.slot_eq_iff hslot hslot').1 rfl
    refine ⟨hsame.symm, fun k n hn hlt => ?_⟩
    rw [← renamedSlotKey_eq_answeredKey htabled hn, ← hkey, hsame]
    exact hgreatest k n hn hlt
  · rintro ⟨hsame, hgreatest⟩
    refine ⟨key, hslot, hsame.symm, fun k n hn hlt => ?_⟩
    rw [hsame, hkey, renamedSlotKey_eq_answeredKey htabled hn]
    exact hgreatest k n hn hlt

/-- The interface method that encloses a class is found again under its new key. -/
theorem slot?_enclosingMethod_diamondFiles :
    ∃ (gen after : Generator Resolver) (set : MappingSet) (t : MappingTable) (key' : MemberKey),
      create (GraphBuilder.build diamondFiles) {} .refuse = .ok gen ∧
      gen.generate = (.ok set, after) ∧ set.toTable = .ok t ∧
      (((GraphBuilder.build diamondFiles).rename t).classAt 4).enclosure =
        some ⟨((GraphBuilder.build diamondFiles).rename t).nameAt 0, some key'⟩ ∧
      ((GraphBuilder.build diamondFiles).rename t).slot? 0 key' = some 0 := by
  obtain ⟨gen, set, hgen, hcreate, hrun⟩ :=
    exists_create_generate (GraphBuilder.build diamondFiles) Resolver.refuse (by decide +kernel)
  have harises : Arises (GraphBuilder.build diamondFiles) {} (fun _ => True) gen := .create hcreate
  obtain ⟨t, ht, -⟩ := exists_tabled harises hrun
  have henclosure : ((GraphBuilder.build diamondFiles).classAt 4).enclosure =
      some ⟨"a", some ⟨"f", "()V"⟩⟩ := by decide +kernel
  have howner : (GraphBuilder.build diamondFiles).idOf? "a" = some 0 := by decide +kernel
  have hslot : (GraphBuilder.build diamondFiles).slot? 0 ⟨"f", "()V"⟩ = some 0 := by decide +kernel
  obtain ⟨key', hrenamed, hattached⟩ :=
    slot?_enclosingMethod_iff harises hrun ht henclosure howner hslot
  refine ⟨gen, _, set, t, key', hcreate, hrun, ht, hrenamed, hattached.2 ⟨.inl ?_, ?_⟩⟩
  · decide +kernel
  · -- the interface has no other method
    intro k n hn hlt
    have honly : ∀ e ∈ ((GraphBuilder.build diamondFiles).classAt 0).methods.entries,
        e.1 = ⟨"f", "()V"⟩ := by decide +kernel
    have hsame : k = ⟨"f", "()V"⟩ := honly _ (KeyMap.find?_eq_some_iff.1 hn)
    exact absurd (hsame ▸ hlt) (MemberKey.lt_irrefl _)

/-- The overriding method that encloses a class is not found again under any key: the method is
called otherwise, and the reference keeps its name. -/
theorem enclosingMethod_comes_loose :
    ∃ (gen after : Generator Resolver) (set : MappingSet) (t : MappingTable),
      create (GraphBuilder.build diamondFiles) {} .refuse = .ok gen ∧
      gen.generate = (.ok set, after) ∧ set.toTable = .ok t ∧
      ((GraphBuilder.build diamondFiles).classAt 5).enclosure =
        some ⟨"d", some ⟨"f", "()V"⟩⟩ ∧
      (GraphBuilder.build diamondFiles).idOf? "d" = some 3 ∧
      (GraphBuilder.build diamondFiles).slot? 3 ⟨"f", "()V"⟩ = some 0 ∧
      ¬ ∃ key', (((GraphBuilder.build diamondFiles).rename t).classAt 5).enclosure =
          some ⟨((GraphBuilder.build diamondFiles).rename t).nameAt 3, some key'⟩ ∧
        ((GraphBuilder.build diamondFiles).rename t).slot? 3 key' = some 0 := by
  obtain ⟨gen, set, hgen, hcreate, hrun⟩ :=
    exists_create_generate (GraphBuilder.build diamondFiles) Resolver.refuse (by decide +kernel)
  have hfacts : ∀ t ∈ gen.generate.1.toOption.bind (·.toTable.toOption),
      (((GraphBuilder.build diamondFiles).rename t).classAt 5).enclosure.bind Enclosure.method =
        some ⟨"f", "()V"⟩ ∧
      ((GraphBuilder.build diamondFiles).rename t).slot? 3 ⟨"f", "()V"⟩ = none := by
    cases hgen
    decide +kernel
  have harises : Arises (GraphBuilder.build diamondFiles) {} (fun _ => True) gen := .create hcreate
  obtain ⟨t, ht, -⟩ := exists_tabled harises hrun
  obtain ⟨hmethod, hslot⟩ := hfacts t (by rw [hrun]; simp [ht, Except.toOption])
  refine ⟨gen, _, set, t, hcreate, hrun, ht, by decide +kernel, by decide +kernel,
    by decide +kernel, ?_⟩
  rintro ⟨key', henclosure, hfound⟩
  rw [henclosure] at hmethod
  obtain rfl : key' = ⟨"f", "()V"⟩ := Option.some.inj hmethod
  rw [hslot] at hfound
  cases hfound

end StableNaming.Generator
