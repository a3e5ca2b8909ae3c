import StableNaming.Proofs.Graph.Joining
import StableNaming.Proofs.Graph.Source

/-!
# Graphs that correspond

Obfuscating a program once more gives its classes and members other names and
leaves its shape alone. Then the classes and members of the new graph correspond
to those of the old one: override families are carried to override families, and a
family starts at corresponding classes.
-/

namespace StableNaming

open Relation

/-- Whether every step of `r` from where `P` holds is one of `p` between the images, and every
step of `p` from an image is the image of one of `r`. -/
structure Simulates {α β : Type} (f : α → β) (P : α → Prop) (r : α → α → Prop)
    (p : β → β → Prop) : Prop where
  /-- Steps have images. -/
  forth : ∀ {a b : α}, P a → r a b → P b ∧ p (f a) (f b)
  /-- Steps from images are images. -/
  back : ∀ {a : α} {b' : β}, P a → p (f a) b' → ∃ b, f b = b' ∧ r a b

namespace Simulates

variable {α β : Type} {f : α → β} {P : α → Prop} {r s : α → α → Prop} {p q : β → β → Prop}

/-- Two simulated steps one after the other are simulated. -/
theorem comp (h : Simulates f P r p) (h' : Simulates f P s q) :
    Simulates f P (fun a c => ∃ b, r a b ∧ s b c) fun a' c' => ∃ b', p a' b' ∧ q b' c' where
  forth ha := by
    rintro ⟨b, hab, hbc⟩
    obtain ⟨hb, hab'⟩ := h.forth ha hab
    obtain ⟨hc, hbc'⟩ := h'.forth hb hbc
    exact ⟨hc, f b, hab', hbc'⟩
  back ha := by
    rintro ⟨b', hab', hbc'⟩
    obtain ⟨b, rfl, hab⟩ := h.back ha hab'
    obtain ⟨hb, -⟩ := h.forth ha hab
    obtain ⟨c, rfl, hbc⟩ := h'.back hb hbc'
    exact ⟨c, rfl, b, hab, hbc⟩

theorem of_reflTransGen (h : Simulates f P r p) {a b : α} (ha : P a) (hab : ReflTransGen r a b) :
    P b ∧ ReflTransGen p (f a) (f b) := by
  induction hab with
  | refl => exact ⟨ha, .refl⟩
  | tail _ hstep ih =>
    obtain ⟨hb, hchain⟩ := ih
    obtain ⟨hc, hstep'⟩ := h.forth hb hstep
    exact ⟨hc, hchain.tail hstep'⟩

/-- Chains of simulated steps are simulated. -/
theorem reflTransGen (h : Simulates f P r p) :
    Simulates f P (ReflTransGen r) (ReflTransGen p) where
  forth := h.of_reflTransGen
  back {a b'} ha hab := by
    induction hab with
    | refl => exact ⟨a, rfl, .refl⟩
    | tail _ hstep' ih =>
      obtain ⟨b, rfl, hchain⟩ := ih
      obtain ⟨hb, -⟩ := h.of_reflTransGen ha hchain
      obtain ⟨c, rfl, hstep⟩ := h.back hb hstep'
      exact ⟨c, rfl, hchain.tail hstep⟩

theorem transGen (h : Simulates f P r p) : Simulates f P (TransGen r) (TransGen p) where
  forth ha hab := by
    have hcomp := h.reflTransGen.comp h
    obtain ⟨hb, hab'⟩ := hcomp.forth ha (TransGen.tail'_iff.1 hab)
    exact ⟨hb, TransGen.tail'_iff.2 hab'⟩
  back ha hab' := by
    have hcomp := h.reflTransGen.comp h
    obtain ⟨b, rfl, hab⟩ := hcomp.back ha (TransGen.tail'_iff.1 hab')
    exact ⟨b, rfl, TransGen.tail'_iff.2 hab⟩

/-- A step is possible exactly if one from the image is. -/
theorem exists_iff (h : Simulates f P r p) {a : α} (ha : P a) :
    (∃ b, r a b) ↔ ∃ b', p (f a) b' := by
  constructor
  · rintro ⟨b, hab⟩
    exact ⟨f b, (h.forth ha hab).2⟩
  · rintro ⟨b', hab⟩
    obtain ⟨b, -, hab⟩ := h.back ha hab
    exact ⟨b, hab⟩

/-- What can be told from images holds after all steps exactly if it does after all steps from the
image. -/
theorem forall_iff (h : Simulates f P r p) {Q : α → Prop} (Q' : β → Prop)
    (hQ : ∀ b, P b → (Q b ↔ Q' (f b))) {a : α} (ha : P a) :
    (∀ b, r a b → Q b) ↔ ∀ b', p (f a) b' → Q' b' := by
  constructor
  · intro hall b' hab'
    obtain ⟨b, rfl, hab⟩ := h.back ha hab'
    exact (hQ b (h.forth ha hab).1).1 (hall b hab)
  · intro hall b hab
    obtain ⟨hb, hab'⟩ := h.forth ha hab
    exact (hQ b hb).2 (hall (f b) hab')

end Simulates

/-- A correspondence of the classes and members of a new graph to those of an old one that keeps
everything but names. Descriptors need not agree in any way. -/
structure Correspondence (new old : ClassGraph) where
  /-- The old class of a new one. -/
  classOf : ClassId → ClassId
  /-- The old key of a field. -/
  fieldKey : ClassId → MemberKey → MemberKey
  /-- The old key of a method. -/
  methodKey : ClassId → MemberKey → MemberKey
  /-- Every class corresponds to one. -/
  lt_size : ∀ {x : ClassId}, x < new.size → classOf x < old.size
  /-- No two classes correspond to one. -/
  inj : ∀ {x y : ClassId}, x < new.size → y < new.size → classOf x = classOf y → x = y
  /-- Every old class corresponds to one. -/
  surj : ∀ {x' : ClassId}, x' < old.size → ∃ x < new.size, classOf x = x'
  /-- The edges of the hierarchy are kept. -/
  supertypes_iff : ∀ {x y : ClassId}, x < new.size → y < new.size →
    (y ∈ new.supertypes x ↔ classOf y ∈ old.supertypes (classOf x))
  /-- Containers are kept. -/
  outer_eq : ∀ {x : ClassId}, x < new.size →
    (old.classAt (classOf x)).outer = (new.classAt x).outer.map classOf
  /-- Anonymous classes are kept. -/
  isAnonymous_eq : ∀ {x : ClassId}, x < new.size →
    (old.classAt (classOf x)).isAnonymous = (new.classAt x).isAnonymous
  /-- Local classes are kept. -/
  isLocal_eq : ∀ {x : ClassId}, x < new.size →
    (old.classAt (classOf x)).isLocal = (new.classAt x).isLocal
  /-- Every field corresponds to one. -/
  field : ∀ {x : ClassId}, x < new.size → ∀ f ∈ (new.classAt x).fields.values,
    ∃ f' ∈ (old.classAt (classOf x)).fields.values, f'.key = fieldKey x f.key
  /-- Every method corresponds to one. -/
  method : ∀ {x : ClassId} {k : MemberKey}, new.declares x k = true →
    old.declares (classOf x) (methodKey x k) = true
  /-- Every old method corresponds to one. -/
  method_surj : ∀ {x : ClassId} {k' : MemberKey}, x < new.size →
    old.declares (classOf x) k' = true → ∃ k, new.declares x k = true ∧ methodKey x k = k'
  /-- Private and static methods are kept. -/
  overridable_eq : ∀ {x : ClassId} {k : MemberKey}, new.declares x k = true →
    old.overridable (methodKey x k) (classOf x) = new.overridable k x
  /-- Initializers are kept. -/
  isInitializer_eq : ∀ {x : ClassId} {k : MemberKey}, new.declares x k = true →
    (methodKey x k).isInitializer = k.isInitializer
  /-- Methods of classes from which some class inherits share a key exactly if they did before. -/
  key_iff : ∀ {x y z : ClassId} {k l : MemberKey}, new.declares x k = true →
    new.declares y l = true → new.Inherits z x → new.Inherits z y →
      (methodKey x k = methodKey y l ↔ k = l)

namespace ClassGraph

variable {g : ClassGraph}

theorem declares_iff {id : ClassId} {key : MemberKey} :
    g.declares id key = true ↔ ∃ m, g.slot? id key = some m := Option.isSome_iff_exists

theorem declares_iff_mem_keys {id : ClassId} {key : MemberKey} :
    g.declares id key = true ↔ key ∈ (g.classAt id).methods.keys := by
  rw [declares_iff]
  constructor
  · rintro ⟨m, hslot⟩
    exact List.mem_map.2 ⟨(key, m), KeyMap.find?_eq_some_iff.1 hslot, rfl⟩
  · intro hkey
    obtain ⟨⟨_, m⟩, hentry, rfl⟩ := List.mem_map.1 hkey
    exact ⟨m, KeyMap.find?_eq_some_iff.2 hentry⟩

theorem lt_size_of_declares {id : ClassId} {key : MemberKey} (h : g.declares id key = true) :
    id < g.size := by
  obtain ⟨m, hslot⟩ := declares_iff.1 h
  exact lt_size_of_slot? hslot

theorem declares_of_overridable {id : ClassId} {key : MemberKey}
    (h : g.overridable key id = true) : g.declares id key = true := by
  obtain ⟨m, -, hslot, -⟩ := overridable_iff.1 h
  exact declares_iff.2 ⟨m, hslot⟩

/-- A class that inherits from a class of the graph is one of the graph. -/
theorem Inherits.lt_size {x y : ClassId} (h : g.Inherits x y) (hy : y < g.size) : x < g.size := by
  rcases h.cases_head with rfl | ⟨z, hz, -⟩
  · exact hy
  · refine lt_size_of_classAt_ne fun hdefault => ?_
    rw [supertypes, hdefault] at hz
    cases hz

end ClassGraph

namespace Correspondence

variable {new old : ClassGraph}

/-- A correspondence that is checked class by class and key by key. Keys are compared across all
classes, whether some class inherits from both or not. -/
def ofChecked (classOf : ClassId → ClassId) (fieldKey methodKey : ClassId → MemberKey → MemberKey)
    (hclass : ∀ x < new.size, classOf x < old.size ∧
      (old.classAt (classOf x)).outer = (new.classAt x).outer.map classOf ∧
      (old.classAt (classOf x)).isAnonymous = (new.classAt x).isAnonymous ∧
      (old.classAt (classOf x)).isLocal = (new.classAt x).isLocal ∧
      ∀ f ∈ (new.classAt x).fields.values,
        ∃ f' ∈ (old.classAt (classOf x)).fields.values, f'.key = fieldKey x f.key)
    (hsurj : ∀ x' < old.size, ∃ x < new.size, classOf x = x')
    (hmethod : ∀ x < new.size, ∀ k ∈ (new.classAt x).methods.keys,
      methodKey x k ∈ (old.classAt (classOf x)).methods.keys ∧
      old.overridable (methodKey x k) (classOf x) = new.overridable k x ∧
      (methodKey x k).isInitializer = k.isInitializer)
    (hmethodSurj : ∀ x < new.size, ∀ k' ∈ (old.classAt (classOf x)).methods.keys,
      ∃ k ∈ (new.classAt x).methods.keys, methodKey x k = k')
    (hpair : ∀ x < new.size, ∀ y < new.size, (classOf x = classOf y → x = y) ∧
      (y ∈ new.supertypes x ↔ classOf y ∈ old.supertypes (classOf x)) ∧
      ∀ k ∈ (new.classAt x).methods.keys, ∀ l ∈ (new.classAt y).methods.keys,
        (methodKey x k = methodKey y l ↔ k = l)) :
    Correspondence new old where
  classOf
  fieldKey
  methodKey
  lt_size {x} hx := (hclass x hx).1
  inj {x y} hx hy := (hpair x hx y hy).1
  surj {x'} := hsurj x'
  supertypes_iff {x y} hx hy := (hpair x hx y hy).2.1
  outer_eq {x} hx := (hclass x hx).2.1
  isAnonymous_eq {x} hx := (hclass x hx).2.2.1
  isLocal_eq {x} hx := (hclass x hx).2.2.2.1
  field {x} hx := (hclass x hx).2.2.2.2
  method {x k} hk := ClassGraph.declares_iff_mem_keys.2
    (hmethod x (ClassGraph.lt_size_of_declares hk) k (ClassGraph.declares_iff_mem_keys.1 hk)).1
  method_surj {x k'} hx hk' := by
    obtain ⟨k, hk, hkey⟩ := hmethodSurj x hx k' (ClassGraph.declares_iff_mem_keys.1 hk')
    exact ⟨k, ClassGraph.declares_iff_mem_keys.2 hk, hkey⟩
  overridable_eq {x k} hk :=
    (hmethod x (ClassGraph.lt_size_of_declares hk) k (ClassGraph.declares_iff_mem_keys.1 hk)).2.1
  isInitializer_eq {x k} hk :=
    (hmethod x (ClassGraph.lt_size_of_declares hk) k (ClassGraph.declares_iff_mem_keys.1 hk)).2.2
  key_iff {x y _ k l} hk hl _ _ :=
    (hpair x (ClassGraph.lt_size_of_declares hk) y (ClassGraph.lt_size_of_declares hl)).2.2
      k (ClassGraph.declares_iff_mem_keys.1 hk) l (ClassGraph.declares_iff_mem_keys.1 hl)

variable (corr : Correspondence new old)

/-! ## Hierarchies -/

theorem simulates_supertypes :
    Simulates corr.classOf (· < new.size) (fun x y => y ∈ new.supertypes x)
      fun x' y' => y' ∈ old.supertypes x' where
  forth hx hxy := by
    have hy := ClassGraph.lt_size_of_mem_supertypes hxy
    exact ⟨hy, (corr.supertypes_iff hx hy).1 hxy⟩
  back hx hxy := by
    obtain ⟨y, hy, rfl⟩ := corr.surj (ClassGraph.lt_size_of_mem_supertypes hxy)
    exact ⟨y, rfl, (corr.supertypes_iff hx hy).2 hxy⟩

theorem inherits_iff {x y : ClassId} (hx : x < new.size) (hy : y < new.size) :
    new.Inherits x y ↔ old.Inherits (corr.classOf x) (corr.classOf y) := by
  have hchains := corr.simulates_supertypes.reflTransGen
  constructor
  · intro hxy
    exact (hchains.forth hx hxy).2
  · intro hxy
    obtain ⟨z, hz, hxz⟩ := hchains.back hx hxy
    obtain ⟨hlt, -⟩ := hchains.forth hx hxz
    rw [← corr.inj hlt hy hz]
    exact hxz

/-- Classes that a class inherits from declare its method exactly if their old ones declare its
old method. -/
theorem overridable_eq_of_inherits {x y : ClassId} {k : MemberKey}
    (hx : new.declares x k = true) (hy : y < new.size) (hxy : new.Inherits x y) :
    old.overridable (corr.methodKey x k) (corr.classOf y) = new.overridable k y := by
  rw [Bool.eq_iff_iff]
  constructor
  · intro hopen
    obtain ⟨l, hl, hkey⟩ := corr.method_surj hy (ClassGraph.declares_of_overridable hopen)
    obtain rfl := (corr.key_iff hx hl .refl hxy).1 hkey.symm
    rw [← hkey, corr.overridable_eq hl] at hopen
    exact hopen
  · intro hopen
    have hk := ClassGraph.declares_of_overridable hopen
    rw [(corr.key_iff hx hk .refl hxy).2 rfl, corr.overridable_eq hk]
    exact hopen

/-! ## Sources -/

section Sources

variable {x : ClassId} {k : MemberKey} (hx : new.declares x k = true)
include hx

theorem simulates_passedThrough :
    Simulates corr.classOf (fun y => y < new.size ∧ new.Inherits x y) (new.PassedThrough k)
      (old.PassedThrough (corr.methodKey x k)) where
  forth := by
    rintro y z ⟨hy, hxy⟩ ⟨hclosed, hyz⟩
    obtain ⟨hz, hyz'⟩ := corr.simulates_supertypes.forth hy hyz
    exact ⟨⟨hz, hxy.tail hyz⟩, corr.overridable_eq_of_inherits hx hy hxy ▸ hclosed, hyz'⟩
  back := by
    rintro y z' ⟨hy, hxy⟩ ⟨hclosed, hyz'⟩
    obtain ⟨z, rfl, hyz⟩ := corr.simulates_supertypes.back hy hyz'
    exact ⟨z, rfl, corr.overridable_eq_of_inherits hx hy hxy ▸ hclosed, hyz⟩

theorem simulates_overrides :
    Simulates corr.classOf (fun y => y < new.size ∧ new.Inherits x y) (new.Overrides k)
      (old.Overrides (corr.methodKey x k)) := by
  have hup : Simulates corr.classOf (fun y => y < new.size ∧ new.Inherits x y)
      (fun y z => z ∈ new.supertypes y) fun y' z' => z' ∈ old.supertypes y' := by
    refine ⟨fun ⟨hy, hxy⟩ hyz => ?_, fun ⟨hy, _⟩ hyz => corr.simulates_supertypes.back hy hyz⟩
    obtain ⟨hz, hyz'⟩ := corr.simulates_supertypes.forth hy hyz
    exact ⟨⟨hz, hxy.tail hyz⟩, hyz'⟩
  have hchains := hup.comp (corr.simulates_passedThrough hx).reflTransGen
  constructor
  · rintro y z hy ⟨hopen, hyz⟩
    obtain ⟨hz, hyz'⟩ := hchains.forth hy hyz
    exact ⟨hz, corr.overridable_eq_of_inherits hx hz.1 hz.2 ▸ hopen, hyz'⟩
  · rintro y z' hy ⟨hopen, hyz'⟩
    obtain ⟨z, rfl, hyz⟩ := hchains.back hy hyz'
    obtain ⟨hz, -⟩ := hchains.forth hy hyz
    exact ⟨z, rfl, corr.overridable_eq_of_inherits hx hz.1 hz.2 ▸ hopen, hyz⟩

/-- A family starts at corresponding classes. -/
theorem isSource_eq (h : Hierarchy new) (h' : Hierarchy old) :
    h'.isSource (corr.classOf x) (corr.methodKey x k) = h.isSource x k := by
  have hsim := corr.simulates_overrides hx
  have hself : x < new.size ∧ new.Inherits x x := ⟨ClassGraph.lt_size_of_declares hx, .refl⟩
  have hrooted := hsim.transGen.forall_iff
    (fun y' => ∃ z', old.Overrides (corr.methodKey x k) y' z')
    (fun y hy => hsim.exists_iff hy) hself
  rw [Bool.eq_iff_iff, h'.isSource_iff, h.isSource_iff, corr.overridable_eq hx, hrooted]
  exact and_congr_left fun _ => iff_of_true (corr.method hx) hx

end Sources

/-! ## Families -/

/-- Links between methods with the old key `k'` are kept. -/
theorem simulates_linked (k k' : MemberKey) :
    Simulates corr.classOf (fun x => new.overridable k x = true ∧ corr.methodKey x k = k')
      (new.Linked k) (old.Linked k') where
  forth := by
    rintro x y ⟨hx, hkey⟩ ⟨-, hy, z, hzx, hzy⟩
    have hdx := ClassGraph.declares_of_overridable hx
    have hdy := ClassGraph.declares_of_overridable hy
    have hltx := ClassGraph.lt_size_of_overridable hx
    have hlty := ClassGraph.lt_size_of_overridable hy
    have hltz := hzx.lt_size hltx
    have hkey' : corr.methodKey y k = k' := by
      rw [← hkey]
      exact (corr.key_iff hdy hdx hzy hzx).2 rfl
    refine ⟨⟨hy, hkey'⟩, ?_, ?_, corr.classOf z, (corr.inherits_iff hltz hltx).1 hzx,
      (corr.inherits_iff hltz hlty).1 hzy⟩
    · rw [← hkey, corr.overridable_eq hdx]
      exact hx
    · rw [← hkey', corr.overridable_eq hdy]
      exact hy
  back := by
    rintro x y' ⟨hx, hkey⟩ ⟨-, hy', z', hzx', hzy'⟩
    have hdx := ClassGraph.declares_of_overridable hx
    have hltx := ClassGraph.lt_size_of_overridable hx
    obtain ⟨y, hlty, rfl⟩ := corr.surj (ClassGraph.lt_size_of_overridable hy')
    obtain ⟨z, hltz, rfl⟩ := corr.surj (hzx'.lt_size (corr.lt_size hltx))
    have hzx := (corr.inherits_iff hltz hltx).2 hzx'
    have hzy := (corr.inherits_iff hltz hlty).2 hzy'
    obtain ⟨l, hdy, hkey'⟩ := corr.method_surj hlty (ClassGraph.declares_of_overridable hy')
    obtain rfl := (corr.key_iff hdx hdy hzx hzy).1 (hkey.trans hkey'.symm)
    rw [← hkey', corr.overridable_eq hdy] at hy'
    exact ⟨y, rfl, hx, hy', z, hzx, hzy⟩

/-- Methods are of one family exactly if their old ones are. -/
theorem slot_eq_iff (hnew : new.Finished) (hold : old.Finished) {x y : ClassId} {k l : MemberKey}
    {m n m' n' : MethodId} (hx : new.slot? x k = some m) (hy : new.slot? y l = some n)
    (hx' : old.slot? (corr.classOf x) (corr.methodKey x k) = some m')
    (hy' : old.slot? (corr.classOf y) (corr.methodKey y l) = some n') : m = n ↔ m' = n' := by
  have hdx := ClassGraph.declares_iff.2 ⟨m, hx⟩
  have hdy := ClassGraph.declares_iff.2 ⟨n, hy⟩
  have hltx := ClassGraph.lt_size_of_slot? hx
  have hlty := ClassGraph.lt_size_of_slot? hy
  have hsim := (corr.simulates_linked k (corr.methodKey x k)).reflTransGen
  rw [hnew.slot_eq_iff hx hy, hold.slot_eq_iff hx' hy', corr.overridable_eq hdx]
  constructor
  · rintro ⟨rfl, rfl | ⟨hopen, hkindred⟩⟩
    · exact ⟨rfl, .inl rfl⟩
    · obtain ⟨⟨-, hkey⟩, hkindred'⟩ := hsim.forth ⟨hopen, rfl⟩ hkindred
      exact ⟨hkey.symm, .inr ⟨hopen, hkindred'⟩⟩
  · rintro ⟨hkey, hsame | ⟨hopen, hkindred'⟩⟩
    · obtain rfl := corr.inj hltx hlty hsame.symm
      exact ⟨(corr.key_iff hdx hdy .refl .refl).1 hkey, .inl rfl⟩
    · obtain ⟨z, hz, hkindred⟩ := hsim.back ⟨hopen, rfl⟩ hkindred'
      obtain ⟨⟨hopenz, hkeyz⟩, -⟩ := hsim.forth ⟨hopen, rfl⟩ hkindred
      obtain rfl := corr.inj (ClassGraph.lt_size_of_overridable hopenz) hlty hz
      have hdz := ClassGraph.declares_of_overridable hopenz
      exact ⟨(corr.key_iff hdz hdy .refl .refl).1 (hkeyz.trans hkey), .inr ⟨hopen, hkindred⟩⟩

theorem exists_slot {x : ClassId} {k : MemberKey} {m : MethodId} (hx : new.slot? x k = some m) :
    ∃ m', old.slot? (corr.classOf x) (corr.methodKey x k) = some m' :=
  ClassGraph.declares_iff.1 (corr.method (ClassGraph.declares_iff.2 ⟨m, hx⟩))

/-- Every method of the new graph corresponds to one of the old graph, at all classes that hold
it. -/
theorem exists_methodOf (hnew : new.Finished) (hold : old.Finished) :
    ∃ methodOf : MethodId → MethodId, ∀ {x : ClassId} {k : MemberKey} {m : MethodId},
      new.slot? x k = some m →
        old.slot? (corr.classOf x) (corr.methodKey x k) = some (methodOf m) := by
  have hone : ∀ m : MethodId, ∃ m' : MethodId, ∀ (x : ClassId) (k : MemberKey),
      new.slot? x k = some m → old.slot? (corr.classOf x) (corr.methodKey x k) = some m' := by
    intro m
    by_cases hheld : ∃ x k, new.slot? x k = some m
    · obtain ⟨x, k, hx⟩ := hheld
      obtain ⟨m', hx'⟩ := corr.exists_slot hx
      refine ⟨m', fun y l hy => ?_⟩
      obtain ⟨n', hy'⟩ := corr.exists_slot hy
      rw [hy', (corr.slot_eq_iff hnew hold hx hy hx' hy').1 rfl]
    · exact ⟨0, fun x k hx => absurd ⟨x, k, hx⟩ hheld⟩
  choose methodOf hmethodOf using hone
  exact ⟨methodOf, fun {x k m} hx => hmethodOf m x k hx⟩

end Correspondence

end StableNaming
