import StableNaming.Graph.Hierarchy

/-!
# Override families

Methods with one key belong to one family if a class of the graph inherits from
both declaring classes, directly or through a chain of such classes: a call can
reach either, so they must have one name. Private and static methods take no
part. The sources of a method are the topmost declarations that it overrides.
-/

namespace StableNaming

/-- Whether a class declares a method under the key that takes part in dispatch. -/
def ClassGraph.overridable (g : ClassGraph) (key : MemberKey) (id : ClassId) : Bool :=
  (g.methodIn? id key).any fun m => !m.access.isPrivateOrStatic

namespace Hierarchy

variable {g : ClassGraph} (h : Hierarchy g)

/-- The classes that declare an overridable method under the key and from which some class
inherits that inherits from one of the given classes too. -/
def relatives (key : MemberKey) (ids : List ClassId) : List ClassId :=
  (h.ancestors (h.descendants ids)).filter (g.overridable key)

/-- The family of an overridable method as the hierarchy has it, ordered by name. -/
def hierarchyFamily (key : MemberKey) (id : ClassId) : List ClassId :=
  g.sortByName (Search.spread (h.relatives key) g.size [id])

/-- The classes whose methods under the key must be named alike, ordered by name. The
list stored with a shared method is the family. -/
def family (id : ClassId) (key : MemberKey) : List ClassId :=
  match g.methodIn? id key with
  | none => []
  | some m =>
    if m.access.isPrivateOrStatic then [id]
    else if g.nameAt id ∈ m.related then m.related.filterMap h.idOf?
    else h.hierarchyFamily key id

/-- The nearest ancestors that declare an overridable method under the key. Ancestors
that do not are passed through. -/
def declaringAncestors (key : MemberKey) (id : ClassId) : List ClassId :=
  let up (x : ClassId) : List ClassId := if g.overridable key x then [] else h.supertypes x
  (Search.reach up g.size (h.supertypes id)).filter (g.overridable key)

/-- The topmost declarations that the method of a class overrides, ordered by name. A
class with none above it is its own source. -/
def sources (id : ClassId) (key : MemberKey) : List ClassId :=
  if g.declares id key && !g.overridable key id then [id]
  else
    let above := Search.reach (h.declaringAncestors key) g.size (h.declaringAncestors key id)
    let roots := above.filter fun x => (h.declaringAncestors key x).isEmpty
    if roots.isEmpty && g.declares id key then [id] else g.sortByName roots

/-- Whether the class declares the method without overriding anything. -/
def isSource (id : ClassId) (key : MemberKey) : Bool :=
  g.declares id key && h.sources id key == [id]

/-- The relatives of several classes are those of each. -/
theorem mem_relatives_iff {key : MemberKey} {ids : List ClassId} {x : ClassId} :
    x ∈ h.relatives key ids ↔ ∃ id ∈ ids, x ∈ h.relatives key [id] := by
  simp only [relatives, ancestors, descendants, List.mem_filter]
  rw [Search.mem_reach_iff_exists]
  constructor
  · rintro ⟨⟨y, hy, hx⟩, hk⟩
    obtain ⟨id, hid, hy⟩ := Search.mem_reach_iff_exists.1 hy
    exact ⟨id, hid, Search.mem_reach_iff_exists.2 ⟨y, hy, hx⟩, hk⟩
  · rintro ⟨id, hid, hx, hk⟩
    obtain ⟨y, hy, hx⟩ := Search.mem_reach_iff_exists.1 hx
    exact ⟨⟨y, Search.mem_reach_iff_exists.2 ⟨id, hid, hy⟩, hx⟩, hk⟩

/-- The family in the hierarchy holds what chains of relatives lead to. -/
theorem mem_hierarchyFamily_iff {key : MemberKey} {id x : ClassId} :
    x ∈ h.hierarchyFamily key id ↔
      Search.Reachable (fun y => h.relatives key [y]) g.size [id] x :=
  Collection.mem_sortOn.trans (Search.mem_spread_iff fun _ _ => h.mem_relatives_iff)

end Hierarchy

end StableNaming
