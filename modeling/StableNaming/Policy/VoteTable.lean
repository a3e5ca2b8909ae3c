import StableNaming.Policy.Basic
import StableNaming.Symbol.MemberRef
import StableNaming.Collection.Dictionary

/-!
# Votes by table

A policy that looks its votes up. A member stands under its class and key; an
asterisk answers for every symbol that does not stand in the table.
-/

namespace StableNaming

/-- Votes and packages by symbol. -/
structure VoteTable where
  /-- The name of the policy. -/
  name : String
  /-- Votes on classes. -/
  classes : Dictionary String Int32 := .empty
  /-- Votes on fields. -/
  fields : Dictionary String Int32 := .empty
  /-- Votes on methods. -/
  methods : Dictionary String Int32 := .empty
  /-- Packages of classes. -/
  packages : Dictionary String String := .empty

namespace VoteTable

/-- The entry of a symbol, or else the entry for all symbols. -/
def find? {α : Type} (entries : Dictionary String α) (symbol : String) : Option α :=
  (entries.find? symbol).or (entries.find? "*")

/-- The policy that votes as the table says. -/
def policy (t : VoteTable) : NamingPolicy where
  name := t.name
  classVote c := (find? t.classes c.name).getD 0
  fieldVote c f := (find? t.fields (MemberRef.mk c.name f.key).text).getD 0
  methodVote c m := (find? t.methods (MemberRef.mk c.name m.key).text).getD 0
  package? c := find? t.packages c.name

end VoteTable

end StableNaming
