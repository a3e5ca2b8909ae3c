import StableNaming.Text.Lossy
import StableNaming.ClassFile.Archive
import StableNaming.Graph.Builder
import StableNaming.Graph.Index
import StableNaming.Graph.Component
import StableNaming.Graph.Renaming
import StableNaming.Mapping.Matches
import StableNaming.Mapping.Tiny
import StableNaming.Policy.VoteTable
import StableNaming.Naming.Generator
import StableNaming.Proofs.Collection.Lookup
import StableNaming.Proofs.Collection.Fold
import StableNaming.Proofs.Text.Decimal
import StableNaming.Proofs.Text.Line
import StableNaming.Proofs.Text.Split
import StableNaming.Proofs.Text.Utf8
import StableNaming.Proofs.Text.LineEnds
import StableNaming.Proofs.Symbol.GeneratedName
import StableNaming.Proofs.Descriptor.References
import StableNaming.Proofs.Descriptor.Checking
import StableNaming.Proofs.Descriptor.Substitution
import StableNaming.Proofs.ClassFile.Reading
import StableNaming.Proofs.ClassFile.Prefixes
import StableNaming.Proofs.ClassFile.TextConstants
import StableNaming.Proofs.ClassFile.Assembly
import StableNaming.Proofs.ClassFile.Assembled
import StableNaming.Proofs.Graph.Lookup
import StableNaming.Proofs.Graph.Forest
import StableNaming.Proofs.Graph.Nesting
import StableNaming.Proofs.Graph.Growth
import StableNaming.Proofs.Graph.Kinship
import StableNaming.Proofs.Graph.Joining
import StableNaming.Proofs.Graph.RelationPass
import StableNaming.Proofs.Graph.JoinPass
import StableNaming.Proofs.Graph.Source
import StableNaming.Proofs.Graph.Closure
import StableNaming.Proofs.Graph.Loading
import StableNaming.Proofs.Graph.Families
import StableNaming.Proofs.Graph.Topmost
import StableNaming.Proofs.Graph.Embedding
import StableNaming.Proofs.Graph.Correspondence
import StableNaming.Proofs.Graph.Renaming
import StableNaming.Proofs.Graph.TopLevel
import StableNaming.Proofs.Graph.Placement
import StableNaming.Proofs.Graph.Index
import StableNaming.Proofs.Graph.Edges
import StableNaming.Proofs.Graph.Isomorphism
import StableNaming.Proofs.Graph.FamilyOrder
import StableNaming.Proofs.Graph.Reordering
import StableNaming.Proofs.Graph.Initializers
import StableNaming.Proofs.Graph.Components
import StableNaming.Proofs.Mapping.Indexing
import StableNaming.Proofs.Mapping.CounterFile
import StableNaming.Proofs.Mapping.TinyLines
import StableNaming.Proofs.Mapping.TinyTable
import StableNaming.Proofs.Mapping.Targets
import StableNaming.Proofs.Mapping.Merging
import StableNaming.Proofs.Mapping.TinyEntries
import StableNaming.Proofs.Mapping.TinyRows
import StableNaming.Proofs.Mapping.TinyColumns
import StableNaming.Proofs.Mapping.TinyOrder
import StableNaming.Proofs.Mapping.Comments
import StableNaming.Proofs.Mapping.MatchLines
import StableNaming.Proofs.Mapping.MatchTable
import StableNaming.Proofs.Policy.Usual
import StableNaming.Proofs.Policy.Strongest
import StableNaming.Proofs.Naming.Outcome
import StableNaming.Proofs.Naming.Decision
import StableNaming.Proofs.Naming.Steps
import StableNaming.Proofs.Naming.Run
import StableNaming.Proofs.Naming.Numbers
import StableNaming.Proofs.Naming.Moves
import StableNaming.Proofs.Naming.Reaching
import StableNaming.Proofs.Naming.Accounts
import StableNaming.Proofs.Naming.Failure
import StableNaming.Proofs.Naming.Inheritance
import StableNaming.Proofs.Naming.FreshRun
import StableNaming.Proofs.Naming.Generation
import StableNaming.Proofs.Naming.FamilyNames
import StableNaming.Proofs.Naming.Planned
import StableNaming.Proofs.Naming.Recorded
import StableNaming.Proofs.Naming.Emission
import StableNaming.Proofs.Naming.RoundTrip
import StableNaming.Proofs.Naming.Containers
import StableNaming.Proofs.Naming.Refusal
import StableNaming.Proofs.Naming.Enlargement
import StableNaming.Proofs.Naming.Update
import StableNaming.Proofs.Naming.Reobfuscation
import StableNaming.Proofs.Naming.Collision
import StableNaming.Proofs.Naming.Passing
import StableNaming.Proofs.Naming.Lineage
import StableNaming.Proofs.Naming.FamilyCarry
import StableNaming.Proofs.Naming.Lifetime
import StableNaming.Proofs.Naming.Repetition
import StableNaming.Proofs.Naming.KeptNames
import StableNaming.Proofs.Naming.Renaming
import StableNaming.Proofs.Naming.Enclosing
import StableNaming.Proofs.Naming.Roots
import StableNaming.Proofs.Naming.Distinct
import StableNaming.Proofs.Naming.Reordering
import StableNaming.Proofs.Naming.Dialogue
