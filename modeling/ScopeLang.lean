import ScopeLang.Host.Handles
import ScopeLang.Host.Kit
import ScopeLang.Proofs.Activations
import ScopeLang.Proofs.Captures
import ScopeLang.Proofs.Children
import ScopeLang.Proofs.Interning
import ScopeLang.Proofs.Keys
import ScopeLang.Proofs.Ranking
import ScopeLang.Proofs.TypedStore
import ScopeLang.Proofs.Dominance
import ScopeLang.Proofs.Placement
import ScopeLang.Proofs.Control
import ScopeLang.Proofs.Signals
import ScopeLang.Proofs.Amendments
import ScopeLang.Proofs.Lost
import ScopeLang.Proofs.Lookalikes
import ScopeLang.Proofs.Answers
import ScopeLang.Proofs.Replicas
import ScopeLang.Proofs.Parallel
import ScopeLang.Proofs.Applications
import ScopeLang.Proofs.Parting
import ScopeLang.Proofs.Interleaving
import ScopeLang.Proofs.Within
import ScopeLang.Proofs.Trees
import ScopeLang.Proofs.Disciplines
import ScopeLang.Proofs.Releases
import ScopeLang.Proofs.Independence
import ScopeLang.Proofs.Rebinding
import ScopeLang.Proofs.Naming
import ScopeLang.Proofs.Upholding
import ScopeLang.Proofs.Views
import ScopeLang.Proofs.Annotations
import ScopeLang.Proofs.Constants
import ScopeLang.Proofs.Atomicity
import ScopeLang.Proofs.Primitives
import ScopeLang.Proofs.Layouts
import ScopeLang.Proofs.Provenance
import ScopeLang.Proofs.Making
import ScopeLang.Proofs.Tending
import ScopeLang.Proofs.Upkeep
import ScopeLang.Proofs.Members
import ScopeLang.Proofs.Dictionaries
import ScopeLang.Proofs.Spellings
import ScopeLang.Proofs.Expansion
import ScopeLang.Proofs.Acceptance
import ScopeLang.Proofs.Equivalence
import ScopeLang.Proofs.SearchOrder
import ScopeLang.Proofs.Holdings
import ScopeLang.Proofs.Blindness
import ScopeLang.Proofs.Custody
import ScopeLang.Proofs.Steady
import ScopeLang.Proofs.Steadiness
import ScopeLang.Proofs.Keepers
import ScopeLang.Proofs.MethodScopes
import ScopeLang.Proofs.Eliding
import ScopeLang.Proofs.Assignments
import ScopeLang.Proofs.Lenses
import ScopeLang.Proofs.Integers
import ScopeLang.Proofs.Accessors
import ScopeLang.Proofs.AsWritten
import ScopeLang.Proofs.Storing
import ScopeLang.Proofs.Slices
import ScopeLang.Proofs.EqualCopies
import ScopeLang.Proofs.Teardowns
import ScopeLang.Proofs.Lines
import ScopeLang.Proofs.Grounding
import ScopeLang.Proofs.Lineage
import ScopeLang.Proofs.Walks
