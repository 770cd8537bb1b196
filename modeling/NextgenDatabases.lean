import NextgenDatabases.Kraft.Proposals
import NextgenDatabases.Kraft.Membership
import NextgenDatabases.Kraft.Tallies
import NextgenDatabases.Kraft.Votes
import NextgenDatabases.Kraft.Recovery
import NextgenDatabases.Verisim.Atomicity
import NextgenDatabases.Verisim.Rebuild
import NextgenDatabases.Wal.Rotation
import NextgenDatabases.Wal.Frames
import NextgenDatabases.Wal.Pruning
import NextgenDatabases.Wal.Checkpoints
import NextgenDatabases.Verisim.Deadlock
import NextgenDatabases.Verisim.Serializable
import NextgenDatabases.Verisim.Interleaving
import NextgenDatabases.Verisim.Markers
import NextgenDatabases.Verisim.Writers
import NextgenDatabases.Verisim.Coherence
import NextgenDatabases.Verisim.Provenance
import NextgenDatabases.Semantic.Compilation
import NextgenDatabases.Semantic.Privacy
import NextgenDatabases.Registry.LeaderCompleteness
import NextgenDatabases.Federation.Consensus
import NextgenDatabases.Federation.Selection
import NextgenDatabases.Federation.Persistence
import NextgenDatabases.Registry.RoundTrip
import NextgenDatabases.Registry.Holes
import NextgenDatabases.Vcl.Subtyping
import NextgenDatabases.Vcl.Leftover
import NextgenDatabases.Vcl.Projections
import NextgenDatabases.Vcl.Proofs
import NextgenDatabases.Endpoint.Inserts
import NextgenDatabases.Endpoint.Filters
import NextgenDatabases.Planner.Carried
import NextgenDatabases.Normalizer.Decomposition
import NextgenDatabases.Normalizer.Confidence
import NextgenDatabases.Normalizer.ProofBlobs
import NextgenDatabases.Lithoglyph.Items
import NextgenDatabases.Lithoglyph.Checked
import NextgenDatabases.Lithoglyph.Unchecked
import NextgenDatabases.Lithoglyph.Skipping
import NextgenDatabases.Lithoglyph.Formats
import NextgenDatabases.Lithoglyph.Program
import NextgenDatabases.Lithoglyph.Isolation
import NextgenDatabases.Lithoglyph.Atomicity
import NextgenDatabases.Lithoglyph.FreeList
import NextgenDatabases.Lithoglyph.Spelling
import NextgenDatabases.Lithoglyph.Interchange
import NextgenDatabases.Lithoglyph.Journal
import NextgenDatabases.Lithoglyph.Listing
import NextgenDatabases.Lithoglyph.Agreement
import NextgenDatabases.Graph.Edges
import NextgenDatabases.Graph.Neighborhood
import NextgenDatabases.Storage.Namespaces
import NextgenDatabases.Temporal.Persistence
import NextgenDatabases.Hnsw.Exactness
import NextgenDatabases.Hnsw.Structure
import NextgenDatabases.Planner.Tokens
import NextgenDatabases.Conflicts.Linearizability
import NextgenDatabases.Lithoglyph.ForthEntries
import NextgenDatabases.Kraft.Agreement
import NextgenDatabases.Registry.Applied
import NextgenDatabases.Storage.Reopening
import NextgenDatabases.Verisim.ProvenanceStore
import NextgenDatabases.Sharding.HashRing
import NextgenDatabases.Sharding.Placement
import NextgenDatabases.Access.Gate
import NextgenDatabases.Temporal.TimeTravel
import NextgenDatabases.Schema.Registry
import NextgenDatabases.Repl.Formatter
import NextgenDatabases.Endpoint.Transactions
import NextgenDatabases.Verisim.DriftMonitor
import NextgenDatabases.Verisim.Regeneration
