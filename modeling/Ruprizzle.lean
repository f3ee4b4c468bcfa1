import Ruprizzle.Parser.Accepted
import Ruprizzle.Data.Heights
import Ruprizzle.Data.Like
import Ruprizzle.Migrate.Layout
import Ruprizzle.Migrate.Panic
import Ruprizzle.Migrate.Order
import Ruprizzle.Migrate.ForeignKeys
import Ruprizzle.Dialect.Incremental
import Ruprizzle.Migrate.Database
import Ruprizzle.Migrate.ColumnLaw
import Ruprizzle.Migrate.Splitter
import Ruprizzle.Migrate.SplitText
import Ruprizzle.Migrate.Spoken
import Ruprizzle.Migrate.SplitLaw
import Ruprizzle.Data.Interleave
import Ruprizzle.Migrate.Migrator
import Ruprizzle.Migrate.Deployer
import Ruprizzle.Migrate.Concurrency
import Ruprizzle.Migrate.Checksums
import Ruprizzle.Migrate.Snapshot
import Ruprizzle.Parser.Places
import Ruprizzle.Parser.Resolution
import Ruprizzle.Parser.Synthesis
import Ruprizzle.Parser.Groups
import Ruprizzle.Parser.RelationLaw
import Ruprizzle.Runtime.Filter
import Ruprizzle.Runtime.Compile
import Ruprizzle.Data.Scan
import Ruprizzle.Runtime.Lexer
import Ruprizzle.Runtime.Statement
import Ruprizzle.Runtime.Compiler
import Ruprizzle.Runtime.Renumber
import Ruprizzle.Runtime.Flow
import Ruprizzle.Runtime.Reads
import Ruprizzle.Runtime.Spans
import Ruprizzle.Runtime.Spelled
import Ruprizzle.Runtime.Pushes
import Ruprizzle.Runtime.Closed
import Ruprizzle.Runtime.Query
import Ruprizzle.Runtime.Clauses
import Ruprizzle.Runtime.Alignment
import Ruprizzle.Runtime.Placeholders
import Ruprizzle.Data.Truth
import Ruprizzle.Data.Fallible
import Ruprizzle.Data.Upserts
import Ruprizzle.Data.Nesting
import Ruprizzle.Data.Conditions
import Ruprizzle.Data.Joins
import Ruprizzle.Runtime.Words
import Ruprizzle.Runtime.Meaning
import Ruprizzle.Runtime.Wording
import Ruprizzle.Runtime.Filters
import Ruprizzle.Runtime.FilterLaw
import Ruprizzle.Runtime.Rows
import Ruprizzle.Runtime.LiveJoins
import Ruprizzle.Runtime.Builder
import Ruprizzle.Runtime.Steady
import Ruprizzle.Runtime.Scope
import Ruprizzle.Runtime.Counting
import Ruprizzle.Data.TextOrder
import Ruprizzle.Runtime.Times
import Ruprizzle.Runtime.Ordered
import Ruprizzle.Data.Batches
import Ruprizzle.Runtime.Include
import Ruprizzle.Runtime.Binds
import Ruprizzle.Runtime.Batching
import Ruprizzle.Runtime.Includes
import Ruprizzle.Runtime.ManyToMany
import Ruprizzle.Codegen.Creates
import Ruprizzle.Runtime.Inserts
import Ruprizzle.Runtime.Nested
import Ruprizzle.Codegen.Helpers
import Ruprizzle.Codegen.HelperLaw
import Ruprizzle.Codegen.RelationHelpers
import Ruprizzle.Cache.Memory
import Ruprizzle.Data.Steps
import Ruprizzle.Cache.Pieces
import Ruprizzle.Cache.Contract
import Ruprizzle.Cache.Interleaving
import Ruprizzle.Cache.NoStale
import Ruprizzle.Data.Savepoints
import Ruprizzle.Runtime.Transaction
import Ruprizzle.Runtime.Savepoint
import Ruprizzle.Lsp.Document
import Ruprizzle.Lsp.Offsets
import Ruprizzle.Lsp.Format
import Ruprizzle.Lsp.FormatLaw
import Ruprizzle.Lsp.Mirror
import Ruprizzle.Lsp.Blocks
import Ruprizzle.Lsp.Completion
import Ruprizzle.Lsp.CompletionLaw
import Ruprizzle.Runtime.RusqlitePool
import Ruprizzle.Data.ContextFree
import Ruprizzle.Runtime.Grammar
import Ruprizzle.Runtime.Watch
import Ruprizzle.Runtime.Phrases
import Ruprizzle.Runtime.FilterPhrases
import Ruprizzle.Runtime.OperatorPhrases
import Ruprizzle.Runtime.Spoken
import Ruprizzle.Runtime.ClausePhrases
import Ruprizzle.Runtime.Sentences
import Ruprizzle.Runtime.Accepted
import Ruprizzle.Data.Polling
import Ruprizzle.Runtime.Streams
import Ruprizzle.Runtime.TokioPostgres
import Ruprizzle.Data.Commands
import Ruprizzle.Migrate.LoneDeployer
import Ruprizzle.Migrate.Rollback
import Ruprizzle.Data.Retrying
import Ruprizzle.Runtime.Errors
import Ruprizzle.Runtime.Attempts
import Ruprizzle.Data.Reachability
import Ruprizzle.Migrate.Components
import Ruprizzle.Migrate.Detection
import Ruprizzle.Parser.Strings
import Ruprizzle.Runtime.Shifts
import Ruprizzle.Parser.References
import Ruprizzle.Parser.Inverses
import Ruprizzle.Runtime.BulkInserts
import Ruprizzle.Data.Tables
import Ruprizzle.Runtime.NestedUpdates
import Ruprizzle.Runtime.Cascades
import Ruprizzle.Data.Sessions
import Ruprizzle.Runtime.RelationWrites
import Ruprizzle.Runtime.RelationSets
import Ruprizzle.Runtime.JoinSets
import Ruprizzle.Runtime.NestedSets
import Ruprizzle.Runtime.Prepared
import Ruprizzle.Runtime.Hierarchy
import Ruprizzle.Runtime.Hierarchies
import Ruprizzle.Runtime.Sanitize
import Ruprizzle.Runtime.ParameterLimit
import Ruprizzle.Runtime.Decoding
import Ruprizzle.Runtime.Decoders
import Ruprizzle.Runtime.WholeTable
import Ruprizzle.Data.Splitting
import Ruprizzle.Data.Edits
import Ruprizzle.Data.Extremes
import Ruprizzle.Data.Turns
import Ruprizzle.Data.Walks
import Ruprizzle.Runtime.Recursion
import Ruprizzle.Runtime.ReplicaSafe
import Ruprizzle.Runtime.Replicas
import Ruprizzle.Runtime.Routing
import Ruprizzle.Runtime.Balancing
import Ruprizzle.Core.Suggest
import Ruprizzle.Migrate.Rename
import Ruprizzle.Runtime.Spatial
import Ruprizzle.Runtime.SpatialText
import Ruprizzle.Runtime.Wkt
import Ruprizzle.Runtime.WktCounts
import Ruprizzle.Runtime.Arrays
import Ruprizzle.Runtime.ArrayCells
import Ruprizzle.Runtime.Edge
import Ruprizzle.Runtime.EdgeLaw
import Ruprizzle.Runtime.EdgeRows
import Ruprizzle.Runtime.Violations
import Ruprizzle.Runtime.ViolationLaw
import Ruprizzle.Runtime.Search
import Ruprizzle.Cli.Seed
import Ruprizzle.Cli.SeedLaw
import Ruprizzle.Cli.SeedRuns
import Ruprizzle.Cli.Studio
import Ruprizzle.Cli.StudioLaw
import Ruprizzle.Cli.StudioSqlite
