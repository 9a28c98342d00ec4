import RecordService.Main
import RecordService.Proofs.Store.KeyedTables
import RecordService.Store.Recorded
import RecordService.Proofs.Plan.Balance
import RecordService.Proofs.Plan.Stages
import RecordService.Proofs.Plan.Parameters
import RecordService.Proofs.Request.Alike
import RecordService.Proofs.Plan.Operands
import RecordService.Proofs.Catalog.Declared
import RecordService.Proofs.Plan.Joins
import RecordService.Proofs.Plan.Known
import RecordService.Proofs.Plan.Scope
import RecordService.Proofs.Plan.Reported
import RecordService.Proofs.Request.Pruned
import RecordService.Proofs.Plan.Traceless
import RecordService.Proofs.Sql.Reading
import RecordService.Proofs.Plan.Clauses
import RecordService.Proofs.Plan.Crossings
import RecordService.Proofs.Plan.Needed
import RecordService.Proofs.Plan.Shapes
import RecordService.Proofs.Plan.Shown
import RecordService.Proofs.Plan.Represented
import RecordService.Proofs.Record.Flattening
import RecordService.Proofs.Record.Grouping
import RecordService.Proofs.Record.Rebuilding
import RecordService.Proofs.Plan.Tidiness
import RecordService.Proofs.Repository.Transactions
import RecordService.Proofs.Repository.Payloads
import RecordService.Proofs.Repository.Work
import RecordService.Proofs.Repository.Commits
import RecordService.Proofs.Repository.Protected
import RecordService.Proofs.Plan.Building
import RecordService.Proofs.Plan.Agreement
import RecordService.Proofs.Plan.Records
import RecordService.Proofs.Plan.Selections
import RecordService.Proofs.Record.Nesting
import RecordService.Proofs.Record.Loading
import RecordService.Proofs.Sql.Joined
import RecordService.Proofs.Plan.Recordings
import RecordService.Proofs.Plan.Isolated
import RecordService.Proofs.Repository.Attachments
import RecordService.Proofs.Repository.Staleness
import RecordService.Proofs.Repository.Rereads
import RecordService.Cache.Use
import RecordService.Proofs.Cache.Freshness
import RecordService.Handler.PoolUse
import RecordService.Proofs.Handler.Moves
import RecordService.Proofs.Handler.Conservation
import RecordService.Proofs.Handler.Wakeups
import RecordService.Store.Replaced
import RecordService.Proofs.Store.Replacements
import RecordService.Proofs.Repository.Snapshots
import RecordService.Proofs.Repository.WriteBack
import RecordService.Proofs.Repository.Targets
import RecordService.Proofs.Repository.Removals
import RecordService.Worker.Dialogue
import RecordService.Worker.Transfer
import RecordService.Worker.Framing
import RecordService.Proofs.Worker.Protocol
import RecordService.Proofs.Worker.Frames
import RecordService.Proofs.Handler.Alone
import RecordService.Proofs.Handler.Conversations
import RecordService.Handler.Line
import RecordService.Handler.Service
import RecordService.Proofs.Handler.Lines
import RecordService.Proofs.Handler.InStep
import RecordService.Proofs.Json.Keyed
import RecordService.Proofs.Worker.Messages
import RecordService.Proofs.Sql.Mentions
import RecordService.Proofs.Repository.Assignments
import RecordService.Proofs.Repository.Replay
import RecordService.Proofs.Repository.Rewriting
import RecordService.Proofs.Repository.LinkKeys
import RecordService.Proofs.Record.Collapsing
import RecordService.Proofs.Plan.Parents
import RecordService.Proofs.Plan.Orders
import RecordService.Proofs.Request.Entries
import RecordService.Proofs.Request.Prefixes
import RecordService.Proofs.Request.Written
import RecordService.Proofs.Text.Folding
import RecordService.Proofs.Sql.Matching
import RecordService.Proofs.Record.Runs
import RecordService.Proofs.Record.Aggregated
import RecordService.Proofs.Double.Rounding
import RecordService.Proofs.Double.Digits
import RecordService.Proofs.Double.Spelled
import RecordService.Proofs.Sql.Values
import RecordService.Proofs.Plan.KeySets
import RecordService.Proofs.Repository.Settled
import RecordService.Proofs.Repository.GivenKeys
import RecordService.Proofs.Repository.Marks
import RecordService.Proofs.Double.Scaled
import RecordService.Proofs.Json.Contents
import RecordService.Proofs.Json.Numerals
import RecordService.Proofs.Json.Scanned
import RecordService.Proofs.Json.Reread
import RecordService.Proofs.Json.Shorter
import RecordService.Proofs.Json.Kept
import RecordService.Proofs.Sql.Keywords
import RecordService.Proofs.Plan.Pages
import RecordService.Proofs.Plan.Aliases
import RecordService.Proofs.Plan.Chains
import RecordService.Proofs.Handler.Paths
import RecordService.Proofs.Text.Slugs
import RecordService.Proofs.Plan.Histories
import RecordService.Proofs.Request.Lists
import RecordService.Proofs.Record.ToldApart
