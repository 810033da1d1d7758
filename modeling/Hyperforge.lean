import Hyperforge.Library.Coroutines
import Hyperforge.Library.Crash
import Hyperforge.Library.Results
import Hyperforge.Library.Disk
import Hyperforge.Procedural.Graph
import Hyperforge.Procedural.Evolution
import Hyperforge.Procedural.Store
import Hyperforge.Library.Journal
import Hyperforge.Procedural.Rounds
import Hyperforge.Procedural.Retention
import Hyperforge.Procedural.Leakage
import Hyperforge.Procedural.Artifacts
import Hyperforge.Codemode.Callbacks
import Hyperforge.Codemode.Admission
import Hyperforge.Library.Json
import Hyperforge.Codemode.Protocol
import Hyperforge.Codemode.Encoder
import Hyperforge.Codemode.RoundTrip
import Hyperforge.Codemode.Plain
import Hyperforge.Codemode.Messages
import Hyperforge.Codemode.Reserved
import Hyperforge.Library.Traversal
import Hyperforge.Procedural.Validity
import Hyperforge.Procedural.Candidate
import Hyperforge.Library.Json.Dict
import Hyperforge.Library.Json.Nodes
import Hyperforge.Library.Json.Groups
import Hyperforge.Library.JsonSchema
import Hyperforge.Mcp.ToolSchema
import Hyperforge.Mcp.Rewrite
import Hyperforge.Mcp.Stable
import Hyperforge.Mcp.NormalForm
import Hyperforge.Mcp.Meaning
import Hyperforge.Mcp.Termination
import Hyperforge.Mcp.WorkChain
import Hyperforge.Library.Pool
import Hyperforge.Library.Redis
import Hyperforge.Mcp.Sessions
import Hyperforge.Mcp.SessionRules
import Hyperforge.Mcp.SessionCapacity
import Hyperforge.Mcp.Frames
import Hyperforge.Library.Program
import Hyperforge.Mcp.CallMarkers
import Hyperforge.Mcp.Mailbox
import Hyperforge.Mcp.ServerPool
import Hyperforge.Mcp.PoolSteps
import Hyperforge.Mcp.PoolSafety
import Hyperforge.Mcp.PoolOperations
import Hyperforge.Mcp.PoolRuns
import Hyperforge.Models
import Hyperforge.Library.Lru
import Hyperforge.Server.Sessions
import Hyperforge.Library.Query
import Hyperforge.Database.Tables
import Hyperforge.Database.AgentManager
import Hyperforge.Database.Prompts
import Hyperforge.Database.Encryption
import Hyperforge.Database.Export
import Hyperforge.Database.Atomicity
import Hyperforge.Database.Content
import Hyperforge.Database.Lossless
import Hyperforge.Broker.Local
import Hyperforge.Broker.Streams
import Hyperforge.Broker.Delivery
import Hyperforge.Codemode.RunMessages
import Hyperforge.Codemode.Streaming
import Hyperforge.Codemode.Bounded
import Hyperforge.Library.Json.Collapse
import Hyperforge.Codemode.Strict
import Hyperforge.Codemode.Relay
import Hyperforge.Codemode.Legacy
import Hyperforge.Library.Json.Ascii
import Hyperforge.Procedural.Fingerprint
import Hyperforge.Codemode.Sanitizer
import Hyperforge.Library.JsonSchema.Inline
import Hyperforge.Library.JsonSchema.Positions
import Hyperforge.Completions.ConvertSchema
import Hyperforge.Completions.AdditionalProperties
import Hyperforge.HarnessSdk.Schema
import Hyperforge.HarnessSdk.Flatten
import Hyperforge.HarnessSdk.Generation
import Hyperforge.HarnessSdk.ToolCalls
import Hyperforge.HarnessSdk.Turn
import Hyperforge.HarnessSdk.Steps
import Hyperforge.HarnessSdk.Usage
import Hyperforge.Library.Base64
import Hyperforge.Library.Redis.Lasting
import Hyperforge.A2a.TaskStore
import Hyperforge.A2a.Tenants
import Hyperforge.A2a.Pagination
import Hyperforge.Procedural.Neighborhood
import Hyperforge.Procedural.Schedule
import Hyperforge.Library.Json.Pretty
import Hyperforge.Procedural.Rejections
import Hyperforge.Codemode.Dispatch
import Hyperforge.Codemode.Policy
import Hyperforge.Library.Split
import Hyperforge.Library.Formula
import Hyperforge.Smart.Tools
import Hyperforge.Library.Json.Spaced
import Hyperforge.Library.Json.Unordered
import Hyperforge.Contexts
import Hyperforge.Smart.Attempts
import Hyperforge.Contexts.Validation
import Hyperforge.NucliaDB.Hydrate
import Hyperforge.NucliaDB.Rerank
import Hyperforge.NucliaDB.Filters
import Hyperforge.NucliaDB.LegacyFilters
import Hyperforge.NucliaDB.FilterExpressions
import Hyperforge.Library.Decimal
import Hyperforge.Summarize.Footnotes
import Hyperforge.Summarize.Citations
import Hyperforge.NucliaDB.LabelFilters
import Hyperforge.Library.Json.Groups
import Hyperforge.Procedural.Rollout
import Hyperforge.Manager.ExecuteRaw
import Hyperforge.Broker.Replies
import Hyperforge.Completions.StrictTools
import Hyperforge.Library.Json.Shell
import Hyperforge.Database.LlmMigration
import Hyperforge.Memory.History
import Hyperforge.Library.Nested
import Hyperforge.Database.DriverUpdate
import Hyperforge.Library.Runs
import Hyperforge.HarnessSdk.Repair
import Hyperforge.A2a.Feedback
import Hyperforge.A2a.Claims
import Hyperforge.A2a.Rounds
import Hyperforge.A2a.Relays
import Hyperforge.A2a.Pending
import Hyperforge.Library.Calls
import Hyperforge.NucliaDB.Sync
import Hyperforge.NucliaDB.SyncSafety
import Hyperforge.Codemode.Session
import Hyperforge.Codemode.SessionSafety
