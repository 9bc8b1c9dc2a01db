import IndieWorker.Lib.Run
import IndieWorker.Lib.BigEndian
import IndieWorker.Lib.Reader
import IndieWorker.Onboarding
import IndieWorker.Onboarding.Ladder
import IndieWorker.Session.Frame
import IndieWorker.Lib.Framing
import IndieWorker.Session.RoundTrip
import IndieWorker.Session.Decoder
import IndieWorker.Session.Schedule
import IndieWorker.Lib.Overflow
import IndieWorker.Session.Cursor
import IndieWorker.Session.Ledger
import IndieWorker.BuildLogs
import IndieWorker.Validation.Value
import IndieWorker.Validation.Formats
import IndieWorker.Validation.Pattern
import IndieWorker.Validation.PatternGrammar
import IndieWorker.Validation.JsonSchema
import IndieWorker.Validation.Verdict
import IndieWorker.Validation.Meaning
import IndieWorker.Validation.Refs
import IndieWorker.Validation.FailClosed
import IndieWorker.Lib.Findings
import IndieWorker.TypeScript.JsValue
import IndieWorker.TypeScript.Stringify
import IndieWorker.TypeScript.RegExp
import IndieWorker.TypeScript.Validate
import IndieWorker.TypeScript.Alike
import IndieWorker.TypeScript.Agreement
import IndieWorker.Lib.Text
import IndieWorker.Lib.Pool
import IndieWorker.Lib.Decision
import IndieWorker.Tenancy
import IndieWorker.Tenancy.Org
import IndieWorker.Tenancy.Oversell
import IndieWorker.Tenancy.Authority
import IndieWorker.Locks
import IndieWorker.Locks.Cleanup
import IndieWorker.Locks.Interleaving
import IndieWorker.Lib.Polling
import IndieWorker.Protocol
import IndieWorker.Protocol.Tcp
import IndieWorker.Protocol.Schedule
import IndieWorker.TypeScript.Frames
import IndieWorker.Lib.Counter
import IndieWorker.Protocol.Ws
import IndieWorker.Protocol.Resume
import IndieWorker.Query.Runs
import IndieWorker.Query.Tail
import IndieWorker.Lib.Batching
import IndieWorker.BuildLogs.Buffer
import IndieWorker.BuildLogs.Collector
import IndieWorker.Authz
import IndieWorker.Planes
import IndieWorker.Planes.Realms
import IndieWorker.Lib.FirstUse
import IndieWorker.AdminOrm
import IndieWorker.AdminOrm.History
import IndieWorker.Lib.StepUp
import IndieWorker.Lib.Nan
import IndieWorker.Lib.SortBy
import IndieWorker.Analysis.Regression
import IndieWorker.Analysis.Discovery
import IndieWorker.Lib.ZeroPad
import IndieWorker.Analysis.Embedding
import IndieWorker.RuntimeConfig
import IndieWorker.Lib.Masking
import IndieWorker.RuntimeConfig.Noninterference
import IndieWorker.RuntimeConfig.Fields
import IndieWorker.RuntimeConfig.Policy
import IndieWorker.Config
import IndieWorker.Lib.Conservation
import IndieWorker.Session.FlowControl
import IndieWorker.Lib.Minimum
import IndieWorker.Queue
import IndieWorker.Session.Heartbeat
import IndieWorker.Session.Liveness
import IndieWorker.Session.Replay
import IndieWorker.Session.Oversize
import IndieWorker.Protocol.Sequencing
import IndieWorker.Protocol.Avenues
import IndieWorker.Validation.PatternParse
import IndieWorker.Validation.PatternText
import IndieWorker.Queue.Lease
import IndieWorker.Authz.Acceptance
import IndieWorker.Planes.Allowlist
import IndieWorker.Planes.Bind
import IndieWorker.Tenancy.Email
import IndieWorker.Surface
import IndieWorker.Locks.Stale
import IndieWorker.Locks.Coordination
import IndieWorker.Lib.JsonPointer
import IndieWorker.Validation.Pointers
import IndieWorker.Validation.IntegerBounds
import IndieWorker.Lib.Backtracking
import IndieWorker.TypeScript.Formats
import IndieWorker.Lib.Recursion
import IndieWorker.TypeScript.Termination
import IndieWorker.Analysis.SpaceKey
import IndieWorker.Lib.GaussJordan
import IndieWorker.Lib.LeastSquares
import IndieWorker.Analysis.Samples
import IndieWorker.Analysis.Ols
import IndieWorker.Analysis.Collinear
import IndieWorker.Lib.Argmax
import IndieWorker.Analysis.Changepoint
import IndieWorker.Analysis.LevelShift
import IndieWorker.Query.Page
import IndieWorker.Lib.Minors
import IndieWorker.Lib.InPlace
import IndieWorker.Analysis.Invert
import IndieWorker.Lib.MidRank
import IndieWorker.Analysis.Ranks
import IndieWorker.LockKeys
import IndieWorker.Lib.Lockstep
import IndieWorker.Onboarding.Siblings
import IndieWorker.Onboarding.Redelivery
import IndieWorker.Lib.Selection
import IndieWorker.Queue.Dispatch
import IndieWorker.Queue.Lifecycle
import IndieWorker.Session.Live
import IndieWorker.TypeScript.Wire
import IndieWorker.Locks.Independence
import IndieWorker.RuntimeConfig.Written
import IndieWorker.Analysis.Pearson
import IndieWorker.Analysis.Spearman
import IndieWorker.Analysis.Units
import IndieWorker.Analysis.Response
import IndieWorker.Analysis.Line
import IndieWorker.Analysis.Geometry
import IndieWorker.Analysis.Rollout
