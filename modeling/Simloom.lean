import Simloom.Tape.Draw
import Simloom.Tape.Replay
import Simloom.Tape.Process
import Simloom.Tape.Document
import Simloom.Tape.Session
import Simloom.Tape.Caught
import Simloom.Run.Result
import Simloom.Search.DecisionTree
import Simloom.Theory.Enumeration
import Simloom.Search.Exact
import Simloom.Theory.Loop
import Simloom.Consistency.History
import Simloom.Search.Shrink
import Simloom.Search.Minimal
import Simloom.Theory.Digraph
import Simloom.Consistency.Cycle
import Simloom.Consistency.Check
import Simloom.Consistency.Shortest
import Simloom.Consistency.Serial
import Simloom.Consistency.Serializable
import Simloom.Run.Execute
import Simloom.Run.Pct
import Simloom.Run.Lone
import Simloom.Run.Explore
import Simloom.Run.Strict
import Simloom.Run.Testing
import Simloom.Run.Soak
import Simloom.Run.Resume
import Simloom.Run.Shards
import Simloom.Run.Outside
import Simloom.Run.Cleanup
import Simloom.Net.Channel
import Simloom.Net.Flow
import Simloom.Net.Transport
import Simloom.Net.Direction
import Simloom.Net.Refine
import Simloom.Net.Streams
import Simloom.Theory.Rounding
import Simloom.Net.Datagram
import Simloom.Net.Flows
import Simloom.Net.InOrder
import Simloom.Net.Life
import Simloom.Net.Lifecycle
import Simloom.Loop.Agenda
import Simloom.Loop.Placement
import Simloom.Loop.Clock
import Simloom.Loop.Crash
import Simloom.Loop.Monitor
import Simloom.Loop.SimLoop
import Simloom.Loop.Drive
import Simloom.Loop.Follows
import Simloom.Loop.Runs
import Simloom.Loop.Deadlock
import Simloom.Loop.Watch
import Simloom.Theory.Response
import Simloom.Loop.Verdict
import Simloom.Loop.Deadline
import Simloom.Loop.Liveness
import Simloom.Loop.Temporal
import Simloom.Loop.Chronicle
import Simloom.Loop.Causes
import Simloom.Loop.Noting
import Simloom.Loop.Causal
import Simloom.Loop.Edges
import Simloom.Loop.Drift
import Simloom.Loop.Dated
import Simloom.Loop.Bare
import Simloom.Loop.Perturbation
import Simloom.World.Host
import Simloom.World.Machine
import Simloom.World.Moves
import Simloom.World.Enrol
import Simloom.World.Confine
import Simloom.World.Crash
import Simloom.World.PowerOff
import Simloom.World.Disk
import Simloom.World.Reachable
import Simloom.World.Connect
import Simloom.Services.Redis
import Simloom.Services.Watch
import Simloom.Services.Queue
import Simloom.Net.Callbacks
import Simloom.Net.Endings
import Simloom.Net.DatagramLife
import Simloom.Net.Strand
import Simloom.Net.Passage
import Simloom.Net.Eof
import Simloom.Net.Reading
import Simloom.Net.Pumping
import Simloom.Net.Handover
import Simloom.Net.Held
import Simloom.Net.Heal
import Simloom.Net.Dns
import Simloom.World.Listeners
import Simloom.World.Restart
import Simloom.Theory.Chunked
import Simloom.Services.Resp
import Simloom.Services.Answer
import Simloom.Tape.Grammar
import Simloom.Run.Sites
import Simloom.Theory.Lexical
import Simloom.Format.Text
import Simloom.Format.Reading
import Simloom.Format.Canonical
import Simloom.Theory.Lines
import Simloom.Format.Equality
import Simloom.Run.EventLog
import Simloom.Run.Cli
import Simloom.Run.Descriptor
import Simloom.Run.Files
import Simloom.Loop.Rooted
import Simloom.Run.Trace
import Simloom.Loop.Instant
import Simloom.Loop.Oldest
import Simloom.Net.Account
import Simloom.Loop.Tracing
import Simloom.Theory.Novelty
import Simloom.Run.Fingerprint
import Simloom.Run.Pool
import Simloom.Search.Stopping
import Simloom.Run.Priorities
import Simloom.Theory.Optimistic
import Simloom.Services.Keyspace
import Simloom.Services.Rereads
import Simloom.Services.Transactions
import Simloom.Services.Framing
import Simloom.Services.Wire
