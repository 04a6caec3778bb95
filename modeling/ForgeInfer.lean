import ForgeInfer.Foundation.Machine
import ForgeInfer.Cache.Counter
import ForgeInfer.Engine.Basic
import ForgeInfer.Speculative.Basic
import ForgeInfer.Scheduler.Ledger
import ForgeInfer.Scheduler.Refinement
import ForgeInfer.Scheduler.Conservation
import ForgeInfer.Engine.Refinement
import ForgeInfer.Engine.Agreement
import ForgeInfer.Engine.Exactness
import ForgeInfer.Engine.Drive
import ForgeInfer.Engine.Peak
import ForgeInfer.Engine.Termination
import ForgeInfer.Engine.Completion
import ForgeInfer.Engine.Starvation
import ForgeInfer.Speculative.Exactness
import ForgeInfer.Scheduler.Idle
import ForgeInfer.Scheduler.Order
import ForgeInfer.Cache.Frame
import ForgeInfer.Scheduler.Frame
import ForgeInfer.Engine.Reservation
import ForgeInfer.Scheduler.Victims
import ForgeInfer.Scheduler.Retirement
import ForgeInfer.Engine.Progress
import ForgeInfer.Engine.Refill
import ForgeInfer.Engine.Capacity
import ForgeInfer.Foundation.Utf8
import ForgeInfer.Server.Basic
import ForgeInfer.Engine.Lone
import ForgeInfer.Server.Streaming
import ForgeInfer.Foundation.Rejection
import ForgeInfer.Speculative.Law
import ForgeInfer.Foundation.Paging
import ForgeInfer.Cache.Slots
import ForgeInfer.Foundation.Rounding
import ForgeInfer.Speculative.Round
import ForgeInfer.Speculative.Limit
import ForgeInfer.Speculative.SelfDraft
import ForgeInfer.Foundation.Utf8Encoding
import ForgeInfer.Tokeniser.RoundTrip
import ForgeInfer.Model.TinyTransformer
import ForgeInfer.Cache.Words
import ForgeInfer.Scheduler.Isolation
import ForgeInfer.Engine.Arrival
import ForgeInfer.Engine.Latency
import ForgeInfer.Engine.Segment
import ForgeInfer.Scheduler.Sound
import ForgeInfer.Engine.Sound
import ForgeInfer.Scheduler.Oblivious
import ForgeInfer.Engine.Resume
import ForgeInfer.Engine.Makespan
import ForgeInfer.Foundation.Monotone
import ForgeInfer.Model.Softmax
import ForgeInfer.Speculative.Support
import ForgeInfer.Speculative.Rounds
import ForgeInfer.Cache.Interleaving
import ForgeInfer.Cache.Pressure
import ForgeInfer.Bench.Totals
import ForgeInfer.Foundation.Memory
import ForgeInfer.Model.Window
import ForgeInfer.Speculative.Divergence
import ForgeInfer.Speculative.Length
import ForgeInfer.Server.Default
import ForgeInfer.Model.Normalised
import ForgeInfer.Scheduler.Replay
import ForgeInfer.Engine.Rename
import ForgeInfer.Foundation.Ascending
import ForgeInfer.Engine.Names
import ForgeInfer.Speculative.Throughput
import ForgeInfer.Engine.Dominance
