import Astlog.Foundation.Schedule
import Astlog.Foundation.Progress
import Astlog.Foundation.Calls
import Astlog.Foundation.Update
import Astlog.Foundation.Merge
import Astlog.Foundation.Ring
import Astlog.Foundation.RawStorage
import Astlog.Foundation.Stdio
import Astlog.Foundation.ReleaseAcquire
import Astlog.Foundation.Locking
import Astlog.MemBuf.DataBuf
import Astlog.MemBuf.DropOldest
import Astlog.MemBuf.InlineBuffer
import Astlog.MemBuf.Shifted
import Astlog.MemBuf.PlainString
import Astlog.MemBuf.Accesses
import Astlog.MemBuf.StreamBuffer
import Astlog.LogMsg
import Astlog.Logger.Log
import Astlog.Logger.SinkIt
import Astlog.Logger.Routing
import Astlog.Logger.FlushLevel
import Astlog.Pattern.Padder
import Astlog.Pattern.FlagFormatter
import Astlog.LocalTime
import Astlog.Pattern.Compile
import Astlog.Pattern.Items
import Astlog.Pattern.Clone
import Astlog.Pattern.PadSpec
import Astlog.Pattern.Print
import Astlog.Pattern.Slices
import Astlog.Pattern.Cursor
import Astlog.Pattern.Fields
import Astlog.Pattern.Builtin
import Astlog.Pattern.Width
import Astlog.Pattern.PadCounts
import Astlog.Pattern.Appending
import Astlog.Pattern.TextFields
import Astlog.Pattern.DigitCount
import Astlog.Pattern.Rendering
import Astlog.Pattern.TimeTexts
import Astlog.Pattern.Concat
import Astlog.ThreadPool.Machine
import Astlog.ThreadPool.Step
import Astlog.ThreadPool.Mutex
import Astlog.ThreadPool.Queue
import Astlog.ThreadPool.Accounting
import Astlog.ThreadPool.Wakeup
import Astlog.ThreadPool.Order
import Astlog.ThreadPool.Posting
import Astlog.ThreadPool.Backlog
import Astlog.ThreadPool.Ownership
import Astlog.ThreadPool.Settling
import Astlog.Async.Session
import Astlog.Async.Delivery
import Astlog.Async.Lifetime
import Astlog.Sink.Sinks
import Astlog.Sink.SameRecord
import Astlog.Sink.BasicSink
import Astlog.Sink.OpenSink
import Astlog.Sink.Shared
import Astlog.Sink.Unavailable
import Astlog.Sink.FileOfRecords
import Astlog.Sink.Returning
import Astlog.Sink.Durability
import Astlog.Sink.Flushing
import Astlog.Sink.Called
import Astlog.Async.Pipeline
import Astlog.Async.Files
import Astlog.Logger.Threads
import Astlog.Logger.Files
import Astlog.Logger.Races
import Astlog.Async.Logging
import Astlog.Logger.Default
import Astlog.Logger.WholeRecords
import Astlog.Logger.Printing
import Astlog.CircleBuffer
import Astlog.SpscRing.Machine
import Astlog.SpscRing.Fifo
import Astlog.SpscRing.Construction
import Astlog.SpscRing.Serial
import Astlog.SpscRing.WeakMemory
import Astlog.SpscRing.Queries
import Astlog.SpscRing.Orders
import Astlog.SpscRing.Interleavings
