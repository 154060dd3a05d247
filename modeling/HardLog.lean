import HardLog.Lib.Memory
import HardLog.Lib.Files
import HardLog.Lib.Ring
import HardLog.Lib.Ranges
import HardLog.Lib.Runs
import HardLog.Lib.Refine
import HardLog.Lib.CInt
import HardLog.Lib.CString
import HardLog.Lib.Decimal
import HardLog.Lib.Printf
import HardLog.Host.Event
import HardLog.Host.EventBounds
import HardLog.Host.EventText
import HardLog.Host.Growth
import HardLog.Host.Kaudit
import HardLog.Host.OneLine
import HardLog.Host.EmptyRecords
import HardLog.Host.Untrusted
import HardLog.Host.Ring
import HardLog.Host.Threads
import HardLog.Host.Linear
import HardLog.Host.Waiting
import HardLog.Host.Occupancy
import HardLog.Host.Priority
import HardLog.Host.BioFs
import HardLog.Host.BioContent
import HardLog.Host.LiveFlush
import HardLog.Host.Synchronous
import HardLog.Host.OwnBytes
import HardLog.Host.Tiling
import HardLog.Host.FlushFailure
import HardLog.Host.WriteTime
import HardLog.Host.FlushTime
import HardLog.Device.Cbuff
import HardLog.Device.Stream
import HardLog.Device.Drain
import HardLog.Device.ShortWrite
import HardLog.Device.Gadget
import HardLog.Device.AppendOnly
import HardLog.Device.Reports
import HardLog.Device.Accounting
import HardLog.Device.Transfer
import HardLog.Device.Commands
import HardLog.Device.Dispatch
import HardLog.Device.ServerRequest
import HardLog.Device.Response
import HardLog.Device.Stale
import HardLog.Device.DumpRange
import HardLog.Device.Filter
import HardLog.Device.Decode
import HardLog.Host.Mailbox
import HardLog.Host.Command
import HardLog.Host.ReadResponse
import HardLog.Host.ReadSize
import HardLog.Host.Inversion
import HardLog.Host.BackEnds
import HardLog.Host.Switch
import HardLog.Host.Shutdown
import HardLog.Host.FinalDrain
import HardLog.System.Session
import HardLog.System.Exchanges
import HardLog.System.Completion
import HardLog.System.LogPath
import HardLog.System.EndToEnd
import HardLog.System.Secured
