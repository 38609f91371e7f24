import Typhoon.Library.Machine
import Typhoon.Library.Keyed
import Typhoon.Library.Rounds
import Typhoon.Library.Interleave
import Typhoon.Library.Batch
import Typhoon.Library.Grid
import Typhoon.Library.CString
import Typhoon.Library.Atoi
import Typhoon.Message
import Typhoon.Aggregator.CircularQueue
import Typhoon.Aggregator.Occupancy
import Typhoon.Aggregator.Closing
import Typhoon.Aggregator.Schedule
import Typhoon.Aggregator.Process
import Typhoon.Aggregator.Timing
import Typhoon.Aggregator.Reads
import Typhoon.Aggregator.Published
import Typhoon.Aggregator.Main
import Typhoon.Aligner.Tick
import Typhoon.Aligner.Entry
import Typhoon.Aligner.Rounds
import Typhoon.Aligner.Join
import Typhoon.Aligner.Startup
import Typhoon.Provider.Names
import Typhoon.Provider.Forward
import Typhoon.Aligner.Wire
import Typhoon.Aggregator.Trades
import Typhoon.Aggregator.Wire
import Typhoon.Library.Throwing
import Typhoon.Pipeline.Law
import Typhoon.Pipeline.Leak
import Typhoon.Pipeline.Prices
import Typhoon.Pipeline.Wire
import Typhoon.Provider.Tls
import Typhoon.WebSocket.Transmission
import Typhoon.WebSocket.Size
import Typhoon.WebSocket.Runs
import Typhoon.Provider.Stream
