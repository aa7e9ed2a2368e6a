import Blackbox.RingBuffer
import Blackbox.RingFifo
import Blackbox.RingThreads
import Blackbox.Framing
import Blackbox.Lines
import Blackbox.TcpServer
import Blackbox.Chunking
import Blackbox.Shipper
import Blackbox.BlockList
import Blackbox.Expiry
import Blackbox.Pipeline
import Blackbox.DataPath
import Blackbox.IdGenerator
import Blackbox.Node
import Blackbox.Text
import Blackbox.AdminServer
import Blackbox.RedisClient
import Blackbox.ClickHouse
import Blackbox.SignalHandler
import Blackbox.Metrics
import Blackbox.SentryWrites
