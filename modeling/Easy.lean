import Easy.Net.FlatRefinement
import Easy.Net.RoundTrip
import Easy.Net.ZeroCopy
import Easy.Net.Positional
import Easy.Net.FileOutput
import Easy.Net.TypedReads
import Easy.Net.FailedReads
import Easy.Net.Varints
import Easy.Net.PrefixStrings
import Easy.Net.Subnets
import Easy.Base.TimerArm
import Easy.Base.TimerSet
import Easy.Base.TimerExpiry
import Easy.Base.EarlyFiring
import Easy.Base.TimerThreads
import Easy.Base.TimerReports
import Easy.Base.PendingCount
import Easy.Base.Shutdown
import Easy.Base.TaskQueue
import Easy.Base.ConfigBinding
import Easy.Base.ConfigUpdates
import Easy.Base.Revents
import Easy.Base.ChannelTable
import Easy.Base.FdSharing
import Easy.Base.FdReuse
import Easy.Base.NonBlock
import Easy.Base.DoIo
import Easy.Base.Sleep
import Easy.Base.SocketTimeout
import Easy.Base.LogConfig
import Easy.Net.Ipv6Text
import Easy.Net.AddressOrder
import Easy.Net.HostService
import Easy.Net.TcpServer
import Easy.Net.TlsVectors
import Easy.Base.DateTime
import Easy.Base.LogPattern
import Easy.Base.AppenderFormatters
import Easy.Base.ConfigLoad
import Easy.Base.FileUtil
import Easy.Net.Socket
import Easy.Base.GetLogger
import Easy.Base.LogOff
import Easy.Base.LoggerNames
import Easy.Base.Env
import Easy.Net.HexDump
import Easy.Net.Zigzag
import Easy.Base.FiberReturns
import Easy.Base.IoTimeouts
import Easy.Base.LogRotation
import Easy.Base.ConfDir
import Easy.Net.Interfaces
