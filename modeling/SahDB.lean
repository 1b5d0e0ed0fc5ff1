import SahDB.FlatMap
import SahDB.Reachable
import SahDB.HeapLinks
import SahDB.RoundTrip
import SahDB.ReadBuffer
import SahDB.SaveFormat
import SahDB.ConnBound
import SahDB.Segments
import SahDB.TtlQueue
import SahDB.Joined
import SahDB.Descriptors
import SahDB.Missing
import SahDB.TtlTrack
import SahDB.TornSave
import SahDB.FailedExpire
import SahDB.ExpireExact
import SahDB.Delete
import SahDB.BucketFits
import SahDB.DumpStream
import SahDB.HandshakeAck
import SahDB.Cli
import SahDB.ConnRemove
import SahDB.SiftBounds
import SahDB.ExpiryText
import SahDB.Replicate
import SahDB.ConfigFile
import SahDB.FlatServer
import SahDB.Turns
import SahDB.EventLoop
import SahDB.Durable
import SahDB.Startup
import SahDB.CliSession
import SahDB.JoinProtocol
import SahDB.SentWhole
import SahDB.CliArgs
