import Nanio.Lib.Linked
import Nanio.Lib.Callback
import Nanio.Lib.CString
import Nanio.Base
import Nanio.Map.IoMapTheorems
import Nanio.Http.HttpParse
import Nanio.Http.ReqParseTheorems
import Nanio.Http.RequestSafety
import Nanio.Buf.IoBuf
import Nanio.Buf.IoBufTheorems
import Nanio.Buf.BufFifo
import Nanio.Stream.IoStream
import Nanio.Stream.StreamRules
import Nanio.Stream.WriteOrder
import Nanio.Stream.PollOut
import Nanio.Stream.HandlerOrder
import Nanio.Stream.SentCount
import Nanio.Ds.IoDs
import Nanio.Ds.DsRules
import Nanio.Ds.PollSafety
import Nanio.Ds.Reaping
import Nanio.Timers.IoTimers
import Nanio.Timers.IoTimersTheorems
import Nanio.Lib.OnceMap
import Nanio.Map.MapRefinement
import Nanio.Map.HmapTheorems
import Nanio.Map.HmapAtomic
import Nanio.Http.UrlCode
import Nanio.Timers.TimerPool
import Nanio.Lib.NodeChain
import Nanio.Queue.IoQueue
import Nanio.Queue.IoQueueTheorems
import Nanio.Queue.QueueFifo
import Nanio.Sock.SockAddr
import Nanio.Sock.SockAddrRoundTrip
import Nanio.Dgram.IoDgramClient
import Nanio.Dgram.DgramOrder
import Nanio.Lib.Embed
import Nanio.Main.MainLoop
import Nanio.Main.LoopExit
import Nanio.Http.HeaderSound
import Nanio.Http.HeaderComplete
import Nanio.Ds.Registry
import Nanio.Ds.IoVmt
import Nanio.Queue.QueueLedger
import Nanio.Dgram.DrainedQueue
import Nanio.Dgram.DynamicOwner
import Nanio.Timers.Deadline
import Nanio.Buf.Accounting
import Nanio.Stream.Contiguous
import Nanio.Stream.Writef
import Nanio.Stream.Accept
import Nanio.Http.UrlDecode
import Nanio.Http.UrlLengths
import Nanio.Http.RespParse
import Nanio.Stream.WriteReturn
import Nanio.Ds.EventDelivery
import Nanio.Sock.Ipv4List
import Nanio.Sock.SockAddrParse
import Nanio.Hex.HexMac
import Nanio.Hex.HexReads
import Nanio.Map.HmapRanges
import Nanio.Lib.Fields
import Nanio.Sock.Ipv4ListSound
import Nanio.Sock.Ipv4Mask
import Nanio.Sock.Ipv4Numbers
import Nanio.Hex.HexCodec
import Nanio.Hex.HexNtoa
import Nanio.Tmp.TmpFormat
import Nanio.Dns.GetObjectname
import Nanio.Dns.DnsResponse
import Nanio.Dns.DnsQuery
import Nanio.Auth.HttpAuth
import Nanio.Auth.ParseEnds
import Nanio.Sock.Ipv4Netbits
import Nanio.Auth.AuthOutput
import Nanio.Auth.ChallengeRoundTrip
import Nanio.Auth.Credentials
import Nanio.Auth.NonceCount
import Nanio.Http.HttpCon
import Nanio.Lib.Varint
import Nanio.Mqtt.VarInt
import Nanio.Http.Response
import Nanio.Lib.Lines
import Nanio.Server.PortCon
import Nanio.Lib.Link
import Nanio.Server.Closing
import Nanio.Auth.DigestLogin
import Nanio.Dns.ResolvConf
import Nanio.Dns.Resolver
import Nanio.Http.Session
import Nanio.Lib.Ledger
import Nanio.Main.Descriptors
import Nanio.Dns.Answers
import Nanio.Sock.Ipv6Prefix
