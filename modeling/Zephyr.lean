import Zephyr.Alert
import Zephyr.CoapTransfer
import Zephyr.ConnCache
import Zephyr.DiskFlash
import Zephyr.Dns
import Zephyr.Ieee802154Reass
import Zephyr.Ipv6Frag
import Zephyr.Ipv6Reass
import Zephyr.JsonParse
import Zephyr.KQueue
import Zephyr.KQueuePoll
import Zephyr.MailboxRuns
import Zephyr.Mayfly
import Zephyr.MemDomain
import Zephyr.MemPoolHeap
import Zephyr.MemSlab
import Zephyr.MeshNonce
import Zephyr.MeshPoll
import Zephyr.MeshProxy
import Zephyr.MeshReassembly
import Zephyr.Mqtt
import Zephyr.MsgQRuns
import Zephyr.MutexPriority
import Zephyr.NetBufFifo
import Zephyr.PipeAsync
import Zephyr.PosixWaits
import Zephyr.Prf
import Zephyr.ReadyQRuns
import Zephyr.RingBuf
import Zephyr.Route
import Zephyr.Sem
import Zephyr.SixLoRoundTrip
import Zephyr.Socket
import Zephyr.Stack
import Zephyr.TcpAccept
import Zephyr.TcpClose
import Zephyr.TimeoutRuns
import Zephyr.Userspace
import Zephyr.WorkQ
