import Conflux.Json.Dom.Utf8
import Conflux.Json.Reader.Agree
import Conflux.Json.Stream.Chunks
import Conflux.Http.Head.Split
import Conflux.Http.Chunked.Encode
import Conflux.Http.Chunked.Agreement
import Conflux.Http.Routing.Select
import Conflux.Json.Dom.WellFormed
import Conflux.Http.Deferred
import Conflux.Work.RingLane
import Conflux.Work.MpmcRing.Fifo
import Conflux.Dns.Bounds
import Conflux.Dns.Resolver.Invalidate
import Conflux.Work.Slot.Drained
import Conflux.Http.H2.Submit
import Conflux.Http.H2.Windows
import Conflux.SocketIo.BufferRing.Offset
import Conflux.Http.WebSocket.Conformance
import Conflux.Http.Sse.Channel
import Conflux.Http.Forwarded
import Conflux.Db.Pool
import Conflux.Template.Macro
import Conflux.Json.Dom.Number
import Conflux.Db.Transaction
import Conflux.Http.UrlForm
import Conflux.Http.Chunked.Lines
import Conflux.SocketIo.BufferRing.Saved
import Conflux.Crypto.Sha256
import Conflux.Http.StaticPath
