import Vanilla.Backend.BodyDrain
import Vanilla.Backend.Cutting
import Vanilla.Client.Body
import Vanilla.Http2.Arena
import Vanilla.Http2.Credit
import Vanilla.Http2.Encoding
import Vanilla.Http2.Ownership
import Vanilla.Http2.Receiving
import Vanilla.Http2.Segmentation
import Vanilla.IoUring.Rings
import Vanilla.Kqueue.Closing
import Vanilla.Kqueue.Parking
import Vanilla.PgAsync.Agreement
import Vanilla.PgAsync.Arrays
import Vanilla.PgAsync.Columns
import Vanilla.PgAsync.FramePool
import Vanilla.PgAsync.Handshake
import Vanilla.PgAsync.Isolation
import Vanilla.PgAsync.KeyCache
import Vanilla.PgAsync.Numeric
import Vanilla.PgAsync.SendQueue
import Vanilla.PgAsync.Wire
import Vanilla.RequestParser.Query
import Vanilla.RequestParser.Section
import Vanilla.Router.RequestLine
import Vanilla.StaticAssets.EntityTags
import Vanilla.StaticAssets.Glob
import Vanilla.StaticAssets.Negotiation
import Vanilla.StaticAssets.Publication
import Vanilla.StaticAssets.Ranges
import Vanilla.Transport.Feed
import Vanilla.Upstream.Request
import Vanilla.Websocket.AcceptKey
import Vanilla.Websocket.Codec
