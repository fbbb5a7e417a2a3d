import Sark.Client.Attempts
import Sark.Core.Schedule.DataDrive
import Sark.Core.Body.Refusals
import Sark.Core.Route.Query
import Sark.Http.Field.Date
import Sark.Http.Field.Scan
import Sark.Core.Deadline.Guarantees
import Sark.Grpc.Message.Deframer
import Sark.H2.Conn.Integrity
import Sark.H2.Conn.Runs
import Sark.H3.Conn.Conservation
import Sark.Http.H1.Chunk.Splits
import Sark.Http.H1.Framing
import Sark.Http.H1.Target
import Sark.Http.Field.Decode
import Sark.Http.Field.Percent
import Sark.Client.Redirect
import Sark.Ws.Mask
import Sark.Ws.Text
import Sark.Ws.Messages
import Sark.Http.Uri.Spelling
import Sark.Http.Uri.Scan
import Sark.Http.H1.Codec.Trailer
import Sark.H3.Qpack.Coalesce
import Sark.H3.Qpack.Encoder
import Sark.H3.Qpack.Section
import Sark.H3.Frame.Stream
import Sark.Json.Integers
import Sark.Json.Replay
import Sark.H2.Outputs.Limits
import Sark.H2.Conn.Settings
import Sark.H2.Conn.Data
import Sark.H2.Flow.Peers
import Sark.H2.Conn.Headers
