import MiniProtobuf.Machine.Run
import MiniProtobuf.Machine.Outbox
import MiniProtobuf.Machine.Writers
import MiniProtobuf.Machine.Scan
import MiniProtobuf.Machine.Family
import MiniProtobuf.Machine.Linked
import MiniProtobuf.Machine.Cursor
import MiniProtobuf.Wire.Bytes
import MiniProtobuf.Wire.Fields
import MiniProtobuf.Wire.Proto3
import MiniProtobuf.Wire.Pattern
import MiniProtobuf.Wire.Path
import MiniProtobuf.Protobuf.CodedStream
import MiniProtobuf.Protobuf.BaseCmd
import MiniProtobuf.Protobuf.Sizes
import MiniProtobuf.Route.Model
import MiniProtobuf.Route.Recv
import MiniProtobuf.Route.Packet
import MiniProtobuf.Route.Stream
import MiniProtobuf.Route.Framing
import MiniProtobuf.Route.Throwing
import MiniProtobuf.Route.Corrupt
import MiniProtobuf.Route.Resync
import MiniProtobuf.Route.Reporting
import MiniProtobuf.Route.Safety
import MiniProtobuf.Route.Front
import MiniProtobuf.Route.Parsed
import MiniProtobuf.Route.Progress
import MiniProtobuf.Route.Segmentation
import MiniProtobuf.Route.Uninitialised
import MiniProtobuf.Connection.Model
import MiniProtobuf.Connection.Sending
import MiniProtobuf.Connection.Draining
import MiniProtobuf.Connection.Discipline
import MiniProtobuf.Exchange.Model
import MiniProtobuf.Exchange.Replies
import MiniProtobuf.Exchange.Exact
import MiniProtobuf.Exchange.Handlers
import MiniProtobuf.Exchange.Server
import MiniProtobuf.Android.Model
import MiniProtobuf.Android.BaseCmd
import MiniProtobuf.Android.Writing
import MiniProtobuf.Android.Format
import MiniProtobuf.Android.Reading
import MiniProtobuf.Android.Names
import MiniProtobuf.Android.Client
import MiniProtobuf.Http.Model
import MiniProtobuf.Http.Grammar
import MiniProtobuf.Http.Paths
import MiniProtobuf.Http.Replies
import MiniProtobuf.Http.Server
import MiniProtobuf.Http.Serving
import MiniProtobuf.Eventpp.CallbackList
import MiniProtobuf.Eventpp.Linking
import MiniProtobuf.Eventpp.Iteration
import MiniProtobuf.Eventpp.EventQueue
import MiniProtobuf.Eventpp.Queueing
import MiniProtobuf.Eventpp.Ordering
