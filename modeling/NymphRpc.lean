import NymphRpc.Base.Buffer
import NymphRpc.Base.LittleEndian
import NymphRpc.Base.OrderedMap
import NymphRpc.Base.Traced
import NymphRpc.Types.ParseAccepts
import NymphRpc.Message.Termination
import NymphRpc.Message.Bounds
import NymphRpc.Message.DestroyedOnce
import NymphRpc.Message.Holdings
import NymphRpc.Message.HeldValues
import NymphRpc.Message.Lapses
import NymphRpc.Client.OwnReply
import NymphRpc.Session.Framing
import NymphRpc.Message.ExceptionWire
import NymphRpc.Session.Answers
import NymphRpc.Session.Exceptions
import NymphRpc.Client.InStep
import NymphRpc.Client.Reclaim
import NymphRpc.Client.Connect
import NymphRpc.Client.Teardown
import NymphRpc.Dispatcher.Placement
import NymphRpc.Dispatcher.Gaps
import NymphRpc.Session.Sessions
import NymphRpc.Types.Confined
import NymphRpc.Message.Siblings
import NymphRpc.Types.ParsedSizes
import NymphRpc.Message.Truncation
import NymphRpc.Session.CutShort
import NymphRpc.Client.CallById
import NymphRpc.Client.TableTransfer
import NymphRpc.Client.SyncSafety
import NymphRpc.Client.Registry
import NymphRpc.Client.Rejection
import NymphRpc.Client.Callbacks
import NymphRpc.Client.LeftBehind
import NymphRpc.Message.Repetition
import NymphRpc.Session.Reassembly
import NymphRpc.Client.Stuck
import NymphRpc.Dispatcher.Finished
import NymphRpc.Server.Locking
import NymphRpc.Network.Together
import NymphRpc.Network.Streams
import NymphRpc.Network.Outcomes
import NymphRpc.Types.Lookup
