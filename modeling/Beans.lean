import Beans.Decimal.Contract
import Beans.Decimal.Literal
import Beans.Decimal.Round
import Beans.Fiber.ThreadJoinSafe
import Beans.FiberIo.WaitAccounts
import Beans.Parking.NoLostNotify
import Beans.Channel.NothingStranded
import Beans.Cycle.WorkerPass
import Beans.Collections.SortedMapQueries
import Beans.Collections.DequeRefinement
import Beans.Collections.PriorityQueueRefinement
import Beans.Collections.HashedSet
import Beans.Collections.ListSortKeys
import Beans.Calendar.Plus
import Beans.Encoding.BinaryCodec
import Beans.Encoding.Varint
import Beans.Json.SameLowering
import Beans.Json.SameText
import Beans.Mir.OwnershipFolding
import Beans.Interpreter.KeyContract
import Beans.Http2.BodiesConserved
import Beans.Http2.PeerConduct
import Beans.Http2.WholeMessages
import Beans.Source.Quoting
import Beans.WebSocket.ValidUtf8
import Beans.Term.Malformed
import Beans.Packages.LocalPath
import Beans.Packages.LockedLoad
import Beans.Hir.TypeEquality
import Beans.Hir.LayoutSound
import Beans.Http2.OutgoingUnits
import Beans.Source.IntReaders
import Beans.Interpreter.FloatTotal
import Beans.Json.KeyProbe
import Beans.Lsp.Positions
import Beans.Path.Decompose
import Beans.Process.WinCmdline
import Beans.Reader.Lines
import Beans.Term.DisplayWidth
import Beans.Weak.HandleMap
import Beans.Lsp.DumpJson
import Beans.Mir.NaturalLoops
import Beans.Mir.ValueSetRefines
