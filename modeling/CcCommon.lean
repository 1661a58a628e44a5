import CcCommon.Codec.Binc.Accepted
import CcCommon.Codec.Binc.Bounds
import CcCommon.Codec.Binc.Carried
import CcCommon.Codec.Binc.Decode
import CcCommon.Codec.Binc.DecodeSteps
import CcCommon.Codec.Binc.Desc
import CcCommon.Codec.Binc.Determined
import CcCommon.Codec.Binc.Digits
import CcCommon.Codec.Binc.Documents
import CcCommon.Codec.Binc.Encode
import CcCommon.Codec.Binc.EncodeRuns
import CcCommon.Codec.Binc.Head
import CcCommon.Codec.Binc.Operations
import CcCommon.Codec.Binc.Progress
import CcCommon.Codec.Binc.Prune
import CcCommon.Codec.Binc.Reflect
import CcCommon.Codec.Binc.Rejects
import CcCommon.Codec.Binc.Representation
import CcCommon.Codec.Binc.RoundTrip
import CcCommon.Codec.DecodeState
import CcCommon.Codec.Float
import CcCommon.Codec.Free
import CcCommon.Codec.Free.Decode
import CcCommon.Codec.Memory
import CcCommon.Codec.Operations
import CcCommon.Codec.Print
import CcCommon.Codec.Print.CString
import CcCommon.Codec.Print.Pieces
import CcCommon.Codec.Print.Value
import CcCommon.Codec.Reading
import CcCommon.Codec.Runs
import CcCommon.Codec.Simple.Bounds
import CcCommon.Codec.Simple.Carried
import CcCommon.Codec.Simple.Decode
import CcCommon.Codec.Simple.DecodeSteps
import CcCommon.Codec.Simple.Destination
import CcCommon.Codec.Simple.Documents
import CcCommon.Codec.Simple.Encode
import CcCommon.Codec.Simple.Errors
import CcCommon.Codec.Simple.Floats
import CcCommon.Codec.Simple.Head
import CcCommon.Codec.Simple.Operations
import CcCommon.Codec.Simple.Progress
import CcCommon.Codec.Simple.Reflect
import CcCommon.Codec.Simple.RoundTrip
import CcCommon.Codec.Simple.Unique
import CcCommon.Codec.Terminator
import CcCommon.Codec.Trace
import CcCommon.Codec.Value
import CcCommon.Conn.Listen
import CcCommon.Conn.Manager
import CcCommon.Conn.Manager.Barrier
import CcCommon.Conn.Manager.Close
import CcCommon.Conn.Manager.Invariant
import CcCommon.Conn.Manager.Wait
import CcCommon.Conn.Server
import CcCommon.Conn.Server.Accept
import CcCommon.Conn.Server.Invariant
import CcCommon.Conn.Server.Lifecycle
import CcCommon.Conn.Server.Sockets
import CcCommon.Conn.System
import CcCommon.Conn.System.Descriptors
import CcCommon.Conn.System.Join
import CcCommon.Conn.System.Shutdown
import CcCommon.Lib.Buffer
import CcCommon.Lib.Bytes
import CcCommon.Lib.Cost
import CcCommon.Lib.Count
import CcCommon.Lib.Cursor
import CcCommon.Lib.Descent
import CcCommon.Lib.Loop
import CcCommon.Lib.Machine
import CcCommon.Lib.OrdSet
import CcCommon.Lib.PrefixCode
import CcCommon.Lib.Serial
import CcCommon.Lib.Sessions
import CcCommon.Lib.Text
import CcCommon.Lib.TwosComplement
import CcCommon.Lib.Waiting
import CcCommon.Util.BigEndian
import CcCommon.Util.BufReader
import CcCommon.Util.BufReader.Results
import CcCommon.Util.BufReader.Stream
import CcCommon.Util.BufWriter
import CcCommon.Util.Fdbuf
import CcCommon.Util.Fdbuf.Input
import CcCommon.Util.Fdbuf.Lifecycle
import CcCommon.Util.LockSet
import CcCommon.Util.LockSet.Complete
import CcCommon.Util.LockSet.Exclusion
import CcCommon.Util.LockSet.Incremental
import CcCommon.Util.LockSet.Invariant
import CcCommon.Util.LockSet.Serial
import CcCommon.Util.Slice
import CcCommon.Util.Slice.Cost
import CcCommon.Util.Slice.Operations
