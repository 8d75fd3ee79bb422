import Flowscope.Analysis
import Flowscope.Conservation
import Flowscope.Correlate.Capacity
import Flowscope.Correlate.HeavyHitters
import Flowscope.Correlate.Sharded
import Flowscope.FastPath
import Flowscope.Flow.Discard
import Flowscope.Flow.FlowTable
import Flowscope.Flow.Pool
import Flowscope.Flush
import Flowscope.Http.Boundary
import Flowscope.Http.Pipeline
import Flowscope.Http.Segmentation
import Flowscope.Http2.Blocks
import Flowscope.Http2.Lifecycle
import Flowscope.Http2.Lockstep
import Flowscope.Http2.Observer
import Flowscope.Http2.RoundTrip
import Flowscope.Http2.Sensitive
import Flowscope.IpFragment.Order
import Flowscope.Ipfix.RoundTrip
import Flowscope.Layers
import Flowscope.MacAddr
import Flowscope.Placement
import Flowscope.Reassembly.ChunkAlgebra
import Flowscope.Segment.Reachable
import Flowscope.Session.Probing
import Flowscope.Ssh.Session
import Flowscope.TcpFingerprint
import Flowscope.Timers
import Flowscope.Correlate.Neighbor
