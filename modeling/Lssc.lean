import Lssc.WordAccess.Alignment
import Lssc.WordAccess.Bytes
import Lssc.WordAccess.Program
import Lssc.WordAccess.Memory
import Lssc.WordAccess.Mirror
import Lssc.WordAccess.Cuts
import Lssc.WordAccess.Greedy
import Lssc.WordAccess.Stream
import Lssc.WordAccess.Footprint
import Lssc.WordAccess.Delivery
import Lssc.WordAccess.Paths
import Lssc.WordAccess.Interference
import Lssc.WordAccess.Sharing
import Lssc.WordAccess.Interleave
import Lssc.WordAccess.Progress
import Lssc.WordAccess.Counting
import Lssc.WordAccess.Translate
import Lssc.Header
import Lssc.Common
import Lssc.LoopHead
import Lssc.Lf
import Lssc.Lft
import Lssc.Lr
import Lssc.Lrt
import Lssc.Direction
import Lssc.Peel
import Lssc.Carry
import Lssc.Streams
import Lssc.Reflect
import Lssc.Memmove
import Lssc.Memset
import Lssc.ThreadSafe
import Lssc.Words
import Lssc.Defined
import Lssc.LoopInvariant
import Lssc.Overlap
import Lssc.Translate
import Lssc.Bench
import Lssc.Cost
import Lssc.Calls
import Lssc.Threads
import Lssc.Progress
import Lssc.Neighbour
import Lssc.Asan
import Lssc.UnitTests
