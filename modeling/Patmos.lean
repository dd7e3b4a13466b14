import Patmos.OcpBurstPriorityJoin
import Patmos.TdmArbiter
import Patmos.DirectMappedCache
import Patmos.TwoWaySetAssociativeCache
import Patmos.WriteBackCoherence
import Patmos.WriteCombineCoherence
import Patmos.ICacheCoherence
import Patmos.StackCachePointers
import Patmos.StackCacheSpill
import Patmos.BubbleFifo
import Patmos.Hardlock
import Patmos.BakeryLock
import Patmos.SamplingPort
import Patmos.QueuingSetup
import Patmos.S4nocNetwork
import Patmos.TransactionalMemorySerial
import Patmos.LzssDecoder
import Patmos.Multiplication
import Patmos.OperandForwarding
import Patmos.CallReturn
import Patmos.RtcCorrection
import Patmos.IoDecode
import Patmos.SspmProgress
import Patmos.SpmPoolProgress
import Patmos.MiiService
import Patmos.Sha256Progress
import Patmos.ExceptionRuns
import Patmos.UartLoopback
import Patmos.Icmp
import Patmos.ArpTable
import Patmos.TcpTransfer
import Patmos.TteQueue
import Patmos.MCacheSpace
import Patmos.MCacheFetch
import Patmos.BurstErrors
import Patmos.OcpBurstBuffer
import Patmos.MemoryAccess
import Patmos.NocMulticast
import Patmos.SpmAllocation
import Patmos.NocSetup
import Patmos.LongName
