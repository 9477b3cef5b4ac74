import WuBuOS.Kernel.Authority
import WuBuOS.Kernel.Hive
import WuBuOS.Kernel.Fat32.Durable
import WuBuOS.Runtime.Styx.Locks
import WuBuOS.Runtime.Cap.Attenuate
import WuBuOS.Runtime.Cap.Cascade
import WuBuOS.Runtime.Cap.Names
import WuBuOS.Runtime.Styx.Contain
import WuBuOS.Runtime.Styx.Revoke
import WuBuOS.Kernel.Fat32.Calls
import WuBuOS.Kernel.VmmRuns
import WuBuOS.Kernel.VmmCow
import WuBuOS.Jit.MinicFusion
import WuBuOS.Jit.CgFold
import WuBuOS.Jit.DisasmWalk
import WuBuOS.Kernel.SocketStream
import WuBuOS.Kernel.SocketRuns
import WuBuOS.Firmware.MemoryLimits
import WuBuOS.Firmware.PeConfined
import WuBuOS.Firmware.Variables
import WuBuOS.Kernel.AuditChain
import WuBuOS.Runtime.NsRoot.Hiding
import WuBuOS.Runtime.Nt.Duplicate
import WuBuOS.Runtime.Nt.Integrity
import WuBuOS.Kernel.TaskReap
import WuBuOS.Kernel.TimerLoss
import WuBuOS.Kernel.EevdfEligible
import WuBuOS.Runtime.Crypto.Fips
import WuBuOS.Kernel.SwapAgree
import WuBuOS.Runtime.Svc.Supervised
import WuBuOS.Jit.RegAllocKeep
import WuBuOS.Jit.CodeGenLaw
import WuBuOS.Kernel.TaskClass
import WuBuOS.Kernel.Fat32.ReadBound
import WuBuOS.Kernel.Fat32.LfnCodec
import WuBuOS.Kernel.Fat32.Scan
import WuBuOS.Kernel.Inflate.Safety
import WuBuOS.Kernel.Inflate.Truncated
import WuBuOS.Kernel.TxfsLog
import WuBuOS.Kernel.Lzx.Safety
import WuBuOS.Kernel.KvRoute
import WuBuOS.Kernel.MemoryCoalesce
import WuBuOS.Kernel.MemorySizes
import WuBuOS.Kernel.Recovery
import WuBuOS.Runtime.Styx.Client
import WuBuOS.Jit.CgCompiles
import WuBuOS.Jit.CgStrength
import WuBuOS.Jit.MinicMagic
import WuBuOS.Runtime.Cap.Lifecycle
import WuBuOS.Runtime.Cap.System
import WuBuOS.Runtime.Styx.Listing
import WuBuOS.Runtime.Txn.Nesting
import WuBuOS.Jit.LoopTrips
import WuBuOS.Jit.StructLayout
import WuBuOS.Jit.CodeGenImm
import WuBuOS.Jit.BranchPatch
import WuBuOS.Runtime.Container
import WuBuOS.Runtime.Dos.Shift
