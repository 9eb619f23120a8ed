import Xv6SnifferBakery.Theorems.Conservation
import Xv6SnifferBakery.Theorems.ExecFailure
import Xv6SnifferBakery.Theorems.LazyLoad
import Xv6SnifferBakery.Theorems.SizeBound
import Xv6SnifferBakery.Theorems.ExecRobust
import Xv6SnifferBakery.Theorems.PipeDelivery
import Xv6SnifferBakery.Theorems.CrashAtomicity
import Xv6SnifferBakery.Theorems.InodeRefs
import Xv6SnifferBakery.Theorems.FileHoles
import Xv6SnifferBakery.Theorems.SwapPrivate
import Xv6SnifferBakery.Theorems.BakeryResources
import Xv6SnifferBakery.Theorems.BakeryLifecycle
import Xv6SnifferBakery.Theorems.BakeryTermination
import Xv6SnifferBakery.Theorems.PaymentPriority
import Xv6SnifferBakery.Theorems.SeatDelay
import Xv6SnifferBakery.Theorems.InputBounds
import Xv6SnifferBakery.Theorems.LogReservation
import Xv6SnifferBakery.Theorems.BlockOwnership
import Xv6SnifferBakery.Theorems.FifoEviction
import Xv6SnifferBakery.Theorems.SwapRoundTrip
import Xv6SnifferBakery.Theorems.ShrinkDiscards
import Xv6SnifferBakery.Theorems.FaultRemap
import Xv6SnifferBakery.Theorems.SbrkRemap
import Xv6SnifferBakery.Theorems.FaultLegit
import Xv6SnifferBakery.Theorems.KillTarget
import Xv6SnifferBakery.Theorems.Memstat
import Xv6SnifferBakery.Theorems.Rollback
import Xv6SnifferBakery.Theorems.SlotOwnership
import Xv6SnifferBakery.Theorems.FaultProgress
import Xv6SnifferBakery.Theorems.ExecArguments
import Xv6SnifferBakery.Theorems.TableMatch
import Xv6SnifferBakery.Theorems.WriteTracking
import Xv6SnifferBakery.Theorems.SegmentWrite
import Xv6SnifferBakery.Theorems.SlotRange
import Xv6SnifferBakery.Theorems.LiveReads
import Xv6SnifferBakery.Theorems.InspectReads
import Xv6SnifferBakery.Theorems.PayloadRange
import Xv6SnifferBakery.Theorems.HexDump
import Xv6SnifferBakery.Theorems.PacketIds
import Xv6SnifferBakery.Theorems.ViewsAgree
import Xv6SnifferBakery.Theorems.InputOrder
import Xv6SnifferBakery.Theorems.QueueFifo
import Xv6SnifferBakery.Theorems.PageMap
import Xv6SnifferBakery.Theorems.BufferCache
import Xv6SnifferBakery.Theorems.ShellParser
import Xv6SnifferBakery.Theorems.DiskDriver
import Xv6SnifferBakery.Theorems.Allocator
import Xv6SnifferBakery.Theorems.SleepLocks
import Xv6SnifferBakery.Theorems.Grep
