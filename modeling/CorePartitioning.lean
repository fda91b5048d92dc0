import CorePartitioning.Lib.BubbleSort
import CorePartitioning.Lib.IntRange
import CorePartitioning.Lib.RoundRobin
import CorePartitioning.Lib.Transfer
import CorePartitioning.Lib.Run
import CorePartitioning.Lib.Slot
import CorePartitioning.Lib.Prog
import CorePartitioning.Lib.RwLock
import CorePartitioning.Lib.Threads
import CorePartitioning.Lib.Outline
import CorePartitioning.Lib.Count
import CorePartitioning.Lib.Ticks
import CorePartitioning.Lib.Decimal
import CorePartitioning.Lib.Links
import CorePartitioning.Lib.Rollback
import CorePartitioning.Lib.Scan
import CorePartitioning.KTimer.Config
import CorePartitioning.KTimer.App
import CorePartitioning.KTimer.AppTransfer
import CorePartitioning.KTimer.AppPartition
import CorePartitioning.KTimer.AppIrq
import CorePartitioning.KTimer.Placement
import CorePartitioning.KTimer.Single
import CorePartitioning.KTimer.SingleIrq
import CorePartitioning.KTimer.Sockets
import CorePartitioning.KTimer.Cross
import CorePartitioning.KTimer.Per
import CorePartitioning.Preload.DataTypes
import CorePartitioning.Preload.Ipc
import CorePartitioning.Preload.Exchange
import CorePartitioning.Preload.IpcRefines
import CorePartitioning.Preload.IpcRequests
import CorePartitioning.Preload.IpcRouting
import CorePartitioning.Preload.Syscall
import CorePartitioning.Preload.FdTable
import CorePartitioning.Preload.Wrappers
import CorePartitioning.Preload.System
import CorePartitioning.Preload.Discipline
import CorePartitioning.Preload.LockBalance
import CorePartitioning.Preload.TableMutation
import CorePartitioning.Preload.Outlines
import CorePartitioning.Preload.LockModes
import CorePartitioning.Preload.TableChange
import CorePartitioning.Preload.TableLookup
import CorePartitioning.Preload.TableSize
import CorePartitioning.Preload.Registration
import CorePartitioning.Preload.Errno
import CorePartitioning.Preload.IpcTokens
import CorePartitioning.Preload.IpcProgress
import CorePartitioning.Preload.Dispatch
import CorePartitioning.Preload.Machine
import CorePartitioning.Preload.MachineRefines
import CorePartitioning.Preload.LockWait
import CorePartitioning.Preload.TablePointers
import CorePartitioning.Preload.ThreadLife
import CorePartitioning.Preload.Carried
import CorePartitioning.Preload.LiveRequests
import CorePartitioning.Preload.Descriptors
import CorePartitioning.Preload.DescriptorHolders
import CorePartitioning.Preload.EntryPerDescriptor
import CorePartitioning.Preload.CallLog
import CorePartitioning.Preload.OneUser
import CorePartitioning.Preload.Transparency
import CorePartitioning.Preload.Fork
import CorePartitioning.Preload.ForkReset
import CorePartitioning.Preload.ForkMoment
import CorePartitioning.Preload.SetCpu
import CorePartitioning.KTimer.Affinity
import CorePartitioning.Preload.SetCpuApp
import CorePartitioning.KTimer.AppAffinity
import CorePartitioning.KTimer.Spread
import CorePartitioning.KTimer.AppBlkWalk
import CorePartitioning.KTimer.SingleReturn
import CorePartitioning.KTimer.Utilisation
import CorePartitioning.KTimer.IrqFrame
import CorePartitioning.KTimer.Load
import CorePartitioning.Preload.CallAlone
import CorePartitioning.Preload.LseekPoll
import CorePartitioning.Preload.ForkIdentify
import CorePartitioning.Preload.Heap
import CorePartitioning.Preload.HeapList
import CorePartitioning.Preload.HeapRefines
import CorePartitioning.Preload.HeapRuns
import CorePartitioning.Preload.Pool
import CorePartitioning.Preload.PoolAccounts
import CorePartitioning.Preload.ProcStat
import CorePartitioning.Preload.ValidPointers
import CorePartitioning.Preload.Exchanges
import CorePartitioning.Preload.Endings
import CorePartitioning.Preload.PointerSafety
import CorePartitioning.Preload.Progress
import CorePartitioning.Preload.Work
import CorePartitioning.Preload.CallsAnswered
import CorePartitioning.Preload.AtRest
import CorePartitioning.Preload.Originals
import CorePartitioning.KTimer.Separation
import CorePartitioning.Preload.ForkThreads
import CorePartitioning.Preload.Generations
import CorePartitioning.KTimer.TornReads
import CorePartitioning.KTimer.Lifecycle
import CorePartitioning.KTimer.Sampling
