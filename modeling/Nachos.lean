import Nachos.Lib.GuardedRun
import Nachos.Lib.TwosComplement
import Nachos.Lib.BitWords
import Nachos.Semaphore
import Nachos.STable
import Nachos.Bitmap
import Nachos.Lib.Patch
import Nachos.Machine
import Nachos.AddrSpace
import Nachos.Lib.Ownership
import Nachos.SpaceSystem
import Nachos.FrameOwnership
import Nachos.Loader
import Nachos.PTable
import Nachos.ProcessCore
import Nachos.ProcessTree
import Nachos.JoinSafety
import Nachos.JoinProtocol
import Nachos.Scheduler
import Nachos.Lib.Programs
import Nachos.ThreadPlacement
import Nachos.ContextSwitch
import Nachos.Mips
import Nachos.Lib.DoubleWord
import Nachos.Multiplication
import Nachos.Host
import Nachos.FileSystem
import Nachos.ExceptionHandler
import Nachos.RegisterFile
import Nachos.DelayedLoads
import Nachos.Alu
import Nachos.HostArithmetic
import Nachos.UserCopy
import Nachos.SyscallReturn
import Nachos.FileTable
import Nachos.FileCalls
import Nachos.FileRuns
import Nachos.FilePosition
import Nachos.FileChecks
import Nachos.BadPointer
import Nachos.PreciseTraps
import Nachos.Lib.Buffers
import Nachos.Lib.ByteMerge
import Nachos.Unaligned
import Nachos.Lib.Paging
import Nachos.VirtualMemory
import Nachos.ExecCalls
import Nachos.UserBuffers
import Nachos.FileTransfer
import Nachos.ConsoleCalls
import Nachos.UserStrings
import Nachos.RemoveCheck
import Nachos.SemaphoreNames
import Nachos.ProcessStart
import Nachos.StackRoom
import Nachos.Lib.TicketQueue
import Nachos.Lock
import Nachos.Condition
import Nachos.SynchList
import Nachos.Packets
import Nachos.Driver
import Nachos.Devices
import Nachos.DiskTiming
import Nachos.Lib.BlockFiles
import Nachos.SectorFiles
import Nachos.DiskFiles
import Nachos.DiskConsistency
import Nachos.HeaderBounds
import Nachos.DiskRuns
import Nachos.OpenFiles
import Nachos.ConsoleInput
import Nachos.Lib.StableOrder
import Nachos.InterruptQueue
import Nachos.PostOffice
import Nachos.PostDelivery
import Nachos.PostReceive
import Nachos.Lib.LinkedCells
import Nachos.LinkedList
import Nachos.Lib.Chaining
import Nachos.HashTable
import Nachos.HashTableMap
import Nachos.SortedList
import Nachos.Lib.CallRuns
import Nachos.ListRuns
import Nachos.BitmapSet
import Nachos.Lib.Traces
import Nachos.Lib.NamedFiles
import Nachos.FileVolume
import Nachos.MipsEncoding
import Nachos.MipsReference
import Nachos.MipsSimulation
import Nachos.Lib.X86
import Nachos.KernelSwitch
import Nachos.ReadyOrder
