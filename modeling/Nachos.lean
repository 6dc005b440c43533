import Nachos.Base.Runs
import Nachos.Base.Int32
import Nachos.Base.Bytes
import Nachos.Base.Traced
import Nachos.Base.Calls
import Nachos.Base.Chains
import Nachos.Base.StableSort
import Nachos.Lib.Bitmap
import Nachos.Lib.BitmapSet
import Nachos.Lib.SortedList
import Nachos.Lib.LinkedList
import Nachos.Lib.SortedInsert
import Nachos.Lib.HashTable
import Nachos.Lib.HashMap
import Nachos.Threads.Semaphore
import Nachos.Machine.Translate
import Nachos.Machine.MipsSim
import Nachos.Machine.DelaySlot
import Nachos.Machine.Arithmetic
import Nachos.Machine.Interrupt
import Nachos.Machine.Ticks
import Nachos.Userprog.AddrSpace
import Nachos.Userprog.Loader
import Nachos.Userprog.HostileHeader
import Nachos.Userprog.UserMemory
import Nachos.Userprog.Isolation
import Nachos.Userprog.FileDescriptors
import Nachos.Userprog.HostFiles
import Nachos.Userprog.Ksyscall
import Nachos.Userprog.CopyBack
import Nachos.Userprog.Transfer
import Nachos.Userprog.Receive
import Nachos.Userprog.CallSafety
import Nachos.Userprog.Offsets
import Nachos.Userprog.Remove
import Nachos.Userprog.Exception
import Nachos.Userprog.Preemption
import Nachos.Threads.Kernel
import Nachos.Threads.Dispatch
import Nachos.Threads.TimeSlice
import Nachos.Threads.Monitor
import Nachos.Threads.SynchList
import Nachos.Threads.SynchDevice
import Nachos.Filesys.SynchDisk
import Nachos.Filesys.FileHeader
import Nachos.Filesys.OpenFile
import Nachos.Filesys.Clipping
import Nachos.Filesys.Directory
import Nachos.Filesys.FileSystem
import Nachos.Filesys.Consistency
import Nachos.Filesys.NameMap
import Nachos.Filesys.Boots
import Nachos.Userprog.SynchConsole
import Nachos.Machine.Network
import Nachos.Network.Post
import Nachos.Network.Delivery
import Nachos.Threads.STable
import Nachos.Threads.UserSemaphore
import Nachos.Threads.Turn
import Nachos.Threads.ProcTable
import Nachos.Threads.Identity
import Nachos.Threads.JoinProtocol
import Nachos.Threads.Refinement
import Nachos.Threads.Scheduler
import Nachos.Threads.Processes
import Nachos.Threads.ExecUpdate
import Nachos.Userprog.Names
import Nachos.Userprog.CreateSemaphore
import Nachos.Userprog.Pages
import Nachos.Userprog.FailedLoad
import Nachos.Coff2noff.Convert
import Nachos.Coff2noff.RoundTrip
import Nachos.Coff2noff.Bss
import Nachos.Machine.Precise
import Nachos.Machine.Mult
import Nachos.Machine.VirtualMemory
import Nachos.Machine.Unaligned
import Nachos.Machine.Host
import Nachos.Userprog.RegisterFile
import Nachos.Userprog.Translation
import Nachos.Userprog.Placement
import Nachos.Machine.DiskLatency
import Nachos.Base.Programs
import Nachos.Userprog.FileStore
import Nachos.Userprog.FileCalls
import Nachos.Test.Programs
import Nachos.Test.ItemQueue
import Nachos.Test.ProducerConsumer
import Nachos.Test.Semaphores
import Nachos.Test.Start
import Nachos.Base.X86
import Nachos.Threads.Switch
