import TpeSo.Lib.Outcome
import TpeSo.Lib.Trace
import TpeSo.Ds.Queue
import TpeSo.Ds.Ringbuf
import TpeSo.Kernel.State
import TpeSo.Kernel.Scheduler
import TpeSo.Kernel.Semaphore
import TpeSo.Kernel.Pipe
import TpeSo.Kernel.Process
import TpeSo.Kernel.Keyboard
import TpeSo.Kernel.Syscall
import TpeSo.Acts.Quiet
import TpeSo.Acts.Micro
import TpeSo.Acts.Origin
import TpeSo.Acts.Decompose
import TpeSo.Acts.Lives
import TpeSo.Acts.Entries
import TpeSo.Sched.View
import TpeSo.Sched.Books
import TpeSo.Sched.Partition
import TpeSo.Sched.Finality
import TpeSo.Acts.Store
import TpeSo.Lib.Tally
import TpeSo.Sched.Born
import TpeSo.Pipes.Counts
import TpeSo.Acts.Stack
import TpeSo.Pipes.Stream
import TpeSo.Lib.Ledger
import TpeSo.Sems.Frame
import TpeSo.Sems.Tokens
import TpeSo.Sems.Waiting
import TpeSo.Sems.Returns
import TpeSo.Pipes.Full
import TpeSo.Ds.Deque
import TpeSo.Lib.Wheel
import TpeSo.Sched.RoundRobin
import TpeSo.Acts.Fixed
import TpeSo.Pipes.Waiting
import TpeSo.Sched.Unlink
import TpeSo.Lib.Alarm
import TpeSo.Timer.Clock
import TpeSo.Timer.Lapse
import TpeSo.Timer.Sleep
import TpeSo.Timer.Naps
import TpeSo.Family.Tidy
import TpeSo.Family.Tree
import TpeSo.Family.Wakes
import TpeSo.Family.Step
import TpeSo.Family.Kinship
import TpeSo.Family.Wakeups
import TpeSo.Family.Whole
import TpeSo.Family.Foreground
import TpeSo.Sems.Exits
import TpeSo.Lib.Token
import TpeSo.Userland.SlowInc
import TpeSo.Userland.Counting
import TpeSo.Acts.Objects
import TpeSo.Pipes.Calls
import TpeSo.Pipes.EndOfFile
import TpeSo.Sems.Locks
import TpeSo.Pipes.LostReads
import TpeSo.Fs.Strings
import TpeSo.Lib.Roster
import TpeSo.Fs.Programs
import TpeSo.Lib.Circle
import TpeSo.Lib.Fifo
import TpeSo.Phylo.Program
import TpeSo.Phylo.Steps
import TpeSo.Phylo.Seats
import TpeSo.Phylo.Mutex
import TpeSo.Phylo.Neighbours
import TpeSo.Phylo.Waiters
import TpeSo.Phylo.Contiguous
import TpeSo.Lib.Slots
import TpeSo.Pipes.Directory
import TpeSo.Lib.Runs
import TpeSo.Memory.MyMm
import TpeSo.Memory.FirstFit
import TpeSo.Memory.Restore
import TpeSo.Lib.BuddySystem
import TpeSo.Lib.Bytes
import TpeSo.Memory.Buddy
import TpeSo.Memory.BuddyHeap
import TpeSo.Memory.BuddyAlloc
import TpeSo.Memory.BuddyFree
import TpeSo.Memory.BuddyHistory
import TpeSo.Memory.BuddyContract
import TpeSo.Memory.BuddyStale
import TpeSo.Image.ModuleLoader
import TpeSo.Image.ModulePacker
import TpeSo.Image.RoundTrip
import TpeSo.Kernel.HeapLedger
import TpeSo.Family.Spawning
import TpeSo.Family.Remains
import TpeSo.Family.DeadKill
import TpeSo.Lib.BuddyCover
import TpeSo.Memory.BuddyPartition
import TpeSo.Memory.Integrity
import TpeSo.Ds.RingSearch
import TpeSo.Ds.RingPeek
import TpeSo.Ds.RingOverwrite
import TpeSo.Pipes.ByName
import TpeSo.Memory.PipeCreation
import TpeSo.Exec.Stack
import TpeSo.Exec.Layout
import TpeSo.Exec.Bounds
import TpeSo.Exec.RoundTrip
import TpeSo.Family.Census
import TpeSo.Timer.DueSleepers
import TpeSo.Family.PidArgs
import TpeSo.Sched.Exhaustion
import TpeSo.Sems.Stranded
import TpeSo.Lib.Lines
import TpeSo.Ds.RingLine
import TpeSo.Keyboard.Editing
import TpeSo.Sched.Seat
import TpeSo.Sched.Panic
import TpeSo.Ds.Links
import TpeSo.Keyboard.Arrows
import TpeSo.Keyboard.GetLine
import TpeSo.Timer.Unlinking
import TpeSo.Video.Cursor
import TpeSo.Video.TextLog
import TpeSo.Video.Agreement
import TpeSo.Lib.Pieces
import TpeSo.Userland.Strings
import TpeSo.Userland.ParseCommand
import TpeSo.Userland.Decimal
import TpeSo.Userland.Printf
import TpeSo.Userland.Wc
import TpeSo.Ds.LinkHistory
import TpeSo.KernelLib.Logger
import TpeSo.KernelLib.Copying
import TpeSo.Sched.Overtaking
import TpeSo.Userland.PipelineLeak
import TpeSo.Exec.OwnProcessor
