import OsProjects.Transition.System
import OsProjects.Transition.WaitFor
import OsProjects.Transition.Count
import OsProjects.Transition.Log
import OsProjects.Transition.Recorded
import OsProjects.Threads.Zemaphore
import OsProjects.Threads.Semaphore
import OsProjects.Threads.Linear
import OsProjects.Dining.Ring
import OsProjects.Dining.Table
import OsProjects.Dining.LastReversed
import OsProjects.Dining.Bitmap
import OsProjects.Dining.BitmapForks
import OsProjects.Dining.LeftFirst
import OsProjects.Shuttle.Model
import OsProjects.Shuttle.Mutex
import OsProjects.Shuttle.Conservation
import OsProjects.Shuttle.Deadlock
import OsProjects.Shuttle.DeadlockRun
import OsProjects.Shuttle.Arrival
import OsProjects.Shuttle.Pickup
import OsProjects.Shuttle.Signal
import OsProjects.Selection.Weighted
import OsProjects.Kernel.Proc
import OsProjects.Kernel.Lottery
import OsProjects.Kernel.Model
import OsProjects.Kernel.Draw
import OsProjects.Kernel.Locks
import OsProjects.Kernel.Control
import OsProjects.Kernel.Steps
import OsProjects.Kernel.Cores
import OsProjects.Kernel.Processors
import OsProjects.Kernel.Deadlock
import OsProjects.Kernel.Progress
import OsProjects.Kernel.Writes
import OsProjects.Kernel.Tickets
import OsProjects.Kernel.Family
import OsProjects.Kernel.Wait
import OsProjects.Kernel.Notify
import OsProjects.Kernel.Reap
import OsProjects.Kernel.Recycle
import OsProjects.Kernel.Ticks
import OsProjects.Kernel.Killed
import OsProjects.Redo.Log
import OsProjects.Logging.Model
import OsProjects.Logging.Moves
import OsProjects.Logging.Control
import OsProjects.Logging.Cache
import OsProjects.Logging.Owned
import OsProjects.Logging.Commit
import OsProjects.Logging.Steps
import OsProjects.Logging.Recovery
import OsProjects.Logging.Crash
import OsProjects.Logging.Admission
import OsProjects.Logging.Admitted
import OsProjects.Transition.Locks
import OsProjects.Wrapping.Queue
import OsProjects.Piping.Model
import OsProjects.Piping.Fifo
import OsProjects.Piping.Sleepers
import OsProjects.Hoare.Wp
import OsProjects.Files.Model
import OsProjects.Files.Refs
import OsProjects.Ownership.Heap
import OsProjects.Ownership.Tree
import OsProjects.Ownership.Program
import OsProjects.Paging.Model
import OsProjects.Paging.Table
import OsProjects.Virtio.Model
import OsProjects.Virtio.Descriptors
import OsProjects.Virtio.Protocol
import OsProjects.Inodes.Model
import OsProjects.Inodes.Held
import OsProjects.Inodes.Freeing
import OsProjects.Inodes.Steps
import OsProjects.Inodes.Orphans
import OsProjects.Linked.Ring
import OsProjects.Buffers.Transparent
import OsProjects.Bytes.LittleEndian
import OsProjects.Volume.Model
import OsProjects.Volume.Mapping
import OsProjects.Volume.Content
import OsProjects.Volume.Truncation
import OsProjects.Volume.ByteArray
import OsProjects.Directories.Model
import OsProjects.Directories.Blocks
import OsProjects.Directories.Entries
import OsProjects.Directories.Table
import OsProjects.Directories.Lookup
import OsProjects.Directories.Paths
import OsProjects.Runs.Maximal
import OsProjects.Tokens.Program
import OsProjects.Sleeping.OnTime
import OsProjects.Dining.Statistics
import OsProjects.Kernel.Divisor
import OsProjects.Pinfo.Report
import OsProjects.Arrays.Checked
import OsProjects.Lagged.Register
import OsProjects.Random.Model
import OsProjects.Random.Seeding
import OsProjects.Random.Stream
import OsProjects.Random.Generator
import OsProjects.Paging.Links
import OsProjects.Paging.Growth
import OsProjects.Files.Filenum
import OsProjects.Copying.User
import OsProjects.Copying.Permissions
import OsProjects.Copying.PipeRead
import OsProjects.Paging.Map
import OsProjects.Paging.Rollback
import OsProjects.Paging.Release
import OsProjects.Paging.AddressSpace
import OsProjects.Console.Model
import OsProjects.Console.Lines
import OsProjects.Slots.Table
import OsProjects.Directories.Map
import OsProjects.Volume.Partial
import OsProjects.Copying.Write
import OsProjects.Hoare.Ghost
import OsProjects.Volume.Logged
import OsProjects.Volume.Reservation
import OsProjects.Exec.Model
import OsProjects.Exec.Commit
import OsProjects.Shell.Model
import OsProjects.Shell.Grammar
import OsProjects.Shell.Lexer
import OsProjects.Shell.Parser
import OsProjects.Shell.Accept
import OsProjects.Transition.Monitor
import OsProjects.Sleeping.Sleeplock
import OsProjects.Slots.Sizes
import OsProjects.Console.Uart
import OsProjects.User.Grep
