import Xv6Swap.Foundations.Parity
import Xv6Swap.Foundations.Store
import Xv6Swap.Foundations.Interleave
import Xv6Swap.Foundations.Ledger
import Xv6Swap.Foundations.Linked
import Xv6Swap.Foundations.Ring
import Xv6Swap.Foundations.Simulation
import Xv6Swap.Foundations.Circular
import Xv6Swap.Foundations.Fifo
import Xv6Swap.Foundations.Mutex
import Xv6Swap.Raid.Layout
import Xv6Swap.Raid.Transfer
import Xv6Swap.Raid.View
import Xv6Swap.Raid.Survival
import Xv6Swap.Raid.Isolation
import Xv6Swap.Raid.Rounds
import Xv6Swap.Raid.Concurrent
import Xv6Swap.Queue.Requests
import Xv6Swap.Queue.Select
import Xv6Swap.Queue.Dispatch
import Xv6Swap.Queue.Invariant
import Xv6Swap.Queue.Pool
import Xv6Swap.Queue.Statistics
import Xv6Swap.Cache.Buffers
import Xv6Swap.Cache.Concurrent
import Xv6Swap.Cache.Invariant
import Xv6Swap.Cache.Transparent
import Xv6Swap.Paging.Tables
import Xv6Swap.Paging.Memory
import Xv6Swap.Paging.Fault
import Xv6Swap.Paging.Space
import Xv6Swap.Paging.Process
import Xv6Swap.Paging.Sections
import Xv6Swap.Paging.Clock
import Xv6Swap.Paging.Invariant
import Xv6Swap.Paging.Entries
import Xv6Swap.Paging.Alloc
import Xv6Swap.Paging.Evict
import Xv6Swap.Paging.Resident
import Xv6Swap.Paging.Account
import Xv6Swap.Paging.Unmap
import Xv6Swap.Paging.Grow
import Xv6Swap.Paging.Teardown
import Xv6Swap.Paging.Flat
import Xv6Swap.Paging.Transparent
import Xv6Swap.Paging.Invisible
import Xv6Swap.Paging.AllocUser
import Xv6Swap.Paging.Exec
import Xv6Swap.Paging.Retry
import Xv6Swap.Paging.Strings
import Xv6Swap.Paging.CopyUser
import Xv6Swap.Paging.Rollback
import Xv6Swap.Paging.Sbrk
import Xv6Swap.Threads.Fault
import Xv6Swap.Threads.Space
import Xv6Swap.Paging.Fork
import Xv6Swap.Paging.Create
import Xv6Swap.Paging.Reap
import Xv6Swap.Paging.Copy
import Xv6Swap.Paging.NoTrace
import Xv6Swap.Paging.Moves
import Xv6Swap.Paging.Calls
import Xv6Swap.Paging.Tally
import Xv6Swap.Paging.Capped
import Xv6Swap.Threads.System
import Xv6Swap.Threads.Frame
import Xv6Swap.Threads.Life
import Xv6Swap.Threads.Effects
import Xv6Swap.Threads.Slots
import Xv6Swap.Threads.Locks
import Xv6Swap.Threads.Frames
import Xv6Swap.Threads.Reuse
import Xv6Swap.Threads.Tracked
import Xv6Swap.Pages.Roles
import Xv6Swap.Pages.Leaves
import Xv6Swap.Pages.Moves
import Xv6Swap.Pages.Fault
import Xv6Swap.Pages.Space
import Xv6Swap.Pages.Make
import Xv6Swap.Pages.Conserve
import Xv6Swap.Pages.Content
import Xv6Swap.Pages.Kept
import Xv6Swap.Pages.Lost
import Xv6Swap.Trap.Machine
import Xv6Swap.Trap.Sched
import Xv6Swap.Trap.Mlfq
import Xv6Swap.Trap.Slices
import Xv6Swap.Trap.Ticks
import Xv6Swap.Trap.Boost
import Xv6Swap.Trap.Fault
import Xv6Swap.Trap.Waits
import Xv6Swap.Virtio.Driver
import Xv6Swap.Virtio.Descriptors
import Xv6Swap.Virtio.Jobs
import Xv6Swap.Virtio.Invariant
import Xv6Swap.Virtio.Safety
import Xv6Swap.Virtio.Atomic
import Xv6Swap.Virtio.Wakeups
import Xv6Swap.Virtio.Progress
