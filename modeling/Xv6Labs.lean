import Xv6Labs.Lib.Bytes
import Xv6Labs.Lib.Word
import Xv6Labs.Lib.Calls
import Xv6Labs.Lib.Lists
import Xv6Labs.Lib.Slots
import Xv6Labs.Lib.Runs
import Xv6Labs.Lib.Ring
import Xv6Labs.Lib.Tiling
import Xv6Labs.Lib.Codes
import Xv6Labs.Riscv
import Xv6Labs.Vm.Code
import Xv6Labs.Vm.Tables
import Xv6Labs.Vm.Inv
import Xv6Labs.Vm.Walk
import Xv6Labs.Vm.Unmap
import Xv6Labs.Vm.Grow
import Xv6Labs.Vm.Free
import Xv6Labs.Lib.Chain
import Xv6Labs.Cow.Kalloc
import Xv6Labs.Vm.Space
import Xv6Labs.Vm.Copy
import Xv6Labs.Vm.Copyin
import Xv6Labs.Vm.Exact
import Xv6Labs.Vm.Copyinstr
import Xv6Labs.Vm.Pgaccess
import Xv6Labs.Cow.Vm
import Xv6Labs.Cow.Refcount
import Xv6Labs.Cow.Worlds
import Xv6Labs.Cow.Refine
import Xv6Labs.Cow.Undo
import Xv6Labs.Cow.Readonly
import Xv6Labs.Traps.Alarm
import Xv6Labs.Net.Transmit
import Xv6Labs.Net.Receive
import Xv6Labs.Locks.Kalloc
import Xv6Labs.Vm.Kalloc
import Xv6Labs.Vm.Maps
import Xv6Labs.Vm.Kvm
import Xv6Labs.Locks.Bio
import Xv6Labs.Locks.Bget
import Xv6Labs.Lib.Waiting
import Xv6Labs.Locks.Discipline
import Xv6Labs.Locks.Lru
import Xv6Labs.Locks.Unique
import Xv6Labs.Mmap.Layout
import Xv6Labs.Threads.Barrier
import Xv6Labs.Threads.Rounds
import Xv6Labs.Threads.Ph
import Xv6Labs.Threads.Uthread
import Xv6Labs.Threads.Turns
import Xv6Labs.Procs.Table
import Xv6Labs.Procs.Wait
import Xv6Labs.Procs.Sched
import Xv6Labs.Procs.Ticks
import Xv6Labs.Fs.Ftable
import Xv6Labs.Fs.Coherence
import Xv6Labs.Vm.Leak
import Xv6Labs.Vm.Parts
import Xv6Labs.Vm.Growproc
import Xv6Labs.Traps.Printf
import Xv6Labs.Vm.Vmprint
import Xv6Labs.Exec.Safe
import Xv6Labs.Traps.OnTime
import Xv6Labs.Locks.Kinit
import Xv6Labs.Exec.Layout
import Xv6Labs.Exec.Args
import Xv6Labs.Mmap.Munmap
import Xv6Labs.Mmap.Fill
import Xv6Labs.Mmap.Progress
import Xv6Labs.Cow.Kernels
import Xv6Labs.Cow.Eager
import Xv6Labs.Fs.Code
import Xv6Labs.Fs.Sysfile
import Xv6Labs.Fs.Balance
import Xv6Labs.Fs.Blocks
import Xv6Labs.Fs.Bitmap
import Xv6Labs.Fs.Open
import Xv6Labs.Fs.Trunc
import Xv6Labs.Fs.Bmap
import Xv6Labs.Fs.File
import Xv6Labs.Fs.Write
import Xv6Labs.Fs.Log
import Xv6Labs.Fs.Filewrite
import Xv6Labs.Fs.Volume
import Xv6Labs.Fs.Directory
import Xv6Labs.Fs.Chunks
import Xv6Labs.Fs.Resolve
import Xv6Labs.Fs.Undo
import Xv6Labs.Fs.Blockmap
import Xv6Labs.Fs.Paths
import Xv6Labs.Fs.Symlink
import Xv6Labs.Fs.Files
import Xv6Labs.Fs.Offsets
import Xv6Labs.Fs.Nofollow
import Xv6Labs.Lib.Census
import Xv6Labs.Fs.Graph
import Xv6Labs.Fs.Links
import Xv6Labs.Fs.Refines
import Xv6Labs.Fs.Panics
import Xv6Labs.Fs.Nlink
import Xv6Labs.Fs.Counts
import Xv6Labs.User.Malloc
import Xv6Labs.User.Heap
import Xv6Labs.User.Consistent
import Xv6Labs.User.Sbrk
import Xv6Labs.User.Xargs
import Xv6Labs.User.Find
