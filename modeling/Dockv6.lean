import Dockv6.Foundations.Run
import Dockv6.Kernel.Param
import Dockv6.Kernel.CString
import Dockv6.Mutex.Basic
import Dockv6.Mutex.Interleaving
import Dockv6.Mutex.Exclusion
import Dockv6.Foundations.Store
import Dockv6.Log.Basic
import Dockv6.Log.Crash
import Dockv6.Foundations.Except
import Dockv6.Foundations.Walk
import Dockv6.Fs.Calls
import Dockv6.Fs.Confine
import Dockv6.Container.Budget
import Dockv6.Container.Membership
import Dockv6.Foundations.RefCount
import Dockv6.Kernel.Exit
import Dockv6.Mutex.Refcount
import Dockv6.Shm.Separation
import Dockv6.Mutex.Kill
import Dockv6.Mutex.Spinlock
import Dockv6.Mutex.Naming
import Dockv6.Priority.Monotone
import Dockv6.Priority.Bins
import Dockv6.Priority.Acyclic
import Dockv6.Cm.Codec
import Dockv6.Foundations.Pool
import Dockv6.Vm.Pages
import Dockv6.Vm.Ownership
import Dockv6.Foundations.Ring
import Dockv6.Pipe.Fifo
import Dockv6.Log.Reserve
import Dockv6.Foundations.Adds
import Dockv6.Foundations.Triple
import Dockv6.Foundations.TwoEnded
import Dockv6.Kernel.Sys
import Dockv6.Kernel.File
import Dockv6.Kernel.Sysfile
import Dockv6.Kernel.FileCall
import Dockv6.Kernel.Sysproc
import Dockv6.File.Descriptors
import Dockv6.Log.Balance
import Dockv6.Fs.Cache
import Dockv6.File.Holders
import Dockv6.Kernel.SysCall
import Dockv6.File.Inodes
import Dockv6.Kernel.Frame
import Dockv6.Process.ForkFailure
import Dockv6.Vm.Phys
import Dockv6.Shm.Get
import Dockv6.Kernel.Lock
import Dockv6.Mutex.KillFrame
import Dockv6.Foundations.Traced
import Dockv6.Kernel.Access
import Dockv6.Shm.Naming
import Dockv6.Pipe.Wakeup
import Dockv6.Foundations.Forest
import Dockv6.Process.Forest
import Dockv6.Priority.Authority
import Dockv6.Process.ExitWait
import Dockv6.Foundations.Circular
import Dockv6.User.Malloc
import Dockv6.User.Blocks
import Dockv6.User.Requests
import Dockv6.User.Memmove
import Dockv6.Foundations.Ensures
import Dockv6.Vm.Panics
import Dockv6.Vm.Shape
import Dockv6.Vm.Image
import Dockv6.Process.Kill
import Dockv6.Vm.Exact
import Dockv6.Vm.Grow
import Dockv6.Vm.Copy
import Dockv6.Fs.Resolve
import Dockv6.Vm.Null
import Dockv6.Process.Inherit
import Dockv6.Vm.Room
import Dockv6.Container.AllOrNothing
import Dockv6.Foundations.Bytes
import Dockv6.Disk.Layout
import Dockv6.Disk.Inode
import Dockv6.Disk.Blocks
import Dockv6.Disk.Content
import Dockv6.Disk.Files
import Dockv6.Disk.Write
import Dockv6.Disk.Refine
import Dockv6.Kernel.Acquire
import Dockv6.Kernel.Sleeplock
import Dockv6.User.Grep
import Dockv6.User.Printf
