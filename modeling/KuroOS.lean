import KuroOS.Base.Program
import KuroOS.Base.Bytes
import KuroOS.Base.Word
import KuroOS.Base.Cycle
import KuroOS.Base.Ring
import KuroOS.Base.Record
import KuroOS.Base.Ownership
import KuroOS.Base.Text
import KuroOS.Base.Newc
import KuroOS.Base.Riscv
import KuroOS.Base.Rotation
import KuroOS.Kernel.State
import KuroOS.Kernel.List
import KuroOS.Kernel.ListSequence
import KuroOS.Kernel.Page
import KuroOS.Memory.PagePool
import KuroOS.Kernel.Pgtable
import KuroOS.Memory.PageUse
import KuroOS.Memory.PageRange
import KuroOS.Memory.PageTree
import KuroOS.Memory.PageWalk
import KuroOS.Memory.PageMap
import KuroOS.Memory.KernelMap
import KuroOS.Memory.UserPages
import KuroOS.Memory.PageFree
import KuroOS.Memory.Translation
import KuroOS.Memory.Forest
import KuroOS.Kernel.Kmalloc
import KuroOS.Kernel.Vm
import KuroOS.Kernel.Task
import KuroOS.Kernel.Initrd
import KuroOS.Kernel.Printk
import KuroOS.Kernel.Exec
import KuroOS.Kernel.Syscall
import KuroOS.Kernel.Main
import KuroOS.Memory.Heap
import KuroOS.Memory.Coalesce
import KuroOS.Memory.Kmalloc
import KuroOS.Memory.Room
import KuroOS.Memory.HeapRun
import KuroOS.Memory.FirstFit
import KuroOS.Memory.FreeOrder
import KuroOS.Initrd.Files
import KuroOS.Initrd.Find
import KuroOS.Initrd.Member
import KuroOS.Initrd.Archive
import KuroOS.Initrd.Placement
import KuroOS.Initrd.Bounds
import KuroOS.Task.View
import KuroOS.Task.World
import KuroOS.Task.Edit
import KuroOS.Task.Links
import KuroOS.Task.Free
import KuroOS.Task.Reap
import KuroOS.Task.Build
import KuroOS.Task.Image
import KuroOS.Memory.Look
import KuroOS.Memory.Sv39
import KuroOS.Task.Create
import KuroOS.Task.Frame
import KuroOS.Task.Spawn
import KuroOS.Task.Sched
import KuroOS.Task.Schedule
import KuroOS.Task.Destroy
import KuroOS.Task.Load
import KuroOS.Task.CopyBounds
import KuroOS.Task.ElfFile
import KuroOS.Task.ElfLoad
import KuroOS.Task.Exec
import KuroOS.Task.Ops
import KuroOS.Task.Pids
import KuroOS.Task.Observe
import KuroOS.Task.Boot
import KuroOS.Task.Run
import KuroOS.Task.RoundRobin
import KuroOS.Task.Isolation
import KuroOS.Task.Accounts
import KuroOS.Task.Conserve
import KuroOS.Task.Undo
import KuroOS.Task.Fork
import KuroOS.Task.NewImage
import KuroOS.Task.ElfPlaces
import KuroOS.Task.ElfPages
import KuroOS.Task.ExecFile
import KuroOS.Task.ExecName
import KuroOS.Task.ReadBounds
import KuroOS.Task.ReapExact
import KuroOS.Task.ExecReap
import KuroOS.Task.ReadWait
import KuroOS.Task.ReadLine
import KuroOS.Task.Plain
import KuroOS.Task.Grant
import KuroOS.Task.StaleGrant
import KuroOS.Task.ForkCopy
import KuroOS.Task.ForkMaps
import KuroOS.Task.Switchable
import KuroOS.Task.UserPointers
import KuroOS.Kernel.TrapEntry
import KuroOS.Task.Bystander
import KuroOS.Task.Registers
import KuroOS.Task.TrapRun
import KuroOS.Task.Delivery
import KuroOS.Task.TrapRule
import KuroOS.Task.Machine
import KuroOS.Task.Progress
import KuroOS.Task.SyscallReturn
import KuroOS.Task.Waiting
import KuroOS.Task.ForkReturn
import KuroOS.Task.ExecReturn
import KuroOS.Task.UserMode
import KuroOS.Task.Reach
import KuroOS.Task.WriteOut
import KuroOS.Task.ReadIn
import KuroOS.Task.KernelImage
import KuroOS.Task.ExecProgram
import KuroOS.Initrd.Scan
import KuroOS.Print.Numeral
import KuroOS.Print.Format
import KuroOS.Print.Render
import KuroOS.Print.Console
import KuroOS.User.Shell
