import Xv6pp.Log.Crash
import Xv6pp.Log.Admission
import Xv6pp.Buffer.BufferCache
import Xv6pp.Buffer.CacheUsers
import Xv6pp.Lib.Radix
import Xv6pp.Lib.Wp
import Xv6pp.Vm.Memory
import Xv6pp.Vm.PageTable
import Xv6pp.Vm.Mapping
import Xv6pp.Vm.AddressSpace
import Xv6pp.Proc.Process
import Xv6pp.Proc.UserPagetable
import Xv6pp.Proc.Ownership
import Xv6pp.Proc.ProcessMachine
import Xv6pp.Proc.Teardown
import Xv6pp.Fs.Layout
import Xv6pp.Fs.FileSystem
import Xv6pp.Fs.Ideal
import Xv6pp.Lib.Allocation
import Xv6pp.Fs.Blocks
import Xv6pp.Fs.Inodes
import Xv6pp.Fs.Contents
import Xv6pp.Fs.Truncate
import Xv6pp.Fs.InodeTable
import Xv6pp.Fs.Directory
import Xv6pp.Fs.Components
import Xv6pp.Fs.Namex
import Xv6pp.Fs.Upkeep
import Xv6pp.Fs.Budget
import Xv6pp.Fs.Files
import Xv6pp.File.Pipe
import Xv6pp.File.PipeUsers
import Xv6pp.File.PipeQueue
import Xv6pp.File.PipeSleepers
import Xv6pp.Proc.Kill
import Xv6pp.Fs.InodeUsers
import Xv6pp.Proc.SleepWakeup
import Xv6pp.Proc.ExitWait
import Xv6pp.Proc.NoLostWakeup
import Xv6pp.Proc.ProcessTree
import Xv6pp.Proc.Reaping
import Xv6pp.File.FileManager
import Xv6pp.File.FileTable
import Xv6pp.Vm.Supply
import Xv6pp.Vm.PageMap
import Xv6pp.Vm.UserCopy
import Xv6pp.Vm.Resizing
import Xv6pp.Vm.Copying
import Xv6pp.Proc.Fork
import Xv6pp.Proc.Sbrk
import Xv6pp.Proc.ArgumentBlock
import Xv6pp.Proc.ExecImage
import Xv6pp.Buffer.Outcome
import Xv6pp.Fs.Holding
import Xv6pp.Fs.Sysfile
import Xv6pp.Fs.Books
import Xv6pp.File.OpenInodes
import Xv6pp.Fs.Balance
import Xv6pp.File.SharedOffset
import Xv6pp.Buffer.Replacement
import Xv6pp.Disk.VirtioDriver
import Xv6pp.Disk.Requests
import Xv6pp.Console.FaultingRead
import Xv6pp.Console.LineDiscipline
import Xv6pp.Proc.CpuManager
import Xv6pp.Proc.InterruptEnable
import Xv6pp.User.Matcher
import Xv6pp.User.Grep
import Xv6pp.Buffer.IntrusiveDlist
import Xv6pp.Buffer.LinkedCache
import Xv6pp.Lib.Numerals
import Xv6pp.Console.Printf
import Xv6pp.Console.Formats
import Xv6pp.Lib.Spans
import Xv6pp.User.Umalloc
import Xv6pp.User.FreeList
import Xv6pp.User.UserHeap
import Xv6pp.User.Shell
import Xv6pp.User.ShellGrammar
import Xv6pp.User.ShellParser
import Xv6pp.User.ShellStrings
import Xv6pp.Fs.Journal
import Xv6pp.Fs.Operations
import Xv6pp.Fs.Transactions
import Xv6pp.Fs.SystemCalls
import Xv6pp.Fs.CrashSafety
import Xv6pp.Lib.Assembly
import Xv6pp.Proc.ContextSwitch
import Xv6pp.Proc.KernelTrap
import Xv6pp.Proc.UserTrap
