import Xv6.PriorityLock.Interleaving
import Xv6.Vm.Holes
import Xv6.Vm.Counts
import Xv6.Syscall.Counters
import Xv6.Procs.Queues
import Xv6.Procs.Handover
import Xv6.Fs.LogSpace
import Xv6.Pipe
import Xv6.Logging.Crash
import Xv6.Bio.Coherence
import Xv6.Files.Counts
import Xv6.Mkfs.ReadBack
import Xv6.Procs.RoundRobin
import Xv6.Sleeplock
import Xv6.Fs.CopyLocks
import Xv6.Console.Framing
import Xv6.Console.Navigation
import Xv6.Console.Completion
import Xv6.Console.Redraw
import Xv6.Sh.Parsing
import Xv6.Procs.Selection
import Xv6.Vm.Closing
import Xv6.Vm.Copyout
import Xv6.Vm.Sbrk
import Xv6.Syscall.Droot
import Xv6.Procs.Uncles
import Xv6.Vm.Copyuvm
import Xv6.Fs.Resolution
import Xv6.Grep
