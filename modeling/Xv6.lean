import Xv6.Lib.CrashHoare
import Xv6.Lib.Reach
import Xv6.Lib.StateExcept
import Xv6.Lib.Update
import Xv6.Lib.Ring
import Xv6.Lib.ByteMem
import Xv6.Lib.Word32
import Xv6.Lib.Bitmap
import Xv6.Lib.BinTree
import Xv6.Lib.Loop
import Xv6.Lib.DList
import Xv6.Log.Basic
import Xv6.Log.Crash
import Xv6.Log.Admission
import Xv6.Proc.Basic
import Xv6.Proc.Step
import Xv6.Proc.Sched
import Xv6.Proc.Tree
import Xv6.Proc.Kill
import Xv6.Cfs.RbTree
import Xv6.Bio.Basic
import Xv6.Bio.Links
import Xv6.Bio.Commit
import Xv6.Bio.Trans
import Xv6.Bio.Inv
import Xv6.Bio.Space
import Xv6.Fs.Basic
import Xv6.Fs.Path
import Xv6.Fs.Syscall
import Xv6.Fs.Walk
import Xv6.Fs.Calls
import Xv6.Pipe.Basic
import Xv6.Console.Input
import Xv6.Console.Read
import Xv6.Vm.Basic
import Xv6.Vm.Uvm
import Xv6.Vm.Copy
import Xv6.Vm.Args
import Xv6.Vm.Dealloc
import Xv6.Str.Move
import Xv6.User.Malloc
import Xv6.Blocks.Basic
import Xv6.Blocks.Content
import Xv6.Blocks.RoundTrip
import Xv6.Mp.Init
import Xv6.Fs.Dir
import Xv6.Sh.Lex
import Xv6.Sh.Parse
import Xv6.Sh.Grammar
import Xv6.Sh.Accept
import Xv6.Sh.Words
import Xv6.Fs.Refs
import Xv6.Lib.Lang
import Xv6.User.Grep
import Xv6.Lock.Exclusion
