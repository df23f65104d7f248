/-
The file-system calls of `sysfile.c`, with the parts of `file.c`, `exec.c` and
`proc.c` that take or drop inode references.

Each call runs as one step, from its arguments to its return value: -1 where
the source returns -1, a panic where it panics. `begin_op` and `end_op` are
left out, because the log is `Xv6.Log`'s and `Xv6.Bio`'s concern. Pipes,
reads and writes are left out too, since none of them takes or drops an inode
reference. The process table holds each process's current directory and open
files, and a process that exits leaves it. `exec` only looks its program up and
drops it: whether the ELF image loads is the argument `elfok`.
-/
import Xv6.Fs.Path
import Xv6.Lib.Reach

set_option autoImplicit false

namespace Xv6.Fs

open StateExcept TransitionSystem

variable {ι : Type} [DecidableEq ι]

/-- Rewrite file `f` of `ftable`. -/
def setFile (f : Fin NFILE) (g : file → file) : FsM ι Unit :=
  modify fun s => { s with ftable := Function.update s.ftable f (g (s.ftable f)) }

/-- Rewrite slot `i` of the process table. -/
def setProc (i : ι) (p : Option proc) : FsM ι Unit :=
  modify fun s => { s with ptable := Function.update s.ptable i p }

/-- `myproc()`: the calling process. -/
def getproc (i : ι) : FsM ι proc := do
  match (← get).ptable i with
  | some p => return p
  | none => throw "myproc"

/-- Rewrite the calling process. -/
def modifyProc (i : ι) (g : proc → proc) : FsM ι Unit := do
  let p ← getproc i
  setProc i (some (g p))

/-! ## Files -/

/-- `filealloc`: the first file with no references, now with one. -/
def filealloc : FsM ι (Option (Fin NFILE)) := do
  let s ← get
  match (List.finRange NFILE).find? fun f => (s.ftable f).ref = 0 with
  | some f => do
    setFile f fun x => { x with ref := 1 }
    return some f
  | none => return none

/-- `filedup`. -/
def filedup (f : Fin NFILE) : FsM ι Unit := do
  let s ← get
  if (s.ftable f).ref < 1 then throw "filedup"
  else setFile f fun x => { x with ref := x.ref + 1 }

/-- `fileclose`: drop a reference. The last one closes the file, and an inode
file then drops its inode. -/
def fileclose (f : Fin NFILE) : FsM ι Unit := do
  let ff := (← get).ftable f
  if ff.ref < 1 then throw "fileclose"
  else if ff.ref - 1 > 0 then setFile f fun x => { x with ref := x.ref - 1 }
  else do
    setFile f fun x => { x with ref := 0, type := .FD_NONE }
    -- `pipeclose` for a pipe; pipes are not modelled
    if ff.type = .FD_INODE then iput ff.ip else pure ()

/-- `fdalloc`: the first free descriptor of process `i`, now naming `f`. -/
def fdalloc (i : ι) (f : Fin NFILE) : FsM ι (Option (Fin NOFILE)) := do
  let p ← getproc i
  match (List.finRange NOFILE).find? fun fd => p.ofile fd = none with
  | some fd => do
    setProc i (some { p with ofile := Function.update p.ofile fd (some f) })
    return some fd
  | none => return none

/-- `argfd`: the open file of descriptor `fd`. -/
def argfd (i : ι) (fd : Int) : FsM ι (Option (Fin NOFILE × Fin NFILE)) := do
  let p ← getproc i
  if h : 0 ≤ fd ∧ fd < NOFILE then
    let d : Fin NOFILE := ⟨fd.toNat, by omega⟩
    return (p.ofile d).map fun f => (d, f)
  else return none

/-! ## Creating, linking, unlinking -/

/-- `create`: the inode `path` names, made with type `type` if it is not
there. It returns the inode locked, with one reference. -/
def create (cwd : Fin NINODE) (path : List Char) (type major minor : Nat) :
    FsM ι (Option (Fin NINODE)) := do
  match ← nameiparent cwd path with
  | none => return none
  | some (dp, name) => do
    ilock dp
    match ← dirlookup dp name with
    | some (ip, _) => do
      iunlockput dp
      ilock ip
      if type = T_FILE ∧ ((← get).icache ip).type = T_FILE then return some ip
      else do
        iunlockput ip
        return none
    | none => do
      let ip ← ialloc ((← get).icache dp).dev type
      ilock ip
      setInode ip fun x => { x with major := major, minor := minor, nlink := 1 }
      iupdate ip
      if type = T_DIR then do
        -- ".." links the parent; "." is no link, so the count has no cycle
        setInode dp fun x => { x with nlink := x.nlink + 1 }
        iupdate dp
        if (← dirlink ip ".".toList ((← get).icache ip).inum) < 0 then throw "create dots"
        if (← dirlink ip "..".toList ((← get).icache dp).inum) < 0 then throw "create dots"
      if (← dirlink dp name ((← get).icache ip).inum) < 0 then throw "create: dirlink"
      iunlockput dp
      return some ip

/-- The inode `sys_open` opens, locked: `create`'s with `O_CREATE`, else the
one `path` names, which must not be a directory opened for writing. -/
def openinode (cwd : Fin NINODE) (path : List Char) (omode : Nat) :
    FsM ι (Option (Fin NINODE)) := do
  if omode &&& O_CREATE ≠ 0 then create cwd path T_FILE 0 0
  else
    match ← namei cwd path with
    | none => return none
    | some ip => do
      ilock ip
      if ((← get).icache ip).type = T_DIR ∧ omode ≠ O_RDONLY then do
        iunlockput ip
        return none
      else return some ip

/-- `sys_open`. -/
def sys_open (i : ι) (path : List Char) (omode : Nat) : FsM ι Int := do
  let p ← getproc i
  match ← openinode p.cwd path omode with
  | none => return -1
  | some ip =>
    match ← filealloc with
    | none => do
      iunlockput ip
      return -1
    | some f =>
      match ← fdalloc i f with
      | none => do
        fileclose f
        iunlockput ip
        return -1
      | some fd => do
        iunlock ip
        setFile f fun x =>
          { x with type := .FD_INODE, ip := ip, off := 0
                   readable := omode &&& O_WRONLY == 0
                   writable := omode &&& O_WRONLY != 0 || omode &&& O_RDWR != 0 }
        return fd.val

/-- What `sys_mkdir` and `sys_mknod` share: `create`, then drop the inode. -/
def mkinode (i : ι) (path : List Char) (type major minor : Nat) : FsM ι Int := do
  let p ← getproc i
  match ← create p.cwd path type major minor with
  | none => return -1
  | some ip => do
    iunlockput ip
    return 0

/-- `sys_mkdir`. -/
def sys_mkdir (i : ι) (path : List Char) : FsM ι Int :=
  mkinode i path T_DIR 0 0

/-- `sys_mknod`. -/
def sys_mknod (i : ι) (path : List Char) (major minor : Nat) : FsM ι Int :=
  mkinode i path T_DEV major minor

/-- The code at `sys_link`'s label `bad`: take back the link count. -/
def linkbad (ip : Fin NINODE) : FsM ι Int := do
  ilock ip
  setInode ip fun x => { x with nlink := x.nlink - 1 }
  iupdate ip
  iunlockput ip
  return -1

/-- `sys_link`. -/
def sys_link (i : ι) (old new : List Char) : FsM ι Int := do
  let p ← getproc i
  match ← namei p.cwd old with
  | none => return -1
  | some ip => do
    ilock ip
    if ((← get).icache ip).type = T_DIR then do
      iunlockput ip
      return -1
    else do
      setInode ip fun x => { x with nlink := x.nlink + 1 }
      iupdate ip
      iunlock ip
      match ← nameiparent p.cwd new with
      | none => linkbad ip
      | some (dp, name) => do
        ilock dp
        let s ← get
        if (s.icache dp).dev ≠ (s.icache ip).dev then do
          iunlockput dp
          linkbad ip
        else do
          -- `dirlink` runs only on the same device, as the source's `||` has it
          if (← dirlink dp name (s.icache ip).inum) < 0 then do
            iunlockput dp
            linkbad ip
          else do
            iunlockput dp
            iput ip
            return 0

/-- The code at `sys_unlink`'s label `bad`. -/
def unlinkbad (dp : Fin NINODE) : FsM ι Int := do
  iunlockput dp
  return -1

/-- `sys_unlink`. -/
def sys_unlink (i : ι) (path : List Char) : FsM ι Int := do
  let p ← getproc i
  match ← nameiparent p.cwd path with
  | none => return -1
  | some (dp, name) => do
    ilock dp
    -- cannot unlink "." or ".."
    if namecmp name ".".toList ∨ namecmp name "..".toList then unlinkbad dp
    else
      match ← dirlookup dp name with
      | none => unlinkbad dp
      | some (ip, off) => do
        ilock ip
        if ((← get).icache ip).nlink < 1 then throw "unlink: nlink < 1"
        else if ((← get).icache ip).type = T_DIR ∧ (← isdirempty ip) = false then do
          iunlockput ip
          unlinkbad dp
        else do
          if (← writei dp ⟨0, []⟩ off) ≠ DIRENTSZ then throw "unlink: writei"
          if ((← get).icache ip).type = T_DIR then do
            setInode dp fun x => { x with nlink := x.nlink - 1 }
            iupdate dp
          iunlockput dp
          setInode ip fun x => { x with nlink := x.nlink - 1 }
          iupdate ip
          iunlockput ip
          return 0

/-- `sys_chdir`. -/
def sys_chdir (i : ι) (path : List Char) : FsM ι Int := do
  let p ← getproc i
  match ← namei p.cwd path with
  | none => return -1
  | some ip => do
    ilock ip
    if ((← get).icache ip).type ≠ T_DIR then do
      iunlockput ip
      return -1
    else do
      iunlock ip
      iput p.cwd
      modifyProc i fun p => { p with cwd := ip }
      return 0

/-- `sys_close`. -/
def sys_close (i : ι) (fd : Int) : FsM ι Int := do
  match ← argfd i fd with
  | none => return -1
  | some (d, f) => do
    modifyProc i fun p => { p with ofile := Function.update p.ofile d none }
    fileclose f
    return 0

/-- `sys_dup`. -/
def sys_dup (i : ι) (fd : Int) : FsM ι Int := do
  match ← argfd i fd with
  | none => return -1
  | some (_, f) =>
    match ← fdalloc i f with
    | none => return -1
    | some d => do
      filedup f
      return d.val

/-- What `exec` does to the file system: look the program up, read it, drop
it. It fails when the path names nothing, or when `elfok` is false, which
stands for a bad ELF image or a failed allocation. -/
def exec (i : ι) (path : List Char) (elfok : Bool) : FsM ι Int := do
  let p ← getproc i
  match ← namei p.cwd path with
  | none => return -1
  | some ip => do
    ilock ip
    iunlockput ip
    return if elfok then 0 else -1

/-- `fork`'s loop over the parent's open files. -/
def dupfiles (ofile : Fin NOFILE → Option (Fin NFILE)) : List (Fin NOFILE) → FsM ι Unit
  | [] => pure ()
  | fd :: fds => do
    match ofile fd with
    | some f => filedup f
    | none => pure ()
    dupfiles ofile fds

/-- What `fork` does to the file system: the child, in slot `j`, shares the
parent's open files and current directory. `none` is a fork that fails in
`allocproc` or `copyuvm`, before it takes any reference. -/
def fork (i : ι) (child : Option ι) : FsM ι Int := do
  match child with
  | none => return -1
  | some j => do
    let p ← getproc i
    dupfiles p.ofile (List.finRange NOFILE)
    let cwd ← idup p.cwd
    setProc j (some { cwd := cwd, ofile := p.ofile })
    return 1

/-- `exit`'s loop over the open files. -/
def closefiles (i : ι) : List (Fin NOFILE) → FsM ι Unit
  | [] => pure ()
  | fd :: fds => do
    match (← getproc i).ofile fd with
    | some f => do
      fileclose f
      modifyProc i fun p => { p with ofile := Function.update p.ofile fd none }
    | none => pure ()
    closefiles i fds

/-- What `exit` does to the file system: close every open file and drop the
current directory. The zombie holds neither. -/
def exit (i : ι) : FsM ι Int := do
  if i = (← get).initproc then throw "init exiting"
  else do
    closefiles i (List.finRange NOFILE)
    iput (← getproc i).cwd
    setProc i none
    return 0

/-! ## The system -/

/-- The system calls, each from the process that makes it. -/
inductive Event (ι : Type) where
  | sys_open (i : ι) (path : List Char) (omode : Nat)
  | sys_mkdir (i : ι) (path : List Char)
  | sys_mknod (i : ι) (path : List Char) (major minor : Nat)
  | sys_link (i : ι) (old new : List Char)
  | sys_unlink (i : ι) (path : List Char)
  | sys_chdir (i : ι) (path : List Char)
  | sys_close (i : ι) (fd : Int)
  | sys_dup (i : ι) (fd : Int)
  | exec (i : ι) (path : List Char) (elfok : Bool)
  | fork (i : ι) (child : Option ι)
  | exit (i : ι)

/-- The process that makes the call. -/
def Event.caller : Event ι → ι
  | .sys_open i .. | .sys_mkdir i .. | .sys_mknod i .. | .sys_link i .. | .sys_unlink i ..
  | .sys_chdir i .. | .sys_close i .. | .sys_dup i .. | .exec i .. | .fork i .. | .exit i => i

/-- The call's code. -/
def syscall : Event ι → FsM ι Int
  | .sys_open i path omode => sys_open i path omode
  | .sys_mkdir i path => sys_mkdir i path
  | .sys_mknod i path major minor => sys_mknod i path major minor
  | .sys_link i old new => sys_link i old new
  | .sys_unlink i path => sys_unlink i path
  | .sys_chdir i path => sys_chdir i path
  | .sys_close i fd => sys_close i fd
  | .sys_dup i fd => sys_dup i fd
  | .exec i path elfok => exec i path elfok
  | .fork i child => fork i child
  | .exit i => exit i

/-- A call can be made by a process that exists; `fork`'s child takes a free
slot. -/
def enabled (s : Sys ι) : Event ι → Bool
  | .fork i (some j) => (s.ptable i).isSome && (s.ptable j).isNone
  | e => (s.ptable e.caller).isSome

/-- One system call: `none` if it cannot be made, else its return value and
the new state, or its panic. -/
def step (s : Sys ι) (e : Event ι) : Option (Except String (Int × Sys ι)) :=
  if enabled s e then some ((syscall e).run s) else none

/-- The state after `userinit`: one process, whose current directory
`namei("/")` put in the first entry of the cache. -/
def init (ninodes : Nat) (disk : Nat → dinode) (i₀ : ι) : Sys ι where
  ninodes := ninodes
  disk := disk
  icache := Function.update (fun _ => ⟨0, 0, 0, false, 0, 0, 0, 0⟩) 0
    ⟨Xv6.Bio.ROOTDEV, ROOTINO, 1, false, 0, 0, 0, 0⟩
  ftable := fun _ => ⟨.FD_NONE, 0, false, false, 0, 0⟩
  ptable := fun i => if i = i₀ then some ⟨0, fun _ => none⟩ else none
  initproc := i₀

/-- A call that completes. -/
def Next (s t : Sys ι) : Prop :=
  ∃ e r, step s e = some (.ok (r, t))

/-- The states reached from a boot by calls that complete. -/
def FsReachable (s : Sys ι) : Prop :=
  Reachable (fun s => ∃ n d i₀, s = init n d i₀) Next s

/-- A call as a partial function: `none` unless it completes. -/
def stepOk (s : Sys ι) (e : Event ι) : Option (Sys ι) :=
  match step s e with
  | some (.ok (_, t)) => some t
  | _ => none

theorem step_of_stepOk {s t : Sys ι} {e : Event ι} (h : stepOk s e = some t) :
    ∃ r, step s e = some (.ok (r, t)) := by
  unfold stepOk at h
  split at h
  · rename_i r t' he
    cases h
    exact ⟨r, he⟩
  · cases h

/-- A run of completed calls from a boot is reachable. -/
theorem FsReachable.of_run {n : Nat} {d : Nat → dinode} {i₀ : ι} (es : List (Event ι))
    {t : Sys ι} (h : runLabels stepOk (init n d i₀) es = some t) : FsReachable t := by
  have hinit : FsReachable (init n d i₀) := Reachable.init ⟨n, d, i₀, rfl⟩
  have hnext : ∀ (s : Sys ι) e u, stepOk s e = some u → Next s u := fun _ _ _ h => by
    obtain ⟨r, hr⟩ := step_of_stepOk h
    exact ⟨_, r, hr⟩
  exact Reachable.of_run hnext es hinit h

end Xv6.Fs
