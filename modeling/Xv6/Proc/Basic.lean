/-
`proc.c`'s process table and scheduler, one critical section of `ptable.lock`
per transition.

Every change to a `struct proc`'s `state`, `parent` or `chan`, and to a CPU's
`c->proc`, happens with `ptable.lock` held, and the lock is handed from a
process to its CPU's scheduler and back across `swtch`. So the unit of
interleaving is a critical section: from an `acquire(&ptable.lock)` to the
`release` that ends it, whichever kernel thread executes the `release`.

The one place where that spans more than one function is the scheduler. When a
process calls `sched()`, its CPU's `scheduler()` resumes inside its scan, right
after the slot it had switched to, still holding the lock; when the scan
switches to a process, that process resumes where it called `sched()` and
releases the lock there, except a process that was sleeping in `wait()`: it
rescans for children with the lock still held and may go back to sleep, and
the scan goes on. `scheduler_from` is that scan; it takes the rest of the slots
as a list, so its recursion is the C loop's.

What a suspended process does when resumed is its saved `context`, here the
site that called `sched()`: `forkret` for a new process, `yield`, `sleep` (with
a lock other than `ptable.lock`), or `wait` (`sleep(curproc, &ptable.lock)`).

`fork()` holds the lock twice: `allocproc` claims an `UNUSED` slot, and after
the unlocked copies the child becomes `RUNNABLE`. In between the child is
`EMBRYO` and the parent may be preempted; the parent's `np` is the local
variable that carries the child across (`proc.np`). Whether `kalloc` and
`copyuvm` succeed is the environment's choice.

Memory, files and the trap frame are not modelled: they do not touch the
fields these transitions read.
-/
import Mathlib.Data.List.FinRange
import Mathlib.Logic.Function.Basic
import Mathlib.Algebra.GroupWithZero.Nat
import Xv6.Lib.Reach

set_option autoImplicit false

namespace Xv6.Proc

/-- `NPROC`: the size of the process table. -/
def NPROC : Nat := 64

instance : NeZero NPROC := ⟨by decide⟩

/-- `enum procstate`. -/
inductive procstate where
  | UNUSED
  | EMBRYO
  | SLEEPING
  | RUNNABLE
  | RUNNING
  | ZOMBIE
  deriving DecidableEq, Repr

open procstate

/-- A sleep channel, `void *chan`: the address of a process-table entry (what
`wait` sleeps on and `exit` wakes), or any other address. -/
inductive Chan where
  | proc (i : Fin NPROC)
  | other (a : Nat)
  deriving DecidableEq, Repr

/-- Where a process's saved `context` resumes. -/
inductive context where
  | null
  | forkret
  | yield
  | sleep
  | wait
  | exit
  deriving DecidableEq, Repr

/-- The fields of `struct proc` the scheduler and the process tree use, and
`fork()`'s local `np` while a fork is in progress. -/
structure proc where
  state : procstate
  pid : Int
  parent : Option (Fin NPROC)
  chan : Option Chan
  killed : Bool
  context : context
  np : Option (Fin NPROC)
  deriving DecidableEq, Repr

/-- `ptable.proc`, each CPU's `c->proc`, `nextpid` and `initproc`. -/
structure Sys (ncpu : Nat) where
  ptable : Fin NPROC → proc
  cpus : Fin ncpu → Option (Fin NPROC)
  nextpid : Int
  initproc : Option (Fin NPROC)

variable {ncpu : Nat}

/-! ## Updating the table -/

/-- Change process-table entry `i`. -/
def Sys.upd (s : Sys ncpu) (i : Fin NPROC) (f : proc → proc) : Sys ncpu :=
  { s with ptable := Function.update s.ptable i (f (s.ptable i)) }

/-- Set CPU `c`'s current process. -/
def Sys.setCpu (s : Sys ncpu) (c : Fin ncpu) (p : Option (Fin NPROC)) : Sys ncpu :=
  { s with cpus := Function.update s.cpus c p }

theorem Sys.upd_ptable (s : Sys ncpu) (i j : Fin NPROC) (f : proc → proc) :
    (s.upd i f).ptable j = if j = i then f (s.ptable i) else s.ptable j := by
  by_cases h : j = i
  · subst h; simp [Sys.upd]
  · simp [Sys.upd, h]

@[simp] theorem Sys.upd_ptable_self (s : Sys ncpu) (i : Fin NPROC) (f : proc → proc) :
    (s.upd i f).ptable i = f (s.ptable i) := by
  simp [Sys.upd]

theorem Sys.upd_ptable_of_ne (s : Sys ncpu) {i j : Fin NPROC} (f : proc → proc) (h : j ≠ i) :
    (s.upd i f).ptable j = s.ptable j := by
  simp [Sys.upd, h]

@[simp] theorem Sys.upd_cpus (s : Sys ncpu) (i : Fin NPROC) (f : proc → proc) :
    (s.upd i f).cpus = s.cpus := rfl

@[simp] theorem Sys.upd_initproc (s : Sys ncpu) (i : Fin NPROC) (f : proc → proc) :
    (s.upd i f).initproc = s.initproc := rfl

@[simp] theorem Sys.setCpu_ptable (s : Sys ncpu) (c : Fin ncpu) (p : Option (Fin NPROC)) :
    (s.setCpu c p).ptable = s.ptable := rfl

@[simp] theorem Sys.setCpu_initproc (s : Sys ncpu) (c : Fin ncpu) (p : Option (Fin NPROC)) :
    (s.setCpu c p).initproc = s.initproc := rfl

theorem Sys.setCpu_cpus (s : Sys ncpu) (c d : Fin ncpu) (p : Option (Fin NPROC)) :
    (s.setCpu c p).cpus d = if d = c then p else s.cpus d := by
  by_cases h : d = c
  · subst h; simp [Sys.setCpu]
  · simp [Sys.setCpu, h]

/-- The slots a loop `for(p = &ptable.proc[i]; p < &ptable.proc[NPROC]; p++)`
visits, in order. -/
def slotsFrom (i : Nat) : List (Fin NPROC) :=
  (List.finRange NPROC).filter fun j => i ≤ j.val

/-! ## The functions of `proc.c` -/

/-- `wakeup1`: every process sleeping on `chan` becomes `RUNNABLE`. -/
def wakeup1 (chan : Option Chan) (s : Sys ncpu) : Sys ncpu :=
  { s with ptable := fun i =>
      if (s.ptable i).state = SLEEPING ∧ (s.ptable i).chan = chan then
        { s.ptable i with state := RUNNABLE }
      else s.ptable i }

@[simp] theorem wakeup1_cpus (chan : Option Chan) (s : Sys ncpu) : (wakeup1 chan s).cpus = s.cpus := rfl

@[simp] theorem wakeup1_initproc (chan : Option Chan) (s : Sys ncpu) :
    (wakeup1 chan s).initproc = s.initproc := rfl

theorem wakeup1_ptable (chan : Option Chan) (s : Sys ncpu) (i : Fin NPROC) :
    (wakeup1 chan s).ptable i =
      if (s.ptable i).state = SLEEPING ∧ (s.ptable i).chan = chan then
        { s.ptable i with state := RUNNABLE }
      else s.ptable i := rfl

@[simp] theorem wakeup1_parent (chan : Option Chan) (s : Sys ncpu) (i : Fin NPROC) :
    ((wakeup1 chan s).ptable i).parent = (s.ptable i).parent := by
  rw [wakeup1_ptable]
  split_ifs <;> rfl

/-- `allocproc`'s critical section: the first `UNUSED` slot becomes `EMBRYO`
with the next pid. `none` when the table is full. -/
def allocproc (s : Sys ncpu) : Option (Fin NPROC × Sys ncpu) :=
  match (List.finRange NPROC).find? (fun i => (s.ptable i).state = UNUSED) with
  | none => none
  | some i =>
    some (i, { s.upd i (fun p => { p with state := EMBRYO, pid := s.nextpid }) with
      nextpid := s.nextpid + 1 })

/-- `sched()`'s test that the caller has given up `RUNNING`. -/
def sched_check (p : Fin NPROC) (s : Sys ncpu) : Except String Unit :=
  if (s.ptable p).state = RUNNING then .error "sched running" else .ok ()

/-- The scheduler switching CPU `c` to slot `j`: `c->proc = p; p->state = RUNNING`. -/
def switch (c : Fin ncpu) (j : Fin NPROC) (s : Sys ncpu) : Sys ncpu :=
  (s.upd j fun p => { p with state := RUNNING }).setCpu c (some j)

/-- `sleep()` after `sched()` returns: `p->chan = 0`. -/
def tidy (j : Fin NPROC) (s : Sys ncpu) : Sys ncpu :=
  s.upd j fun p => { p with chan := none }

/-- `wait()`'s freeing of a zombie child. -/
def reap (q : Fin NPROC) (s : Sys ncpu) : Sys ncpu :=
  s.upd q fun p => { p with pid := 0, parent := none, killed := false, state := UNUSED }

/-- How one pass of `wait()`'s loop ends: it returns (a reaped child's pid, or
-1), or it sleeps on `curproc` and enters `sched()`. -/
inductive WaitResult (ncpu : Nat) where
  | ret (s : Sys ncpu) (pid : Int)
  | slept (s : Sys ncpu)

/-- One pass of `wait()`'s `for(;;)` loop by `cur`, with the lock held. -/
def wait_pass (cur : Fin NPROC) (s : Sys ncpu) : WaitResult ncpu :=
  match (List.finRange NPROC).find?
      (fun q => (s.ptable q).parent = some cur ∧ (s.ptable q).state = ZOMBIE) with
  | some q => .ret (reap q s) (s.ptable q).pid
  | none =>
    if !((List.finRange NPROC).any fun q => (s.ptable q).parent = some cur) || (s.ptable cur).killed then
      .ret s (-1)
    else
      .slept (s.upd cur fun p => { p with chan := some (.proc cur), state := SLEEPING, context := .wait })

/-- `scheduler()`'s scan on CPU `c` over the slots `js`, with the lock held and
`c->proc = 0`. A process it switches to releases the lock where it resumes,
unless it resumes in `wait()` and goes back to sleep: then `sched()` brings the
scan back here and it goes on with the next slot. -/
def scheduler_from (c : Fin ncpu) : List (Fin NPROC) → Sys ncpu → Except String (Sys ncpu)
  | [], s => .ok s
  | j :: js, s =>
    if (s.ptable j).state = RUNNABLE then
      let s := switch c j s
      match (s.ptable j).context with
      | .wait =>
        match wait_pass j (tidy j s) with
        | .ret s _ => .ok s
        | .slept s => do
          sched_check j s
          scheduler_from c js (s.setCpu c none)
      | .sleep => .ok (tidy j s)
      | _ => .ok s
    else scheduler_from c js s

/-- `sched()` called by `p` running on CPU `c`: the check, then the scheduler's
scan resumes after `p`'s slot with `c->proc = 0`. -/
def sched (c : Fin ncpu) (p : Fin NPROC) (s : Sys ncpu) : Except String (Sys ncpu) := do
  sched_check p s
  scheduler_from c (slotsFrom (p.val + 1)) (s.setCpu c none)

/-- `yield()` by `p` on CPU `c`. -/
def yield (c : Fin ncpu) (p : Fin NPROC) (s : Sys ncpu) : Except String (Sys ncpu) :=
  sched c p (s.upd p fun q => { q with state := RUNNABLE, context := .yield })

/-- `sleep(chan, lk)` by `p` on CPU `c`, for a lock `lk` other than `ptable.lock`. -/
def sleep (c : Fin ncpu) (p : Fin NPROC) (chan : Chan) (s : Sys ncpu) : Except String (Sys ncpu) :=
  sched c p (s.upd p fun q => { q with chan := some chan, state := SLEEPING, context := .sleep })

/-- The body of `exit()`'s loop "Pass abandoned children to init", at slot `q`. -/
def reparent_one (cur : Fin NPROC) (s : Sys ncpu) (q : Fin NPROC) : Sys ncpu :=
  if (s.ptable q).parent = some cur then
    let s := s.upd q fun r => { r with parent := s.initproc }
    if (s.ptable q).state = ZOMBIE then wakeup1 (s.initproc.map Chan.proc) s else s
  else s

/-- `exit()`'s loop "Pass abandoned children to init". -/
def reparent (cur : Fin NPROC) (s : Sys ncpu) : Sys ncpu :=
  (List.finRange NPROC).foldl (reparent_one cur) s

/-- `exit()` by `cur` on CPU `c`, from `acquire(&ptable.lock)` on. -/
def exit (c : Fin ncpu) (cur : Fin NPROC) (s : Sys ncpu) : Except String (Sys ncpu) :=
  if s.initproc = some cur then .error "init exiting"
  else
    let s := wakeup1 ((s.ptable cur).parent.map Chan.proc) s
    let s := reparent cur s
    sched c cur (s.upd cur fun p => { p with state := ZOMBIE, context := .exit })

/-- `wait()` by `cur` on CPU `c`: one pass, and `sched()` if it sleeps. -/
def wait (c : Fin ncpu) (cur : Fin NPROC) (s : Sys ncpu) : Except String (Sys ncpu) :=
  match wait_pass cur s with
  | .ret s _ => .ok s
  | .slept s => sched c cur s

/-- `kill(pid)`: the first slot with that pid, whatever its state, is marked
killed and woken if asleep. Returns the system call's result too. -/
def kill (pid : Int) (s : Sys ncpu) : Int × Sys ncpu :=
  match (List.finRange NPROC).find? (fun i => (s.ptable i).pid = pid) with
  | none => (-1, s)
  | some i =>
    (0, s.upd i fun p =>
      { p with killed := true, state := if p.state = SLEEPING then RUNNABLE else p.state })

/-- `fork()` by `cur` up to the end of `allocproc`'s critical section. -/
def fork_alloc (cur : Fin NPROC) (s : Sys ncpu) : Sys ncpu :=
  match allocproc s with
  | none => s
  | some (np, s) => s.upd cur fun p => { p with np := some np }

/-- The rest of `fork()` by `cur`, whose `np` is `np`: `kstack` and `pgdir` say
whether `allocproc`'s `kalloc` and `copyuvm` succeeded. -/
def fork_done (cur np : Fin NPROC) (kstack pgdir : Bool) (s : Sys ncpu) : Sys ncpu :=
  let s := s.upd cur fun p => { p with np := none }
  if !kstack then s.upd np fun p => { p with state := UNUSED }
  else if !pgdir then s.upd np fun p => { p with state := UNUSED, context := .forkret }
  else s.upd np fun p => { p with parent := some cur, state := RUNNABLE, context := .forkret }

/-! ## Boot -/

/-- The zero-initialised `ptable`, and no CPU running a process. -/
def zero : Sys ncpu :=
  { ptable := fun _ => ⟨UNUSED, 0, none, none, false, .null, none⟩,
    cpus := fun _ => none,
    nextpid := 1,
    initproc := none }

/-- `userinit`: the first process, `RUNNABLE` at `forkret`. -/
def userinit (s : Sys ncpu) : Sys ncpu :=
  match allocproc s with
  | none => s
  | some (p, s) =>
    { s.upd p (fun q => { q with state := RUNNABLE, context := .forkret }) with initproc := some p }

/-! ## Transitions -/

/-- What one critical section is. Process `p` on CPU `c` makes the system call or
takes the trap; `wakeup` may come from anywhere (an interrupt handler, another
process). -/
inductive Event (ncpu : Nat) where
  | scheduler (c : Fin ncpu)
  | yield (c : Fin ncpu)
  | sleep (c : Fin ncpu) (chan : Chan)
  | wakeup (chan : Chan)
  | kill (c : Fin ncpu) (pid : Int)
  | fork (c : Fin ncpu)
  | fork_done (c : Fin ncpu) (kstack pgdir : Bool)
  | exit (c : Fin ncpu)
  | wait (c : Fin ncpu)

/-- One critical section: `none` when not enabled, `some (.error m)` for
`panic(m)`. A system call is made by CPU `c`'s current process, which is inside
`fork()` exactly when its `np` is set; `trap()` yields only a `RUNNING` process. -/
def step (s : Sys ncpu) : Event ncpu → Option (Except String (Sys ncpu))
  | .scheduler c => if s.cpus c = none then some (scheduler_from c (slotsFrom 0) s) else none
  | .yield c =>
    match s.cpus c with
    | some p => if (s.ptable p).state = RUNNING then some (yield c p s) else none
    | none => none
  | .sleep c chan =>
    match s.cpus c with
    | some p => if (s.ptable p).np = none then some (sleep c p chan s) else none
    | none => none
  | .wakeup chan => some (.ok (wakeup1 (some chan) s))
  | .kill c pid =>
    match s.cpus c with
    | some _ => some (.ok (kill pid s).2)
    | none => none
  | .fork c =>
    match s.cpus c with
    | some p => if (s.ptable p).np = none then some (.ok (fork_alloc p s)) else none
    | none => none
  | .fork_done c kstack pgdir =>
    match s.cpus c with
    | some p =>
      match (s.ptable p).np with
      | some np => some (.ok (fork_done p np kstack pgdir s))
      | none => none
    | none => none
  | .exit c =>
    match s.cpus c with
    | some p => if (s.ptable p).np = none then some (exit c p s) else none
    | none => none
  | .wait c =>
    match s.cpus c with
    | some p => if (s.ptable p).np = none then some (wait c p s) else none
    | none => none

/-- A critical section that completes. -/
def Next (s t : Sys ncpu) : Prop := ∃ e, step s e = some (.ok t)

/-- The states reachable from `userinit` on the zeroed table. -/
def ProcReachable (s : Sys ncpu) : Prop :=
  TransitionSystem.Reachable (fun s => s = userinit zero) Next s

end Xv6.Proc
