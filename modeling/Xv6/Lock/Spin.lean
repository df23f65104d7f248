/-
`spinlock.c`: spin locks on a multiprocessor, with `pushcli` and `popcli`.

Each CPU runs the lock code in steps; between two steps any other CPU may run.
The steps are cut where another CPU can see a difference: `acquire` up to its
loop (`pushcli`, then the `holding` check), each `xchg` of the loop, and
`lk->cpu = mycpu()` after it; `release` up to its store (the `holding` check,
then `lk->cpu = 0`), and the store of 0 to `locked` with the `popcli` after it.
`holding` reads `locked` and `cpu` in two loads, as one here: the answer only
matters to the CPU asking, and no other CPU can make either `locked && cpu == c`
or its negation hold for it.

Inside `acquire` and `release` interrupts are off (the first `pushcli` did
`cli`), so no interrupt handler runs in between. Outside them the rest of the
kernel may turn interrupts off (`cli`, or the hardware taking an interrupt) and
on again where it holds no lock (`sti` in the scheduler, or the `iret` of an
interrupt that found them on): those are the `cli` and `sti` steps.

A `panic` stops its CPU: it stays in `Phase.panicked` with the message.
`struct cpu` is cut to the three fields the locks use, and `struct spinlock`
to `locked` and `cpu`; `name` and `pcs` are for debugging and nothing reads
them.
-/
import Mathlib.Algebra.BigOperators.Group.Finset.Basic
import Mathlib.Logic.Function.Basic
import Xv6.Lib.Reach

set_option autoImplicit false

namespace Xv6.Lock

open TransitionSystem

/-! ## `struct cpu`, `pushcli` and `popcli` -/

/-- What `struct cpu` keeps for the locks: the depth of `pushcli` nesting,
whether interrupts were on before the first `pushcli`, and the interrupt flag
`FL_IF` of `eflags`. -/
structure cpu where
  ncli : Int
  intena : Bool
  FL_IF : Bool
  deriving DecidableEq, Repr

/-- `pushcli`: read `eflags`, `cli`, and at the outermost level record whether
interrupts were on. -/
def pushcli (x : cpu) : cpu :=
  let eflags := x.FL_IF
  let x := { x with FL_IF := false }
  let x := if x.ncli = 0 then { x with intena := eflags } else x
  { x with ncli := x.ncli + 1 }

/-- `popcli`, with its two panics: interrupts on, or more `popcli`s than
`pushcli`s. The outermost one turns interrupts back on if they were. -/
def popcli (x : cpu) : Except String cpu :=
  if x.FL_IF then .error "popcli - interruptible"
  else
    let x := { x with ncli := x.ncli - 1 }
    if x.ncli < 0 then .error "popcli"
    else .ok (if x.ncli = 0 ∧ x.intena = true then { x with FL_IF := true } else x)

/-- Whether interrupts will be on once every `pushcli` of the CPU is undone. -/
def outer (x : cpu) : Bool := if x.ncli = 0 then x.FL_IF else x.intena

@[simp] theorem ncli_pushcli (x : cpu) : (pushcli x).ncli = x.ncli + 1 := by
  unfold pushcli
  dsimp only
  split <;> rfl

@[simp] theorem FL_IF_pushcli (x : cpu) : (pushcli x).FL_IF = false := by
  unfold pushcli
  dsimp only
  split <;> rfl

/-- A `pushcli` undone by a `popcli` leaves the CPU as it was, but for `intena`
at depth 0, which only the outermost `pushcli` reads. -/
theorem popcli_pushcli {x : cpu} (h0 : 0 ≤ x.ncli) (hIF : 0 < x.ncli → x.FL_IF = false) :
    popcli (pushcli x) = .ok (if x.ncli = 0 then { x with intena := x.FL_IF } else x) := by
  obtain ⟨n, e, f⟩ := x
  simp only at h0 hIF ⊢
  by_cases hz : n = 0
  · subst hz
    cases f <;> simp [pushcli, popcli]
  · -- inside another `pushcli`: interrupts are already off
    obtain rfl : f = false := hIF (by omega)
    simp [pushcli, popcli, hz, h0]

/-- `popcli` at a positive depth with interrupts off: one less, and interrupts
back on at depth 0 when they were on before the first `pushcli`. -/
theorem popcli_ok {x : cpu} (hIF : x.FL_IF = false) (h : 0 < x.ncli) :
    popcli x = .ok ⟨x.ncli - 1, x.intena, decide (x.ncli = 1) && x.intena⟩ := by
  obtain ⟨n, e, f⟩ := x
  simp only at hIF h ⊢
  subst hIF
  have hn : ¬n - 1 < 0 := by omega
  by_cases h1 : n = 1
  · subst h1
    cases e <;> simp [popcli]
  · have h1' : n - 1 ≠ 0 := by omega
    simp [popcli, hn, h1, h1']

theorem outer_pushcli {x : cpu} (h : 0 ≤ x.ncli) : outer (pushcli x) = outer x := by
  obtain ⟨n, e, f⟩ := x
  simp only at h
  by_cases hz : n = 0
  · subst hz
    simp [outer, pushcli]
  · have h1 : n + 1 ≠ 0 := by omega
    simp [outer, pushcli, hz, h1]

/-! ## Locks and CPUs -/

variable {C L : Type}

/-- `struct spinlock` without its debugging `name` and `pcs`. -/
structure spinlock (C : Type) where
  locked : Bool
  cpu : Option C
  deriving DecidableEq, Repr

/-- Where a CPU is in `acquire` and `release`. -/
inductive Phase (L : Type) where
  /-- outside both -/
  | idle
  /-- in `acquire`'s `xchg` loop -/
  | spin (l : L)
  /-- the `xchg` returned 0; `lk->cpu = mycpu()` is next -/
  | got (l : L)
  /-- in `release`, before the store of 0 to `locked` -/
  | unlock (l : L)
  | panicked (msg : String)
  deriving DecidableEq, Repr

/-- Whether a CPU is in `acquire`'s loop. -/
def Phase.spinning : Phase L → Bool
  | .spin _ => true
  | _ => false

/-- A CPU that has not panicked. -/
def Phase.live : Phase L → Bool
  | .panicked _ => false
  | _ => true

/-- The CPUs, the locks, and where each CPU is. -/
structure Sys (C L : Type) where
  cpus : C → cpu
  locks : L → spinlock C
  phase : C → Phase L

/-- A step of one CPU: the parts of `acquire` and `release` between which
another CPU can touch the lock, and what the rest of the kernel does to the
interrupt flag outside any lock. -/
inductive Event (C L : Type) where
  | acquire (c : C) (l : L)
  | xchg (c : C)
  | setcpu (c : C)
  | release (c : C) (l : L)
  | unlock (c : C)
  | cli (c : C)
  | sti (c : C)

section Cpus

variable [DecidableEq C]

/-- `holding(lk)` on CPU `c`: whether the lock is held and by `c`, between a
`pushcli` and a `popcli`. -/
def holding (c : C) (x : cpu) (lk : spinlock C) : Except String (Bool × cpu) :=
  let r := lk.locked && decide (lk.cpu = some c)
  (popcli (pushcli x)).map fun x => (r, x)

def Sys.setCpu (s : Sys C L) (c : C) (x : cpu) : Sys C L := { s with cpus := Function.update s.cpus c x }

def Sys.setPhase (s : Sys C L) (c : C) (p : Phase L) : Sys C L :=
  { s with phase := Function.update s.phase c p }

@[simp] theorem setCpu_cpus (s : Sys C L) (c : C) (x : cpu) :
    (s.setCpu c x).cpus = Function.update s.cpus c x := rfl

@[simp] theorem setCpu_locks (s : Sys C L) (c : C) (x : cpu) : (s.setCpu c x).locks = s.locks := rfl

@[simp] theorem setCpu_phase (s : Sys C L) (c : C) (x : cpu) : (s.setCpu c x).phase = s.phase := rfl

@[simp] theorem setPhase_cpus (s : Sys C L) (c : C) (p : Phase L) : (s.setPhase c p).cpus = s.cpus := rfl

@[simp] theorem setPhase_locks (s : Sys C L) (c : C) (p : Phase L) : (s.setPhase c p).locks = s.locks :=
  rfl

@[simp] theorem setPhase_phase (s : Sys C L) (c : C) (p : Phase L) :
    (s.setPhase c p).phase = Function.update s.phase c p := rfl

theorem setCpu_self (s : Sys C L) (c : C) : s.setCpu c (s.cpus c) = s := by
  simp [Sys.setCpu]

@[simp] theorem any_eq_self {o : Option C} {c : C} :
    (o.any fun c' => decide (c' = c)) = true ↔ o = some c := by
  cases o <;> simp

@[simp] theorem any_eq_self_false {o : Option C} {c : C} :
    (o.any fun c' => decide (c' = c)) = false ↔ o ≠ some c := by
  cases o <;> simp

end Cpus

section Locks

variable [DecidableEq L]

def Sys.setLock (s : Sys C L) (l : L) (k : spinlock C) : Sys C L :=
  { s with locks := Function.update s.locks l k }

@[simp] theorem setLock_cpus (s : Sys C L) (l : L) (k : spinlock C) : (s.setLock l k).cpus = s.cpus := rfl

@[simp] theorem setLock_locks (s : Sys C L) (l : L) (k : spinlock C) :
    (s.setLock l k).locks = Function.update s.locks l k := rfl

@[simp] theorem setLock_phase (s : Sys C L) (l : L) (k : spinlock C) : (s.setLock l k).phase = s.phase :=
  rfl

@[simp] theorem cpu_update_locked (s : Sys C L) (l l' : L) (b : Bool) :
    (Function.update s.locks l ⟨b, (s.locks l).cpu⟩ l').cpu = (s.locks l').cpu := by
  by_cases h : l' = l
  · subst h; simp
  · simp [Function.update_of_ne h]

theorem cpu_setLock_locked (s : Sys C L) (l l' : L) (b : Bool) :
    ((s.setLock l { s.locks l with locked := b }).locks l').cpu = (s.locks l').cpu :=
  cpu_update_locked s l l' b

/-- Whether a CPU in phase `p` is past `acquire`'s `xchg` on `l` but not back
from `release`, where `lk->cpu` is not set. -/
def Phase.owns (l : L) : Phase L → Bool
  | .got l' => decide (l' = l)
  | .unlock l' => decide (l' = l)
  | _ => false

@[simp] theorem Phase.owns_eq_true {p : Phase L} {l : L} :
    p.owns l = true ↔ p = .got l ∨ p = .unlock l := by
  cases p <;> simp [Phase.owns, eq_comm]

@[simp] theorem Phase.owns_eq_false {p : Phase L} {l : L} :
    p.owns l = false ↔ p ≠ .got l ∧ p ≠ .unlock l := by
  cases p <;> simp [Phase.owns, eq_comm]

end Locks

variable [DecidableEq C] [DecidableEq L]

/-! ## The functions of `spinlock.c` -/

/-- `acquire(lk)` on CPU `c` up to its loop: `pushcli`, then the `holding`
check, which panics on a lock the CPU holds. -/
def acquire (s : Sys C L) (c : C) (l : L) : Sys C L :=
  let x := pushcli (s.cpus c)
  match holding c x (s.locks l) with
  | .error msg => (s.setCpu c x).setPhase c (.panicked msg)
  | .ok (true, x) => (s.setCpu c x).setPhase c (.panicked "acquire")
  | .ok (false, x) => (s.setCpu c x).setPhase c (.spin l)

/-- One `xchg(&lk->locked, 1)`: it stores 1 and returns what was there, so the
loop ends when the lock was free. -/
def xchg (s : Sys C L) (c : C) (l : L) : Sys C L :=
  if (s.locks l).locked then s
  else (s.setLock l { s.locks l with locked := true }).setPhase c (.got l)

/-- `release(lk)` on CPU `c` up to the store: the `holding` check, which panics
on a lock the CPU does not hold, then `lk->cpu = 0`. -/
def release (s : Sys C L) (c : C) (l : L) : Sys C L :=
  match holding c (s.cpus c) (s.locks l) with
  | .error msg => s.setPhase c (.panicked msg)
  | .ok (false, x) => (s.setCpu c x).setPhase c (.panicked "release")
  | .ok (true, x) => ((s.setCpu c x).setLock l { s.locks l with cpu := none }).setPhase c (.unlock l)

/-- The rest of `release`: `movl $0` to `locked`, then `popcli`. -/
def unlock (s : Sys C L) (c : C) (l : L) : Sys C L :=
  let s := s.setLock l { s.locks l with locked := false }
  match popcli (s.cpus c) with
  | .error msg => s.setPhase c (.panicked msg)
  | .ok x => (s.setCpu c x).setPhase c .idle

/-! ## The system -/

/-- One step; `none` when the CPU is not where the step starts. -/
def step (s : Sys C L) : Event C L → Option (Sys C L)
  | .acquire c l => if s.phase c = .idle then some (acquire s c l) else none
  | .xchg c =>
    match s.phase c with
    | .spin l => some (xchg s c l)
    | _ => none
  | .setcpu c =>
    match s.phase c with
    | .got l => some ((s.setLock l { s.locks l with cpu := some c }).setPhase c .idle)
    | _ => none
  | .release c l => if s.phase c = .idle then some (release s c l) else none
  | .unlock c =>
    match s.phase c with
    | .unlock l => some (unlock s c l)
    | _ => none
  | .cli c => if s.phase c = .idle then some (s.setCpu c { s.cpus c with FL_IF := false }) else none
  | .sti c =>
    if s.phase c = .idle ∧ (s.cpus c).ncli = 0 then some (s.setCpu c { s.cpus c with FL_IF := true })
    else none

/-- Boot: every lock free (`initlock`), every CPU with interrupts off and no
`pushcli`. -/
def init : Sys C L where
  cpus := fun _ => ⟨0, false, false⟩
  locks := fun _ => ⟨false, none⟩
  phase := fun _ => .idle

/-- The states reached from boot. -/
def LockReachable (s : Sys C L) : Prop :=
  Reachable (· = init) (fun s t => ∃ e, step s e = some t) s

theorem LockReachable.of_run (es : List (Event C L)) {s t : Sys C L} (hs : LockReachable s)
    (h : runLabels step s es = some t) : LockReachable t :=
  Reachable.of_run (fun _ e _ he => ⟨e, he⟩) es hs h

/-! ## Who holds a lock -/

/-- CPU `c` holds lock `l`: it won the `xchg` and has not stored 0 since. -/
def Sys.holds (s : Sys C L) (c : C) (l : L) : Bool :=
  (s.phase c).owns l || (s.locks l).cpu.any fun c' => decide (c' = c)

/-- The `pushcli`s a CPU has not undone: one per lock it holds, and one more in
`acquire`'s loop. -/
def Sys.depth [Fintype L] (s : Sys C L) (c : C) : Nat :=
  (∑ l, (s.holds c l).toNat) + (s.phase c).spinning.toNat

@[simp] theorem holds_setCpu (s : Sys C L) (c : C) (x : cpu) : (s.setCpu c x).holds = s.holds := rfl

theorem holds_of_unlock {s : Sys C L} {c : C} {l : L} (hp : s.phase c = .unlock l) :
    s.holds c l = true := by
  simp [Sys.holds, hp]

/-- Setting `locked` changes no holder. -/
theorem holds_setLock_locked (s : Sys C L) (l : L) (b : Bool) :
    (s.setLock l { s.locks l with locked := b }).holds = s.holds := by
  funext c' l'
  rw [Sys.holds, Sys.holds, cpu_setLock_locked, setLock_phase]

theorem holds_setPhase_of_ne {s : Sys C L} {c c' : C} (h : c' ≠ c) (p : Phase L) :
    (s.setPhase c p).holds c' = s.holds c' := by
  funext l'
  simp [Sys.holds, Function.update_of_ne h]

/-- Moving a CPU between phases that are not a lock's last two changes no
holder. -/
theorem holds_setPhase {s : Sys C L} {c : C} {p : Phase L} (hp : ∀ l, p ≠ .got l ∧ p ≠ .unlock l)
    (hq : ∀ l, s.phase c ≠ .got l ∧ s.phase c ≠ .unlock l) : (s.setPhase c p).holds = s.holds := by
  funext c' l'
  by_cases h : c' = c
  · subst h
    have h₁ : p.owns l' = false := by simpa using hp l'
    have h₂ : (s.phase c').owns l' = false := by simpa using hq l'
    simp [Sys.holds, h₁, h₂]
  · rw [holds_setPhase_of_ne h]

/-- The `xchg` that finds the lock free adds it to its CPU's locks. -/
theorem holds_xchg {s : Sys C L} {c : C} {l : L} (hp : s.phase c = .spin l) :
    ((s.setLock l { s.locks l with locked := true }).setPhase c (.got l)).holds c =
      Function.update (s.holds c) l true := by
  funext l'
  by_cases hl : l' = l
  · subst hl
    simp [Sys.holds, Phase.owns]
  · simp [Sys.holds, Phase.owns, Function.update_of_ne hl, hp, Ne.symm hl]

end Xv6.Lock
