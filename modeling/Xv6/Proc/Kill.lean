/-
What `kill(pid)` matches, what `allocproc` hands out, and what `trap()` does
with a killed process.

`kill` marks the first slot with the pid, whatever its state (`kill_spec`), and
`allocproc` resets neither `killed` nor anything but `state` and `pid`
(`allocproc_slot`). An `UNUSED` slot still has a pid: 0 in the zeroed table and
after `wait()` frees it, or the pid that a failed `allocproc` or `fork()` gave
it. So `kill` can return 0 having marked only an `UNUSED` slot, and the next
`allocproc` hands that slot out already killed (`kill_marks_unused_slot`).
-/
import Xv6.Proc.Step

set_option autoImplicit false

namespace Xv6.Proc

open procstate TransitionSystem

variable {ncpu : Nat}

/-- `kill` succeeds exactly when some slot, in any state, has the pid. -/
theorem kill_spec (pid : Int) (s : Sys ncpu) :
    (kill pid s).1 = 0 ↔ ∃ i, (s.ptable i).pid = pid := by
  rcases kill_cases pid s with ⟨hn, h⟩ | ⟨i, hi, h⟩ <;> rw [h]
  · constructor
    · intro h0
      cases h0
    · rintro ⟨i, hi⟩
      exact absurd hi (hn i)
  · exact ⟨fun _ => ⟨i, hi⟩, fun _ => rfl⟩

/-- The slot `allocproc` hands out was `UNUSED`, and keeps every field but
`state` and `pid`: its `killed` flag in particular. -/
theorem allocproc_slot {s s' : Sys ncpu} {i : Fin NPROC} (h : allocproc s = some (i, s')) :
    (s.ptable i).state = UNUSED ∧
      s'.ptable i = { s.ptable i with state := EMBRYO, pid := s.nextpid } := by
  rcases allocproc_cases s with h' | ⟨j, hj, h'⟩ <;> rw [h'] at h
  · cases h
  · obtain ⟨rfl, rfl⟩ := Prod.mk.inj (Option.some.inj h)
    exact ⟨hj, Sys.upd_ptable_self s j fun p => { p with state := EMBRYO, pid := s.nextpid }⟩

/-- Boot, the scheduler runs `initproc` (pid 1), and `initproc` calls
`kill(0)`: no process has pid 0, but the `UNUSED` slot 1 of the zeroed table
does, so `kill` marks it and returns 0. `initproc` then forks: `allocproc`
hands out slot 1, and the child becomes `RUNNABLE` with `killed` set. -/
theorem kill_marks_unused_slot :
    ∃ t : Sys 1,
      ProcReachable (switch 0 0 (userinit (zero : Sys 1))) ∧
      (switch 0 0 (userinit (zero : Sys 1))).cpus 0 = some 0 ∧
      (∀ i, ((switch 0 0 (userinit (zero : Sys 1))).ptable i).pid = 0 →
        ((switch 0 0 (userinit (zero : Sys 1))).ptable i).state = UNUSED) ∧
      (kill 0 (switch 0 0 (userinit (zero : Sys 1)))).1 = 0 ∧
      runLabels stepOk (userinit zero) [.scheduler 0, .kill 0 0, .fork 0, .fork_done 0 true true] =
        some t ∧
      ProcReachable t ∧ (t.ptable 1).state = RUNNABLE ∧ (t.ptable 1).killed = true := by
  have hrun : runLabels stepOk (userinit (zero : Sys 1))
      [.scheduler 0, .kill 0 0, .fork 0, .fork_done 0 true true] =
      some (fork_done 0 1 true true (fork_alloc 0 (kill 0 (switch 0 0 (userinit zero))).2)) := rfl
  exact ⟨_, .of_run [.scheduler 0] rfl, rfl, by decide, rfl, hrun, .of_run _ hrun, rfl, rfl⟩

/-! ## The end of `trap()` -/

/-- The checks at the end of `trap()` (and after `syscall()`), made each time
CPU `c`'s current process goes back to user space, from a system call, an
interrupt or a fault: "Force process exit if it has been killed and is in user
space". `none` when the process was not killed and goes back to user space. -/
def trap (c : Fin ncpu) (s : Sys ncpu) : Option (Except String (Sys ncpu)) :=
  match s.cpus c with
  | some p => if (s.ptable p).killed then some (exit c p s) else none
  | none => none

/-- A killed `initproc` panics on its next way back to user space, whatever its
program does. -/
theorem trap_initproc {s : Sys ncpu} {c : Fin ncpu} {p : Fin NPROC} (hp : s.cpus c = some p)
    (hi : s.initproc = some p) (hk : (s.ptable p).killed = true) :
    trap c s = some (.error "init exiting") := by
  simp [trap, exit, hp, hi, hk]

set_option maxRecDepth 2048 in
/-- Boot on one CPU: `initproc` (slot 0, pid 1) runs `init.c`: it forks the
shell's process (slot 1, pid 2) and waits. The child runs `kill 1`: it calls
`kill(1)`, which marks `initproc` killed and wakes it, and then `exit()`. The
scheduler resumes `initproc` in `wait()`, which reaps the child and returns;
on the way back to user space `trap()` finds `initproc` killed and calls
`exit()` for it, which panics. `initproc` itself made only `fork()` and
`wait()`. -/
theorem init_exiting_reachable :
    ∃ s₁ s : Sys 1,
      runLabels stepOk (userinit zero) [.scheduler 0, .fork 0, .fork_done 0 true true, .wait 0] =
        some s₁ ∧
      s₁.cpus 0 = some 1 ∧ (s₁.ptable 1).parent = some 0 ∧ (s₁.ptable 1).pid = 2 ∧
      runLabels stepOk s₁ [.kill 0 1, .exit 0, .scheduler 0] = some s ∧
      ProcReachable s ∧ s.initproc = some 0 ∧ (s.ptable 0).pid = 1 ∧ s.cpus 0 = some 0 ∧
      trap 0 s = some (.error "init exiting") := by
  -- the two runs, evaluated
  obtain ⟨s₁, s, h₁, hc₁, hp₁, hpid₁, h₂, hi, hpid, hc, hk⟩ : ∃ s₁ s : Sys 1,
      runLabels stepOk (userinit zero) [.scheduler 0, .fork 0, .fork_done 0 true true, .wait 0] =
        some s₁ ∧ s₁.cpus 0 = some 1 ∧ (s₁.ptable 1).parent = some 0 ∧ (s₁.ptable 1).pid = 2 ∧
      runLabels stepOk s₁ [.kill 0 1, .exit 0, .scheduler 0] = some s ∧
        s.initproc = some 0 ∧ (s.ptable 0).pid = 1 ∧ s.cpus 0 = some 0 ∧ (s.ptable 0).killed = true :=
    ⟨_, _, rfl, rfl, rfl, rfl, rfl, rfl, rfl, rfl, rfl⟩
  have hs : ProcReachable s :=
    Reachable.of_run (fun _ _ _ => next_of_stepOk) _ (ProcReachable.of_run _ h₁) h₂
  exact ⟨s₁, s, h₁, hc₁, hp₁, hpid₁, h₂, hs, hi, hpid, hc, trap_initproc hc hi hk⟩

end Xv6.Proc
