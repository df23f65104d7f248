/-
What one critical section of the process model can do.

`step` is a function of the event. The invariants are proved over `Move`, the
same transitions as a relation with one constructor per event and its guard,
so that each preservation proof is one case per constructor and none of them
unfolds `step` again (`Move.of_step`). The helpers of `proc.c` get their
inversion lemmas here, and the scheduler's scan is cut into what its rounds do
(`scheduler_from_cases`): any number of processes that resume in `wait()` and
go back to sleep, then at most one that keeps the CPU.
-/
import Mathlib.Logic.Relation
import Xv6.Proc.Basic

set_option autoImplicit false

namespace Xv6.Proc

open procstate Relation

variable {ncpu : Nat}

/-! ## Boot -/

theorem allocproc_zero : allocproc (zero : Sys ncpu) =
    some (0, { (zero : Sys ncpu).upd 0 (fun p => { p with state := EMBRYO, pid := 1 }) with
      nextpid := 2 }) := rfl

/-- After `userinit`, slot 0 holds the first process and every other slot is
as `zero` left it. -/
theorem userinit_zero_ptable (i : Fin NPROC) :
    (userinit (zero : Sys ncpu)).ptable i =
      if i = 0 then ⟨RUNNABLE, 1, none, none, false, .forkret, none⟩
      else ⟨UNUSED, 0, none, none, false, .null, none⟩ := by
  rw [userinit, allocproc_zero]
  by_cases h : i = 0
  · subst h
    simp [zero]
  · simp [h, zero, Sys.upd_ptable_of_ne _ _ h]

@[simp] theorem userinit_zero_cpus : (userinit (zero : Sys ncpu)).cpus = fun _ => none := by
  rw [userinit, allocproc_zero]
  rfl

@[simp] theorem userinit_zero_initproc : (userinit (zero : Sys ncpu)).initproc = some 0 := by
  rw [userinit, allocproc_zero]

/-! ## The helpers of `proc.c` -/

theorem switch_state (c : Fin ncpu) (j q : Fin NPROC) (s : Sys ncpu) :
    ((switch c j s).ptable q).state = if q = j then RUNNING else (s.ptable q).state := by
  by_cases h : q = j
  · subst h
    simp [switch]
  · simp [switch, h, Sys.upd_ptable_of_ne _ _ h]

@[simp] theorem switch_np (c : Fin ncpu) (j q : Fin NPROC) (s : Sys ncpu) :
    ((switch c j s).ptable q).np = (s.ptable q).np := by
  by_cases h : q = j
  · subst h
    simp [switch]
  · simp [switch, Sys.upd_ptable_of_ne _ _ h]

@[simp] theorem tidy_state (j q : Fin NPROC) (s : Sys ncpu) :
    ((tidy j s).ptable q).state = (s.ptable q).state := by
  by_cases h : q = j
  · subst h
    simp [tidy]
  · simp [tidy, Sys.upd_ptable_of_ne _ _ h]

theorem reap_state (q p : Fin NPROC) (s : Sys ncpu) :
    ((reap q s).ptable p).state = if p = q then UNUSED else (s.ptable p).state := by
  by_cases h : p = q
  · subst h
    simp [reap]
  · simp [reap, h, Sys.upd_ptable_of_ne _ _ h]

theorem switch_cpus (c d : Fin ncpu) (j : Fin NPROC) (s : Sys ncpu) :
    (switch c j s).cpus d = if d = c then some j else s.cpus d := by
  simp [switch, Sys.setCpu_cpus]

theorem allocproc_cases (s : Sys ncpu) :
    allocproc s = none ∨
      ∃ i, (s.ptable i).state = UNUSED ∧
        allocproc s = some (i, { s.upd i (fun p => { p with state := EMBRYO, pid := s.nextpid }) with
          nextpid := s.nextpid + 1 }) := by
  unfold allocproc
  split
  · exact .inl rfl
  · rename_i i hi
    refine .inr ⟨i, ?_, rfl⟩
    simpa using List.find?_some hi

theorem fork_alloc_cases (cur : Fin NPROC) (s : Sys ncpu) :
    fork_alloc cur s = s ∨
      ∃ i, (s.ptable i).state = UNUSED ∧
        fork_alloc cur s = ({ s.upd i (fun p => { p with state := EMBRYO, pid := s.nextpid }) with
          nextpid := s.nextpid + 1 } : Sys ncpu).upd cur fun p => { p with np := some i } := by
  unfold fork_alloc
  rcases allocproc_cases s with h | ⟨i, hi, h⟩
  · rw [h]
    exact .inl rfl
  · rw [h]
    exact .inr ⟨i, hi, rfl⟩

/-- `wait()`'s scan ends in one of three ways: a zombie child is freed, there is
nothing to wait for, or the caller sleeps on its own slot. -/
theorem wait_pass_cases (cur : Fin NPROC) (s : Sys ncpu) :
    (∃ q, (s.ptable q).parent = some cur ∧ (s.ptable q).state = ZOMBIE ∧
      wait_pass cur s = .ret (reap q s) (s.ptable q).pid) ∨
    wait_pass cur s = .ret s (-1) ∨
    wait_pass cur s = .slept (s.upd cur fun p =>
      { p with chan := some (.proc cur), state := SLEEPING, context := .wait }) := by
  unfold wait_pass
  split
  · rename_i q hq
    have hz := List.find?_some hq
    simp only [decide_eq_true_eq] at hz
    exact .inl ⟨q, hz.1, hz.2, rfl⟩
  · split
    · exact .inr (.inl rfl)
    · exact .inr (.inr rfl)

/-- `kill` either finds no slot with the pid or marks the first one. -/
theorem kill_cases (pid : Int) (s : Sys ncpu) :
    ((∀ i, (s.ptable i).pid ≠ pid) ∧ kill pid s = (-1, s)) ∨
      ∃ i, (s.ptable i).pid = pid ∧ kill pid s = (0, s.upd i fun p =>
        { p with killed := true, state := if p.state = SLEEPING then RUNNABLE else p.state }) := by
  unfold kill
  split
  · rename_i hn
    refine .inl ⟨fun i => ?_, rfl⟩
    simpa using List.find?_eq_none.mp hn i (List.mem_finRange i)
  · rename_i i hi
    refine .inr ⟨i, ?_, rfl⟩
    simpa using List.find?_some hi

/-- Past `sched()`'s check, the caller is no longer `RUNNING`. -/
theorem sched_check_ok {α : Type} {p : Fin NPROC} {s : Sys ncpu} {x : Except String α} {t : α}
    (h : (do sched_check p s; x) = .ok t) : (s.ptable p).state ≠ RUNNING ∧ x = .ok t := by
  unfold sched_check at h
  split at h
  · cases h
  · exact ⟨‹_›, h⟩

/-- `sched()` returns only past its check, into the scan after the caller's slot. -/
theorem sched_ok {c : Fin ncpu} {p : Fin NPROC} {s t : Sys ncpu} (h : sched c p s = .ok t) :
    (s.ptable p).state ≠ RUNNING ∧
      scheduler_from c (slotsFrom (p.val + 1)) (s.setCpu c none) = .ok t :=
  sched_check_ok h

theorem sched_eq {c : Fin ncpu} {p : Fin NPROC} {s : Sys ncpu} (h : (s.ptable p).state ≠ RUNNING) :
    sched c p s = scheduler_from c (slotsFrom (p.val + 1)) (s.setCpu c none) := by
  unfold sched sched_check
  rw [if_neg h]
  rfl

theorem exit_ok {c : Fin ncpu} {cur : Fin NPROC} {s t : Sys ncpu} (h : exit c cur s = .ok t) :
    s.initproc ≠ some cur ∧
      sched c cur ((reparent cur (wakeup1 ((s.ptable cur).parent.map Chan.proc) s)).upd cur
        fun p => { p with state := ZOMBIE, context := .exit }) = .ok t := by
  unfold exit at h
  split_ifs at h with hi
  exact ⟨hi, h⟩

/-- `wait()` returns with a zombie child freed, returns at once, or sleeps and
enters `sched()`. -/
theorem wait_ok {c : Fin ncpu} {cur : Fin NPROC} {s t : Sys ncpu} (h : wait c cur s = .ok t) :
    (∃ q, (s.ptable q).parent = some cur ∧ (s.ptable q).state = ZOMBIE ∧ t = reap q s) ∨
    t = s ∨
    sched c cur (s.upd cur fun p =>
      { p with chan := some (.proc cur), state := SLEEPING, context := .wait }) = .ok t := by
  unfold wait at h
  rcases wait_pass_cases cur s with ⟨q, hq, hz, he⟩ | he | he <;> rw [he] at h
  · exact .inl ⟨q, hq, hz, (Except.ok.inj h).symm⟩
  · exact .inr (.inl (Except.ok.inj h).symm)
  · exact .inr (.inr h)

/-! ## The scheduler's scan -/

/-- The net effect of a round of the scan whose process resumes in `wait()`
and sleeps again: it is back asleep on its own slot, and the CPU is idle. -/
def resleep (c : Fin ncpu) (j : Fin NPROC) (s : Sys ncpu) : Sys ncpu :=
  (s.upd j fun p => { p with chan := some (.proc j), state := SLEEPING }).setCpu c none

/-- Any number of such rounds, each from a `RUNNABLE` slot. -/
def Resleeps (c : Fin ncpu) : Sys ncpu → Sys ncpu → Prop :=
  ReflTransGen fun s u => ∃ j, (s.ptable j).state = RUNNABLE ∧ u = resleep c j s

theorem resleep_eq {c : Fin ncpu} {j : Fin NPROC} {s v : Sys ncpu}
    (hw : (s.ptable j).context = .wait) (h : wait_pass j (tidy j (switch c j s)) = .slept v) :
    v.setCpu c none = resleep c j s := by
  rcases wait_pass_cases j (tidy j (switch c j s)) with ⟨q, -, -, he⟩ | he | he <;> rw [he] at h
  · cases h
  · cases h
  · cases h
    obtain ⟨ptable, cpus, nextpid, initproc⟩ := s
    simp only [resleep, switch, tidy, Sys.upd, Sys.setCpu, Function.update_self, Function.update_idem]
    rw [← hw]

/-- **The scan, round by round.** A scan that returns has put some `RUNNABLE`
processes back to sleep in `wait()`, then either found nothing more to run or
switched to one more `RUNNABLE` process, which keeps the CPU: it returns to
where it called `sched()`, or resumes in `sleep()` and clears its channel, or
resumes in `wait()` and frees a zombie child or finds nothing to wait for. -/
theorem scheduler_from_cases (c : Fin ncpu) :
    ∀ (js : List (Fin NPROC)) (s t : Sys ncpu), scheduler_from c js s = .ok t →
      ∃ u, Resleeps c s u ∧
        (t = u ∨ ∃ j, (u.ptable j).state = RUNNABLE ∧
          (t = switch c j u ∨ t = tidy j (switch c j u) ∨
            ∃ q, ((tidy j (switch c j u)).ptable q).state = ZOMBIE ∧
              t = reap q (tidy j (switch c j u))))
  | [], s, t, h => ⟨s, .refl, .inl (Except.ok.inj h).symm⟩
  | j :: js, s, t, h => by
    rw [scheduler_from] at h
    split_ifs at h with hj
    · -- the scan switches to `j`; what happens next is `j`'s saved context
      dsimp only at h
      split at h
      · rename_i hw
        rcases wait_pass_cases j (tidy j (switch c j s)) with ⟨q, -, hz, he⟩ | he | he <;>
          rw [he] at h
        · exact ⟨s, .refl, .inr ⟨j, hj, .inr (.inr ⟨q, hz, (Except.ok.inj h).symm⟩)⟩⟩
        · exact ⟨s, .refl, .inr ⟨j, hj, .inr (.inl (Except.ok.inj h).symm)⟩⟩
        · -- back to sleep in `wait()`: `sched()` returns into this scan
          obtain ⟨-, h⟩ := sched_check_ok h
          have hw : (s.ptable j).context = .wait := by simpa [switch] using hw
          rw [resleep_eq hw he] at h
          obtain ⟨u, hu, ht⟩ := scheduler_from_cases c js _ t h
          exact ⟨u, ReflTransGen.head ⟨j, hj, rfl⟩ hu, ht⟩
      · exact ⟨s, .refl, .inr ⟨j, hj, .inr (.inl (Except.ok.inj h).symm)⟩⟩
      · exact ⟨s, .refl, .inr ⟨j, hj, .inl (Except.ok.inj h).symm⟩⟩
    · exact scheduler_from_cases c js s t h

/-- The scan never panics: the one check inside it is made by a process that
`wait()` has just put back to sleep. -/
theorem scheduler_from_ne_error (c : Fin ncpu) (m : String) :
    ∀ (js : List (Fin NPROC)) (s : Sys ncpu), scheduler_from c js s ≠ .error m
  | [], s => by simp [scheduler_from]
  | j :: js, s => by
    rw [scheduler_from]
    split_ifs with hj
    · dsimp only
      split
      · rcases wait_pass_cases j (tidy j (switch c j s)) with ⟨q, -, -, he⟩ | he | he <;> rw [he]
        · simp
        · simp
        · -- `wait()` has just set the state to `SLEEPING`, so `sched()`'s check passes
          dsimp only
          rw [sched_check, if_neg (by simp)]
          exact scheduler_from_ne_error c m js _
      · simp
      · simp
    · exact scheduler_from_ne_error c m js s

theorem sched_ne_error {c : Fin ncpu} {p : Fin NPROC} {s : Sys ncpu} (m : String)
    (h : (s.ptable p).state ≠ RUNNING) : sched c p s ≠ .error m := by
  rw [sched_eq h]
  exact scheduler_from_ne_error c m _ _

/-! ## The critical sections as a relation -/

/-- `step`'s completed critical sections, one constructor per event with the
guard under which it is enabled. -/
inductive Move : Sys ncpu → Sys ncpu → Prop
  | scheduler {s t : Sys ncpu} (c : Fin ncpu) :
      s.cpus c = none → scheduler_from c (slotsFrom 0) s = .ok t → Move s t
  | yield {s t : Sys ncpu} (c : Fin ncpu) (p : Fin NPROC) :
      s.cpus c = some p → (s.ptable p).state = RUNNING → yield c p s = .ok t → Move s t
  | sleep {s t : Sys ncpu} (c : Fin ncpu) (p : Fin NPROC) (chan : Chan) :
      s.cpus c = some p → (s.ptable p).np = none → sleep c p chan s = .ok t → Move s t
  | wakeup {s : Sys ncpu} (chan : Chan) : Move s (wakeup1 (some chan) s)
  | kill {s : Sys ncpu} (c : Fin ncpu) (p : Fin NPROC) (pid : Int) :
      s.cpus c = some p → Move s (kill pid s).2
  | fork {s : Sys ncpu} (c : Fin ncpu) (p : Fin NPROC) :
      s.cpus c = some p → (s.ptable p).np = none → Move s (fork_alloc p s)
  | fork_done {s : Sys ncpu} (c : Fin ncpu) (p np : Fin NPROC) (kstack pgdir : Bool) :
      s.cpus c = some p → (s.ptable p).np = some np → Move s (fork_done p np kstack pgdir s)
  | exit {s t : Sys ncpu} (c : Fin ncpu) (p : Fin NPROC) :
      s.cpus c = some p → (s.ptable p).np = none → exit c p s = .ok t → Move s t
  | wait {s t : Sys ncpu} (c : Fin ncpu) (p : Fin NPROC) :
      s.cpus c = some p → (s.ptable p).np = none → wait c p s = .ok t → Move s t

theorem Move.of_step {s t : Sys ncpu} {e : Event ncpu} (h : step s e = some (.ok t)) : Move s t := by
  -- each event: the CPU's current process, then the event's own guard
  cases e with
  | scheduler c =>
    simp only [step] at h
    split_ifs at h with hc
    exact .scheduler c hc (Option.some.inj h)
  | yield c =>
    simp only [step] at h
    split at h
    · rename_i p hp
      split_ifs at h with hr
      exact .yield c p hp hr (Option.some.inj h)
    · cases h
  | sleep c chan =>
    simp only [step] at h
    split at h
    · rename_i p hp
      split_ifs at h with hn
      exact .sleep c p chan hp hn (Option.some.inj h)
    · cases h
  | wakeup chan =>
    simp only [step, Option.some.injEq, Except.ok.injEq] at h
    rw [← h]
    exact .wakeup chan
  | kill c pid =>
    simp only [step] at h
    split at h
    · rename_i p hp
      simp only [Option.some.injEq, Except.ok.injEq] at h
      rw [← h]
      exact .kill c p pid hp
    · cases h
  | fork c =>
    simp only [step] at h
    split at h
    · rename_i p hp
      split_ifs at h with hn
      simp only [Option.some.injEq, Except.ok.injEq] at h
      rw [← h]
      exact .fork c p hp hn
    · cases h
  | fork_done c kstack pgdir =>
    simp only [step] at h
    split at h
    · rename_i p hp
      split at h
      · rename_i np hn
        simp only [Option.some.injEq, Except.ok.injEq] at h
        rw [← h]
        exact .fork_done c p np kstack pgdir hp hn
      · cases h
    · cases h
  | exit c =>
    simp only [step] at h
    split at h
    · rename_i p hp
      split_ifs at h with hn
      exact .exit c p hp hn (Option.some.inj h)
    · cases h
  | wait c =>
    simp only [step] at h
    split at h
    · rename_i p hp
      split_ifs at h with hn
      exact .wait c p hp hn (Option.some.inj h)
    · cases h

theorem Move.of_next {s t : Sys ncpu} (h : Next s t) : Move s t :=
  let ⟨_, he⟩ := h
  Move.of_step he

/-- `step` as a partial function on completed sections, to run a trace with. -/
def stepOk (s : Sys ncpu) (e : Event ncpu) : Option (Sys ncpu) :=
  match step s e with
  | some (.ok t) => some t
  | _ => none

theorem next_of_stepOk {s t : Sys ncpu} {e : Event ncpu} (h : stepOk s e = some t) : Next s t := by
  unfold stepOk at h
  split at h
  · rename_i t' he
    cases h
    exact ⟨e, he⟩
  · cases h

/-- A trace of enabled, completed sections from `userinit` ends in a reachable state. -/
theorem ProcReachable.of_run {t : Sys ncpu} (es : List (Event ncpu))
    (h : TransitionSystem.runLabels stepOk (userinit zero) es = some t) : ProcReachable t :=
  TransitionSystem.Reachable.of_run (fun _ _ _ => next_of_stepOk) es (.init rfl) h

/-- The only panic a critical section can reach is `exit()`'s "init exiting":
every caller of `sched()` has moved its process out of `RUNNING` first. -/
theorem step_error {s : Sys ncpu} {e : Event ncpu} {m : String} (h : step s e = some (.error m)) :
    m = "init exiting" := by
  cases e with
  | scheduler c =>
    simp only [step] at h
    split_ifs at h
    exact absurd (Option.some.inj h) (scheduler_from_ne_error c m _ s)
  | yield c =>
    simp only [step] at h
    split at h
    · split_ifs at h
      exact absurd (Option.some.inj h) (sched_ne_error m (by simp))
    · cases h
  | sleep c chan =>
    simp only [step] at h
    split at h
    · split_ifs at h
      exact absurd (Option.some.inj h) (sched_ne_error m (by simp))
    · cases h
  | wakeup chan => simp [step] at h
  | kill c pid =>
    simp only [step] at h
    split at h <;> simp at h
  | fork c =>
    simp only [step] at h
    split at h
    · split_ifs at h
      simp at h
    · cases h
  | fork_done c kstack pgdir =>
    simp only [step] at h
    split at h
    · split at h <;> simp at h
    · cases h
  | exit c =>
    simp only [step] at h
    split at h
    · split_ifs at h
      unfold exit at h
      split_ifs at h
      · simpa using h.symm
      · exact absurd (Option.some.inj h) (sched_ne_error m (by simp))
    · cases h
  | wait c =>
    simp only [step] at h
    split at h
    · rename_i p _
      split_ifs at h
      unfold wait at h
      rcases wait_pass_cases p s with ⟨q, -, -, he⟩ | he | he <;> rw [he] at h
      · simp at h
      · simp at h
      · exact absurd (Option.some.inj h) (sched_ne_error m (by simp))
    · cases h

end Xv6.Proc
