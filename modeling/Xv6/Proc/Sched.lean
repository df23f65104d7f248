/-
The scheduler's invariant: wherever `ptable.lock` is free, each CPU's
`c->proc` is null or a `RUNNING` process, and every `RUNNING` process is the
current process of exactly one CPU.

It is proved over every reachable state by the invariant rule, one case per
critical section (`SchedInv.move`). Most sections change nothing between
`RUNNING` and not `RUNNING`: they are `Calm` and keep the invariant whole. The
others are the scheduler's switch (`SchedInv.switch`), a process that leaves
its CPU for the scheduler (`SchedInv.leave`), and the two halves of `fork()`.
The second half of `fork()` changes the state of the slot its `np` names, so
the invariant also says that slot is the parent's own `EMBRYO` (`np_embryo`,
`np_unique`): otherwise it could be a `RUNNING` process of another CPU.
-/
import Xv6.Proc.Step

set_option autoImplicit false

namespace Xv6.Proc

open procstate Relation TransitionSystem

variable {ncpu : Nat}

/-! ## The invariant -/

structure SchedInv (s : Sys ncpu) : Prop where
  cpu_running : ∀ c p, s.cpus c = some p → (s.ptable p).state = RUNNING
  running_cpu : ∀ p, (s.ptable p).state = RUNNING → ∃ c, s.cpus c = some p
  cpu_unique : ∀ c d p, s.cpus c = some p → s.cpus d = some p → c = d
  np_embryo : ∀ p j, (s.ptable p).np = some j → (s.ptable j).state = EMBRYO
  np_unique : ∀ p q j, (s.ptable p).np = some j → (s.ptable q).np = some j → p = q

theorem SchedInv.init : SchedInv (userinit (zero : Sys ncpu)) where
  cpu_running c p hc := by simp at hc
  running_cpu p hp := by
    rw [userinit_zero_ptable] at hp
    split_ifs at hp
  cpu_unique c d p hc := by simp at hc
  np_embryo p j hn := by
    rw [userinit_zero_ptable] at hn
    split_ifs at hn
  np_unique p q j hp := by
    rw [userinit_zero_ptable] at hp
    split_ifs at hp

/-! ## Changes the invariant does not see -/

/-- A slot changes nothing the invariant reads: whether it is `RUNNING`, an
`EMBRYO` it was, and its `np`. -/
def CalmSlot (a b : proc) : Prop :=
  (b.state = RUNNING ↔ a.state = RUNNING) ∧ (a.state = EMBRYO → b.state = EMBRYO) ∧ b.np = a.np

theorem CalmSlot.refl (a : proc) : CalmSlot a a := ⟨.rfl, id, rfl⟩

/-- A move between two states that are neither `RUNNING` nor `EMBRYO`. -/
theorem CalmSlot.of_idle {a b : proc} (ha : a.state ≠ RUNNING) (ha' : a.state ≠ EMBRYO)
    (hb : b.state ≠ RUNNING) (hn : b.np = a.np) : CalmSlot a b :=
  ⟨iff_of_false hb ha, fun h => absurd h ha', hn⟩

theorem CalmSlot.of_state {a b : proc} (hs : b.state = a.state) (hn : b.np = a.np) :
    CalmSlot a b := by
  refine ⟨?_, ?_, hn⟩ <;> rw [hs]
  exact id

structure Calm (s t : Sys ncpu) : Prop where
  cpus : t.cpus = s.cpus
  slot : ∀ p, CalmSlot (s.ptable p) (t.ptable p)

theorem Calm.refl (s : Sys ncpu) : Calm s s := ⟨rfl, fun _ => .refl _⟩

theorem Calm.trans {s t u : Sys ncpu} (h₁ : Calm s t) (h₂ : Calm t u) : Calm s u where
  cpus := h₂.cpus.trans h₁.cpus
  slot p := by
    obtain ⟨r₁, e₁, n₁⟩ := h₁.slot p
    obtain ⟨r₂, e₂, n₂⟩ := h₂.slot p
    exact ⟨r₂.trans r₁, e₂ ∘ e₁, n₂.trans n₁⟩

theorem SchedInv.of_calm {s t : Sys ncpu} (hs : SchedInv s) (h : Calm s t) : SchedInv t where
  cpu_running c p hc := by
    rw [h.cpus] at hc
    exact ((h.slot p).1).mpr (hs.cpu_running c p hc)
  running_cpu p hp := by
    rw [h.cpus]
    exact hs.running_cpu p (((h.slot p).1).mp hp)
  cpu_unique c d p := by
    rw [h.cpus]
    exact hs.cpu_unique c d p
  np_embryo p j hn := by
    rw [(h.slot p).2.2] at hn
    exact (h.slot j).2.1 (hs.np_embryo p j hn)
  np_unique p q j hp hq := by
    rw [(h.slot p).2.2] at hp
    rw [(h.slot q).2.2] at hq
    exact hs.np_unique p q j hp hq

theorem calm_upd {s : Sys ncpu} {i : Fin NPROC} {f : proc → proc}
    (hf : CalmSlot (s.ptable i) (f (s.ptable i))) : Calm s (s.upd i f) where
  cpus := rfl
  slot p := by
    rw [Sys.upd_ptable]
    split_ifs with h
    · subst h
      exact hf
    · exact .refl _

theorem calm_wakeup1 (chan : Option Chan) (s : Sys ncpu) : Calm s (wakeup1 chan s) where
  cpus := rfl
  slot p := by
    rw [wakeup1_ptable]
    split_ifs with h
    · -- a sleeper becomes `RUNNABLE`
      exact .of_idle (by simp [h.1]) (by simp [h.1]) (by simp) rfl
    · exact .refl _

theorem calm_reparent_one (cur q : Fin NPROC) (s : Sys ncpu) : Calm s (reparent_one cur s q) := by
  unfold reparent_one
  split_ifs
  · dsimp only
    have hp : Calm s (s.upd q fun r => { r with parent := s.initproc }) :=
      calm_upd (.of_state rfl rfl)
    split_ifs
    · exact hp.trans (calm_wakeup1 _ _)
    · exact hp
  · exact .refl s

theorem calm_reparent (cur : Fin NPROC) (s : Sys ncpu) : Calm s (reparent cur s) :=
  foldl_rel Calm.refl (fun _ _ _ => Calm.trans) (fun s q => calm_reparent_one cur q s) _ s

theorem calm_kill (pid : Int) (s : Sys ncpu) : Calm s (kill pid s).2 := by
  rcases kill_cases pid s with ⟨-, h⟩ | ⟨i, -, h⟩ <;> rw [h] <;> dsimp only
  · exact .refl s
  · apply calm_upd
    by_cases hs : (s.ptable i).state = SLEEPING
    · exact .of_idle (by simp [hs]) (by simp [hs]) (by simp [hs]) rfl
    · exact .of_state (by simp [hs]) rfl

theorem calm_tidy (j : Fin NPROC) (s : Sys ncpu) : Calm s (tidy j s) :=
  calm_upd (.of_state rfl rfl)

theorem calm_reap {q : Fin NPROC} {s : Sys ncpu} (hq : (s.ptable q).state = ZOMBIE) :
    Calm s (reap q s) :=
  calm_upd (.of_idle (by simp [hq]) (by simp [hq]) (by simp) rfl)

/-- A round of the scan that ends with its process asleep again in `wait()`
leaves the CPU idle as it found it. -/
theorem calm_resleep {c : Fin ncpu} {j : Fin NPROC} {s : Sys ncpu} (hc : s.cpus c = none)
    (hj : (s.ptable j).state = RUNNABLE) : Calm s (resleep c j s) where
  cpus := by
    funext d
    rw [resleep, Sys.setCpu_cpus]
    split_ifs with h
    · rw [h, hc]
    · rfl
  slot p := by
    rw [resleep, Sys.setCpu_ptable]
    exact (calm_upd (.of_idle (by simp [hj]) (by simp [hj]) (by simp) rfl)).slot p

/-! ## The scheduler, and leaving a CPU -/

/-- The scheduler on an idle CPU switching to a `RUNNABLE` process. -/
theorem SchedInv.switch {c : Fin ncpu} {j : Fin NPROC} {s : Sys ncpu} (hs : SchedInv s)
    (hc : s.cpus c = none) (hj : (s.ptable j).state = RUNNABLE) : SchedInv (switch c j s) where
  cpu_running d p hd := by
    rw [switch_cpus] at hd
    rw [switch_state]
    split_ifs at hd with hdc
    · cases hd
      simp
    · have hp := hs.cpu_running d p hd
      have hpj : p ≠ j := by
        rintro rfl
        rw [hj] at hp
        cases hp
      rw [if_neg hpj, hp]
  running_cpu p hp := by
    rw [switch_state] at hp
    split_ifs at hp with hpj
    · exact ⟨c, by simp [switch_cpus, hpj]⟩
    · obtain ⟨d, hd⟩ := hs.running_cpu p hp
      have hdc : d ≠ c := by
        rintro rfl
        rw [hc] at hd
        cases hd
      exact ⟨d, by rw [switch_cpus, if_neg hdc, hd]⟩
  cpu_unique d d' p hd hd' := by
    rw [switch_cpus] at hd hd'
    -- the switched-to process was on no CPU, not being `RUNNING`
    have hfree : ∀ e, e ≠ c → s.cpus e ≠ some j := by
      intro e _ he
      have := hs.cpu_running e j he
      rw [hj] at this
      cases this
    split_ifs at hd hd' with h₁ h₂ h₂
    · rw [h₁, h₂]
    · cases hd
      exact absurd hd' (hfree d' h₂)
    · cases hd'
      exact absurd hd (hfree d h₁)
    · exact hs.cpu_unique d d' p hd hd'
  np_embryo p k hn := by
    rw [switch_np] at hn
    have hk := hs.np_embryo p k hn
    have hkj : k ≠ j := by
      rintro rfl
      rw [hj] at hk
      cases hk
    rw [switch_state, if_neg hkj, hk]
  np_unique p q k hp hq := by
    rw [switch_np] at hp hq
    exact hs.np_unique p q k hp hq

/-- A process on CPU `c` gives up `RUNNING` and the CPU goes back to the
scheduler. -/
theorem SchedInv.leave {c : Fin ncpu} {p : Fin NPROC} {f : proc → proc} {s : Sys ncpu}
    (hs : SchedInv s) (hp : s.cpus c = some p) (hf : (f (s.ptable p)).state ≠ RUNNING)
    (hn : (f (s.ptable p)).np = (s.ptable p).np) : SchedInv ((s.upd p f).setCpu c none) where
  cpu_running d q hd := by
    rw [Sys.setCpu_cpus] at hd
    split_ifs at hd with hdc
    rw [Sys.upd_cpus] at hd
    have hqp : q ≠ p := by
      rintro rfl
      exact hdc (hs.cpu_unique d c q hd hp)
    rw [Sys.setCpu_ptable, Sys.upd_ptable_of_ne _ _ hqp]
    exact hs.cpu_running d q hd
  running_cpu q hq := by
    rw [Sys.setCpu_ptable] at hq
    have hqp : q ≠ p := by
      rintro rfl
      exact hf (by simpa using hq)
    rw [Sys.upd_ptable_of_ne _ _ hqp] at hq
    obtain ⟨d, hd⟩ := hs.running_cpu q hq
    have hdc : d ≠ c := by
      rintro rfl
      rw [hp] at hd
      exact hqp (Option.some.inj hd).symm
    exact ⟨d, by rw [Sys.setCpu_cpus, if_neg hdc, Sys.upd_cpus, hd]⟩
  cpu_unique d d' q hd hd' := by
    rw [Sys.setCpu_cpus] at hd hd'
    split_ifs at hd hd'
    rw [Sys.upd_cpus] at hd hd'
    exact hs.cpu_unique d d' q hd hd'
  np_embryo q k hq := by
    have hnp : ∀ r, (((s.upd p f).setCpu c none).ptable r).np = (s.ptable r).np := by
      intro r
      rw [Sys.setCpu_ptable, Sys.upd_ptable]
      split_ifs with h
      · rw [h, hn]
      · rfl
    rw [hnp] at hq
    have hk := hs.np_embryo q k hq
    -- the leaving process was `RUNNING`, so it is not that `EMBRYO`
    have hkp : k ≠ p := by
      rintro rfl
      rw [hs.cpu_running c k hp] at hk
      cases hk
    rw [Sys.setCpu_ptable, Sys.upd_ptable_of_ne _ _ hkp, hk]
  np_unique q r k hq hr := by
    have hnp : ∀ r, (((s.upd p f).setCpu c none).ptable r).np = (s.ptable r).np := by
      intro r
      rw [Sys.setCpu_ptable, Sys.upd_ptable]
      split_ifs with h
      · rw [h, hn]
      · rfl
    rw [hnp] at hq hr
    exact hs.np_unique q r k hq hr

/-- **The scan keeps the invariant** from an idle CPU. -/
theorem SchedInv.scheduler_from {c : Fin ncpu} {js : List (Fin NPROC)} {s t : Sys ncpu}
    (hs : SchedInv s) (hc : s.cpus c = none) (h : scheduler_from c js s = .ok t) : SchedInv t := by
  obtain ⟨u, hu, ht⟩ := scheduler_from_cases c js s t h
  -- the rounds that put a process back to sleep leave the CPU idle
  have hcu : Calm s u := by
    clear ht
    induction hu with
    | refl => exact .refl s
    | tail _ hstep ih =>
      obtain ⟨j, hj, rfl⟩ := hstep
      exact ih.trans (calm_resleep (by rw [ih.cpus, hc]) hj)
  have hu' : SchedInv u := hs.of_calm hcu
  have hcu' : u.cpus c = none := by rw [hcu.cpus, hc]
  rcases ht with rfl | ⟨j, hj, rfl | rfl | ⟨q, hq, rfl⟩⟩
  · exact hu'
  · exact hu'.switch hcu' hj
  · exact (hu'.switch hcu' hj).of_calm (calm_tidy j _)
  · exact ((hu'.switch hcu' hj).of_calm (calm_tidy j _)).of_calm (calm_reap hq)

/-- `sched()` by the process on CPU `c`, after it changed its own entry by `f`. -/
theorem SchedInv.sched {c : Fin ncpu} {p : Fin NPROC} {f : proc → proc} {s t : Sys ncpu}
    (hs : SchedInv s) (hp : s.cpus c = some p) (h : sched c p (s.upd p f) = .ok t)
    (hn : (f (s.ptable p)).np = (s.ptable p).np) : SchedInv t := by
  obtain ⟨hr, h⟩ := sched_ok h
  rw [Sys.upd_ptable_self] at hr
  exact (hs.leave hp hr hn).scheduler_from (by simp [Sys.setCpu_cpus]) h

/-! ## `fork()` -/

theorem SchedInv.fork_alloc {cur : Fin NPROC} {s : Sys ncpu} (hs : SchedInv s) :
    SchedInv (fork_alloc cur s) := by
  rcases fork_alloc_cases cur s with h | ⟨i, hi, h⟩ <;> rw [h]
  · exact hs
  · -- the new `EMBRYO`, with no `np` naming it yet
    set s₁ : Sys ncpu :=
      { s.upd i (fun p => { p with state := EMBRYO, pid := s.nextpid }) with nextpid := s.nextpid + 1 }
    have hslot : CalmSlot (s.ptable i) { s.ptable i with state := EMBRYO, pid := s.nextpid } :=
      .of_idle (by simp [hi]) (by simp [hi]) (by simp) rfl
    have h₁ : SchedInv s₁ := hs.of_calm ⟨rfl, (calm_upd (f := fun p =>
      { p with state := EMBRYO, pid := s.nextpid }) hslot).slot⟩
    have hi₁ : (s₁.ptable i).state = EMBRYO := by simp [s₁]
    have hnp : ∀ q, (s₁.ptable q).np ≠ some i := by
      intro q hq
      have hq' : (s.ptable q).np = some i := by
        by_cases hqi : q = i
        · rw [hqi] at hq ⊢
          simpa [s₁] using hq
        · simpa [s₁, Sys.upd_ptable_of_ne _ _ hqi] using hq
      have := hs.np_embryo q i hq'
      rw [hi] at this
      cases this
    have hst : ∀ q, ((s₁.upd cur fun p => { p with np := some i }).ptable q).state =
        (s₁.ptable q).state := by
      intro q
      rw [Sys.upd_ptable]
      split_ifs with h
      · rw [h]
      · rfl
    have hnq : ∀ q, q ≠ cur →
        ((s₁.upd cur fun p => { p with np := some i }).ptable q).np = (s₁.ptable q).np := by
      intro q hq
      rw [Sys.upd_ptable_of_ne _ _ hq]
    constructor
    · intro c p hc
      rw [hst]
      exact h₁.cpu_running c p hc
    · intro p hp
      rw [hst] at hp
      exact h₁.running_cpu p hp
    · exact h₁.cpu_unique
    · intro p k hk
      rw [hst]
      by_cases hpc : p = cur
      · subst hpc
        simp only [Sys.upd_ptable_self, Option.some.injEq] at hk
        rw [← hk]
        exact hi₁
      · rw [hnq p hpc] at hk
        exact h₁.np_embryo p k hk
    · intro p q k hp hq
      by_cases hpc : p = cur <;> by_cases hqc : q = cur
      · rw [hpc, hqc]
      · subst hpc
        simp only [Sys.upd_ptable_self, Option.some.injEq] at hp
        rw [hnq q hqc, ← hp] at hq
        exact absurd hq (hnp q)
      · subst hqc
        simp only [Sys.upd_ptable_self, Option.some.injEq] at hq
        rw [hnq p hpc, ← hq] at hp
        exact absurd hp (hnp p)
      · rw [hnq p hpc] at hp
        rw [hnq q hqc] at hq
        exact h₁.np_unique p q k hp hq

theorem SchedInv.fork_done {c : Fin ncpu} {cur np : Fin NPROC} {kstack pgdir : Bool}
    {s : Sys ncpu} (hs : SchedInv s) (hp : s.cpus c = some cur) (hn : (s.ptable cur).np = some np) :
    SchedInv (fork_done cur np kstack pgdir s) := by
  -- whichever branch, the child leaves `EMBRYO` for a state that is not `RUNNING`
  obtain ⟨g, hg, hgn, ht⟩ : ∃ g : proc → proc, (g ((s.upd cur fun p => { p with np := none }).ptable np)).state ≠ RUNNING ∧
      (∀ a, (g a).np = a.np) ∧
      Proc.fork_done cur np kstack pgdir s = (s.upd cur fun p => { p with np := none }).upd np g := by
    unfold Proc.fork_done
    split_ifs
    · exact ⟨fun p => { p with state := UNUSED }, by simp, fun _ => rfl, rfl⟩
    · exact ⟨fun p => { p with state := UNUSED, context := .forkret }, by simp, fun _ => rfl, rfl⟩
    · exact ⟨fun p => { p with parent := some cur, state := RUNNABLE, context := .forkret },
        by simp, fun _ => rfl, rfl⟩
  rw [ht]
  have hemb := hs.np_embryo cur np hn
  have hnc : np ≠ cur := by
    rintro rfl
    rw [hs.cpu_running c np hp] at hemb
    cases hemb
  set t := (s.upd cur fun p => { p with np := none }).upd np g
  have hst : ∀ q, q ≠ np → (t.ptable q).state = (s.ptable q).state := by
    intro q hq
    rw [Sys.upd_ptable_of_ne _ _ hq, Sys.upd_ptable]
    split_ifs with h
    · rw [h]
    · rfl
  have hnp : ∀ q, (t.ptable q).np = if q = cur then none else (s.ptable q).np := by
    intro q
    by_cases hqc : q = cur
    · rw [if_pos hqc, hqc, Sys.upd_ptable_of_ne _ _ hnc.symm, Sys.upd_ptable_self]
    · rw [if_neg hqc, Sys.upd_ptable]
      split_ifs with hqn
      · rw [hgn, hqn, Sys.upd_ptable_of_ne _ _ hnc]
      · rw [Sys.upd_ptable_of_ne _ _ hqc]
  have hne : ∀ q, (s.ptable q).state = RUNNING → q ≠ np := by
    rintro q hq rfl
    rw [hemb] at hq
    cases hq
  constructor
  · intro d q hd
    rw [hst q (hne q (hs.cpu_running d q hd))]
    exact hs.cpu_running d q hd
  · intro q hq
    have hqn : q ≠ np := by
      rintro rfl
      exact hg (by simpa [t] using hq)
    rw [hst q hqn] at hq
    exact hs.running_cpu q hq
  · exact hs.cpu_unique
  · intro q k hk
    rw [hnp] at hk
    split_ifs at hk with hqc
    have hks := hs.np_embryo q k hk
    -- only `cur`'s `np` named the child
    have hkn : k ≠ np := by
      rintro rfl
      exact hqc (hs.np_unique q cur k hk hn)
    rw [hst k hkn]
    exact hks
  · intro q r k hq hr
    rw [hnp] at hq hr
    split_ifs at hq hr
    exact hs.np_unique q r k hq hr

/-! ## Every critical section -/

theorem SchedInv.move {s t : Sys ncpu} (hs : SchedInv s) (h : Move s t) : SchedInv t := by
  cases h with
  | scheduler c hc h => exact hs.scheduler_from hc h
  | yield c p hp _ h => exact hs.sched hp h rfl
  | sleep c p chan hp _ h => exact hs.sched hp h rfl
  | wakeup chan => exact hs.of_calm (calm_wakeup1 _ s)
  | kill c p pid _ => exact hs.of_calm (calm_kill pid s)
  | fork c p _ _ => exact hs.fork_alloc
  | fork_done c p np kstack pgdir hp hn => exact hs.fork_done hp hn
  | exit c p hp _ h =>
    obtain ⟨-, h⟩ := exit_ok h
    -- waking the parent and passing the children to init are calm
    have hcalm := (calm_wakeup1 ((s.ptable p).parent.map Chan.proc) s).trans
      (calm_reparent p (wakeup1 ((s.ptable p).parent.map Chan.proc) s))
    have hcur : (reparent p (wakeup1 ((s.ptable p).parent.map Chan.proc) s)).cpus c = some p := by
      rw [hcalm.cpus, hp]
    exact (hs.of_calm hcalm).sched hcur h (by simp)
  | wait c p hp _ h =>
    rcases wait_ok h with ⟨q, -, hq, rfl⟩ | rfl | h
    · exact hs.of_calm (calm_reap hq)
    · exact hs
    · exact hs.sched hp h rfl

theorem SchedInv.reachable {s : Sys ncpu} (hs : ProcReachable s) : SchedInv s := by
  refine invariant ?_ ?_ hs
  · rintro s rfl
    exact .init
  · intro s t _ hi hn
    exact hi.move (Move.of_next hn)

/-! ## What the scheduler switches to -/

/-- A scan makes `RUNNING` only processes that were `RUNNABLE` when it began. -/
theorem scheduler_from_running {c : Fin ncpu} {js : List (Fin NPROC)} {s t : Sys ncpu}
    {p : Fin NPROC} (h : scheduler_from c js s = .ok t) (hp : (t.ptable p).state = RUNNING) :
    (s.ptable p).state = RUNNING ∨ (s.ptable p).state = RUNNABLE := by
  obtain ⟨u, hu, ht⟩ := scheduler_from_cases c js s t h
  -- the rounds only put processes to sleep: what is `RUNNING` or `RUNNABLE` after them was so before
  have hsu : ∀ q, (u.ptable q).state = RUNNING ∨ (u.ptable q).state = RUNNABLE →
      (s.ptable q).state = (u.ptable q).state := by
    clear ht
    induction hu with
    | refl => exact fun _ _ => rfl
    | tail _ hstep ih =>
      obtain ⟨j, -, rfl⟩ := hstep
      intro q hq
      rw [resleep, Sys.setCpu_ptable, Sys.upd_ptable] at hq ⊢
      split_ifs at hq ⊢ with hqj
      · simp at hq
      · exact ih q hq
  have hfin : (u.ptable p).state = RUNNING ∨ (u.ptable p).state = RUNNABLE := by
    rcases ht with rfl | ⟨j, hj, ht⟩
    · exact .inl hp
    · -- whatever `j` does on resuming, the states are the switch's but for a freed zombie
      have hsw : ((switch c j u).ptable p).state = RUNNING := by
        rcases ht with rfl | rfl | ⟨q, -, rfl⟩
        · exact hp
        · rwa [tidy_state] at hp
        · rw [reap_state, tidy_state] at hp
          split_ifs at hp
          exact hp
      rw [switch_state] at hsw
      split_ifs at hsw with hpj
      · rw [hpj]
        exact .inr hj
      · exact .inl hsw
  rw [hsu p hfin]
  exact hfin

/-- **The scheduler's state machine.** In every reachable state, with
`ptable.lock` free: a CPU's current process is `RUNNING`; a `RUNNING` process is
the current process of exactly one CPU; the scan switches only to processes that
were `RUNNABLE`; and no critical section reaches `sched()`'s "sched running"
panic. -/
theorem scheduler_invariant {s : Sys ncpu} (hs : ProcReachable s) :
    (∀ c p, s.cpus c = some p → (s.ptable p).state = RUNNING) ∧
    (∀ p, (s.ptable p).state = RUNNING → ∃! c, s.cpus c = some p) ∧
    (∀ (c : Fin ncpu) (js : List (Fin NPROC)) (u t : Sys ncpu) (p : Fin NPROC),
      scheduler_from c js u = .ok t → (t.ptable p).state = RUNNING →
        (u.ptable p).state = RUNNING ∨ (u.ptable p).state = RUNNABLE) ∧
    (∀ e, step s e ≠ some (.error "sched running")) := by
  have hi := SchedInv.reachable hs
  refine ⟨hi.cpu_running, ?_, fun _ _ _ _ _ h hp => scheduler_from_running h hp, ?_⟩
  · intro p hp
    obtain ⟨c, hc⟩ := hi.running_cpu p hp
    exact ⟨c, hc, fun d hd => hi.cpu_unique d c p hd hc⟩
  · intro e he
    exact absurd (step_error he) (by decide)

theorem scheduler_invariant_first_switch :
    ProcReachable (switch 0 0 (userinit (zero : Sys 2))) ∧
    (∀ c p, (switch 0 0 (userinit (zero : Sys 2))).cpus c = some p →
      ((switch 0 0 (userinit (zero : Sys 2))).ptable p).state = RUNNING) ∧
    (∀ p, ((switch 0 0 (userinit (zero : Sys 2))).ptable p).state = RUNNING →
      ∃! c, (switch 0 0 (userinit (zero : Sys 2))).cpus c = some p) ∧
    (∀ (c : Fin 2) (js : List (Fin NPROC)) (u t : Sys 2) (p : Fin NPROC),
      scheduler_from c js u = .ok t → (t.ptable p).state = RUNNING →
        (u.ptable p).state = RUNNING ∨ (u.ptable p).state = RUNNABLE) ∧
    (∀ e, step (switch 0 0 (userinit (zero : Sys 2))) e ≠ some (.error "sched running")) := by
  have hr : ProcReachable (switch 0 0 (userinit (zero : Sys 2))) := .of_run [.scheduler 0] rfl
  exact ⟨hr, scheduler_invariant hr⟩

end Xv6.Proc
