/-
The process tree: every process other than `initproc` that has been handed out
and not yet freed has a parent, every parent pointer names a live process, and
a free slot has no parent. The assumption that `initproc` never exits is
`exit()`'s own check: it panics with "init exiting", which is no completed
critical section.

Most critical sections do not change the tree (`SameTree`): they move a
process between `SLEEPING`, `RUNNABLE` and `RUNNING`, or a slot between
`UNUSED` and `EMBRYO`. Each of the others keeps the invariant for its own
reason. `wait()` frees a zombie that no slot names as parent, since parents are
live (`TreeInv.reap`). `exit()` passes its children to `initproc` before it
becomes a zombie (`TreeInv.reparented`, `TreeInv.exit`). `fork()` sets the parent
only once its allocations succeed, to the process running it
(`TreeInv.fork_done`). The last two rely on `SchedInv`: the caller is
`RUNNING`, and its `np` names an `EMBRYO`.
-/
import Xv6.Proc.Sched

set_option autoImplicit false

namespace Xv6.Proc

open procstate TransitionSystem

variable {ncpu : Nat}

/-- How the process tree sees a slot. -/
inductive Kind where
  | free
  | live
  | zombie
  deriving DecidableEq, Repr

/-- `UNUSED`, and an `EMBRYO` whose `fork()` has not finished, hold no process
of the tree; a `ZOMBIE` has exited and waits to be freed. -/
def procstate.kind : procstate → Kind
  | UNUSED | EMBRYO => .free
  | SLEEPING | RUNNABLE | RUNNING => .live
  | ZOMBIE => .zombie

theorem procstate.kind_eq_free (st : procstate) : st.kind = .free ↔ st = UNUSED ∨ st = EMBRYO := by
  cases st <;> simp [procstate.kind]

theorem procstate.kind_eq_live (st : procstate) :
    st.kind = .live ↔ st = SLEEPING ∨ st = RUNNABLE ∨ st = RUNNING := by
  cases st <;> simp [procstate.kind]

structure TreeInv (s : Sys ncpu) : Prop where
  init_live : ∃ i, s.initproc = some i ∧ (s.ptable i).state.kind = .live
  parent_live : ∀ p q, (s.ptable p).parent = some q → (s.ptable q).state.kind = .live
  free_orphan : ∀ p, (s.ptable p).state.kind = .free → (s.ptable p).parent = none
  has_parent : ∀ p, (s.ptable p).state.kind ≠ .free → s.initproc ≠ some p →
    (s.ptable p).parent ≠ none

theorem TreeInv.init : TreeInv (userinit (zero : Sys ncpu)) where
  init_live := ⟨0, userinit_zero_initproc, by rw [userinit_zero_ptable, if_pos rfl]; rfl⟩
  parent_live p q hp := by
    rw [userinit_zero_ptable] at hp
    split_ifs at hp
  free_orphan p _ := by
    rw [userinit_zero_ptable]
    split_ifs <;> rfl
  has_parent p hp hi := by
    rw [userinit_zero_ptable] at hp
    split_ifs at hp with h
    · rw [h, userinit_zero_initproc] at hi
      exact absurd rfl hi
    · exact absurd rfl hp

/-! ## Changes the tree does not see -/

/-- A slot looks the same to the tree: same parent, same kind. -/
def SameSlot (a b : proc) : Prop := b.parent = a.parent ∧ b.state.kind = a.state.kind

theorem SameSlot.refl (a : proc) : SameSlot a a := ⟨rfl, rfl⟩

structure SameTree (s t : Sys ncpu) : Prop where
  initproc : t.initproc = s.initproc
  slot : ∀ p, SameSlot (s.ptable p) (t.ptable p)

theorem SameTree.refl (s : Sys ncpu) : SameTree s s := ⟨rfl, fun _ => .refl _⟩

theorem SameTree.trans {s t u : Sys ncpu} (h₁ : SameTree s t) (h₂ : SameTree t u) :
    SameTree s u where
  initproc := h₂.initproc.trans h₁.initproc
  slot p := ⟨(h₂.slot p).1.trans (h₁.slot p).1, (h₂.slot p).2.trans (h₁.slot p).2⟩

theorem TreeInv.of_same {s t : Sys ncpu} (hs : TreeInv s) (h : SameTree s t) : TreeInv t where
  init_live := by
    obtain ⟨i, hi, hl⟩ := hs.init_live
    exact ⟨i, h.initproc.trans hi, (h.slot i).2.trans hl⟩
  parent_live p q hp := by
    rw [(h.slot p).1] at hp
    rw [(h.slot q).2]
    exact hs.parent_live p q hp
  free_orphan p hp := by
    rw [(h.slot p).2] at hp
    rw [(h.slot p).1]
    exact hs.free_orphan p hp
  has_parent p hp hi := by
    rw [(h.slot p).2] at hp
    rw [h.initproc] at hi
    rw [(h.slot p).1]
    exact hs.has_parent p hp hi

theorem sameTree_upd {s : Sys ncpu} {i : Fin NPROC} {f : proc → proc}
    (hf : SameSlot (s.ptable i) (f (s.ptable i))) : SameTree s (s.upd i f) where
  initproc := rfl
  slot p := by
    rw [Sys.upd_ptable]
    split_ifs with h
    · rw [h]
      exact hf
    · exact .refl _

/-- A move between two live states. -/
theorem sameTree_upd_live {s : Sys ncpu} {i : Fin NPROC} {f : proc → proc}
    (hl : (s.ptable i).state.kind = .live) (hf : (f (s.ptable i)).state.kind = .live)
    (hp : (f (s.ptable i)).parent = (s.ptable i).parent) : SameTree s (s.upd i f) :=
  sameTree_upd ⟨hp, hf.trans hl.symm⟩

theorem sameTree_setCpu (s : Sys ncpu) (c : Fin ncpu) (p : Option (Fin NPROC)) :
    SameTree s (s.setCpu c p) :=
  ⟨rfl, fun _ => .refl _⟩

theorem sameTree_wakeup1 (chan : Option Chan) (s : Sys ncpu) : SameTree s (wakeup1 chan s) where
  initproc := rfl
  slot p := by
    rw [wakeup1_ptable]
    split_ifs with h
    · exact ⟨rfl, by rw [h.1]; rfl⟩
    · exact .refl _

theorem sameTree_switch {c : Fin ncpu} {j : Fin NPROC} {s : Sys ncpu}
    (hj : (s.ptable j).state = RUNNABLE) : SameTree s (switch c j s) :=
  (sameTree_upd_live (by rw [hj]; rfl) rfl rfl).trans (sameTree_setCpu _ c _)

theorem sameTree_tidy (j : Fin NPROC) (s : Sys ncpu) : SameTree s (tidy j s) :=
  sameTree_upd (.refl _)

theorem sameTree_resleep {c : Fin ncpu} {j : Fin NPROC} {s : Sys ncpu}
    (hj : (s.ptable j).state = RUNNABLE) : SameTree s (resleep c j s) :=
  (sameTree_upd_live (by rw [hj]; rfl) rfl rfl).trans (sameTree_setCpu _ c _)

theorem sameTree_kill (pid : Int) (s : Sys ncpu) : SameTree s (kill pid s).2 := by
  rcases kill_cases pid s with ⟨-, h⟩ | ⟨i, -, h⟩ <;> rw [h] <;> dsimp only
  · exact .refl s
  · apply sameTree_upd
    by_cases hs : (s.ptable i).state = SLEEPING
    · exact ⟨rfl, by simp [hs, procstate.kind]⟩
    · exact ⟨rfl, by simp [hs]⟩

/-- `allocproc` turns an `UNUSED` slot into an `EMBRYO`: free either way. -/
theorem sameTree_fork_alloc (cur : Fin NPROC) (s : Sys ncpu) : SameTree s (fork_alloc cur s) := by
  rcases fork_alloc_cases cur s with h | ⟨i, hi, h⟩ <;> rw [h]
  · exact .refl s
  · set s₁ : Sys ncpu :=
      { s.upd i (fun p => { p with state := EMBRYO, pid := s.nextpid }) with nextpid := s.nextpid + 1 }
    have h₁ : SameTree s s₁ :=
      ⟨rfl, (sameTree_upd (f := fun p => { p with state := EMBRYO, pid := s.nextpid })
        ⟨rfl, by rw [hi]; rfl⟩).slot⟩
    exact h₁.trans (sameTree_upd (.refl _))

/-! ## Freeing a zombie -/

/-- `wait()` frees a zombie: no parent pointer names it, parents being live. -/
theorem TreeInv.reap {q : Fin NPROC} {s : Sys ncpu} (hs : TreeInv s)
    (hq : (s.ptable q).state = ZOMBIE) : TreeInv (reap q s) := by
  have hnl : (s.ptable q).state.kind ≠ .live := by
    rw [hq]
    decide
  have hother : ∀ p, p ≠ q → (Proc.reap q s).ptable p = s.ptable p :=
    fun p hp => Sys.upd_ptable_of_ne _ _ hp
  constructor
  · obtain ⟨i, hi, hl⟩ := hs.init_live
    have hiq : i ≠ q := by
      rintro rfl
      exact hnl hl
    exact ⟨i, hi, by rw [hother i hiq]; exact hl⟩
  · intro p r hp
    have hpq : p ≠ q := by
      rintro rfl
      simp [Proc.reap] at hp
    rw [hother p hpq] at hp
    have hl := hs.parent_live p r hp
    have hrq : r ≠ q := by
      rintro rfl
      exact hnl hl
    rw [hother r hrq]
    exact hl
  · intro p hp
    by_cases hpq : p = q
    · rw [hpq]
      simp [Proc.reap]
    · rw [hother p hpq] at hp ⊢
      exact hs.free_orphan p hp
  · intro p hp hi
    have hpq : p ≠ q := by
      rintro rfl
      simp [Proc.reap, procstate.kind] at hp
    rw [hother p hpq] at hp ⊢
    exact hs.has_parent p hp hi

/-! ## The scheduler and `sched()` -/

theorem TreeInv.scheduler_from {c : Fin ncpu} {js : List (Fin NPROC)} {s t : Sys ncpu}
    (hs : TreeInv s) (h : scheduler_from c js s = .ok t) : TreeInv t := by
  obtain ⟨u, hu, ht⟩ := scheduler_from_cases c js s t h
  -- the rounds that put a process back to sleep do not change the tree
  have hsu : SameTree s u := by
    clear ht
    induction hu with
    | refl => exact .refl s
    | tail _ hstep ih =>
      obtain ⟨j, hj, rfl⟩ := hstep
      exact ih.trans (sameTree_resleep hj)
  have hu' : TreeInv u := hs.of_same hsu
  rcases ht with rfl | ⟨j, hj, rfl | rfl | ⟨q, hq, rfl⟩⟩
  · exact hu'
  · exact hu'.of_same (sameTree_switch hj)
  · exact hu'.of_same ((sameTree_switch hj).trans (sameTree_tidy j _))
  · exact (hu'.of_same ((sameTree_switch hj).trans (sameTree_tidy j _))).reap hq

/-- `sched()` by a process that changed its own entry by `f` within the tree's
kind. -/
theorem TreeInv.sched {c : Fin ncpu} {p : Fin NPROC} {f : proc → proc} {s t : Sys ncpu}
    (hs : TreeInv s) (h : sched c p (s.upd p f) = .ok t) (hf : SameSlot (s.ptable p) (f (s.ptable p))) :
    TreeInv t := by
  obtain ⟨-, h⟩ := sched_ok h
  exact (hs.of_same ((sameTree_upd hf).trans (sameTree_setCpu _ c none))).scheduler_from h

/-! ## `exit()` -/

theorem reparent_one_parent (cur a q : Fin NPROC) (s : Sys ncpu) :
    ((reparent_one cur s a).ptable q).parent =
      if q = a ∧ (s.ptable a).parent = some cur then s.initproc else (s.ptable q).parent := by
  have hup : ((s.upd a fun r => { r with parent := s.initproc }).ptable q).parent =
      if q = a then s.initproc else (s.ptable q).parent := by
    rw [Sys.upd_ptable]
    split_ifs <;> rfl
  unfold reparent_one
  by_cases ha : (s.ptable a).parent = some cur
  · have hrhs : (if q = a ∧ (s.ptable a).parent = some cur then s.initproc
        else (s.ptable q).parent) = if q = a then s.initproc else (s.ptable q).parent := by
      simp [ha]
    rw [hrhs, ← hup, if_pos ha]
    dsimp only
    -- `wakeup1` leaves the parents as they are
    split_ifs
    · exact wakeup1_parent _ _ q
    · rfl
  · rw [if_neg ha, if_neg (fun h => ha h.2)]

@[simp] theorem reparent_one_initproc (cur a : Fin NPROC) (s : Sys ncpu) :
    (reparent_one cur s a).initproc = s.initproc := by
  unfold reparent_one
  split_ifs
  · dsimp only
    split_ifs <;> rfl
  · rfl

theorem reparent_one_kind (cur a q : Fin NPROC) (s : Sys ncpu) :
    ((reparent_one cur s a).ptable q).state.kind = (s.ptable q).state.kind := by
  have hup : ((s.upd a fun r => { r with parent := s.initproc }).ptable q).state =
      (s.ptable q).state := by
    rw [Sys.upd_ptable]
    split_ifs with h
    · rw [h]
    · rfl
  unfold reparent_one
  split_ifs
  · dsimp only
    split_ifs
    · rw [← hup]
      exact ((sameTree_wakeup1 _ _).slot q).2
    · rw [hup]
  · rfl

/-- `exit()`'s loop changes no slot's kind, nor `initproc`. -/
theorem reparent_kind (cur : Fin NPROC) (s : Sys ncpu) :
    (reparent cur s).initproc = s.initproc ∧
      ∀ q, ((reparent cur s).ptable q).state.kind = (s.ptable q).state.kind := by
  unfold reparent
  -- each body keeps `initproc` and every kind, so the loop does
  refine foldl_rel (r := fun s t : Sys ncpu => t.initproc = s.initproc ∧
      ∀ q, (t.ptable q).state.kind = (s.ptable q).state.kind) ?_ ?_ ?_ _ s
  · intro s
    exact ⟨rfl, fun _ => rfl⟩
  · intro s t u h₁ h₂
    exact ⟨h₂.1.trans h₁.1, fun q => (h₂.2 q).trans (h₁.2 q)⟩
  · intro s a
    exact ⟨reparent_one_initproc cur a s, fun q => reparent_one_kind cur a q s⟩

theorem foldl_reparent_one_parent {cur : Fin NPROC} (q : Fin NPROC) :
    ∀ (l : List (Fin NPROC)) (s : Sys ncpu), s.initproc ≠ some cur →
      ((l.foldl (reparent_one cur) s).ptable q).parent =
        if q ∈ l ∧ (s.ptable q).parent = some cur then s.initproc else (s.ptable q).parent
  | [], s, _ => by simp
  | a :: l, s, hi => by
    have hi' : (reparent_one cur s a).initproc ≠ some cur := by
      rw [reparent_one_initproc]
      exact hi
    rw [List.foldl_cons, foldl_reparent_one_parent q l _ hi', reparent_one_parent,
      reparent_one_initproc]
    by_cases hq : q = a ∧ (s.ptable a).parent = some cur
    · -- `q` is moved now, so the later slots leave it
      obtain ⟨rfl, hp⟩ := hq
      simp [hp, hi]
    · rw [if_neg hq]
      by_cases hqa : q = a
      · subst hqa
        have hp : (s.ptable q).parent ≠ some cur := fun h => hq ⟨rfl, h⟩
        simp [hp]
      · simp [hqa]

/-- **`exit()`'s loop.** Every child of `cur` now has `initproc` as its parent;
every other parent pointer is as it was. -/
theorem reparent_parent {cur : Fin NPROC} {s : Sys ncpu} (hi : s.initproc ≠ some cur)
    (q : Fin NPROC) :
    ((reparent cur s).ptable q).parent =
      if (s.ptable q).parent = some cur then s.initproc else (s.ptable q).parent := by
  unfold reparent
  rw [foldl_reparent_one_parent q _ s hi]
  simp only [List.mem_finRange, true_and]

/-- After `exit()`'s loop the tree still holds, and no slot has `cur` as parent. -/
theorem TreeInv.reparented {cur : Fin NPROC} {s : Sys ncpu} (hs : TreeInv s)
    (hi : s.initproc ≠ some cur) :
    TreeInv (reparent cur s) ∧ ∀ q, ((reparent cur s).ptable q).parent ≠ some cur := by
  obtain ⟨hinit, hkind⟩ := reparent_kind cur s
  obtain ⟨i, hi0, hl0⟩ := hs.init_live
  refine ⟨⟨?_, ?_, ?_, ?_⟩, ?_⟩
  · exact ⟨i, hinit.trans hi0, (hkind i).trans hl0⟩
  · intro p q hp
    rw [hkind]
    rw [reparent_parent hi] at hp
    split_ifs at hp
    · -- a child of `cur`, now `initproc`'s
      rw [hi0, Option.some.injEq] at hp
      rw [← hp]
      exact hl0
    · exact hs.parent_live p q hp
  · intro p hp
    rw [hkind] at hp
    have hn := hs.free_orphan p hp
    rw [reparent_parent hi, hn, if_neg (by simp)]
  · intro p hp hip
    rw [hkind] at hp
    rw [hinit] at hip
    rw [reparent_parent hi]
    split_ifs
    · rw [hi0]
      simp
    · exact hs.has_parent p hp hip
  · intro q hq
    rw [reparent_parent hi] at hq
    split_ifs at hq with hc
    · exact hi hq
    · exact hc hq

/-- A live process that is no one's parent, and not `initproc`, becomes a zombie. -/
theorem TreeInv.zombie {cur : Fin NPROC} {s : Sys ncpu} (hs : TreeInv s)
    (hl : (s.ptable cur).state.kind = .live) (hi : s.initproc ≠ some cur)
    (hno : ∀ q, (s.ptable q).parent ≠ some cur) :
    TreeInv (s.upd cur fun p => { p with state := ZOMBIE, context := .exit }) := by
  have hother : ∀ p, p ≠ cur →
      (s.upd cur fun p => { p with state := ZOMBIE, context := .exit }).ptable p = s.ptable p :=
    fun p hp => Sys.upd_ptable_of_ne _ _ hp
  have hpar : ∀ p,
      ((s.upd cur fun p => { p with state := ZOMBIE, context := .exit }).ptable p).parent =
        (s.ptable p).parent := by
    intro p
    by_cases hpc : p = cur
    · rw [hpc, Sys.upd_ptable_self]
    · rw [hother p hpc]
  constructor
  · obtain ⟨i, hi₁, hli⟩ := hs.init_live
    have hic : i ≠ cur := by
      rintro rfl
      exact hi hi₁
    exact ⟨i, hi₁, by rw [hother i hic]; exact hli⟩
  · intro p q hp
    rw [hpar] at hp
    have hqc : q ≠ cur := by
      rintro rfl
      exact hno p hp
    rw [hother q hqc]
    exact hs.parent_live p q hp
  · intro p hp
    have hpc : p ≠ cur := by
      rintro rfl
      simp [procstate.kind] at hp
    rw [hother p hpc] at hp ⊢
    exact hs.free_orphan p hp
  · intro p hp hip
    rw [hpar]
    by_cases hpc : p = cur
    · rw [hpc]
      exact hs.has_parent cur (by rw [hl]; decide) hi
    · rw [hother p hpc] at hp
      exact hs.has_parent p hp hip

theorem TreeInv.exit {c : Fin ncpu} {cur : Fin NPROC} {s t : Sys ncpu} (hs : TreeInv s)
    (hr : (s.ptable cur).state = RUNNING) (h : exit c cur s = .ok t) : TreeInv t := by
  obtain ⟨hi, h⟩ := exit_ok h
  -- waking the parent does not change the tree; the loop then empties `cur`'s children
  have hw := sameTree_wakeup1 ((s.ptable cur).parent.map Chan.proc) s
  have hi' : (wakeup1 ((s.ptable cur).parent.map Chan.proc) s).initproc ≠ some cur := by
    rw [hw.initproc]
    exact hi
  obtain ⟨h₁, hno⟩ := (hs.of_same hw).reparented hi'
  obtain ⟨hinit, hkind⟩ := reparent_kind cur (wakeup1 ((s.ptable cur).parent.map Chan.proc) s)
  have hl : ((reparent cur (wakeup1 ((s.ptable cur).parent.map Chan.proc) s)).ptable
      cur).state.kind = .live := by
    rw [hkind, (hw.slot cur).2, hr]
    rfl
  have hcur : (reparent cur (wakeup1 ((s.ptable cur).parent.map Chan.proc) s)).initproc ≠
      some cur := by
    rw [hinit]
    exact hi'
  obtain ⟨-, h⟩ := sched_ok h
  exact ((h₁.zombie hl hcur hno).of_same (sameTree_setCpu _ c none)).scheduler_from h

/-! ## `fork()` -/

theorem TreeInv.fork_done {cur np : Fin NPROC} {kstack pgdir : Bool} {s : Sys ncpu}
    (hs : TreeInv s) (hr : (s.ptable cur).state = RUNNING) (he : (s.ptable np).state = EMBRYO) :
    TreeInv (fork_done cur np kstack pgdir s) := by
  have hnc : np ≠ cur := by
    rintro rfl
    rw [hr] at he
    cases he
  set s₁ := s.upd cur fun p => { p with np := none }
  have h₁ : TreeInv s₁ := hs.of_same (sameTree_upd (.refl _))
  have hs₁ : ∀ p, (s₁.ptable p).state = (s.ptable p).state ∧
      (s₁.ptable p).parent = (s.ptable p).parent := by
    intro p
    rw [Sys.upd_ptable]
    split_ifs with h
    · rw [h]
      exact ⟨rfl, rfl⟩
    · exact ⟨rfl, rfl⟩
  have he₁ : (s₁.ptable np).state.kind = .free := by
    rw [(hs₁ np).1, he]
    rfl
  unfold Proc.fork_done
  split_ifs
  · -- `kalloc` failed: the `EMBRYO` is `UNUSED` again
    exact h₁.of_same (sameTree_upd ⟨rfl, he₁.symm ▸ rfl⟩)
  · -- `copyuvm` failed
    exact h₁.of_same (sameTree_upd ⟨rfl, he₁.symm ▸ rfl⟩)
  · -- the child joins the tree under `cur`
    set t := s₁.upd np fun p => { p with parent := some cur, state := RUNNABLE, context := .forkret }
    have hother : ∀ p, p ≠ np → t.ptable p = s₁.ptable p := fun p hp => Sys.upd_ptable_of_ne _ _ hp
    have hfree : ∀ p, (s₁.ptable p).state.kind = .live → p ≠ np := by
      rintro p hp rfl
      rw [he₁] at hp
      cases hp
    constructor
    · obtain ⟨i, hi, hli⟩ := h₁.init_live
      exact ⟨i, hi, by rw [hother i (hfree i hli)]; exact hli⟩
    · intro p q hp
      by_cases hpn : p = np
      · rw [hpn] at hp
        simp only [t, Sys.upd_ptable_self, Option.some.injEq] at hp
        rw [← hp, hother cur hnc.symm, (hs₁ cur).1, hr]
        rfl
      · rw [hother p hpn] at hp
        have hl := h₁.parent_live p q hp
        rw [hother q (hfree q hl)]
        exact hl
    · intro p hp
      by_cases hpn : p = np
      · rw [hpn] at hp
        simp [t, procstate.kind] at hp
      · rw [hother p hpn] at hp ⊢
        exact h₁.free_orphan p hp
    · intro p hp hip
      by_cases hpn : p = np
      · rw [hpn]
        simp [t]
      · rw [hother p hpn] at hp ⊢
        exact h₁.has_parent p hp hip

/-! ## Every critical section -/

theorem TreeInv.move {s t : Sys ncpu} (hs : TreeInv s) (hsch : SchedInv s) (h : Move s t) :
    TreeInv t := by
  cases h with
  | scheduler c _ h => exact hs.scheduler_from h
  | yield c p hp hr h => exact hs.sched h ⟨rfl, by rw [hr]; rfl⟩
  | sleep c p chan hp _ h =>
    exact hs.sched h ⟨rfl, by rw [hsch.cpu_running c p hp]; rfl⟩
  | wakeup chan => exact hs.of_same (sameTree_wakeup1 _ s)
  | kill c p pid _ => exact hs.of_same (sameTree_kill pid s)
  | fork c p _ _ => exact hs.of_same (sameTree_fork_alloc p s)
  | fork_done c p np kstack pgdir hp hn =>
    exact hs.fork_done (hsch.cpu_running c p hp) (hsch.np_embryo p np hn)
  | exit c p hp _ h => exact hs.exit (hsch.cpu_running c p hp) h
  | wait c p hp _ h =>
    rcases wait_ok h with ⟨q, -, hq, rfl⟩ | rfl | h
    · exact hs.reap hq
    · exact hs
    · exact hs.sched h ⟨rfl, by rw [hsch.cpu_running c p hp]; rfl⟩

theorem TreeInv.reachable {s : Sys ncpu} (hs : ProcReachable s) : TreeInv s := by
  refine invariant ?_ ?_ hs
  · rintro s rfl
    exact .init
  · intro s t hr hi hn
    exact hi.move (SchedInv.reachable hr) (Move.of_next hn)

/-- **The process tree.** In every reachable state: every process handed out
and not yet freed (`SLEEPING`, `RUNNABLE`, `RUNNING` or `ZOMBIE`), other than
`initproc`, has a parent; every parent pointer names a slot that is neither
`UNUSED` nor `ZOMBIE`, so no zombie is the parent of any slot and freeing a
zombie leaves no pointer to it; and every `UNUSED` slot has no parent. -/
theorem process_tree {s : Sys ncpu} (hs : ProcReachable s) :
    (∀ p, (s.ptable p).state ≠ UNUSED → (s.ptable p).state ≠ EMBRYO → s.initproc ≠ some p →
      ∃ q, (s.ptable p).parent = some q) ∧
    (∀ p q, (s.ptable p).parent = some q →
      (s.ptable q).state ≠ UNUSED ∧ (s.ptable q).state ≠ ZOMBIE) ∧
    (∀ p, (s.ptable p).state = UNUSED → (s.ptable p).parent = none) := by
  have hi := TreeInv.reachable hs
  refine ⟨?_, ?_, ?_⟩
  · intro p hu he hip
    have hk : (s.ptable p).state.kind ≠ .free := by
      rw [Ne, procstate.kind_eq_free]
      exact fun h => h.elim hu he
    exact Option.ne_none_iff_exists'.mp (hi.has_parent p hk hip)
  · intro p q hp
    have hl := (procstate.kind_eq_live _).mp (hi.parent_live p q hp)
    rcases hl with h | h | h <;> rw [h] <;> exact ⟨by decide, by decide⟩
  · intro p hu
    exact hi.free_orphan p ((procstate.kind_eq_free _).mpr (.inl hu))

theorem process_tree_after_fork :
    ProcReachable (fork_done 0 1 true true (fork_alloc 0 (switch 0 0 (userinit (zero : Sys 1))))) ∧
    (∀ p, ((fork_done 0 1 true true (fork_alloc 0 (switch 0 0 (userinit (zero : Sys 1))))).ptable
        p).state ≠ UNUSED →
      ((fork_done 0 1 true true (fork_alloc 0 (switch 0 0 (userinit (zero : Sys 1))))).ptable
        p).state ≠ EMBRYO →
      (fork_done 0 1 true true (fork_alloc 0 (switch 0 0 (userinit (zero : Sys 1))))).initproc ≠
        some p →
      ∃ q, ((fork_done 0 1 true true (fork_alloc 0 (switch 0 0 (userinit (zero : Sys 1))))).ptable
        p).parent = some q) ∧
    (∀ p q, ((fork_done 0 1 true true (fork_alloc 0 (switch 0 0 (userinit (zero : Sys 1))))).ptable
        p).parent = some q →
      ((fork_done 0 1 true true (fork_alloc 0 (switch 0 0 (userinit (zero : Sys 1))))).ptable
        q).state ≠ UNUSED ∧
      ((fork_done 0 1 true true (fork_alloc 0 (switch 0 0 (userinit (zero : Sys 1))))).ptable
        q).state ≠ ZOMBIE) ∧
    (∀ p, ((fork_done 0 1 true true (fork_alloc 0 (switch 0 0 (userinit (zero : Sys 1))))).ptable
        p).state = UNUSED →
      ((fork_done 0 1 true true (fork_alloc 0 (switch 0 0 (userinit (zero : Sys 1))))).ptable
        p).parent = none) := by
  have hr : ProcReachable
      (fork_done 0 1 true true (fork_alloc 0 (switch 0 0 (userinit (zero : Sys 1))))) :=
    .of_run [.scheduler 0, .fork 0, .fork_done 0 true true] rfl
  exact ⟨hr, process_tree hr⟩

end Xv6.Proc
