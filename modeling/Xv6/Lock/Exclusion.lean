/-
What `spinlock.c` guarantees, over every interleaving of the CPUs.

The invariant `Inv` says who holds each lock and what each CPU's `ncli` is. A
CPU holds a lock from the `xchg` that found it free to the store of 0 in
`release`: in the phases `got` and `unlock` its phase says so, in between
`lk->cpu` does. Each step keeps the invariant (`inv_step`), one lemma per step
of the code, each assembled from what the step does to the holders and to the
CPU's `pushcli` depth; so every reachable state has it (`inv_reachable`).

What follows: at most one CPU holds a lock, `holding` answers whether the
asking CPU does, and no CPU spins on a lock it holds (`spinlock_exclusive`);
`ncli` counts the locks held, interrupts are off while it is positive, and
`popcli` never panics (`pushcli_depth`). And `pushcli`/`popcli` are matched:
the flag a CPU's outermost `pushcli` saved is what its last `popcli` restores,
whatever the other CPUs do (`intr_restored`).
-/
import Mathlib.Algebra.Order.BigOperators.Group.Finset
import Xv6.Lib.Update
import Xv6.Lock.Spin

set_option autoImplicit false

namespace Xv6.Lock

open TransitionSystem

variable {C L : Type} [DecidableEq C] [DecidableEq L] [Fintype L]

/-! ## The invariant -/

/-- What holds in every state the CPUs reach. -/
structure Inv (s : Sys C L) : Prop where
  /-- at most one CPU holds a lock -/
  excl : ∀ l c c', s.holds c l = true → s.holds c' l = true → c = c'
  /-- `locked` is set exactly when some CPU holds the lock -/
  locked : ∀ l, (s.locks l).locked = true ↔ ∃ c, s.holds c l = true
  /-- `lk->cpu` is set only between `acquire`'s last step and `release` -/
  owner : ∀ l c, (s.locks l).cpu = some c → s.phase c ≠ .got l ∧ s.phase c ≠ .unlock l
  /-- no CPU spins on a lock it holds -/
  spin : ∀ l c, s.phase c = .spin l → (s.locks l).cpu ≠ some c
  /-- a live CPU's `ncli` counts its locks, and one more in `acquire`'s loop -/
  ncli : ∀ c, (s.phase c).live = true → (s.cpus c).ncli = s.depth c
  /-- interrupts are off while `ncli` is positive -/
  intr : ∀ c, (s.phase c).live = true → 0 < (s.cpus c).ncli → (s.cpus c).FL_IF = false
  /-- the only panics are `acquire`'s and `release`'s -/
  panics : ∀ c m, s.phase c = .panicked m → m = "acquire" ∨ m = "release"

variable {s : Sys C L} {c : C} {l : L}

/-- At `idle`, `holding`'s test is whether the CPU holds the lock. -/
theorem Inv.holds_idle (hi : Inv s) (hidle : s.phase c = .idle) :
    ((s.locks l).locked && decide ((s.locks l).cpu = some c)) = s.holds c l := by
  have hh : s.holds c l = true ↔ (s.locks l).cpu = some c := by simp [Sys.holds, hidle]
  by_cases hc : (s.locks l).cpu = some c
  · have hl : (s.locks l).locked = true := (hi.locked l).mpr ⟨c, hh.mpr hc⟩
    simp [hc, hl, hh.mpr hc]
  · have hf : s.holds c l = false := Bool.eq_false_iff.mpr fun h => hc (hh.mp h)
    simp [hc, hf]

theorem le_depth_of_holds (hh : s.holds c l = true) : 1 ≤ s.depth c := by
  have hle : (s.holds c l).toNat ≤ ∑ l', (s.holds c l').toNat :=
    Finset.single_le_sum (f := fun l' => (s.holds c l').toNat) (fun _ _ => Nat.zero_le _)
      (Finset.mem_univ l)
  simp only [hh, Bool.toNat_true] at hle
  unfold Sys.depth
  omega

theorem Inv.ncli_nonneg (hi : Inv s) (hc : (s.phase c).live = true) : 0 ≤ (s.cpus c).ncli := by
  rw [hi.ncli c hc]
  exact Int.natCast_nonneg _

/-- `acquire` up to its loop: it panics exactly on a lock the CPU holds. -/
theorem Inv.acquire_eq (hi : Inv s) (hidle : s.phase c = .idle) :
    acquire s c l = (s.setCpu c (pushcli (s.cpus c))).setPhase c
      (if s.holds c l then .panicked "acquire" else .spin l) := by
  have hlive : (s.phase c).live = true := by simp [hidle, Phase.live]
  have h0 := hi.ncli_nonneg hlive
  have hp := popcli_pushcli (x := pushcli (s.cpus c)) (by simp; omega) (fun _ => FL_IF_pushcli _)
  have hnz : (pushcli (s.cpus c)).ncli ≠ 0 := by simp; omega
  simp only [acquire, holding, hp, if_neg hnz, Except.map, hi.holds_idle hidle]
  cases s.holds c l <;> rfl


theorem depth_of_holds {t : Sys C L} (hh : t.holds c = s.holds c)
    (hp : (t.phase c).spinning = (s.phase c).spinning) : t.depth c = s.depth c := by
  simp [Sys.depth, hh, hp]



/-- `release` up to its store: it panics exactly on a lock the CPU does not
hold. -/
theorem Inv.release_eq (hi : Inv s) (hidle : s.phase c = .idle) :
    release s c l = if s.holds c l then (s.setLock l { s.locks l with cpu := none }).setPhase c (.unlock l)
      else (s.setCpu c (if (s.cpus c).ncli = 0 then { s.cpus c with intena := (s.cpus c).FL_IF }
        else s.cpus c)).setPhase c (.panicked "release") := by
  have hlive : (s.phase c).live = true := by simp [hidle, Phase.live]
  have hp := popcli_pushcli (hi.ncli_nonneg hlive) (hi.intr c hlive)
  simp only [release, holding, hp, Except.map, hi.holds_idle hidle]
  cases hh : s.holds c l
  · rfl
  · -- a CPU that holds a lock is inside a `pushcli`
    have hnz : (s.cpus c).ncli ≠ 0 := by
      have := le_depth_of_holds hh
      rw [hi.ncli c hlive]
      omega
    simp [hnz, setCpu_self]


/-- The store and `popcli` that end `release`. -/
theorem Inv.unlock_eq (hi : Inv s) (hp : s.phase c = .unlock l) :
    unlock s c l = ((s.setLock l { s.locks l with locked := false }).setCpu c
      ⟨(s.cpus c).ncli - 1, (s.cpus c).intena, decide ((s.cpus c).ncli = 1) && (s.cpus c).intena⟩).setPhase
        c .idle := by
  have hlive : (s.phase c).live = true := by simp [hp, Phase.live]
  have hpos : 0 < (s.cpus c).ncli := by
    have := le_depth_of_holds (holds_of_unlock hp)
    rw [hi.ncli c hlive]
    omega
  simp only [unlock, setLock_cpus, popcli_ok (hi.intr c hlive hpos) hpos]

/-! ## Each step keeps the invariant -/

/-- A CPU that panics where it stood keeps the invariant, when the panic is
`acquire`'s or `release`'s and no holder or depth of another CPU moves. -/
theorem inv_panic (hi : Inv s) (hidle : s.phase c = .idle) (x : cpu) {m : String}
    (hm : m = "acquire" ∨ m = "release") : Inv ((s.setCpu c x).setPhase c (.panicked m)) := by
  set t := (s.setCpu c x).setPhase c (.panicked m)
  have hh : t.holds = s.holds := by
    rw [holds_setPhase (by simp) (by simp [hidle]), holds_setCpu]
  constructor
  · rw [hh]; exact hi.excl
  · rw [hh]; exact hi.locked
  · intro l' c' hc'
    by_cases h : c' = c
    · subst h; simp [t]
    · simpa [t, Function.update_of_ne h] using hi.owner l' c' hc'
  · intro l' c' hc'
    have h : c' ≠ c := by rintro rfl; simp [t] at hc'
    exact hi.spin l' c' (by simpa [t, Function.update_of_ne h] using hc')
  · intro c' hc'
    have h : c' ≠ c := by rintro rfl; simp [t, Phase.live] at hc'
    have hp' : t.phase c' = s.phase c' := by simp [t, Function.update_of_ne h]
    rw [depth_of_holds (congrFun hh c') (by rw [hp'])]
    simpa [t, Function.update_of_ne h] using hi.ncli c' (hp' ▸ hc')
  · intro c' hc' hpos
    have h : c' ≠ c := by rintro rfl; simp [t, Phase.live] at hc'
    simp only [t, setPhase_cpus, setCpu_cpus, Function.update_of_ne h] at hpos ⊢
    exact hi.intr c' (by simpa [t, Function.update_of_ne h] using hc') hpos
  · intro c' m' hc'
    by_cases h : c' = c
    · subst h
      simp only [t, setPhase_phase, Function.update_self, Phase.panicked.injEq] at hc'
      exact hc' ▸ hm
    · exact hi.panics c' m' (by simpa [t, Function.update_of_ne h] using hc')


theorem inv_acquire (hi : Inv s) (hidle : s.phase c = .idle) : Inv (acquire s c l) := by
  rw [hi.acquire_eq hidle]
  split
  case isTrue => exact inv_panic hi hidle _ (.inl rfl)
  rename_i hcl
  -- `holding` found the lock not its own: the CPU enters the loop
  set t := (s.setCpu c (pushcli (s.cpus c))).setPhase c (.spin l)
  have hcpu : (s.locks l).cpu ≠ some c := by simpa [Sys.holds, hidle] using hcl
  have hh : t.holds = s.holds := by
    rw [holds_setPhase (by simp) (by simp [hidle]), holds_setCpu]
  constructor
  · rw [hh]; exact hi.excl
  · rw [hh]; exact hi.locked
  · intro l' c' hc'
    by_cases h : c' = c
    · subst h; simp [t]
    · simpa [t, Function.update_of_ne h] using hi.owner l' c' hc'
  · intro l' c' hc'
    by_cases h : c' = c
    · subst h
      simp only [t, setPhase_phase, Function.update_self, Phase.spin.injEq] at hc'
      subst hc'
      exact hcpu
    · exact hi.spin l' c' (by simpa [t, Function.update_of_ne h] using hc')
  · intro c' hc'
    by_cases h : c' = c
    · subst h
      -- one more `pushcli`, for the loop
      have hold := hi.ncli c' (by simp [hidle, Phase.live])
      simp only [Sys.depth, hidle, Phase.spinning, Bool.toNat_false, add_zero] at hold
      rw [Sys.depth, hh]
      simp [t, Phase.spinning, hold]
    · have hp' : t.phase c' = s.phase c' := by simp [t, Function.update_of_ne h]
      rw [depth_of_holds (congrFun hh c') (by rw [hp'])]
      simpa [t, Function.update_of_ne h] using hi.ncli c' (hp' ▸ hc')
  · intro c' hc' hpos
    by_cases h : c' = c
    · subst h; simp [t]
    · simp only [t, setPhase_cpus, setCpu_cpus, Function.update_of_ne h] at hpos ⊢
      exact hi.intr c' (by simpa [t, Function.update_of_ne h] using hc') hpos
  · intro c' m hc'
    have h : c' ≠ c := by rintro rfl; simp [t] at hc'
    exact hi.panics c' m (by simpa [t, Function.update_of_ne h] using hc')

theorem inv_xchg (hi : Inv s) (hp : s.phase c = .spin l) : Inv (xchg s c l) := by
  unfold xchg
  split
  · exact hi
  rename_i hfree
  -- nobody held the lock
  have hnone : ∀ c', s.holds c' l = false := fun c' =>
    Bool.eq_false_iff.mpr fun h => hfree ((hi.locked l).mpr ⟨c', h⟩)
  have hcl : s.holds c l = false := hnone c
  set t := (s.setLock l { s.locks l with locked := true }).setPhase c (.got l)
  -- after the step: `c` holds `l` and what it held, everyone else what they held
  have hh : ∀ c' l', t.holds c' l' = true ↔ (c' = c ∧ l' = l) ∨ s.holds c' l' = true := by
    intro c' l'
    by_cases h : c' = c
    · subst h
      rw [holds_xchg hp]
      by_cases hl : l' = l
      · subst hl; simp
      · simp [hl]
    · rw [holds_setPhase_of_ne h, holds_setLock_locked]
      simp [h]
  constructor
  · intro l' c₁ c₂ h₁ h₂
    rcases (hh c₁ l').mp h₁ with ⟨hc₁, hl₁⟩ | h₁ <;> rcases (hh c₂ l').mp h₂ with ⟨hc₂, hl₂⟩ | h₂
    · exact hc₁.trans hc₂.symm
    · rw [hl₁, hnone] at h₂; cases h₂
    · rw [hl₂, hnone] at h₁; cases h₁
    · exact hi.excl l' c₁ c₂ h₁ h₂
  · intro l'
    by_cases hl : l' = l
    · subst hl
      simp only [t, setPhase_locks, setLock_locks, Function.update_self, true_iff]
      exact ⟨c, (hh c l').mpr (.inl ⟨rfl, rfl⟩)⟩
    · have hlk : (t.locks l').locked = (s.locks l').locked := by
        simp [t, Function.update_of_ne hl]
      rw [hlk, hi.locked l']
      simp only [hh, hl, and_false, false_or]
  · intro l' c' hc'
    simp only [t, cpu_setLock_locked, setPhase_locks] at hc'
    by_cases h : c' = c
    · subst h
      -- it spun on `l`, so `lk->cpu` of `l` is not it
      have hl : l' ≠ l := fun hl => hi.spin l c' hp (hl ▸ hc')
      simp [t, Ne.symm hl]
    · simpa [t, Function.update_of_ne h] using hi.owner l' c' hc'
  · intro l' c' hc'
    by_cases h : c' = c
    · subst h
      simp [t] at hc'
    · simp only [t, setPhase_phase, Function.update_of_ne h] at hc'
      rw [show (t.locks l').cpu = (s.locks l').cpu from cpu_setLock_locked s l l' true]
      exact hi.spin l' c' hc'
  · intro c' hc'
    by_cases h : c' = c
    · subst h
      have hsum := Function.sum_update_add Bool.toNat (s.holds c') l true
      rw [hcl] at hsum
      have hold := hi.ncli c' (by simp [hp, Phase.live])
      simp only [Sys.depth, hp, Phase.spinning] at hold
      simp only [Sys.depth, holds_xchg hp, t, setPhase_phase, Function.update_self, Phase.spinning,
        setPhase_cpus, setLock_cpus, hold]
      simp only [Bool.toNat_false, Bool.toNat_true, add_zero] at hsum ⊢
      omega
    · simp only [t, setPhase_phase, Function.update_of_ne h] at hc'
      have hd : t.depth c' = s.depth c' := by
        refine depth_of_holds ?_ (by simp [t, Function.update_of_ne h])
        rw [holds_setPhase_of_ne h, holds_setLock_locked]
      rw [hd]
      exact hi.ncli c' hc'
  · intro c' hc' hpos
    by_cases h : c' = c
    · subst h
      exact hi.intr c' (by simp [hp, Phase.live]) hpos
    · exact hi.intr c' (by simpa [t, Function.update_of_ne h] using hc') hpos
  · intro c' m hc'
    by_cases h : c' = c
    · subst h
      simp [t] at hc'
    · exact hi.panics c' m (by simpa [t, Function.update_of_ne h] using hc')

theorem inv_setcpu (hi : Inv s) (hp : s.phase c = .got l) :
    Inv ((s.setLock l { s.locks l with cpu := some c }).setPhase c .idle) := by
  set t := (s.setLock l { s.locks l with cpu := some c }).setPhase c .idle
  have hcl : s.holds c l = true := by simp [Sys.holds, hp]
  -- `lk->cpu` now names the holder, and no one else
  have hh : t.holds = s.holds := by
    funext c' l'
    by_cases hl : l' = l
    · subst hl
      by_cases h : c' = c
      · subst h; simp [t, Sys.holds, hp]
      · have hn : s.holds c' l' = false :=
          Bool.eq_false_iff.mpr fun h' => h (hi.excl l' c' c h' hcl)
        rw [hn]
        simp only [Sys.holds, Bool.or_eq_false_iff, Phase.owns_eq_false, any_eq_self_false] at hn
        simp [t, Sys.holds, Function.update_of_ne h, Ne.symm h, hn.1.1, hn.1.2]
    · by_cases h : c' = c
      · subst h; simp [t, Sys.holds, Phase.owns, Function.update_of_ne hl, hp, Ne.symm hl]
      · simp [t, Sys.holds, Function.update_of_ne hl, Function.update_of_ne h]
  have hlk : ∀ l', (t.locks l').locked = (s.locks l').locked := by
    intro l'
    by_cases hl : l' = l
    · subst hl; simp [t]
    · simp [t, Function.update_of_ne hl]
  constructor
  · rw [hh]; exact hi.excl
  · intro l'; rw [hh, hlk]; exact hi.locked l'
  · intro l' c' hc'
    by_cases h : c' = c
    · subst h; simp [t]
    · have hl : l' ≠ l := by
        rintro rfl
        simp [t, Ne.symm h] at hc'
      simp only [t, setPhase_locks, setLock_locks, Function.update_of_ne hl] at hc'
      simpa [t, Function.update_of_ne h] using hi.owner l' c' hc'
  · intro l' c' hc'
    have h : c' ≠ c := by rintro rfl; simp [t] at hc'
    simp only [t, setPhase_phase, Function.update_of_ne h] at hc'
    by_cases hl : l' = l
    · subst hl; simp [t, Ne.symm h]
    · simpa [t, Function.update_of_ne hl] using hi.spin l' c' hc'
  · intro c' hc'
    by_cases h : c' = c
    · subst h
      rw [depth_of_holds (congrFun hh c') (by simp [t, hp, Phase.spinning])]
      exact hi.ncli c' (by simp [hp, Phase.live])
    · have hp' : t.phase c' = s.phase c' := by simp [t, Function.update_of_ne h]
      rw [depth_of_holds (congrFun hh c') (by rw [hp'])]
      exact hi.ncli c' (hp' ▸ hc')
  · intro c' hc' hpos
    by_cases h : c' = c
    · subst h; exact hi.intr c' (by simp [hp, Phase.live]) hpos
    · exact hi.intr c' (by simpa [t, Function.update_of_ne h] using hc') hpos
  · intro c' m hc'
    have h : c' ≠ c := by rintro rfl; simp [t] at hc'
    exact hi.panics c' m (by simpa [t, Function.update_of_ne h] using hc')


theorem inv_release (hi : Inv s) (hidle : s.phase c = .idle) : Inv (release s c l) := by
  rw [hi.release_eq hidle]
  split
  case isFalse => exact inv_panic hi hidle _ (.inr rfl)
  rename_i hcl
  set t := (s.setLock l { s.locks l with cpu := none }).setPhase c (.unlock l)
  have hcpu : (s.locks l).cpu = some c := by simpa [Sys.holds, hidle] using hcl
  -- the holder is now marked by its phase, not by `lk->cpu`
  have hh : t.holds = s.holds := by
    funext c' l'
    by_cases hl : l' = l
    · subst hl
      by_cases h : c' = c
      · subst h; simp [t, Sys.holds, Phase.owns, hcpu]
      · simp [t, Sys.holds, Function.update_of_ne h, hcpu, Ne.symm h]
    · by_cases h : c' = c
      · subst h; simp [t, Sys.holds, Phase.owns, Function.update_of_ne hl, hidle, Ne.symm hl]
      · simp [t, Sys.holds, Function.update_of_ne hl, Function.update_of_ne h]
  have hlk : ∀ l', (t.locks l').locked = (s.locks l').locked := by
    intro l'
    by_cases hl : l' = l
    · subst hl; simp [t]
    · simp [t, Function.update_of_ne hl]
  constructor
  · rw [hh]; exact hi.excl
  · intro l'; rw [hh, hlk]; exact hi.locked l'
  · intro l' c' hc'
    have hl : l' ≠ l := by rintro rfl; simp [t] at hc'
    simp only [t, setPhase_locks, setLock_locks, Function.update_of_ne hl] at hc'
    by_cases h : c' = c
    · subst h; simp [t, Ne.symm hl]
    · simpa [t, Function.update_of_ne h] using hi.owner l' c' hc'
  · intro l' c' hc'
    have h : c' ≠ c := by rintro rfl; simp [t] at hc'
    simp only [t, setPhase_phase, Function.update_of_ne h] at hc'
    by_cases hl : l' = l
    · subst hl; simp [t]
    · simpa [t, Function.update_of_ne hl] using hi.spin l' c' hc'
  · intro c' hc'
    by_cases h : c' = c
    · subst h
      rw [depth_of_holds (congrFun hh c') (by simp [t, hidle, Phase.spinning])]
      exact hi.ncli c' (by simp [hidle, Phase.live])
    · have hp' : t.phase c' = s.phase c' := by simp [t, Function.update_of_ne h]
      rw [depth_of_holds (congrFun hh c') (by rw [hp'])]
      exact hi.ncli c' (hp' ▸ hc')
  · intro c' hc' hpos
    by_cases h : c' = c
    · subst h; exact hi.intr c' (by simp [hidle, Phase.live]) hpos
    · exact hi.intr c' (by simpa [t, Function.update_of_ne h] using hc') hpos
  · intro c' m hc'
    have h : c' ≠ c := by rintro rfl; simp [t] at hc'
    exact hi.panics c' m (by simpa [t, Function.update_of_ne h] using hc')


theorem inv_unlock (hi : Inv s) (hp : s.phase c = .unlock l) : Inv (unlock s c l) := by
  rw [hi.unlock_eq hp]
  set y : cpu := ⟨(s.cpus c).ncli - 1, (s.cpus c).intena, decide ((s.cpus c).ncli = 1) && (s.cpus c).intena⟩
  set t := ((s.setLock l { s.locks l with locked := false }).setCpu c y).setPhase c .idle
  have hcl : s.holds c l = true := holds_of_unlock hp
  have hcpu : (s.locks l).cpu ≠ some c := fun h => (hi.owner l c h).2 hp
  have hlive : (s.phase c).live = true := by simp [hp, Phase.live]
  -- the holder gives `l` up; no one else held it
  have hself : t.holds c = Function.update (s.holds c) l false := by
    funext l'
    by_cases hl : l' = l
    · subst hl; simp [t, Sys.holds, hcpu]
    · simp [t, Sys.holds, Phase.owns, Function.update_of_ne hl, hp, Ne.symm hl]
  have hother : ∀ c', c' ≠ c → t.holds c' = s.holds c' := by
    intro c' h
    simp only [t]
    rw [holds_setPhase_of_ne h, holds_setCpu, holds_setLock_locked]
  have hh : ∀ c' l', t.holds c' l' = true ↔ s.holds c' l' = true ∧ ¬(c' = c ∧ l' = l) := by
    intro c' l'
    by_cases h : c' = c
    · subst h
      rw [hself]
      by_cases hl : l' = l
      · subst hl; simp
      · simp [hl]
    · rw [hother c' h]
      simp [h]
  constructor
  · intro l' c₁ c₂ h₁ h₂
    exact hi.excl l' c₁ c₂ ((hh c₁ l').mp h₁).1 ((hh c₂ l').mp h₂).1
  · intro l'
    by_cases hl : l' = l
    · subst hl
      simp only [t, setPhase_locks, setCpu_locks, setLock_locks, Function.update_self, Bool.false_eq_true,
        false_iff, not_exists]
      intro c' hc'
      obtain ⟨hs', hne⟩ := (hh c' l').mp hc'
      exact hne ⟨hi.excl l' c' c hs' hcl, rfl⟩
    · have hlk : (t.locks l').locked = (s.locks l').locked := by simp [t, Function.update_of_ne hl]
      rw [hlk, hi.locked l']
      simp only [hh, hl, and_false, not_false_eq_true, and_true]
  · intro l' c' hc'
    simp only [t, setPhase_locks, setCpu_locks, cpu_setLock_locked] at hc'
    by_cases h : c' = c
    · subst h; simp [t]
    · simpa [t, Function.update_of_ne h] using hi.owner l' c' hc'
  · intro l' c' hc'
    have h : c' ≠ c := by rintro rfl; simp [t] at hc'
    simp only [t, setPhase_phase, setCpu_phase, setLock_phase, Function.update_of_ne h] at hc'
    rw [show (t.locks l').cpu = (s.locks l').cpu from cpu_setLock_locked s l l' false]
    exact hi.spin l' c' hc'
  · intro c' hc'
    by_cases h : c' = c
    · subst h
      -- one lock fewer, one `popcli` more
      have hsum := Function.sum_update_add Bool.toNat (s.holds c') l false
      rw [hcl] at hsum
      have hold := hi.ncli c' hlive
      simp only [Sys.depth, hp, Phase.spinning] at hold
      simp only [Sys.depth, hself, t, y, setPhase_phase, Function.update_self, Phase.spinning,
        setPhase_cpus, setCpu_cpus]
      simp only [Bool.toNat_false, Bool.toNat_true, add_zero] at hsum hold ⊢
      omega
    · have hp' : t.phase c' = s.phase c' := by simp [t, Function.update_of_ne h]
      rw [depth_of_holds (hother c' h) (by rw [hp'])]
      simpa [t, Function.update_of_ne h] using hi.ncli c' (hp' ▸ hc')
  · intro c' hc' hpos
    by_cases h : c' = c
    · subst h
      -- at a depth still positive, `popcli` leaves interrupts off
      simp only [t, y, setPhase_cpus, setCpu_cpus, Function.update_self] at hpos ⊢
      have h1 : (s.cpus c').ncli ≠ 1 := by omega
      simp [h1]
    · simp only [t, setPhase_cpus, setCpu_cpus, setLock_cpus, Function.update_of_ne h] at hpos ⊢
      exact hi.intr c' (by simpa [t, Function.update_of_ne h] using hc') hpos
  · intro c' m hc'
    have h : c' ≠ c := by rintro rfl; simp [t] at hc'
    exact hi.panics c' m (by simpa [t, Function.update_of_ne h] using hc')


/-- Changing a CPU's flag and nothing of its depth keeps the invariant, when it
leaves interrupts off inside a `pushcli`. -/
theorem inv_setCpu (hi : Inv s) (x : cpu) (hn : x.ncli = (s.cpus c).ncli)
    (hIF : 0 < x.ncli → x.FL_IF = false) : Inv (s.setCpu c x) := by
  constructor
  · exact hi.excl
  · exact hi.locked
  · exact hi.owner
  · exact hi.spin
  · intro c' hc'
    by_cases h : c' = c
    · subst h; simpa [hn, Sys.depth] using hi.ncli c' hc'
    · simpa [Function.update_of_ne h, Sys.depth] using hi.ncli c' hc'
  · intro c' hc' hpos
    by_cases h : c' = c
    · subst h; simp only [setCpu_cpus, Function.update_self] at hpos ⊢; exact hIF hpos
    · simp only [setCpu_cpus, Function.update_of_ne h] at hpos ⊢; exact hi.intr c' hc' hpos
  · exact hi.panics

theorem inv_step {t : Sys C L} {e : Event C L} (hi : Inv s) (h : step s e = some t) : Inv t := by
  cases e with
  | acquire c l =>
    simp only [step] at h
    split at h
    · cases h; exact inv_acquire hi ‹_›
    · cases h
  | xchg c =>
    simp only [step] at h
    split at h
    · cases h; exact inv_xchg hi ‹_›
    · cases h
  | setcpu c =>
    simp only [step] at h
    split at h
    · cases h; exact inv_setcpu hi ‹_›
    · cases h
  | release c l =>
    simp only [step] at h
    split at h
    · cases h; exact inv_release hi ‹_›
    · cases h
  | unlock c =>
    simp only [step] at h
    split at h
    · cases h; exact inv_unlock hi ‹_›
    · cases h
  | cli c =>
    simp only [step] at h
    split at h
    · cases h; exact inv_setCpu hi _ rfl (fun _ => rfl)
    · cases h
  | sti c =>
    simp only [step] at h
    split at h
    · cases h
      rename_i hs
      exact inv_setCpu hi _ rfl (fun hpos => absurd hs.2 (by simp at hpos ⊢; omega))
    · cases h

theorem inv_init : Inv (init : Sys C L) := by
  constructor
  · intro l c c' h; simp [init, Sys.holds, Phase.owns] at h
  · intro l; simp [init, Sys.holds, Phase.owns]
  · intro l c h; simp [init] at h
  · intro l c h; simp [init] at h
  · intro c _; simp [init, Sys.depth, Sys.holds, Phase.owns, Phase.spinning]
  · intro c _ h; simp [init] at h
  · intro c m h; simp [init] at h

theorem inv_reachable {s : Sys C L} (hs : LockReachable s) : Inv s := by
  refine invariant ?_ (fun s t _ hi he => ?_) hs
  · rintro _ rfl
    exact inv_init
  · obtain ⟨e, he⟩ := he
    exact inv_step hi he


/-! ## What the invariant says -/

/-- In every state the CPUs reach, under any interleaving: a lock has at most
one holder, `locked` is set exactly when it has one, `holding` on a CPU outside
`acquire` and `release` returns whether it is that holder (and never panics),
and no CPU spins on a lock it holds. -/
theorem spinlock_exclusive {s : Sys C L} (hs : LockReachable s) :
    (∀ l c c', s.holds c l = true → s.holds c' l = true → c = c') ∧
    (∀ l, (s.locks l).locked = true ↔ ∃ c, s.holds c l = true) ∧
    (∀ c l, s.phase c = .idle → ∃ x, holding c (s.cpus c) (s.locks l) = .ok (s.holds c l, x)) ∧
    (∀ c l, s.phase c = .spin l → s.holds c l = false) := by
  have hi := inv_reachable hs
  refine ⟨hi.excl, hi.locked, fun c l hidle => ?_, fun c l hp => ?_⟩
  · have hlive : (s.phase c).live = true := by simp [hidle, Phase.live]
    refine ⟨if (s.cpus c).ncli = 0 then { s.cpus c with intena := (s.cpus c).FL_IF } else s.cpus c, ?_⟩
    simp only [holding, popcli_pushcli (hi.ncli_nonneg hlive) (hi.intr c hlive), Except.map,
      hi.holds_idle hidle]
  · simpa [Sys.holds, hp, Phase.owns] using hi.spin l c hp


/-- In every state the CPUs reach: a CPU that has not panicked has one
`pushcli` outstanding per lock it holds, and one more in `acquire`'s loop;
interrupts are off on it while any is outstanding; and the only panics are
`acquire` of a lock the CPU holds and `release` of one it does not, never
`popcli`'s. -/
theorem spinlock_exclusive_contended :
    ∃ t : Sys (Fin 2) (Fin 1),
      runLabels step init [.acquire 0 0, .acquire 1 0, .xchg 0, .xchg 1, .setcpu 0] = some t ∧
      (∀ l c c', t.holds c l = true → t.holds c' l = true → c = c') ∧
      (∀ l, (t.locks l).locked = true ↔ ∃ c, t.holds c l = true) ∧
      (∀ c l, t.phase c = .idle → ∃ x, holding c (t.cpus c) (t.locks l) = .ok (t.holds c l, x)) ∧
      (∀ c l, t.phase c = .spin l → t.holds c l = false) := by
  obtain ⟨t, ht⟩ : ∃ t : Sys (Fin 2) (Fin 1),
      runLabels step init [.acquire 0 0, .acquire 1 0, .xchg 0, .xchg 1, .setcpu 0] = some t := ⟨_, rfl⟩
  exact ⟨t, ht, spinlock_exclusive (LockReachable.of_run _ (Reachable.init rfl) ht)⟩

theorem pushcli_depth {s : Sys C L} (hs : LockReachable s) :
    (∀ c, (s.phase c).live = true → (s.cpus c).ncli = s.depth c) ∧
    (∀ c, (s.phase c).live = true → 0 < (s.cpus c).ncli → (s.cpus c).FL_IF = false) ∧
    (∀ c m, s.phase c = .panicked m → m = "acquire" ∨ m = "release") := by
  have hi := inv_reachable hs
  exact ⟨hi.ncli, hi.intr, hi.panics⟩

theorem pushcli_depth_nested :
    ∃ t : Sys (Fin 2) (Fin 2),
      runLabels step init [.acquire 0 0, .xchg 0, .setcpu 0, .acquire 0 1, .acquire 1 1] = some t ∧
      (∀ c, (t.phase c).live = true → (t.cpus c).ncli = t.depth c) ∧
      (∀ c, (t.phase c).live = true → 0 < (t.cpus c).ncli → (t.cpus c).FL_IF = false) ∧
      (∀ c m, t.phase c = .panicked m → m = "acquire" ∨ m = "release") := by
  obtain ⟨t, ht⟩ : ∃ t : Sys (Fin 2) (Fin 2),
      runLabels step init [.acquire 0 0, .xchg 0, .setcpu 0, .acquire 0 1, .acquire 1 1] = some t :=
    ⟨_, rfl⟩
  exact ⟨t, ht, pushcli_depth (LockReachable.of_run _ (Reachable.init rfl) ht)⟩

/-! ## `pushcli` and `popcli` are matched -/

/-- Every step but the CPU's own `cli` and `sti` keeps what its interrupts
will be once its `pushcli`s are undone. -/
theorem outer_step {t : Sys C L} {e : Event C L} (hi : Inv s) (h : step s e = some t)
    (hcli : e ≠ .cli c) (hsti : e ≠ .sti c) : outer (t.cpus c) = outer (s.cpus c) := by
  cases e with
  | acquire c' l =>
    simp only [step] at h
    split at h
    · cases h
      rename_i hidle
      rw [hi.acquire_eq hidle]
      by_cases hc : c = c'
      · subst hc
        simpa using outer_pushcli (hi.ncli_nonneg (by simp [hidle, Phase.live]))
      · simp [Function.update_of_ne hc]
    · cases h
  | xchg c' =>
    simp only [step] at h
    split at h
    · cases h; unfold xchg; split <;> rfl
    · cases h
  | setcpu c' =>
    simp only [step] at h
    split at h
    · cases h; rfl
    · cases h
  | release c' l =>
    simp only [step] at h
    split at h
    · cases h
      rename_i hidle
      rw [hi.release_eq hidle]
      split
      · rfl
      · by_cases hc : c = c'
        · subst hc
          -- the `holding` check at depth 0 records the flag in `intena` and restores it
          by_cases hz : (s.cpus c).ncli = 0 <;> simp [outer, hz]
        · simp [Function.update_of_ne hc]
    · cases h
  | unlock c' =>
    simp only [step] at h
    split at h
    · cases h
      rename_i l hp
      rw [hi.unlock_eq hp]
      by_cases hc : c = c'
      · subst hc
        have hpos : 0 < (s.cpus c).ncli := by
          have := le_depth_of_holds (holds_of_unlock hp)
          rw [hi.ncli c (by simp [hp, Phase.live])]
          omega
        by_cases h1 : (s.cpus c).ncli = 1
        · simp [outer, h1]
        · have h2 : (s.cpus c).ncli - 1 ≠ 0 := by omega
          have h3 : (s.cpus c).ncli ≠ 0 := by omega
          simp [outer, h2, h3]
      · simp [Function.update_of_ne hc]
    · cases h
  | cli c' =>
    simp only [step] at h
    split at h
    · cases h
      have hc : c ≠ c' := fun hc => hcli (hc ▸ rfl)
      simp [Function.update_of_ne hc]
    · cases h
  | sti c' =>
    simp only [step] at h
    split at h
    · cases h
      have hc : c ≠ c' := fun hc => hsti (hc ▸ rfl)
      simp [Function.update_of_ne hc]
    · cases h


/-- `pushcli` and `popcli` are matched: over any run from a reachable state,
whatever the other CPUs do, in which CPU `c` does no `cli` or `sti` of its own,
if `c` has no `pushcli` outstanding at both ends, its interrupts are on at the
end exactly when they were at the start. -/
theorem intr_restored {s t : Sys C L} {c : C} {es : List (Event C L)} (hs : LockReachable s)
    (hrun : runLabels step s es = some t) (hc : ∀ e ∈ es, e ≠ .cli c ∧ e ≠ .sti c)
    (h₀ : (s.cpus c).ncli = 0) (h₁ : (t.cpus c).ncli = 0) : (t.cpus c).FL_IF = (s.cpus c).FL_IF := by
  -- the flag the outermost `pushcli` will restore stays put along the run
  have key : outer (t.cpus c) = outer (s.cpus c) :=
    runLabels_const (R := LockReachable) (P := fun e => e ≠ .cli c ∧ e ≠ .sti c)
      (q := fun s => outer (s.cpus c)) (fun _ e _ hs he => Reachable.step hs ⟨e, he⟩)
      (fun _ _ _ hs hP he => outer_step (inv_reachable hs) he hP.1 hP.2) es hs hrun hc
  simpa [outer, h₀, h₁] using key

theorem intr_restored_nested :
    ∃ s t : Sys (Fin 1) (Fin 2), runLabels step init [.sti 0] = some s ∧
      runLabels step s [.acquire 0 0, .xchg 0, .setcpu 0, .acquire 0 1, .xchg 0, .setcpu 0,
        .release 0 1, .unlock 0, .release 0 0, .unlock 0] = some t ∧
      (s.cpus 0).FL_IF = true ∧ (t.cpus 0).FL_IF = true := by
  obtain ⟨s, t, hs, ht, hs0, ht0, hsf⟩ : ∃ s t : Sys (Fin 1) (Fin 2), runLabels step init [.sti 0] = some s ∧
      runLabels step s [.acquire 0 0, .xchg 0, .setcpu 0, .acquire 0 1, .xchg 0, .setcpu 0,
        .release 0 1, .unlock 0, .release 0 0, .unlock 0] = some t ∧
      (s.cpus 0).ncli = 0 ∧ (t.cpus 0).ncli = 0 ∧ (s.cpus 0).FL_IF = true :=
    ⟨_, _, rfl, rfl, rfl, rfl, rfl⟩
  exact ⟨s, t, hs, ht, hsf,
    (intr_restored (LockReachable.of_run _ (Reachable.init rfl) hs) ht (by simp) hs0 ht0).trans hsf⟩

end Xv6.Lock
