/-
System-call arguments, and the size bound that keeps their checks sound.

`fetchint`, `argptr` and `fetchstr` check a user address against the process's
size `sz` with 32-bit unsigned arithmetic: `addr+4 > sz`, `(uint)i+size > sz`.
Each sum could wrap past `2^32` and pass its check, and `argptr`'s `size` is an
`int` that becomes a large `uint` when it is negative. What rules the wrap out is
that every process is smaller than `KERNBASE = 2^31`: then `addr < sz` leaves
room for the 4 bytes of an int, and a `size` that passed `size < 0` is below
`2^31` as well.

That bound is an invariant of the process table. Every size a process takes
comes from `allocuvm`, which returns its `newsz` only below `KERNBASE`, or its
`oldsz`, or 0 (`allocuvm_result`); from `deallocuvm`, which never returns more
than `oldsz` (`deallocuvm_le`); or from a parent, by `fork`. `growproc` and the
size `exec` commits are built from these, so they keep the bound
(`growproc_sz_lt`, `execSize_lt`), and every reachable state has it
(`szOk_reachable`). Under it each fetch lands inside `[0, sz)`
(`fetchint_range`, `argptr_range`); `fetchstr` needs no bound, since a string of
`2^31` bytes or more gives a negative length, which its callers read as failure
(`fetchstr_range`).
-/
import Xv6.Vm.Basic
import Xv6.Lib.Reach

set_option autoImplicit false

namespace Xv6.Vm

open ByteMem StateExcept

/-! ## Unsigned sums that do not wrap -/

theorem toNat_add_of_lt {a b : UInt32} (h : a.toNat + b.toNat < 2 ^ 32) :
    (a + b).toNat = a.toNat + b.toNat := by
  rw [UInt32.toNat_add, Nat.mod_eq_of_lt h]

/-- A C `int` read as a `uint` and back: below `2^31` it is the same number,
above it the number less `2^32`. -/
theorem toInt_toInt32 (x : UInt32) :
    x.toInt32.toInt = if 2 * x.toNat < 2 ^ 32 then (x.toNat : Int) else x.toNat - 2 ^ 32 := by
  rw [← Int32.toInt_toBitVec, UInt32.toBitVec_toInt32, BitVec.toInt_eq_toNat_cond]
  rfl

/-- A size below `KERNBASE` is below `2^31`. -/
theorem toNat_lt_of_lt_KERNBASE {a : UInt32} (h : a < KERNBASE) : a.toNat < 2 ^ 31 :=
  UInt32.lt_iff_toNat_lt.mp h

/-- Rounding up a size below `KERNBASE` stays at or below it: `KERNBASE` is a
page boundary. -/
theorem PGROUNDUP_le {sz : UInt32} (h : sz < KERNBASE) : (PGROUNDUP sz).toNat ≤ 2 ^ 31 := by
  have hsz := toNat_lt_of_lt_KERNBASE h
  have hsum : (sz + PGSIZE - 1).toNat = sz.toNat + 4095 := by
    rw [show sz + PGSIZE - 1 = sz + 4095 by simp only [PGSIZE]; grind]
    exact toNat_add_of_lt (by simp only [UInt32.reduceToNat]; omega)
  rw [PGROUNDUP, show ~~~(PGSIZE - 1) = ~~~(0xFFF : UInt32) by decide, Word32.toNat_and_not_fff,
    hsum]
  omega

/-! ## The sizes `allocuvm` and `deallocuvm` return -/

/-- `allocuvm`'s loop returns `newsz` when it maps every page, and 0 when it
runs out of memory. -/
theorem allocuvmLoop_result {pgdir oldsz newsz a r : UInt32} {fuel : Nat} {m m' : Machine}
    (h : Runs (allocuvmLoop pgdir oldsz newsz fuel a) m r m') : r = newsz ∨ r = 0 := by
  induction fuel generalizing a m with
  | zero => exact .inl ((runs_pure _ _ _ _).mp h).1
  | succ n ih =>
    simp only [allocuvmLoop, runs_ite, runs_bind, runs_pure] at h
    -- kalloc fails, mappages fails, the next page, or the end of the loop
    rcases h with ⟨-, _, _, -, ⟨-, _, _, -, rfl, -⟩ |
      ⟨-, _, _, -, _, _, -, ⟨-, _, _, -, _, _, -, rfl, -⟩ | ⟨-, hrec⟩⟩⟩ | ⟨-, rfl, -⟩
    · exact .inr rfl
    · exact .inr rfl
    · exact ih hrec
    · exact .inl rfl

/-- `allocuvm` returns a size below `KERNBASE` (0 among them), or `oldsz` when
asked to shrink. -/
theorem allocuvm_result {pgdir oldsz newsz r : UInt32} {m m' : Machine}
    (h : Runs (allocuvm pgdir oldsz newsz) m r m') : r < KERNBASE ∨ (newsz < oldsz ∧ r = oldsz) := by
  simp only [allocuvm, runs_ite, runs_pure] at h
  rcases h with ⟨-, rfl, -⟩ | ⟨hk, ⟨hlt, rfl, -⟩ | ⟨-, hloop⟩⟩
  · exact .inl (by decide)
  · exact .inr ⟨hlt, rfl⟩
  · rcases allocuvmLoop_result hloop with rfl | rfl
    · exact .inl (UInt32.not_le.mp hk)
    · exact .inl (by decide)

/-- From a size below `KERNBASE`, `allocuvm` stays below it. -/
theorem allocuvm_lt {pgdir oldsz newsz r : UInt32} {m m' : Machine}
    (h : Runs (allocuvm pgdir oldsz newsz) m r m') (hold : oldsz < KERNBASE) : r < KERNBASE := by
  rcases allocuvm_result h with hr | ⟨-, rfl⟩
  · exact hr
  · exact hold

/-- `deallocuvm` never returns more than `oldsz`. -/
theorem deallocuvm_le {pgdir oldsz newsz r : UInt32} {m m' : Machine}
    (h : Runs (deallocuvm pgdir oldsz newsz) m r m') : r ≤ oldsz := by
  simp only [deallocuvm, runs_ite, runs_bind, runs_pure] at h
  rcases h with ⟨-, rfl, -⟩ | ⟨hlt, _, _, -, rfl, -⟩
  · exact UInt32.le_refl _
  · exact UInt32.le_of_lt (UInt32.not_le.mp hlt)

/-- `growproc` keeps a process below `KERNBASE`: it takes the size `allocuvm`
or `deallocuvm` returns, or keeps its own. -/
theorem growproc_sz_lt {p p' : proc} {n : Int32} {r : Int} {m m' : Machine}
    (h : Runs (growproc p n) m (r, p') m') (hp : p.sz < KERNBASE) : p'.sz < KERNBASE := by
  simp only [growproc, runs_ite, runs_bind, runs_pure, Prod.mk.injEq] at h
  rcases h with ⟨-, sz, _, hsz, ⟨-, ⟨-, rfl⟩, -⟩ | ⟨-, ⟨-, rfl⟩, -⟩⟩ |
    ⟨-, ⟨-, sz, _, hsz, ⟨-, ⟨-, rfl⟩, -⟩ | ⟨-, ⟨-, rfl⟩, -⟩⟩ | ⟨-, ⟨-, rfl⟩, -⟩⟩
  · exact hp
  · exact allocuvm_lt hsz hp
  · exact hp
  · exact UInt32.lt_of_le_of_lt (deallocuvm_le hsz) hp
  · exact hp

/-! ## The size `exec` commits -/

/-- What `exec` reads of a program header. -/
structure proghdr where
  type : UInt32
  off : UInt32
  vaddr : UInt32
  filesz : UInt32
  memsz : UInt32
  deriving DecidableEq, Repr

def ELF_PROG_LOAD : UInt32 := 1

/-- `exec`'s loop over the program headers `phs` read from the file, from size
`sz`: the size of the loaded image, or `none` where `exec` goes to `bad`.
`loaduvm addr off sz` loads a segment from the file, which this model does not
hold: any program of the machine may stand for it. -/
def execLoad (pgdir : UInt32) (loaduvm : UInt32 → UInt32 → UInt32 → VmM Int) :
    List proghdr → UInt32 → VmM (Option UInt32)
  | [], sz => return some sz
  | ph :: phs, sz => do
    if ph.type ≠ ELF_PROG_LOAD then return ← execLoad pgdir loaduvm phs sz
    if ph.memsz < ph.filesz then return none
    if ph.vaddr + ph.memsz < ph.vaddr then return none
    let sz ← allocuvm pgdir sz (ph.vaddr + ph.memsz)
    if sz = 0 then return none
    if ph.vaddr % PGSIZE ≠ 0 then return none
    if (← loaduvm ph.vaddr ph.off ph.filesz) < 0 then return none
    execLoad pgdir loaduvm phs sz

/-- The size `exec` gives the new image: the program's, then two pages at the
next page boundary, a guard page and the user stack; `none` where it goes to
`bad`. -/
def execSize (pgdir : UInt32) (loaduvm : UInt32 → UInt32 → UInt32 → VmM Int)
    (phs : List proghdr) : VmM (Option UInt32) := do
  let some sz ← execLoad pgdir loaduvm phs 0 | return none
  let sz := PGROUNDUP sz
  let sz ← allocuvm pgdir sz (sz + 2 * PGSIZE)
  if sz = 0 then return none
  return some sz

/-- Each segment's `allocuvm` keeps the image below `KERNBASE`. -/
theorem execLoad_lt {pgdir : UInt32} {loaduvm : UInt32 → UInt32 → UInt32 → VmM Int}
    {phs : List proghdr} {sz sz' : UInt32} {m m' : Machine}
    (h : Runs (execLoad pgdir loaduvm phs sz) m (some sz') m') (hsz : sz < KERNBASE) :
    sz' < KERNBASE := by
  induction phs generalizing sz m with
  | nil =>
    simp only [execLoad, runs_pure, Option.some.injEq] at h
    rw [h.1]
    exact hsz
  | cons ph phs ih =>
    simp only [execLoad, runs_ite, runs_bind, runs_pure, reduceCtorEq, false_and,
      and_false, false_or] at h
    -- a header that is not loaded, or one whose segment is allocated and loaded
    rcases h with ⟨-, hrec⟩ | ⟨-, -, -, sz₁, _, halloc, -, -, _, _, -, -, hrec⟩
    · exact ih hrec hsz
    · exact ih hrec (allocuvm_lt halloc hsz)

/-- **`exec` commits a size below `KERNBASE`.** The image is below it; rounded
up to a page it is at most `KERNBASE`, so adding the two pages cannot wrap, and
`allocuvm` returns 0 unless the sum is below `KERNBASE`. -/
theorem execSize_lt {pgdir : UInt32} {loaduvm : UInt32 → UInt32 → UInt32 → VmM Int}
    {phs : List proghdr} {sz : UInt32} {m m' : Machine}
    (h : Runs (execSize pgdir loaduvm phs) m (some sz) m') : sz < KERNBASE := by
  simp only [execSize, runs_bind] at h
  obtain ⟨img, m₁, hload, h⟩ := h
  cases img with
  | none => simp at h
  | some sz₀ =>
    have h₀ : sz₀ < KERNBASE := execLoad_lt hload (by decide)
    have hup := PGROUNDUP_le h₀
    simp only [runs_bind, runs_ite, runs_pure, reduceCtorEq, false_and, Option.some.injEq,
      and_false, false_or] at h
    obtain ⟨sz₁, _, halloc, -, rfl, -⟩ := h
    rcases allocuvm_result halloc with hlt | ⟨hwrap, -⟩
    · exact hlt
    · -- the two pages fit below `2^32`, so the sum is not below its first term
      have hsum : (PGROUNDUP sz₀ + 2 * PGSIZE).toNat = (PGROUNDUP sz₀).toNat + 8192 :=
        toNat_add_of_lt (by simp only [PGSIZE, UInt32.reduceMul, UInt32.reduceToNat]; omega)
      have := UInt32.lt_iff_toNat_lt.mp hwrap
      omega

/-! ## The process table

The sizes of the processes, over the machine. A step is a system call that sets
a size (`sbrk`, `exec`, `fork`), the slot of an exited process freed, or
anything that changes memory alone. `exec` and `fork` change memory in ways
this model does not follow (the new stack's contents, `copyuvm`, `freevm`), so
after them, and in a step of memory alone, the machine may be any. -/

section Table

variable {ι : Type} [DecidableEq ι]

/-- The machine, and the process in each slot of the table, if any. -/
structure Sys (ι : Type) where
  m : Machine
  procs : ι → Option proc

/-- `userinit`: the first process, in slot `i₀`, of one page. -/
def init (m : Machine) (i₀ : ι) (pgdir : UInt32) : Sys ι :=
  ⟨m, Function.update (fun _ => none) i₀ (some ⟨PGSIZE, pgdir⟩)⟩

/-- The steps of the table. -/
inductive Next : Sys ι → Sys ι → Prop
  /-- `sbrk(n)` by the process in slot `i`: `growproc(n)`, on the machine. -/
  | growproc {s : Sys ι} {i : ι} {p p' : proc} {n : Int32} {r : Int} {m' : Machine} :
      s.procs i = some p → Runs (growproc p n) s.m (r, p') m' →
      Next s ⟨m', Function.update s.procs i (some p')⟩
  /-- `exec` by the process in slot `i` commits the new page directory, with
  the size `execSize` found for it. -/
  | exec {s : Sys ι} {i : ι} {p : proc} {pgdir : UInt32}
      {loaduvm : UInt32 → UInt32 → UInt32 → VmM Int} {phs : List proghdr} {sz : UInt32}
      {m' m'' : Machine} :
      s.procs i = some p → Runs (execSize pgdir loaduvm phs) s.m (some sz) m' →
      Next s ⟨m'', Function.update s.procs i (some { p with sz := sz, pgdir := pgdir })⟩
  /-- `fork` by the process in slot `i` into the unused slot `j`:
  `np->sz = curproc->sz`, with the page directory `copyuvm` made. -/
  | fork {s : Sys ι} {i j : ι} {p : proc} {pgdir : UInt32} {m' : Machine} :
      s.procs i = some p → s.procs j = none →
      Next s ⟨m', Function.update s.procs j (some ⟨p.sz, pgdir⟩)⟩
  /-- `wait` frees the slot of an exited child. -/
  | reap {s : Sys ι} {i : ι} {m' : Machine} : Next s ⟨m', Function.update s.procs i none⟩
  /-- A step of memory alone: a failed `exec` or `fork`, a copy to user space. -/
  | other {s : Sys ι} {m' : Machine} : Next s ⟨m', s.procs⟩

/-- The states reached from `userinit`'s. -/
def Reachable (s : Sys ι) : Prop :=
  TransitionSystem.Reachable (fun s => ∃ m i₀ pgdir, s = init m i₀ pgdir) Next s

/-- Every process is below `KERNBASE`. -/
def SzOk (s : Sys ι) : Prop := ∀ i p, s.procs i = some p → p.sz < KERNBASE

theorem szOk_init (m : Machine) (i₀ : ι) (pgdir : UInt32) : SzOk (init m i₀ pgdir) := by
  intro i p hp
  by_cases hi : i = i₀
  · subst hi
    simp only [init, Function.update_self, Option.some.injEq] at hp
    rw [← hp]
    exact (by decide : PGSIZE < KERNBASE)
  · simp [init, Function.update_of_ne hi] at hp

/-- Setting one slot to a process below `KERNBASE`, or emptying it, keeps the
bound. -/
theorem SzOk.update {s : Sys ι} (h : SzOk s) (m' : Machine) (i : ι) {q : Option proc}
    (hq : ∀ p, q = some p → p.sz < KERNBASE) : SzOk ⟨m', Function.update s.procs i q⟩ := by
  intro j p hp
  dsimp only at hp
  by_cases hj : j = i
  · subst hj
    rw [Function.update_self] at hp
    exact hq p hp
  · rw [Function.update_of_ne hj] at hp
    exact h j p hp

/-- One step keeps every process below `KERNBASE`. -/
theorem SzOk.next {s t : Sys ι} (h : SzOk s) (hn : Next s t) : SzOk t := by
  cases hn with
  | growproc hp hrun =>
    apply h.update
    rintro _ ⟨⟩
    exact growproc_sz_lt hrun (h _ _ hp)
  | exec _ hrun =>
    apply h.update
    rintro _ ⟨⟩
    exact execSize_lt hrun
  | fork hp _ =>
    apply h.update
    rintro _ ⟨⟩
    dsimp only
    exact h _ _ hp
  | reap =>
    apply h.update
    rintro _ ⟨⟩
  | other => exact h

/-- **Every reachable process is below `KERNBASE`.** -/
theorem szOk_reachable {s : Sys ι} (hs : Reachable s) : SzOk s := by
  apply TransitionSystem.invariant _ _ hs
  · rintro _ ⟨m, i₀, pgdir, rfl⟩
    exact szOk_init m i₀ pgdir
  · intro s t _ hi hn
    exact hi.next hn

end Table

/-! ## `syscall.c`: fetching the arguments -/

/-- What a system call reads of the process that made it: `curproc->sz`, the
user stack pointer `tf->esp`, and its memory, at user addresses. -/
structure caller where
  sz : UInt32
  esp : UInt32
  umem : Mem

/-- `fetchint(addr, ip)`: the int at `addr`, or `none` where it returns -1. -/
def fetchint (c : caller) (addr : UInt32) : Option Int32 :=
  if addr ≥ c.sz ∨ addr + 4 > c.sz then none
  else some (load32 c.umem addr.toNat).toInt32

/-- `fetchstr`'s scan from `s` up to `ep` for the first NUL, for `fuel` rounds:
its distance from `addr`, as an `int`, or -1. -/
def fetchstrLoop (umem : Mem) (addr ep : UInt32) : Nat → UInt32 → Int32
  | 0, _ => -1
  | fuel + 1, s =>
    if s < ep then
      if umem s.toNat = 0 then (s - addr).toInt32 else fetchstrLoop umem addr ep fuel (s + 1)
    else -1

/-- `fetchstr(addr, pp)`: the length of the string at `addr`, or -1; `*pp` is
`addr`. The loop makes one round per byte from `addr` up to `sz`. -/
def fetchstr (c : caller) (addr : UInt32) : Int32 :=
  if addr ≥ c.sz then -1
  else fetchstrLoop c.umem addr c.sz (c.sz - addr).toNat addr

/-- `argint(n, ip)`: the `n`th argument word on the user stack. -/
def argint (c : caller) (n : Int32) : Option Int32 :=
  fetchint c (c.esp + 4 + (4 * n).toUInt32)

/-- `argptr(n, pp, size)`: the `n`th argument, as a pointer to `size` bytes. -/
def argptr (c : caller) (n size : Int32) : Option UInt32 := do
  let i ← argint c n
  if size < 0 ∨ i.toUInt32 ≥ c.sz ∨ i.toUInt32 + size.toUInt32 > c.sz then none
  else some i.toUInt32

/-- `argstr(n, pp)`: the `n`th argument as a string pointer, with `fetchstr`'s
result for it; `none` where `argint` fails and `argstr` returns -1 at once. -/
def argstr (c : caller) (n : Int32) : Option (UInt32 × Int32) := do
  let addr ← argint c n
  return (addr.toUInt32, fetchstr c addr.toUInt32)

/-- `L`, unless it is negative, is the length of a string at `addr` inside a
memory of size `sz`: `[addr, addr + L]` is below `sz`, and the byte at
`addr + L` is the first NUL from `addr`. -/
def StrIn (sz : UInt32) (umem : Mem) (addr : UInt32) (L : Int32) : Prop :=
  0 ≤ L.toInt → addr.toNat + L.toInt.toNat < sz.toNat ∧ umem (addr.toNat + L.toInt.toNat) = 0 ∧
    ∀ k < L.toInt.toNat, umem (addr.toNat + k) ≠ 0

theorem strIn_minus_one (sz : UInt32) (umem : Mem) (addr : UInt32) : StrIn sz umem addr (-1) := by
  intro h
  exact absurd h (by decide)

/-- A distance that reads as a non-negative `int` is the distance itself. -/
theorem toNat_toInt_toInt32 {x : UInt32} (h : 0 ≤ x.toInt32.toInt) :
    x.toInt32.toInt.toNat = x.toNat := by
  have := x.toNat_lt
  rw [toInt_toInt32] at h ⊢
  split_ifs at h ⊢ <;> omega

/-- The scan from `s`, with no NUL between `addr` and `s`, finds the first NUL
below `ep`, and only that. The induction is on the rounds left, `ep - s`. -/
theorem fetchstrLoop_strIn {umem : Mem} {addr ep : UInt32} {fuel : Nat} {s : UInt32}
    (hs : addr.toNat ≤ s.toNat) (hfuel : s.toNat + fuel = ep.toNat)
    (hnz : ∀ k, addr.toNat + k < s.toNat → umem (addr.toNat + k) ≠ 0) :
    StrIn ep umem addr (fetchstrLoop umem addr ep fuel s) := by
  induction fuel generalizing s with
  | zero => exact strIn_minus_one _ _ _
  | succ n ih =>
    have hlt : s < ep := UInt32.lt_iff_toNat_lt.mpr (by omega)
    rw [fetchstrLoop, if_pos hlt]
    by_cases hz : umem s.toNat = 0
    · -- the first NUL: the length is `s - addr`
      rw [if_pos hz]
      intro h0
      have hsub : (s - addr).toNat = s.toNat - addr.toNat :=
        UInt32.toNat_sub_of_le s addr (UInt32.le_iff_toNat_le.mpr hs)
      rw [toNat_toInt_toInt32 h0, hsub, Nat.add_sub_cancel' hs]
      refine ⟨UInt32.lt_iff_toNat_lt.mp hlt, hz, fun k hk => hnz k (by omega)⟩
    · rw [if_neg hz]
      have hsucc : (s + 1).toNat = s.toNat + 1 :=
        toNat_add_of_lt (by have := ep.toNat_lt; simp only [UInt32.reduceToNat]; omega)
      apply ih (by omega) (by omega)
      intro k hk
      by_cases hks : addr.toNat + k = s.toNat
      · rw [hks]
        exact hz
      · exact hnz k (by omega)

/-- **`fetchstr` gives a length only for a string inside the caller.** No bound
on `sz` is needed: a string of `2^31` bytes or more has a negative length. -/
theorem fetchstr_range (c : caller) (addr : UInt32) : StrIn c.sz c.umem addr (fetchstr c addr) := by
  unfold fetchstr
  split_ifs with h
  · exact strIn_minus_one _ _ _
  · have hlt := UInt32.lt_iff_toNat_lt.mp (UInt32.not_le.mp h)
    have hsub : (c.sz - addr).toNat = c.sz.toNat - addr.toNat :=
      UInt32.toNat_sub_of_le _ _ (UInt32.le_of_lt (UInt32.not_le.mp h))
    exact fetchstrLoop_strIn (Nat.le_refl _) (by omega) (fun k hk => absurd hk (by omega))

/-- `argstr` gives `fetchstr`'s result at the address it fetched. -/
theorem argstr_range {c : caller} {n : Int32} {addr : UInt32} {L : Int32}
    (h : argstr c n = some (addr, L)) : StrIn c.sz c.umem addr L := by
  simp only [argstr, bind, Option.bind_eq_some_iff, pure, Option.some.injEq, Prod.mk.injEq] at h
  obtain ⟨_, -, rfl, rfl⟩ := h
  exact fetchstr_range c _

/-- `fetchint` of a process below `KERNBASE` reads 4 bytes below its `sz`. -/
theorem fetchint_range {c : caller} {addr : UInt32} {v : Int32} (hsz : c.sz < KERNBASE)
    (h : fetchint c addr = some v) :
    addr.toNat + 4 ≤ c.sz.toNat ∧ v = (load32 c.umem addr.toNat).toInt32 := by
  unfold fetchint at h
  split_ifs at h with hchk
  rw [not_or, UInt32.not_le, UInt32.not_lt] at hchk
  have hs := toNat_lt_of_lt_KERNBASE hsz
  have ha := UInt32.lt_iff_toNat_lt.mp hchk.1
  -- `addr < sz < 2^31`: the sum `addr + 4` does not wrap
  have hsum : (addr + 4).toNat = addr.toNat + 4 :=
    toNat_add_of_lt (by simp only [UInt32.reduceToNat]; omega)
  have h4 := UInt32.le_iff_toNat_le.mp hchk.2
  exact ⟨by omega, (Option.some.inj h).symm⟩

/-- `argptr` of a process below `KERNBASE` gives a range below its `sz`, of a
size that is not negative. -/
theorem argptr_range {c : caller} {n size : Int32} {ptr : UInt32} (hsz : c.sz < KERNBASE)
    (h : argptr c n size = some ptr) :
    0 ≤ size.toInt ∧ ptr.toNat < c.sz.toNat ∧ ptr.toNat + size.toInt.toNat ≤ c.sz.toNat := by
  simp only [argptr, bind, Option.bind_eq_some_iff] at h
  obtain ⟨i, -, h⟩ := h
  split_ifs at h with hchk
  cases h
  rw [not_or, not_or, UInt32.not_le, UInt32.not_lt] at hchk
  obtain ⟨hneg, hi, hend⟩ := hchk
  have hs := toNat_lt_of_lt_KERNBASE hsz
  have hsize : 0 ≤ size.toInt := by
    rw [Int32.lt_iff_toInt_lt, Int32.toInt_zero] at hneg
    omega
  -- a size that is not negative is below `2^31` as a `uint` too
  have hsz' : size.toUInt32.toNat = size.toInt.toNat :=
    Int32.toNat_toUInt32_of_le (Int32.le_iff_toInt_le.mpr (by rw [Int32.toInt_zero]; exact hsize))
  have hmax := size.toInt_lt
  have hi' := UInt32.lt_iff_toNat_lt.mp hi
  have hsum : (i.toUInt32 + size.toUInt32).toNat = i.toUInt32.toNat + size.toInt.toNat :=
    by rw [toNat_add_of_lt (by omega), hsz']
  have hend' := UInt32.le_iff_toNat_le.mp hend
  exact ⟨hsize, hi', by omega⟩

-- Without the bound the sum can wrap: a caller of size `2^32 - 1` whose first
-- argument word is `0xFFFFFF00` passes `argptr` with 512 bytes, which run past `2^32`.
example : argptr ⟨0xFFFFFFFF, 0, store32 (fun _ => 0) 4 0xFFFFFF00⟩ 0 512 = some 0xFFFFFF00 := by
  decide

/-! ## Arguments of a reachable process -/

section Reachable

variable {ι : Type} [DecidableEq ι]

/-- **System-call arguments stay inside the caller.** In every reachable state
every process is below `KERNBASE`; and whatever its stack pointer and memory,
`fetchint` (so `argint`) succeeds only on 4 bytes below its `sz`, `argptr` only
on a range below `sz` of a size that is not negative, and `fetchstr` and
`argstr` give a length only for a string whose first NUL is below `sz`. -/
theorem syscall_args_in_range {s : Sys ι} (hs : Reachable s) {i : ι} {p : proc}
    (hp : s.procs i = some p) :
    p.sz < KERNBASE ∧ ∀ c : caller, c.sz = p.sz →
      (∀ addr v, fetchint c addr = some v → addr.toNat + 4 ≤ c.sz.toNat) ∧
      (∀ n size ptr, argptr c n size = some ptr →
        0 ≤ size.toInt ∧ ptr.toNat < c.sz.toNat ∧ ptr.toNat + size.toInt.toNat ≤ c.sz.toNat) ∧
      (∀ addr, StrIn c.sz c.umem addr (fetchstr c addr)) ∧
      (∀ n addr L, argstr c n = some (addr, L) → StrIn c.sz c.umem addr L) := by
  have hp' : p.sz < KERNBASE := szOk_reachable hs i p hp
  refine ⟨hp', fun c hc => ?_⟩
  have hsz : c.sz < KERNBASE := hc ▸ hp'
  refine ⟨fun addr v h => (fetchint_range hsz h).1, fun n size ptr h => argptr_range hsz h,
    fetchstr_range c, fun n addr L h => argstr_range h⟩

end Reachable

/-- Two free pages, at physical `0x100000` and `0x101000`, the first linked to
the second, and an empty page directory at physical `0x200000`. -/
def twoFree : Machine := ⟨store32 (fun _ => 0) 0x100000 0x80101000, 0x80100000, 0⟩

/-- After `sbrk(4096)` by the first process, which `growproc` serves from the
two free pages (one for the page, one for its page table): the process has two
pages, and every argument it passes lies in them. -/
theorem syscall_args_in_range_sbrk :
    ∃ (s : Sys (Fin 1)) (p : proc), Reachable s ∧ s.procs 0 = some p ∧ p.sz = 2 * PGSIZE ∧
      p.sz < KERNBASE ∧ ∀ c : caller, c.sz = p.sz →
        (∀ addr v, fetchint c addr = some v → addr.toNat + 4 ≤ c.sz.toNat) ∧
        (∀ n size ptr, argptr c n size = some ptr →
          0 ≤ size.toInt ∧ ptr.toNat < c.sz.toNat ∧ ptr.toNat + size.toInt.toNat ≤ c.sz.toNat) ∧
        (∀ addr, StrIn c.sz c.umem addr (fetchstr c addr)) ∧
        (∀ n addr L, argstr c n = some (addr, L) → StrIn c.sz c.umem addr L) := by
  obtain ⟨m', hrun⟩ : ∃ m', Runs (growproc ⟨PGSIZE, 0x80200000⟩ 4096) twoFree
      (0, ⟨2 * PGSIZE, 0x80200000⟩) m' := ⟨_, rfl⟩
  have hs : Reachable (⟨m', Function.update (init twoFree (0 : Fin 1) 0x80200000).procs 0
      (some ⟨2 * PGSIZE, 0x80200000⟩)⟩ : Sys (Fin 1)) :=
    .step (.init ⟨_, _, _, rfl⟩) (.growproc rfl hrun)
  exact ⟨_, _, hs, rfl, rfl, syscall_args_in_range hs (i := 0) rfl⟩

end Xv6.Vm
