/-
What a page directory maps, and what `growproc` does to it.

`pdeOf`, `pteAddr` and `pteOf` read a page directory the way the MMU does: the
directory entry for `va`, the address of its page-table entry when the
directory entry is present, and that entry. `present` says that a page is
mapped. `walkpgdir` without `alloc` computes `pteAddr` (`walkpgdir_run`).

`growproc(n)` with `n < 0` hands `sz + n` to `deallocuvm`, which returns it as
the new size, and `growproc` reads a new size of 0 as `deallocuvm`'s failure.
So a process that shrinks to nothing (`sbrk(-sz)`) is told the call failed and
keeps its `sz`, after `deallocuvm` has freed all its pages
(`growproc_shrink_to_zero`).
-/
import Xv6.Vm.Basic

set_option autoImplicit false

namespace Xv6.Vm

open ByteMem StateExcept

/-! ## Reading a page directory -/

/-- The directory entry for `va`. -/
def pdeOf (m : Mem) (pgdir va : UInt32) : UInt32 :=
  load32 m (V2P (pgdir + 4 * PDX va)).toNat

/-- The kernel address of `va`'s page-table entry, when its directory entry is
present. -/
def pteAddr (m : Mem) (pgdir va : UInt32) : Option UInt32 :=
  if pdeOf m pgdir va &&& PTE_P ≠ 0 then some (P2V (PTE_ADDR (pdeOf m pgdir va)) + 4 * PTX va)
  else none

/-- `va`'s page-table entry, when its directory entry is present. -/
def pteOf (m : Mem) (pgdir va : UInt32) : Option UInt32 :=
  (pteAddr m pgdir va).map fun a => load32 m (V2P a).toNat

/-- Page `va` is mapped. -/
def present (m : Mem) (pgdir va : UInt32) : Bool :=
  match pteOf m pgdir va with
  | some e => e &&& PTE_P != 0
  | none => false

@[simp] theorem V2P_P2V_add (a b : UInt32) : V2P (P2V a + b) = a + b := by
  simp only [V2P, P2V]
  grind

theorem toNat_PDX (va : UInt32) : (PDX va).toNat = va.toNat / 2 ^ 22 := by
  have h := va.toNat_lt
  rw [PDX, Word32.toNat_and_3ff, Word32.toNat_shiftRight _ (by decide)]
  simp only [PDXSHIFT, UInt32.reduceToNat]
  omega

theorem toNat_PTX (va : UInt32) : (PTX va).toNat = va.toNat / 2 ^ 12 % 2 ^ 10 := by
  rw [PTX, Word32.toNat_and_3ff, Word32.toNat_shiftRight _ (by decide)]
  rfl

/-- `walkpgdir` without `alloc` finds `pteAddr`, or 0, and changes nothing. -/
theorem walkpgdir_run {pgdir va : UInt32} (m : Machine) (hp : pgdir + 4 * PDX va ≠ 0) :
    (walkpgdir pgdir va false).run m = .ok ((pteAddr m.mem pgdir va).getD 0, m) := by
  by_cases hc : pdeOf m.mem pgdir va &&& PTE_P ≠ 0
  · simp only [pdeOf] at hc
    simp [walkpgdir, load, hp, pteAddr, pdeOf, hc]
    rfl
  · simp only [pdeOf, not_not] at hc
    simp [walkpgdir, load, hp, pteAddr, pdeOf, hc]
    rfl

/-! ## `growproc` -/

/-- Shrinking to size 0: `deallocuvm` runs to the end and returns 0, which
`growproc` takes for a failure. It reports -1 and keeps `sz`, but the machine is
the one `deallocuvm(pgdir, sz, 0)` leaves, with every page below `sz` freed. -/
theorem growproc_shrink_to_zero {p : proc} {n : Int32} (hn : n < 0) (hsz : p.sz + n.toUInt32 = 0)
    {m m' : Machine} {r : Int × proc} (h : Runs (growproc p n) m r m') :
    r = (-1, p) ∧ Runs (deallocuvm p.pgdir p.sz 0) m 0 m' := by
  have hpos : ¬n > 0 := fun h' => by
    rw [gt_iff_lt, Int32.lt_iff_toInt_lt] at h'
    rw [Int32.lt_iff_toInt_lt] at hn
    omega
  simp only [growproc, if_neg hpos, if_pos hn, hsz, runs_bind] at h
  obtain ⟨sz, m₁, hd, h⟩ := h
  -- `deallocuvm` returns its `newsz`, here 0, whenever it completes
  have hsz0 : sz = 0 := by
    simp only [deallocuvm, runs_bind, runs_ite, runs_pure] at hd
    rcases hd with ⟨hge, rfl, -⟩ | ⟨-, _, _, -, ⟨rfl, -⟩⟩
    · -- `newsz ≥ oldsz` with `newsz = 0`: the size was 0 already
      rw [← UInt32.toNat_inj]
      have := UInt32.le_iff_toNat_le.mp hge
      simp only [UInt32.toNat_zero] at this ⊢
      omega
    · rfl
  subst hsz0
  rw [if_pos rfl] at h
  obtain ⟨rfl, rfl⟩ := (runs_pure _ _ _ _).mp h
  exact ⟨rfl, hd⟩

/-- A process of one page, as `userinit` makes it: its page directory at
physical `0x300000` maps page 0 through the page table at `0x301000` to the
page at `0x302000`, and nothing else; the kernel's image ends at `0x200000`. -/
def onePage : Machine where
  mem := store32 (store32 (fun _ => 0) 0x300000 (0x301000 ||| 7)) 0x301000 (0x302000 ||| 7)
  freelist := 0
  kend := P2V 0x200000

/-- The process of `onePage`, with `sz = PGSIZE`. -/
def onePageProc : proc := ⟨PGSIZE, P2V 0x300000⟩

/-- The directory of `onePage`: the page table for the first 4 MB, and nothing else. -/
theorem pdeOf_onePage (va : UInt32) :
    pdeOf onePage.mem onePageProc.pgdir va = if va.toNat / 2 ^ 22 = 0 then 0x301000 ||| 7 else 0 := by
  have hd := toNat_PDX va
  have hv := va.toNat_lt
  have haddr : (0x300000 + 4 * PDX va).toNat = 0x300000 + 4 * (va.toNat / 2 ^ 22) := by
    simp only [UInt32.toNat_add, UInt32.toNat_mul, UInt32.reduceToNat, hd]
    omega
  simp only [pdeOf, onePageProc, V2P_P2V_add, haddr, onePage]
  rw [load32_store32_of_disjoint _ (by omega)]
  split_ifs with h0
  · rw [h0]
    exact load32_store32_self _ _
  · rw [load32_store32_of_disjoint _ (by omega)]
    rfl

/-- The user pages of `onePage` are page 0 alone. -/
theorem present_onePage {va : UInt32} (hva : va < KERNBASE) :
    present onePage.mem onePageProc.pgdir va = true ↔ va < PGSIZE := by
  have hv : va.toNat < 2 ^ 31 := UInt32.lt_iff_toNat_lt.mp hva
  have ht := toNat_PTX va
  have hlt : va < PGSIZE ↔ va.toNat < 4096 := UInt32.lt_iff_toNat_lt
  have hpde := pdeOf_onePage va
  by_cases h0 : va.toNat / 2 ^ 22 = 0
  · -- the entry: page 0's frame, and nothing for the other pages
    have haddr : (0x301000 + 4 * PTX va).toNat = 0x301000 + 4 * (va.toNat / 2 ^ 12) := by
      simp only [UInt32.toNat_add, UInt32.toNat_mul, UInt32.reduceToNat, ht]
      omega
    have hpa : pteAddr onePage.mem onePageProc.pgdir va = some (P2V 0x301000 + 4 * PTX va) := by
      rw [pteAddr, hpde, if_pos h0, if_pos (by decide : (0x301000 ||| 7 : UInt32) &&& PTE_P ≠ 0),
        show PTE_ADDR (0x301000 ||| 7) = 0x301000 by decide]
    have hpte : pteOf onePage.mem onePageProc.pgdir va =
        some (if va.toNat / 2 ^ 12 = 0 then 0x302000 ||| 7 else 0) := by
      rw [pteOf, hpa, Option.map_some, V2P_P2V_add, haddr]
      simp only [onePage]
      split_ifs with h1
      · rw [h1]
        exact congrArg some (load32_store32_self _ _)
      · rw [load32_store32_of_disjoint _ (by omega), load32_store32_of_disjoint _ (by omega)]
        rfl
    rw [present, hpte, hlt]
    split_ifs with h1
    · exact ⟨fun _ => by omega, fun _ => by decide⟩
    · exact ⟨fun h => absurd h (by decide), fun h => by omega⟩
  · have hnone : pteOf onePage.mem onePageProc.pgdir va = none := by
      rw [pteOf, pteAddr, hpde, if_neg h0, if_neg (by decide)]
      rfl
    rw [present, hnone, hlt]
    exact ⟨nofun, fun h => by omega⟩

/-- `sbrk(-4096)` by the process of `onePage`: page 0 is its only user page,
`growproc` returns -1 with `sz` still 4096, and yet `deallocuvm` has run: page 0
is unmapped and its frame is back on the free list. -/
theorem growproc_shrink_to_zero_one_page :
    (∀ va : UInt32, va < KERNBASE → (present onePage.mem onePageProc.pgdir va = true ↔ va < PGSIZE)) ∧
    ∃ m', Runs (growproc onePageProc (-4096)) onePage (-1, onePageProc) m' ∧
      Runs (deallocuvm onePageProc.pgdir PGSIZE 0) onePage 0 m' ∧
      present m'.mem onePageProc.pgdir 0 = false ∧ m'.freelist = P2V 0x302000 := by
  obtain ⟨m', hrun, hgone, hfree⟩ : ∃ m', Runs (growproc onePageProc (-4096)) onePage (-1, onePageProc) m' ∧
      present m'.mem onePageProc.pgdir 0 = false ∧ m'.freelist = P2V 0x302000 :=
    ⟨_, rfl, by decide, rfl⟩
  exact ⟨fun _ => present_onePage, m', hrun,
    (growproc_shrink_to_zero (by decide) (by decide) hrun).2, hgone, hfree⟩

end Xv6.Vm
