/-
`copyout`, and the null page-table entry `uva2ka` reads.

`uva2ka` asks `walkpgdir` for the entry of a user page without `alloc`, and
dereferences the answer. `walkpgdir` answers 0 when the page's directory entry
is not present, and `uva2ka` does not test for it: a page with no page table
makes `uva2ka`, and so `copyout`, dereference a null pointer
(`copyout_derefs_null`). Where the directory entry is present, `uva2ka` returns
the page's kernel address exactly when the entry is present and user-accessible,
and changes nothing (`uva2ka_run_some`).
-/
import Xv6.Vm.Uvm

set_option autoImplicit false

namespace Xv6.Vm

open ByteMem StateExcept

/-- No page table: `uva2ka` dereferences the 0 that `walkpgdir` returns. -/
theorem uva2ka_run_none {pgdir uva : UInt32} (m : Machine) (hp : pgdir + 4 * PDX uva ≠ 0)
    (hpde : pteAddr m.mem pgdir uva = none) :
    (uva2ka pgdir uva).run m = .error "null pointer dereference" := by
  have hw := walkpgdir_run m hp
  rw [hpde, Option.getD_none] at hw
  simp [uva2ka, StateT.run_bind, hw, load]
  rfl

/-- A page table: `uva2ka` returns the page's kernel address when its entry is
present and user-accessible, else 0, and changes nothing. -/
theorem uva2ka_run_some {pgdir uva a : UInt32} (m : Machine) (hp : pgdir + 4 * PDX uva ≠ 0)
    (hpde : pteAddr m.mem pgdir uva = some a) (ha : a ≠ 0) :
    (uva2ka pgdir uva).run m =
      .ok (if load32 m.mem (V2P a).toNat &&& PTE_P = 0 then 0
           else if load32 m.mem (V2P a).toNat &&& PTE_U = 0 then 0
           else P2V (PTE_ADDR (load32 m.mem (V2P a).toNat)), m) := by
  have hw := walkpgdir_run m hp
  rw [hpde, Option.getD_some] at hw
  simp only [uva2ka, StateT.run_bind, hw, ok_bind, load, ha, if_false, StateT.run_get,
    StateT.run_pure, pure_bind]
  split_ifs <;> rfl

/-- `copyout` of at least one byte to a page with no page table: its first round
makes `uva2ka` dereference a null pointer. -/
theorem copyout_derefs_null {m : Machine} {pgdir va : UInt32} {p : List UInt8} (hne : p ≠ [])
    (hp : pgdir + 4 * PDX (PGROUNDDOWN va) ≠ 0) (hpde : pteAddr m.mem pgdir (PGROUNDDOWN va) = none) :
    (copyout pgdir va p).run m = .error "null pointer dereference" := by
  have hlen : p.length ≠ 0 := fun h => hne (List.eq_nil_of_length_eq_zero h)
  simp only [copyout, copyoutLoop, hlen, if_false, StateT.run_bind, uva2ka_run_none m hp hpde]
  rfl

/-- The process of `onePage` has no page table for its second 4 MB: `copyout`
of one byte to `0x400000` dereferences a null pointer. -/
theorem copyout_derefs_null_hole :
    (copyout onePageProc.pgdir 0x400000 [0x41]).run onePage = .error "null pointer dereference" :=
  copyout_derefs_null (List.cons_ne_nil _ _) (by decide) (by decide)

end Xv6.Vm
