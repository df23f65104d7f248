/-
Sums over a finite table after one of its entries changes.

A table indexed by a finite type changes one entry at a step. A count over the
whole table then moves by what the old and the new entry count, and by nothing
else: the other terms stay. Every counting invariant of the development steps
this way. The sums are over any finite set of indices that holds the entry, and
take values in any commutative monoid, so that what is counted may be a number
or a multiset of the things the entries hold.
-/
import Mathlib.Algebra.BigOperators.Group.Finset.Basic
import Mathlib.Tactic.Abel

set_option autoImplicit false

namespace Function

/-- Updating entry `i` of a sum over a set that holds `i` changes it by that
entry's term alone. -/
theorem sum_update_add_of_mem {ι β M : Type} [DecidableEq ι] [AddCommMonoid M] {L : Finset ι}
    (g : β → M) (f : ι → β) {i : ι} (hi : i ∈ L) (o : β) :
    (∑ j ∈ L, g (Function.update f i o j)) + g (f i) = (∑ j ∈ L, g (f j)) + g o := by
  rw [← Finset.add_sum_erase _ _ hi, ← Finset.add_sum_erase _ _ hi]
  have hrest : ∑ j ∈ L.erase i, g (Function.update f i o j) = ∑ j ∈ L.erase i, g (f j) := by
    apply Finset.sum_congr rfl
    intro j hj
    rw [Function.update_of_ne (Finset.ne_of_mem_erase hj)]
  rw [hrest, Function.update_self]
  abel

/-- Updating entry `i` changes a sum over the table by that entry's term alone. -/
theorem sum_update_add {ι β : Type} [DecidableEq ι] [Fintype ι] (g : β → Nat) (f : ι → β) (i : ι)
    (o : β) : (∑ j, g (Function.update f i o j)) + g (f i) = (∑ j, g (f j)) + g o :=
  sum_update_add_of_mem g f (Finset.mem_univ i) o

end Function
