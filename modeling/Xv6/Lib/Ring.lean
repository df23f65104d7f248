/-
Ring buffers indexed by wrapping 32-bit counters, and the queues they hold.

A ring of `N` slots keeps the elements written and not yet taken in the slots
of a run of counter values: the value `n` stands in slot `n % N`. The counters
only count up and wrap at `2^32`. Where `N` divides `2^32`, the slot of `n + 1`
still follows the slot of `n` across the wrap, so a run of `len` counter
values from `start` on is `len` consecutive slots, and the queue the ring holds
is `window data start len`.

`window_push` and `window_pop` say what writing behind the run and taking its
front do to the queue. The counter lemmas say what the counters do: the length
of the run is the difference `end - start` taken mod `2^32`, and it grows and
shrinks by one as the two counters step.
-/
import Mathlib.Data.List.Basic
import Mathlib.Algebra.Order.Group.Nat
import Mathlib.Algebra.GroupWithZero.Nat

set_option autoImplicit false

namespace Ring

/-- The slot of counter value `n` in a ring of `N` slots. -/
def slot (N : Nat) [NeZero N] (n : Nat) : Fin N :=
  ⟨n % N, Nat.mod_lt _ (Nat.pos_of_ne_zero (NeZero.ne N))⟩

variable {α : Type} {N : Nat} [NeZero N]

/-- The `len` elements of the slots from counter value `start` on, oldest first. -/
def window (data : Fin N → α) (start : Nat) : Nat → List α
  | 0 => []
  | len + 1 => window data start len ++ [data (slot N (start + len))]

@[simp] theorem window_zero (data : Fin N → α) (start : Nat) : window data start 0 = [] := rfl

@[simp] theorem length_window (data : Fin N → α) (start len : Nat) :
    (window data start len).length = len := by
  induction len with
  | zero => rfl
  | succ len ih => simp [window, ih]

/-- Two windows whose slots hold the same elements are the same queue. -/
theorem window_congr {data data' : Fin N → α} {start start' len : Nat}
    (h : ∀ i < len, data (slot N (start + i)) = data' (slot N (start' + i))) :
    window data start len = window data' start' len := by
  induction len with
  | zero => rfl
  | succ len ih =>
    simp only [window]
    rw [ih fun i hi => h i (by omega), h len (by omega)]

theorem slot_congr {a b : Nat} (h : a % N = b % N) : slot N a = slot N b :=
  Fin.ext h

/-- Only the start's slot matters. -/
theorem window_mod {data : Fin N → α} {a b : Nat} (h : a % N = b % N) (len : Nat) :
    window data a len = window data b len :=
  window_congr fun i _ => congrArg data (slot_congr (by rw [Nat.add_mod, h, ← Nat.add_mod]))

/-- The slots of fewer than `N` consecutive counter values are distinct. -/
theorem slot_ne {start i len : Nat} (hi : i < len) (hlen : len < N) :
    slot N (start + i) ≠ slot N (start + len) := by
  intro h
  have h' : (start + i) % N = (start + len) % N := congrArg Fin.val h
  have := Nat.sub_mod_eq_zero_of_mod_eq h'.symm
  rw [show start + len - (start + i) = len - i by omega] at this
  have := Nat.le_of_dvd (by omega) (Nat.dvd_of_mod_eq_zero this)
  omega

/-- Writing the slot behind the run adds the element at the back of the queue. -/
theorem window_push {data : Fin N → α} {start len : Nat} (hlen : len < N) (b : α) :
    window (Function.update data (slot N (start + len)) b) start (len + 1) =
      window data start len ++ [b] := by
  simp only [window, Function.update_self]
  rw [window_congr fun i hi => Function.update_of_ne (slot_ne hi hlen) b data]

/-- Taking the front slot leaves the rest of the queue, from the next counter value. -/
theorem window_pop (data : Fin N → α) (start len : Nat) :
    window data start (len + 1) = data (slot N start) :: window data (start + 1) len := by
  induction len with
  | zero => simp [window]
  | succ len ih =>
    rw [window, ih, window, List.cons_append, Nat.add_right_comm start 1 len, Nat.add_assoc]

/-- A run splits at any point into two runs. -/
theorem window_append (data : Fin N → α) (start m k : Nat) :
    window data start (m + k) = window data start m ++ window data (start + m) k := by
  induction k with
  | zero => simp
  | succ k ih =>
    rw [← Nat.add_assoc, window, ih, window, List.append_assoc, Nat.add_assoc]

/-! ## The counters -/

section Counters

variable (hN : N ∣ 2 ^ 32)
include hN

omit [NeZero N] in
/-- The next counter value, across the wrap, stands in the next slot. -/
theorem toNat_succ_mod (n : UInt32) : (n + 1).toNat % N = (n.toNat + 1) % N := by
  rw [UInt32.toNat_add, UInt32.toNat_one, Nat.mod_mod_of_dvd _ hN]

/-- The run from `start` to `stop` ends in the slot of `stop`. -/
theorem slot_stop (start stop : UInt32) :
    slot N (start.toNat + (stop - start).toNat) = slot N stop.toNat := by
  refine slot_congr ?_
  have hs := UInt32.toNat_lt start
  have ht := UInt32.toNat_lt stop
  rw [UInt32.toNat_sub, Nat.add_mod, Nat.mod_mod_of_dvd _ hN, ← Nat.add_mod]
  rw [show start.toNat + (2 ^ 32 - start.toNat + stop.toNat) = stop.toNat + 2 ^ 32 by omega]
  rw [Nat.add_mod, Nat.mod_eq_zero_of_dvd hN, Nat.add_zero, Nat.mod_mod]

end Counters

/-- One more value written: the run grows by one. -/
theorem length_succ_stop {start stop : UInt32} (h : (stop - start).toNat + 1 < 2 ^ 32) :
    (stop + 1 - start).toNat = (stop - start).toNat + 1 := by
  have hs := UInt32.toNat_lt start
  have ht := UInt32.toNat_lt stop
  simp only [UInt32.toNat_sub, UInt32.toNat_add, UInt32.toNat_one] at h ⊢
  omega

/-- One value taken from a run that is not empty: it shrinks by one. -/
theorem length_succ_start {start stop : UInt32} (h : start ≠ stop) :
    (stop - (start + 1)).toNat + 1 = (stop - start).toNat := by
  have hs := UInt32.toNat_lt start
  have ht := UInt32.toNat_lt stop
  have hne : start.toNat ≠ stop.toNat := fun e => h (UInt32.toNat_inj.mp e)
  simp only [UInt32.toNat_sub, UInt32.toNat_add, UInt32.toNat_one]
  omega

/-- One value taken back from the end of a run that is not empty: it shrinks by one. -/
theorem length_pred_stop {start stop : UInt32} (h : start ≠ stop) :
    (stop - 1 - start).toNat + 1 = (stop - start).toNat := by
  have hs := UInt32.toNat_lt start
  have ht := UInt32.toNat_lt stop
  have hne : start.toNat ≠ stop.toNat := fun e => h (UInt32.toNat_inj.mp e)
  simp only [UInt32.toNat_sub, UInt32.toNat_one]
  omega

/-- A point inside a run splits its length. -/
theorem length_split {start mid stop : UInt32}
    (h : (mid - start).toNat ≤ (stop - start).toNat) :
    (stop - start).toNat = (mid - start).toNat + (stop - mid).toNat := by
  have hs := UInt32.toNat_lt start
  have hm := UInt32.toNat_lt mid
  have ht := UInt32.toNat_lt stop
  simp only [UInt32.toNat_sub] at h ⊢
  omega

/-- The run is empty exactly when the counters agree. -/
theorem length_eq_zero {start stop : UInt32} : (stop - start).toNat = 0 ↔ start = stop := by
  have hs := UInt32.toNat_lt start
  have ht := UInt32.toNat_lt stop
  rw [← UInt32.toNat_inj, UInt32.toNat_sub]
  omega

/-- The run has `k` elements exactly when `stop` is `k` past `start`. -/
theorem length_eq_iff {start stop : UInt32} {k : Nat} (hk : k < 2 ^ 32) :
    (stop - start).toNat = k ↔ stop = start + k.toUInt32 := by
  have hs := UInt32.toNat_lt start
  have ht := UInt32.toNat_lt stop
  rw [← UInt32.toNat_inj, UInt32.toNat_sub, UInt32.toNat_add, Nat.toUInt32_eq,
    UInt32.toNat_ofNat', Nat.mod_eq_of_lt hk]
  omega

end Ring
