/-
`string.c`'s `memmove` and `memcpy`, one byte at a time.

`memmove(dst, src, n)` copies `n` bytes with two 32-bit pointers. When `src`
lies below `dst` and the ranges overlap it copies backwards, from the top;
otherwise forwards. Memory is `ByteMem`'s, a byte at every address, and the
pointers step with wrapping arithmetic as C's do.

Provided neither range runs past `2^32`, both loops end in `ByteMem.memmove` of
the bytes the source held before the copy (`memmove_eq`): the destination holds
the old source bytes, and every byte outside it is as it was, whichever way the
ranges overlap (`memmove_copies`).

Each loop keeps one invariant: the part of the destination copied so far holds
the old source bytes, and nothing else has changed (`moveFwd_spec`,
`moveBack_spec`). It holds because no source byte is read after the loop has
overwritten it. Forwards, the source does not lie below the destination where
the ranges overlap, so each read is above every byte written so far. Backwards,
the source lies below the destination, so each read is below every byte
written so far. The two pointers of a loop may reach `2^32` after the last
byte, where they wrap to 0, so the invariant keeps their values mod `2^32`.
-/
import Xv6.Lib.ByteMem

set_option autoImplicit false

namespace Xv6.Str

open ByteMem (Mem read)

/-- `*d = *s`. -/
def copyByte (m : Mem) (d s : UInt32) : Mem := Function.update m d.toNat (m s.toNat)

/-- `while(n-- > 0) *d++ = *s++;` -/
def moveFwd (m : Mem) (s d : UInt32) : Nat → Mem
  | 0 => m
  | n + 1 => moveFwd (copyByte m d s) (s + 1) (d + 1) n

/-- `while(n-- > 0) *--d = *--s;` -/
def moveBack (m : Mem) (s d : UInt32) : Nat → Mem
  | 0 => m
  | n + 1 => moveBack (copyByte m (d - 1) (s - 1)) (s - 1) (d - 1) n

/-- `memmove(dst, src, n)`: the memory after it. It returns `dst`. -/
def memmove (m : Mem) (dst src n : UInt32) : Mem :=
  if src < dst ∧ src + n > dst then moveBack m (src + n) (dst + n) n.toNat
  else moveFwd m src dst n.toNat

/-- `memcpy(dst, src, n)` is `memmove`. -/
def memcpy (m : Mem) (dst src n : UInt32) : Mem := memmove m dst src n

/-! ## The two loops -/

theorem toNat_add_one (p : UInt32) : (p + 1).toNat = (p.toNat + 1) % 2 ^ 32 := by
  rw [UInt32.toNat_add]
  rfl

/-- One below a pointer that stands at `a + 1 ≤ 2^32`, mod `2^32`. -/
theorem toNat_sub_one {p : UInt32} {a : Nat} (hp : p.toNat = (a + 1) % 2 ^ 32) (ha : a < 2 ^ 32) :
    (p - 1).toNat = a := by
  have hp' := p.toNat_lt
  rw [UInt32.toNat_sub, hp]
  simp only [UInt32.reduceToNat]
  rcases Nat.lt_or_ge (a + 1) (2 ^ 32) with h | h
  · rw [Nat.mod_eq_of_lt h]
    omega
  · have h1 : a + 1 = 2 ^ 32 := by omega
    rw [h1, Nat.mod_self]
    omega

/-- **The forward loop.** After `k` of the `n` rounds, with the pointers `k`
past `src` and `dst`, the first `k` source bytes are at `dst`; the rounds left
copy the rest. No source byte read is one the loop has written. -/
theorem moveFwd_spec {m : Mem} {src dst : UInt32} {n : Nat} (hsrc : src.toNat + n ≤ 2 ^ 32)
    (hdst : dst.toNat + n ≤ 2 ^ 32) (hfwd : dst.toNat ≤ src.toNat ∨ src.toNat + n ≤ dst.toNat) :
    ∀ (rem k : Nat) (s d : UInt32), k + rem = n → s.toNat = (src.toNat + k) % 2 ^ 32 →
      d.toNat = (dst.toNat + k) % 2 ^ 32 →
      moveFwd (ByteMem.memmove m dst.toNat ((read m src.toNat n).take k)) s d rem =
        ByteMem.memmove m dst.toNat (read m src.toNat n) := by
  intro rem
  induction rem with
  | zero =>
    intro k s d hk _ _
    rw [Nat.add_zero] at hk
    subst hk
    rw [List.take_of_length_le (Nat.le_of_eq (ByteMem.length_read _ _))]
    rfl
  | succ r ih =>
    intro k s d hk hs hd
    -- the round's pointers do not wrap: byte `k` of each range is below `2^32`
    have hs' : s.toNat = src.toNat + k := by rw [hs, Nat.mod_eq_of_lt (by omega)]
    have hd' : d.toNat = dst.toNat + k := by rw [hd, Nat.mod_eq_of_lt (by omega)]
    have hlen : ((read m src.toNat n).take k).length = k := by
      rw [List.length_take, ByteMem.length_read]
      omega
    have hk : k < (read m src.toNat n).length := by
      rw [ByteMem.length_read]
      omega
    -- the byte read is still the source's
    have hread : ByteMem.memmove m dst.toNat ((read m src.toNat n).take k) s.toNat =
        (read m src.toNat n)[k] := by
      rw [ByteMem.memmove_of_not_mem _ (by omega), hs']
      simp [ByteMem.read]
    have hstep : copyByte (ByteMem.memmove m dst.toNat ((read m src.toNat n).take k)) d s =
        ByteMem.memmove m dst.toNat ((read m src.toNat n).take (k + 1)) := by
      rw [copyByte, hread, List.take_add_one, List.getElem?_eq_getElem, Option.toList_some,
        ByteMem.memmove_snoc, hlen, hd']
    rw [moveFwd, hstep]
    exact ih (k + 1) (s + 1) (d + 1) (by omega) (by rw [toNat_add_one, hs']; omega)
      (by rw [toNat_add_one, hd']; omega)

/-- **The backward loop.** With `rem` rounds left and the pointers `rem` past
`src` and `dst`, the source bytes from `rem` on are in place; the rounds left
copy those below. The source lies below the destination, so no source byte read
is one the loop has written. -/
theorem moveBack_spec {m : Mem} {src dst : UInt32} {n : Nat} (hdst : dst.toNat + n ≤ 2 ^ 32)
    (hback : src.toNat < dst.toNat) :
    ∀ rem, rem ≤ n → ∀ s d : UInt32, s.toNat = (src.toNat + rem) % 2 ^ 32 →
      d.toNat = (dst.toNat + rem) % 2 ^ 32 →
      moveBack (ByteMem.memmove m (dst.toNat + rem) ((read m src.toNat n).drop rem)) s d rem =
        ByteMem.memmove m dst.toNat (read m src.toNat n) := by
  intro rem
  induction rem with
  | zero =>
    intro _ s d _ _
    rfl
  | succ r ih =>
    intro hr s d hs hd
    have hs' : (s - 1).toNat = src.toNat + r := toNat_sub_one (by rw [hs, Nat.add_assoc]) (by omega)
    have hd' : (d - 1).toNat = dst.toNat + r := toNat_sub_one (by rw [hd, Nat.add_assoc]) (by omega)
    have hlt : r < (read m src.toNat n).length := by
      rw [ByteMem.length_read]
      omega
    -- the byte read lies below the part already copied
    have hread : ByteMem.memmove m (dst.toNat + (r + 1)) ((read m src.toNat n).drop (r + 1))
        (s - 1).toNat = (read m src.toNat n)[r] := by
      rw [ByteMem.memmove_of_not_mem _ (by omega), hs']
      simp [ByteMem.read]
    have hstep : copyByte (ByteMem.memmove m (dst.toNat + (r + 1)) ((read m src.toNat n).drop (r + 1)))
        (d - 1) (s - 1) = ByteMem.memmove m (dst.toNat + r) ((read m src.toNat n).drop r) := by
      rw [copyByte, hread, List.drop_eq_getElem_cons hlt, ByteMem.memmove_cons, hd', Nat.add_assoc]
    rw [moveBack, hstep]
    exact ih (by omega) (s - 1) (d - 1) (by rw [hs']; omega) (by rw [hd']; omega)

/-! ## `memmove` -/

/-- **`memmove` moves the old source bytes.** -/
theorem memmove_eq (m : Mem) {dst src n : UInt32} (hsrc : src.toNat + n.toNat ≤ 2 ^ 32)
    (hdst : dst.toNat + n.toNat ≤ 2 ^ 32) :
    memmove m dst src n = ByteMem.memmove m dst.toNat (read m src.toNat n.toNat) := by
  unfold memmove
  split
  · -- backwards: `src < dst`, and the ranges overlap
    rename_i h
    have hback : src.toNat < dst.toNat := UInt32.lt_iff_toNat_lt.mp h.1
    have hstart := moveBack_spec (m := m) hdst hback n.toNat (Nat.le_refl _) (src + n) (dst + n)
      (UInt32.toNat_add _ _) (UInt32.toNat_add _ _)
    rwa [List.drop_of_length_le (Nat.le_of_eq (ByteMem.length_read _ _)), ByteMem.memmove_nil] at hstart
  · -- forwards: the source is not below the destination, or the ranges are apart
    rename_i h
    have hfwd : dst.toNat ≤ src.toNat ∨ src.toNat + n.toNat ≤ dst.toNat := by
      rcases Nat.lt_or_ge src.toNat dst.toNat with hlt | hge
      · -- `src < dst`: then `src + n` does not wrap, and is not above `dst`
        have hsum : (src + n).toNat = src.toNat + n.toNat := by
          rw [UInt32.toNat_add, Nat.mod_eq_of_lt (by omega)]
        have hle : ¬dst.toNat < (src + n).toNat := fun h' =>
          h ⟨UInt32.lt_iff_toNat_lt.mpr hlt, UInt32.lt_iff_toNat_lt.mpr h'⟩
        exact .inr (by omega)
      · exact .inl hge
    have hstart := moveFwd_spec (m := m) hsrc hdst hfwd n.toNat 0 src dst (Nat.zero_add _)
      (by rw [Nat.add_zero, Nat.mod_eq_of_lt src.toNat_lt]) (by rw [Nat.add_zero, Nat.mod_eq_of_lt dst.toNat_lt])
    rwa [List.take_zero, ByteMem.memmove_nil] at hstart

/-- **`memmove` copies, whichever way the ranges overlap.** When neither
`[src, src+n)` nor `[dst, dst+n)` runs past `2^32`, the bytes at `[dst, dst+n)`
afterwards are those at `[src, src+n)` before, and every byte outside
`[dst, dst+n)` is unchanged. -/
theorem memmove_copies (m : Mem) {dst src n : UInt32} (hsrc : src.toNat + n.toNat ≤ 2 ^ 32)
    (hdst : dst.toNat + n.toNat ≤ 2 ^ 32) :
    (∀ i < n.toNat, memmove m dst src n (dst.toNat + i) = m (src.toNat + i)) ∧
      ∀ x, x < dst.toNat ∨ dst.toNat + n.toNat ≤ x → memmove m dst src n x = m x := by
  rw [memmove_eq m hsrc hdst]
  refine ⟨fun i hi => ?_, fun x hx => ?_⟩
  · rw [ByteMem.memmove_of_mem _ (by rw [ByteMem.length_read]; omega), Nat.add_sub_cancel_left,
      ByteMem.read_getD hi]
  · exact ByteMem.memmove_of_not_mem _ (by rw [ByteMem.length_read]; exact hx)

/-- `memmove(2, 0, 4)` over memory that holds each address's low byte: the
ranges overlap with the source below, and the bytes `0..3` land at `2..5`. -/
theorem memmove_copies_overlap :
    memmove (fun a => UInt8.ofNat a) 2 0 4 5 = 3 ∧ memmove (fun a => UInt8.ofNat a) 2 0 4 6 = 6 :=
  ⟨(memmove_copies _ (by decide) (by decide)).1 3 (by decide),
    (memmove_copies _ (by decide) (by decide)).2 6 (by decide)⟩

end Xv6.Str
