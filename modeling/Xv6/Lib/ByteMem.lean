/-
Byte-addressed memory, and the 32-bit little-endian words stored in it.

A memory is a function from addresses to bytes. `load32` and `store32` read and
write the four bytes of a word, least significant first, as an x86 load and
store do; `memset` and `memmove` fill and copy ranges of bytes, as their C
namesakes do. Each is a closed-form function of the memory before it, so a
memory reached by a few calls is evaluated address by address, however long the
ranges the calls wrote.

The lemmas say which bytes each operation changes: a load after a store to the
same word returns what was stored, and a load or a byte outside the written
range sees the memory before.
-/
import Mathlib.Data.List.GetD
import Mathlib.Logic.Function.Basic
import Mathlib.Algebra.Group.Nat.Defs

set_option autoImplicit false

namespace ByteMem

/-- Memory: a byte at every address. -/
abbrev Mem := Nat → UInt8

/-- The word at `a`, least significant byte first. -/
def load32 (m : Mem) (a : Nat) : UInt32 :=
  UInt32.ofNat ((m a).toNat + 2 ^ 8 * (m (a + 1)).toNat + 2 ^ 16 * (m (a + 2)).toNat +
    2 ^ 24 * (m (a + 3)).toNat)

/-- Store the word `v` at `a`, least significant byte first. -/
def store32 (m : Mem) (a : Nat) (v : UInt32) : Mem := fun x =>
  if x = a then UInt8.ofNat v.toNat
  else if x = a + 1 then UInt8.ofNat (v.toNat / 2 ^ 8)
  else if x = a + 2 then UInt8.ofNat (v.toNat / 2 ^ 16)
  else if x = a + 3 then UInt8.ofNat (v.toNat / 2 ^ 24)
  else m x

/-- The four bytes of the word `v` in memory order, as `store32` writes them. -/
def bytes32 (v : UInt32) : List UInt8 :=
  [UInt8.ofNat v.toNat, UInt8.ofNat (v.toNat / 2 ^ 8), UInt8.ofNat (v.toNat / 2 ^ 16),
    UInt8.ofNat (v.toNat / 2 ^ 24)]

/-- The 16-bit word at `a`, least significant byte first. -/
def load16 (m : Mem) (a : Nat) : UInt16 := UInt16.ofNat ((m a).toNat + 2 ^ 8 * (m (a + 1)).toNat)

/-- The two bytes of the 16-bit word `v` in memory order, as `store16` writes them. -/
def bytes16 (v : UInt16) : List UInt8 := [UInt8.ofNat v.toNat, UInt8.ofNat (v.toNat / 2 ^ 8)]

/-- Store the 16-bit word `v` at `a`, least significant byte first. -/
def store16 (m : Mem) (a : Nat) (v : UInt16) : Mem := fun x =>
  if x = a then UInt8.ofNat v.toNat
  else if x = a + 1 then UInt8.ofNat (v.toNat / 2 ^ 8)
  else m x

/-- `memset(a, c, n)`. -/
def memset (m : Mem) (a n : Nat) (c : UInt8) : Mem := fun x =>
  if a ≤ x ∧ x < a + n then c else m x

/-- `memmove(a, src, src.length)`: the bytes `src` at `a`. -/
def memmove (m : Mem) (a : Nat) (src : List UInt8) : Mem := fun x =>
  if a ≤ x ∧ x < a + src.length then src.getD (x - a) 0 else m x

/-- The `n` bytes from `a`. -/
def read (m : Mem) (a n : Nat) : List UInt8 :=
  (List.range n).map fun i => m (a + i)

variable {m : Mem}

/-! ## Words -/

/-- A word is its four bytes. -/
theorem load32_congr {m' : Mem} {a b : Nat} (h : ∀ i < 4, m (a + i) = m' (b + i)) :
    load32 m a = load32 m' b := by
  simp only [load32]
  rw [show m a = m' b by simpa using h 0 (by omega), h 1 (by omega), h 2 (by omega),
    h 3 (by omega)]

theorem load32_store32_self (a : Nat) (v : UInt32) : load32 (store32 m a v) a = v := by
  have hv := v.toNat_lt
  apply UInt32.toNat_inj.mp
  simp [load32, store32, UInt32.toNat_ofNat]
  omega

/-- A store changes its own four bytes and no other. -/
theorem store32_of_not_mem {a x : Nat} (v : UInt32) (h : x < a ∨ a + 4 ≤ x) :
    store32 m a v x = m x := by
  simp only [store32]
  rw [if_neg (by omega), if_neg (by omega), if_neg (by omega), if_neg (by omega)]

theorem load32_store32_of_disjoint {a b : Nat} (v : UInt32) (h : b + 4 ≤ a ∨ a + 4 ≤ b) :
    load32 (store32 m a v) b = load32 m b :=
  load32_congr fun i _ => store32_of_not_mem v (by omega)

theorem store16_of_not_mem {a x : Nat} (v : UInt16) (h : x < a ∨ a + 2 ≤ x) :
    store16 m a v x = m x := by
  simp only [store16]
  rw [if_neg (by omega), if_neg (by omega)]

/-! ## Ranges -/

theorem memset_of_not_mem {a n x : Nat} (c : UInt8) (h : x < a ∨ a + n ≤ x) :
    memset m a n c x = m x := by
  simp only [memset]
  rw [if_neg (by omega)]

theorem memset_of_mem {a n x : Nat} (c : UInt8) (h : a ≤ x ∧ x < a + n) : memset m a n c x = c := by
  simp [memset, h]

theorem memmove_of_not_mem {a x : Nat} (src : List UInt8) (h : x < a ∨ a + src.length ≤ x) :
    memmove m a src x = m x := by
  simp only [memmove]
  rw [if_neg (by omega)]

theorem memmove_of_mem {a x : Nat} (src : List UInt8) (h : a ≤ x ∧ x < a + src.length) :
    memmove m a src x = src.getD (x - a) 0 := by
  simp only [memmove]
  rw [if_pos h]

/-- Moving two lists one after the other. -/
theorem memmove_append (a : Nat) (l₁ l₂ : List UInt8) :
    memmove m a (l₁ ++ l₂) = memmove (memmove m a l₁) (a + l₁.length) l₂ := by
  funext x
  by_cases h₂ : a + l₁.length ≤ x ∧ x < a + l₁.length + l₂.length
  · rw [memmove_of_mem _ (by rw [List.length_append]; omega), memmove_of_mem _ h₂,
      List.getD_append_right _ _ _ _ (by omega), Nat.sub_sub]
  · rw [memmove_of_not_mem (m := memmove m a l₁) _ (by omega)]
    by_cases h₁ : a ≤ x ∧ x < a + l₁.length
    · rw [memmove_of_mem _ (by rw [List.length_append]; omega), memmove_of_mem _ h₁,
        List.getD_append _ _ _ _ (by omega)]
    · rw [memmove_of_not_mem _ (by rw [List.length_append]; omega), memmove_of_not_mem _ (by omega)]

@[simp] theorem memmove_nil (a : Nat) : memmove m a [] = m := by
  funext x
  exact memmove_of_not_mem [] (by simp only [List.length_nil, Nat.add_zero]; omega)

/-- Moving one byte is storing it. -/
theorem memmove_singleton (a : Nat) (v : UInt8) : memmove m a [v] = Function.update m a v := by
  funext x
  by_cases hx : x = a
  · subst hx
    rw [memmove_of_mem _ (by simp), Function.update_self, Nat.sub_self]
    rfl
  · rw [memmove_of_not_mem _ (by simp only [List.length_singleton]; omega), Function.update_of_ne hx]

/-- Moving a list, then one more byte after it. -/
theorem memmove_snoc (a : Nat) (l : List UInt8) (v : UInt8) :
    memmove m a (l ++ [v]) = Function.update (memmove m a l) (a + l.length) v := by
  rw [memmove_append, memmove_singleton]

/-- Moves to disjoint ranges commute. -/
theorem memmove_comm {a b : Nat} (l₁ l₂ : List UInt8) (h : a + l₁.length ≤ b ∨ b + l₂.length ≤ a) :
    memmove (memmove m a l₁) b l₂ = memmove (memmove m b l₂) a l₁ := by
  funext x
  by_cases h₁ : a ≤ x ∧ x < a + l₁.length
  · rw [memmove_of_not_mem (m := memmove m a l₁) _ (by omega), memmove_of_mem _ h₁, memmove_of_mem _ h₁]
  · rw [memmove_of_not_mem (m := memmove m b l₂) _ (by omega)]
    by_cases h₂ : b ≤ x ∧ x < b + l₂.length
    · rw [memmove_of_mem _ h₂, memmove_of_mem _ h₂]
    · rw [memmove_of_not_mem _ (by omega), memmove_of_not_mem _ (by omega), memmove_of_not_mem _ (by omega)]

/-- Moving a byte, then a list after it. -/
theorem memmove_cons (a : Nat) (v : UInt8) (l : List UInt8) :
    memmove m a (v :: l) = Function.update (memmove m (a + 1) l) a v := by
  rw [← List.singleton_append, memmove_append, memmove_comm _ _ (Or.inl (Nat.le_refl _)),
    memmove_singleton, List.length_singleton]

@[simp] theorem length_bytes16 (v : UInt16) : (bytes16 v).length = 2 := rfl

@[simp] theorem length_bytes32 (v : UInt32) : (bytes32 v).length = 4 := rfl

theorem read_getD {a n i : Nat} (h : i < n) : (read m a n).getD i 0 = m (a + i) := by
  simp [read, h]

theorem length_read (a n : Nat) : (read m a n).length = n := by
  simp [read]

end ByteMem
