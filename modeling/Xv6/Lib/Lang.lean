/-
Languages of words with one letter of a class, starred, and ⊤ on a side.

`sym p` is the words of one letter that satisfies `p`. A word is in
`(sym p)∗ * l` when it is in `l`, or starts with such a letter and the rest is
again in `(sym p)∗ * l`: Arden's lemma, read from right to left, since no word
of `sym p` is empty. A star of every letter is every word (`kstar_sym_of_forall`),
so `⊤ * l` is the same unfolding with no test on the letter. A backtracking
matcher that tries `l` first and then steps one letter decides exactly these.
-/
import Mathlib.Computability.Language

set_option autoImplicit false

open Computability

namespace Language

variable {α : Type} {p : α → Prop} {l : Language α} {w : List α} {a : α}

/-- The words of one letter that satisfy `p`. -/
def sym (p : α → Prop) : Language α := {w | ∃ a, p a ∧ w = [a]}

theorem nil_notMem_sym : [] ∉ sym p := by
  rintro ⟨a, -, h⟩
  cases h

@[simp] theorem mem_top : w ∈ (⊤ : Language α) := Set.mem_univ w

@[simp] theorem nil_mem_sym_mul : ([] : List α) ∈ sym p * l ↔ False := by
  rw [mem_mul, iff_false]
  rintro ⟨u, ⟨a, -, rfl⟩, v, -, h⟩
  cases h

@[simp] theorem cons_mem_sym_mul : a :: w ∈ sym p * l ↔ p a ∧ w ∈ l := by
  rw [mem_mul]
  constructor
  · rintro ⟨u, ⟨b, hb, rfl⟩, v, hv, h⟩
    obtain ⟨rfl, rfl⟩ := List.cons_eq_cons.mp h
    exact ⟨hb, hv⟩
  · rintro ⟨ha, hw⟩
    exact ⟨[a], ⟨a, ha, rfl⟩, w, hw, rfl⟩

/-- Arden's lemma, read from right to left: a star of single letters in front
of `l` is `l`, or one more letter in front. -/
theorem kstar_sym_mul (p : α → Prop) (l : Language α) :
    (sym p)∗ * l = sym p * ((sym p)∗ * l) + l :=
  (self_eq_mul_add_iff nil_notMem_sym).mpr rfl

@[simp] theorem nil_mem_kstar_sym_mul : [] ∈ (sym p)∗ * l ↔ [] ∈ l := by
  conv_lhs => rw [kstar_sym_mul]
  rw [mem_add, nil_mem_sym_mul, false_or]

@[simp] theorem cons_mem_kstar_sym_mul :
    a :: w ∈ (sym p)∗ * l ↔ a :: w ∈ l ∨ p a ∧ w ∈ (sym p)∗ * l := by
  conv_lhs => rw [kstar_sym_mul]
  rw [mem_add, cons_mem_sym_mul, or_comm]

/-- A star of every letter holds every word. -/
theorem kstar_sym_of_forall (hp : ∀ a, p a) : (sym p)∗ = ⊤ := by
  refine eq_top_iff.mpr fun w _ => ?_
  have hw : w ∈ (sym p)∗ * 1 := by
    induction w with
    | nil => exact nil_mem_kstar_sym_mul.mpr nil_mem_one
    | cons a w ih => exact cons_mem_kstar_sym_mul.mpr (.inr ⟨hp a, ih mem_top⟩)
  rwa [mul_one] at hw

end Language
