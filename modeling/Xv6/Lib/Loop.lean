/-
Loops run with fuel: `while cond do body`, for at most `fuel` rounds.

`FuelLoop.run cond body fuel s` is `some` of the first state where the condition
fails, if the loop gets there within `fuel` rounds, and `none` if the condition
still holds after them. A loop that never ends is one that is `none` at every
fuel: its condition holds at every iterate of the body (`run_eq_none_iff`). A
loop that ends does so at an iterate, with the condition holding before it
(`run_eq_some`).
-/
import Mathlib.Logic.Function.Iterate

set_option autoImplicit false

namespace FuelLoop

variable {σ : Type} (cond : σ → Prop) [DecidablePred cond] (body : σ → σ)

/-- `while cond do body` from `s`, for at most `fuel` rounds. -/
def run : Nat → σ → Option σ
  | 0, s => if cond s then none else some s
  | fuel + 1, s => if cond s then run fuel (body s) else some s

variable {cond body}

theorem run_of_not {fuel : Nat} {s : σ} (h : ¬cond s) : run cond body fuel s = some s := by
  cases fuel <;> simp [run, h]

theorem run_succ_of {fuel : Nat} {s : σ} (h : cond s) :
    run cond body (fuel + 1) s = run cond body fuel (body s) := by
  simp [run, h]

/-- The loop is still running after `fuel` rounds exactly when the condition
holds at the first `fuel + 1` iterates. -/
theorem run_eq_none_iff {fuel : Nat} {s : σ} :
    run cond body fuel s = none ↔ ∀ m ≤ fuel, cond (body^[m] s) := by
  induction fuel generalizing s with
  | zero => simp [run]
  | succ n ih =>
    by_cases hs : cond s
    · rw [run_succ_of hs, ih]
      constructor
      · intro h m hm
        cases m with
        | zero => exact hs
        | succ m => exact h m (by omega)
      · intro h m hm
        exact h (m + 1) (by omega)
    · rw [run_of_not hs]
      simp only [reduceCtorEq, false_iff, not_forall]
      exact ⟨0, Nat.zero_le _, hs⟩

/-- A loop that ends, ends at an iterate where the condition first fails. -/
theorem run_eq_some {fuel : Nat} {s t : σ} (h : run cond body fuel s = some t) :
    ∃ n ≤ fuel, t = body^[n] s ∧ ¬cond t ∧ ∀ m < n, cond (body^[m] s) := by
  induction fuel generalizing s with
  | zero =>
    by_cases hs : cond s
    · simp [run, hs] at h
    · rw [run_of_not hs] at h
      cases h
      exact ⟨0, Nat.le_refl 0, rfl, hs, fun m hm => absurd hm (Nat.not_lt_zero m)⟩
  | succ n ih =>
    by_cases hs : cond s
    · rw [run_succ_of hs] at h
      obtain ⟨k, hk, rfl, ht, hbefore⟩ := ih h
      refine ⟨k + 1, by omega, rfl, ht, fun m hm => ?_⟩
      cases m with
      | zero => exact hs
      | succ m => exact hbefore m (by omega)
    · rw [run_of_not hs] at h
      cases h
      exact ⟨0, Nat.zero_le _, rfl, hs, fun m hm => absurd hm (Nat.not_lt_zero m)⟩

/-- A loop whose condition holds for `n` rounds and then fails ends there, given
the fuel for those rounds. -/
theorem run_eq_some_of {n fuel : Nat} {s : σ} (hrun : ∀ m < n, cond (body^[m] s))
    (hend : ¬cond (body^[n] s)) (hle : n ≤ fuel) : run cond body fuel s = some (body^[n] s) := by
  induction n generalizing s fuel with
  | zero => exact run_of_not hend
  | succ n ih =>
    obtain ⟨f, rfl⟩ : ∃ f, fuel = f + 1 := ⟨fuel - 1, by omega⟩
    have hs : cond s := hrun 0 (Nat.succ_pos n)
    rw [run_succ_of hs, Function.iterate_succ_apply]
    exact ih (fun m hm => hrun (m + 1) (by omega)) hend (by omega)

end FuelLoop
