/-
Programs of atomic updates, and what a crash in the middle of one can leave.

A program here is the list of the atomic updates it makes to a store, in order;
running it is folding them. A crash stops the program after some prefix of its
updates, so the states a crash can leave are the runs of the prefixes
`p.take k`. Nothing else about the program is visible after a crash: whatever
it computed in memory is gone.

`Triple P p Q C` is the crash analogue of a Hoare triple: from a state in `P`,
the full run ends in `Q` and every crash point (the full run included) lies in
`C`. The rules below are the ones a sequential crash argument needs: updates one
at a time (`cons`), sequencing (`append`), and consequence. `Restart` covers a recovery procedure that reads the store when it
starts and may itself be interrupted and rerun any number of times.

Nothing here mentions a disk or a log: the store is any type.
-/
import Mathlib.Logic.Relation

set_option autoImplicit false

namespace CrashHoare

universe u

variable {σ : Type u}

/-- A program: the atomic updates it makes, in order. -/
abbrev Prog (σ : Type u) := List (σ → σ)

/-- Run every update of a program. -/
def run (p : Prog σ) (s : σ) : σ :=
  p.foldl (fun s f => f s) s

@[simp] theorem run_nil (s : σ) : run [] s = s := rfl

@[simp] theorem run_cons (f : σ → σ) (p : Prog σ) (s : σ) :
    run (f :: p) s = run p (f s) := rfl

theorem run_append (p q : Prog σ) (s : σ) : run (p ++ q) s = run q (run p s) := by
  simp only [run, List.foldl_append]

/-- A crash after `k` updates of `p ++ q` is a crash inside `p`, or all of `p`
followed by a crash inside `q`. -/
theorem run_take_append (p q : Prog σ) (k : Nat) (s : σ) :
    run ((p ++ q).take k) s = run (q.take (k - p.length)) (run (p.take k) s) := by
  rw [List.take_append, run_append]

/-- The states a crash during `p` from `s` can leave: the run of any prefix. -/
def Crashes (p : Prog σ) (s t : σ) : Prop :=
  ∃ k, t = run (p.take k) s

/-! ## Crash triples -/

/-- From any state in `P`, the whole run of `p` ends in `Q`, and a crash after any
number of updates (all of them included) leaves a state in `C`. -/
def Triple (P : σ → Prop) (p : Prog σ) (Q C : σ → Prop) : Prop :=
  ∀ s, P s → (∀ k, C (run (p.take k) s)) ∧ Q (run p s)

variable {P Q R C : σ → Prop}

theorem Triple.nil (hc : ∀ s, P s → C s) (hq : ∀ s, P s → Q s) : Triple P [] Q C := by
  intro s hs
  exact ⟨fun _ => by simpa using hc s hs, hq s hs⟩

/-- One update, then the rest: the state before the update must be a crash
state too. -/
theorem Triple.cons {f : σ → σ} {p : Prog σ} (hc : ∀ s, P s → C s)
    (hf : ∀ s, P s → R (f s)) (h : Triple R p Q C) : Triple P (f :: p) Q C := by
  intro s hs
  refine ⟨fun k => ?_, (h (f s) (hf s hs)).2⟩
  cases k with
  | zero => simpa using hc s hs
  | succ k =>
    rw [List.take_succ_cons, run_cons]
    exact (h (f s) (hf s hs)).1 k

theorem Triple.append {p q : Prog σ} (h₁ : Triple P p R C) (h₂ : Triple R q Q C) :
    Triple P (p ++ q) Q C := by
  intro s hs
  obtain ⟨hc₁, hr⟩ := h₁ s hs
  obtain ⟨hc₂, hq⟩ := h₂ _ hr
  refine ⟨fun k => ?_, by rw [run_append]; exact hq⟩
  by_cases hk : k ≤ p.length
  · rw [List.take_append_of_le_length hk]
    exact hc₁ k
  · rw [run_take_append, List.take_of_length_le (l := p) (by omega)]
    exact hc₂ _

theorem Triple.conseq {P' Q' C' : σ → Prop} {p : Prog σ} (h : Triple P p Q C)
    (hp : ∀ s, P' s → P s) (hq : ∀ s, Q s → Q' s) (hc : ∀ s, C s → C' s) :
    Triple P' p Q' C' := by
  intro s hs
  obtain ⟨h₁, h₂⟩ := h s (hp s hs)
  exact ⟨fun k => hc _ (h₁ k), hq _ h₂⟩

/-! ## Restartable procedures

A recovery procedure reads the store when it starts, so it is a program that
depends on its initial state. `Restart rec` relates a store to what one
interrupted run of `rec` leaves; rerunning after each crash is its reflexive
transitive closure. -/

/-- One run of `rec s`, stopped by a crash at some point. -/
def Restart (rec : σ → Prog σ) (s t : σ) : Prop :=
  Crashes (rec s) s t

/-- A property that every crash point of the procedure keeps survives any
number of interrupted reruns. -/
theorem Restart.invariant {rec : σ → Prog σ} {I : σ → Prop}
    (h : ∀ s, I s → ∀ k, I (run ((rec s).take k) s)) {s t : σ}
    (hst : Relation.ReflTransGen (Restart rec) s t) (hs : I s) : I t := by
  induction hst with
  | refl => exact hs
  | tail _ hstep ih =>
    obtain ⟨k, rfl⟩ := hstep
    exact h _ ih k

end CrashHoare
