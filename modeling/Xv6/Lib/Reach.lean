/-
Reachable states of a transition system, and the induction rule for them.

A system is an initial-state predicate and a step relation. The invariants of
every model in this development are proved the same way: the invariant holds
initially, one step keeps it, so every reachable state has it (`invariant`).
`Reachable.of_run` builds reachability from a run given as a list of labels,
which is how a concrete trace (a failing input, say) is shown to be one the
system can take; `runLabels_const` carries a quantity that the allowed steps
keep along a run.
-/
import Mathlib.Logic.Relation

set_option autoImplicit false

namespace TransitionSystem

universe u v

variable {σ : Type u}

/-- The states reached from an initial state by finitely many steps. -/
inductive Reachable (init : σ → Prop) (next : σ → σ → Prop) : σ → Prop
  | init {s : σ} : init s → Reachable init next s
  | step {s t : σ} : Reachable init next s → next s t → Reachable init next t

variable {init : σ → Prop} {next : σ → σ → Prop}

/-- **Invariant rule.** What holds initially and is kept by every step holds in
every reachable state. -/
theorem invariant {I : σ → Prop} (h0 : ∀ s, init s → I s)
    (hstep : ∀ s t, Reachable init next s → I s → next s t → I t) {s : σ}
    (hs : Reachable init next s) : I s := by
  induction hs with
  | init h => exact h0 _ h
  | step hr hn ih => exact hstep _ _ hr ih hn

/-- A labelled step function, run along a list of labels; `none` when some
label is not enabled. -/
def runLabels {ε : Type v} (f : σ → ε → Option σ) : σ → List ε → Option σ
  | s, [] => some s
  | s, e :: es => (f s e).bind fun t => runLabels f t es

/-- A run along enabled labels ends in a reachable state. -/
theorem Reachable.of_run {ε : Type v} {f : σ → ε → Option σ}
    (hf : ∀ s e t, f s e = some t → next s t) :
    ∀ (es : List ε) {s t : σ}, Reachable init next s → runLabels f s es = some t →
      Reachable init next t
  | [], _, _, hs, h => by
    simp only [runLabels, Option.some.injEq] at h
    exact h ▸ hs
  | e :: es, s, t, hs, h => by
    simp only [runLabels] at h
    cases hfe : f s e with
    | none => rw [hfe] at h; cases h
    | some u =>
      rw [hfe, Option.bind_some] at h
      exact Reachable.of_run hf es (Reachable.step hs (hf s e u hfe)) h

/-- A quantity that every enabled step with an allowed label keeps, from states
of a class that the steps keep, is the same at both ends of a run whose labels
are all allowed. -/
theorem runLabels_const {ε : Type v} {β : Type} {f : σ → ε → Option σ} {R : σ → Prop}
    {P : ε → Prop} {q : σ → β} (hR : ∀ s e t, R s → f s e = some t → R t)
    (hq : ∀ s e t, R s → P e → f s e = some t → q t = q s) :
    ∀ (es : List ε) {s t : σ}, R s → runLabels f s es = some t → (∀ e ∈ es, P e) → q t = q s
  | [], _, _, _, h, _ => by
    simp only [runLabels, Option.some.injEq] at h
    rw [h]
  | e :: es, s, t, hs, h, hP => by
    simp only [runLabels] at h
    cases hfe : f s e with
    | none => rw [hfe] at h; cases h
    | some u =>
      rw [hfe, Option.bind_some] at h
      rw [runLabels_const hR hq es (hR s e u hs hfe) h fun e' he' => hP e' (List.mem_cons_of_mem e he'),
        hq s e u hs (hP e List.mem_cons_self) hfe]

/-- A fold whose every step is related by a reflexive, transitive relation
relates its start to its end. -/
theorem foldl_rel {α : Type v} {r : σ → σ → Prop} (hrefl : ∀ s, r s s)
    (htrans : ∀ s t u, r s t → r t u → r s u) {f : σ → α → σ} (hf : ∀ s a, r s (f s a)) :
    ∀ (l : List α) (s : σ), r s (l.foldl f s)
  | [], s => hrefl s
  | a :: l, s => htrans _ _ _ (hf s a) (foldl_rel hrefl htrans hf l (f s a))

end TransitionSystem
