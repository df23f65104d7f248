/-
Programs over a state that may stop with an error, and how to read their runs.

A program of `StateT σ (Except ε)` either completes, with a value and a new
state, or stops with an error. `Runs x s a t` says it completes from `s` with
`a` in `t`. The rules below take a run of a sequence apart into runs of its
parts, so that a proof about a program never unfolds the monad: each function
of a model gets one lemma about its runs, and a caller cites it. The start state
stands on the left of each equation they give, so that taking a run apart with
`rfl` keeps the start state's name.

`Fails x s e` says it stops with the error `e`, and `Raises x E` that every
error it can stop with is one of `E`; its rules follow the program's shape, so
that a loop on fuel is shown never to stop for want of fuel.
-/
import Mathlib.Logic.Basic

set_option autoImplicit false

namespace StateExcept

universe u

variable {σ ε α β : Type u}

/-- `x` run from `s` completes with the value `a` and the state `t`. -/
def Runs (x : StateT σ (Except ε) α) (s : σ) (a : α) (t : σ) : Prop :=
  x.run s = .ok (a, t)

@[simp] theorem runs_pure (a b : α) (s t : σ) :
    Runs (pure a : StateT σ (Except ε) α) s b t ↔ b = a ∧ s = t := by
  show Except.ok (a, s) = Except.ok (b, t) ↔ _
  simp [eq_comm]

@[simp] theorem runs_bind (x : StateT σ (Except ε) α) (f : α → StateT σ (Except ε) β)
    (s u : σ) (b : β) : Runs (x >>= f) s b u ↔ ∃ a t, Runs x s a t ∧ Runs (f a) t b u := by
  simp only [Runs, StateT.run, bind, StateT.bind, Except.bind]
  cases h : x s with
  | error e => simp
  | ok r =>
    obtain ⟨a, t⟩ := r
    constructor
    · exact fun hf => ⟨a, t, rfl, hf⟩
    · rintro ⟨a', t', he, hf⟩
      cases he
      exact hf

@[simp] theorem runs_map (f : α → β) (x : StateT σ (Except ε) α) (s t : σ) (b : β) :
    Runs (f <$> x) s b t ↔ ∃ a, Runs x s a t ∧ b = f a := by
  rw [← bind_pure_comp, runs_bind]
  constructor
  · rintro ⟨a, t', hx, hp⟩
    obtain ⟨rfl, rfl⟩ := (runs_pure _ _ _ _).mp hp
    exact ⟨a, hx, rfl⟩
  · rintro ⟨a, hx, rfl⟩
    exact ⟨a, t, hx, (runs_pure _ _ _ _).mpr ⟨rfl, rfl⟩⟩

@[simp] theorem runs_get (s t u : σ) :
    Runs (get : StateT σ (Except ε) σ) s t u ↔ s = t ∧ s = u := by
  simp [Runs, StateT.run, get, getThe, MonadStateOf.get, StateT.get, pure, Except.pure]

@[simp] theorem runs_modify (f : σ → σ) (s t : σ) (a : PUnit) :
    Runs (modify f : StateT σ (Except ε) PUnit) s a t ↔ t = f s := by
  show Except.ok (PUnit.unit, f s) = Except.ok (a, t) ↔ _
  simp [eq_comm]

@[simp] theorem runs_set (u s t : σ) (a : PUnit) :
    Runs (set u : StateT σ (Except ε) PUnit) s a t ↔ t = u := by
  show Except.ok (PUnit.unit, u) = Except.ok (a, t) ↔ _
  simp [eq_comm]

@[simp] theorem runs_throw (e : ε) (s t : σ) (a : α) :
    ¬Runs (throw e : StateT σ (Except ε) α) s a t := by
  simp [Runs, StateT.run, throw, throwThe, MonadExceptOf.throw, StateT.lift, bind, Except.bind]

theorem runs_ite {c : Prop} [Decidable c] (x y : StateT σ (Except ε) α) (s t : σ) (a : α) :
    Runs (if c then x else y) s a t ↔ (c ∧ Runs x s a t) ∨ (¬c ∧ Runs y s a t) := by
  by_cases hc : c <;> simp [hc]

/-- A run of a sequence whose first part completes is the run of the rest, from
where the first part left off. Read forwards, as an evaluation, this is how a
run that stops with an error is computed. -/
theorem run_bind_of_runs {x : StateT σ (Except ε) α} {f : α → StateT σ (Except ε) β} {s t : σ}
    {a : α} (h : Runs x s a t) : (x >>= f).run s = (f a).run t := by
  simp only [Runs, StateT.run] at h
  simp only [StateT.run, bind, StateT.bind, Except.bind, h]

@[simp] theorem run_throw (e : ε) (s : σ) : (throw e : StateT σ (Except ε) α).run s = .error e := rfl

/-! ## Runs that stop with an error -/

/-- `x` run from `s` stops with the error `e`. -/
def Fails (x : StateT σ (Except ε) α) (s : σ) (e : ε) : Prop :=
  x.run s = .error e

@[simp] theorem fails_bind (x : StateT σ (Except ε) α) (f : α → StateT σ (Except ε) β) (s : σ) (e : ε) :
    Fails (x >>= f) s e ↔ Fails x s e ∨ ∃ a t, Runs x s a t ∧ Fails (f a) t e := by
  simp only [Fails, Runs, StateT.run, bind, StateT.bind, Except.bind]
  cases h : x s with
  | error e' => simp
  | ok r =>
    obtain ⟨a, t⟩ := r
    constructor
    · exact fun hf => .inr ⟨a, t, rfl, hf⟩
    · rintro (he | ⟨a', t', he, hf⟩)
      · cases he
      · cases he
        exact hf

@[simp] theorem fails_pure (a : α) (s : σ) (e : ε) : ¬Fails (pure a : StateT σ (Except ε) α) s e := by
  show ¬Except.ok (a, s) = Except.error e
  intro h
  cases h

@[simp] theorem fails_get (s : σ) (e : ε) : ¬Fails (get : StateT σ (Except ε) σ) s e := by
  show ¬Except.ok (s, s) = Except.error e
  intro h
  cases h

@[simp] theorem fails_set (u s : σ) (e : ε) : ¬Fails (set u : StateT σ (Except ε) PUnit) s e := by
  show ¬Except.ok (PUnit.unit, u) = Except.error e
  intro h
  cases h

@[simp] theorem fails_throw (e e' : ε) (s : σ) : Fails (throw e : StateT σ (Except ε) α) s e' ↔ e' = e := by
  show Except.error e = Except.error e' ↔ _
  constructor
  · intro h
    cases h
    rfl
  · rintro rfl
    rfl

theorem fails_ite {c : Prop} [Decidable c] (x y : StateT σ (Except ε) α) (s : σ) (e : ε) :
    Fails (if c then x else y) s e ↔ (c ∧ Fails x s e) ∨ (¬c ∧ Fails y s e) := by
  by_cases hc : c <;> simp [hc]

/-- A program that completes from `s` does not stop there with an error. -/
theorem Runs.not_fails {x : StateT σ (Except ε) α} {s t : σ} {a : α} (h : Runs x s a t) (e : ε) :
    ¬Fails x s e := by
  intro hf
  rw [Fails, h] at hf
  cases hf

@[simp] theorem fails_modify (f : σ → σ) (s : σ) (e : ε) :
    ¬Fails (modify f : StateT σ (Except ε) PUnit) s e := by
  show ¬Except.ok (PUnit.unit, f s) = Except.error e
  intro h
  cases h

/-! ## The errors a program can stop with -/

/-- Every error `x` stops with, from any state, is one of `E`. -/
def Raises (x : StateT σ (Except ε) α) (E : List ε) : Prop :=
  ∀ s e, Fails x s e → e ∈ E

namespace Raises

variable {E E' : List ε}

theorem of_pure (a : α) : Raises (pure a : StateT σ (Except ε) α) E :=
  fun s e h => absurd h (fails_pure a s e)

theorem of_throw {e : ε} (he : e ∈ E) : Raises (throw e : StateT σ (Except ε) α) E := by
  intro s e' h
  rw [(fails_throw _ _ _).mp h]
  exact he

theorem of_get : Raises (get : StateT σ (Except ε) σ) E :=
  fun s e h => absurd h (fails_get s e)

theorem of_modify (f : σ → σ) : Raises (modify f : StateT σ (Except ε) PUnit) E :=
  fun s e h => absurd h (fails_modify f s e)

theorem bind {x : StateT σ (Except ε) α} {f : α → StateT σ (Except ε) β} (hx : Raises x E)
    (hf : ∀ a, Raises (f a) E) : Raises (x >>= f) E := by
  intro s e h
  rcases (fails_bind _ _ _ _).mp h with h | ⟨a, t, -, h⟩
  · exact hx s e h
  · exact hf a t e h

theorem ite {c : Prop} [Decidable c] {x y : StateT σ (Except ε) α} (hx : Raises x E)
    (hy : Raises y E) : Raises (if c then x else y) E := by
  by_cases hc : c
  · rwa [if_pos hc]
  · rwa [if_neg hc]

theorem mono {x : StateT σ (Except ε) α} (hx : Raises x E) (h : E ⊆ E') : Raises x E' :=
  fun s e he => h (hx s e he)

end Raises

/-! ## Invariants of the state -/

/-- Every run of `x` from a state in `I` completes in a state in `I`. -/
def Preserves (I : σ → Prop) (x : StateT σ (Except ε) α) : Prop :=
  ∀ s a t, Runs x s a t → I s → I t

namespace Preserves

variable {I : σ → Prop}

theorem of_pure (a : α) : Preserves I (pure a : StateT σ (Except ε) α) := by
  intro s b t h hs
  obtain ⟨-, rfl⟩ := (runs_pure _ _ _ _).mp h
  exact hs

theorem of_throw (e : ε) : Preserves I (throw e : StateT σ (Except ε) α) :=
  fun _ _ _ h => absurd h (runs_throw _ _ _ _)

theorem bind {x : StateT σ (Except ε) α} {f : α → StateT σ (Except ε) β} (hx : Preserves I x)
    (hf : ∀ a, Preserves I (f a)) : Preserves I (x >>= f) := by
  intro s b u h hs
  obtain ⟨a, t, h₁, h₂⟩ := (runs_bind _ _ _ _ _).mp h
  exact hf a t b u h₂ (hx s a t h₁ hs)

theorem ite {c : Prop} [Decidable c] {x y : StateT σ (Except ε) α} (hx : Preserves I x)
    (hy : Preserves I y) : Preserves I (if c then x else y) := by
  by_cases hc : c
  · rwa [if_pos hc]
  · rwa [if_neg hc]

end Preserves

/-- A step that completed hands its value and state to the rest of the run. -/
@[simp] theorem ok_bind (p : α × σ) (f : α × σ → Except ε β) : (Except.ok p >>= f) = f p := rfl

end StateExcept
