/-
`log.c`'s memory side: admission of operations into a transaction, and the
space they use in the log.

`begin_op` admits an operation only when every operation already admitted
could still write `MAXOPBLOCKS` new blocks without the header passing `LOGSIZE`:
it waits while `lh.n + (outstanding+1)*MAXOPBLOCKS > LOGSIZE`. `log_write`
panics when `lh.n >= LOGSIZE` or `lh.n >= log.size - 1` on entry. The two bounds
differ: the header block is one of the `log.size` blocks mkfs gives the log
(`nlog = LOGSIZE`), so the log has room for `log.size - 1 = LOGSIZE - 1` data
blocks, one fewer than the admission arithmetic reserves.

The model is the in-memory `struct log` with one transition per critical
section (`begin_op`, `log_write`, `end_op` up to its `commit()`, and the end of
`end_op` after `commit()` returns), for any finite set `ι` of concurrent
operations. Each operation's own state records the distinct blocks it has
passed to `log_write` since its `begin_op`, and an operation writes at most
`MAXOPBLOCKS` distinct blocks per transaction.

What holds (`reachable_inv`): the reservation `lh.n + Σ (MAXOPBLOCKS - written)
≤ LOGSIZE` over the admitted operations, so `lh.n ≤ LOGSIZE` and the first
half of the panic test never fires; the logged blocks stay distinct; no
operation is admitted while `committing` is set. What fails
(`log_write_too_big_reachable`): three operations admitted together, writing
ten distinct blocks each, reach the `log.size - 1` half of the panic on their
thirtieth block.
-/
import Mathlib.Algebra.BigOperators.Ring.Finset
import Mathlib.Algebra.Order.BigOperators.Group.Finset
import Xv6.Lib.Reach
import Xv6.Lib.Update
import Xv6.Log.Basic

set_option autoImplicit false

namespace Xv6.Log

open TransitionSystem

/-! ## `struct log` and its three functions -/

/-- The in-memory `struct log`, without its lock: `lh` is `lh.block[0..lh.n)`. -/
structure log where
  start : Nat
  size : Nat
  outstanding : Nat
  committing : Bool
  lh : List Nat
  deriving DecidableEq, Repr

/-- `begin_op`: `none` while the caller must sleep (a commit is running, or
this operation might exhaust log space). -/
def begin_op (s : log) : Option log :=
  if s.committing then none
  else if s.lh.length + (s.outstanding + 1) * MAXOPBLOCKS > LOGSIZE then none
  else some { s with outstanding := s.outstanding + 1 }

/-- `log_write`'s loop: find `b` among `block[0..n)` ("log absorbtion"), store
it at the index found, and count it if that index was `n`. -/
def absorb (lh : List Nat) (b : Nat) : List Nat :=
  if b ∈ lh then lh else lh ++ [b]

/-- `log_write` of a buffer holding block `b`: panics on a full log or outside a
transaction; otherwise records the block. -/
def log_write (s : log) (b : Nat) : Except String log :=
  if s.lh.length ≥ LOGSIZE ∨ s.lh.length ≥ s.size - 1 then .error "too big a transaction"
  else if s.outstanding < 1 then .error "log_write outside of trans"
  else .ok { s with lh := absorb s.lh b }

theorem mem_absorb {lh : List Nat} {b x : Nat} : x ∈ absorb lh b ↔ x ∈ lh ∨ x = b := by
  unfold absorb
  split
  · constructor
    · exact Or.inl
    · rintro (h | rfl) <;> assumption
  · simp

theorem length_absorb_le (lh : List Nat) (b : Nat) : (absorb lh b).length ≤ lh.length + 1 := by
  unfold absorb
  split <;> simp

theorem absorb_of_mem {lh : List Nat} {b : Nat} (h : b ∈ lh) : absorb lh b = lh := by
  simp [absorb, h]

theorem nodup_absorb {lh : List Nat} (h : lh.Nodup) (b : Nat) : (absorb lh b).Nodup := by
  unfold absorb
  split
  · exact h
  · rename_i hb
    exact h.append (List.nodup_singleton b) (by simpa using hb)

/-- `end_op` up to its call of `commit()`: one operation fewer, and the last one
out starts the commit. -/
def end_op (s : log) : Except String log :=
  let s := { s with outstanding := s.outstanding - 1 }
  if s.committing then .error "log.committing"
  else if s.outstanding = 0 then .ok { s with committing := true }
  else .ok s

/-- The rest of `end_op` once `commit()` has returned: the header is empty and
`committing` is cleared. -/
def end_commit (s : log) : log :=
  { s with lh := [], committing := false }

/-! ## What the three functions change -/

theorem begin_op_some {s l : log} (h : begin_op s = some l) :
    l = { s with outstanding := s.outstanding + 1 } := by
  unfold begin_op at h
  split at h
  · cases h
  split at h
  · cases h
  exact (Option.some.inj h).symm

/-- A `log_write` that returns found room for one more block, and only records
it. -/
theorem log_write_ok {s l : log} {b : Nat} (h : log_write s b = .ok l) :
    s.lh.length < s.size - 1 ∧ l = { s with lh := absorb s.lh b } := by
  unfold log_write at h
  split at h
  · cases h
  rename_i hroom
  split at h
  · cases h
  cases h
  exact ⟨by omega, rfl⟩

theorem log_write_error {s : log} {b : Nat} {m : String} (h : log_write s b = .error m) :
    m = "too big a transaction" ∨ m = "log_write outside of trans" := by
  unfold log_write at h
  split at h
  · cases h
    exact .inl rfl
  split at h
  · cases h
    exact .inr rfl
  · cases h

/-- `end_op` leaves the layout and the header alone. -/
theorem end_op_ok {s l : log} (h : end_op s = .ok l) :
    l.start = s.start ∧ l.size = s.size ∧ l.lh = s.lh := by
  unfold end_op at h
  dsimp only at h
  split at h
  · cases h
  split at h
  · cases h
    exact ⟨rfl, rfl, rfl⟩
  · cases h
    exact ⟨rfl, rfl, rfl⟩

theorem end_op_error {s : log} {m : String} (h : end_op s = .error m) : m = "log.committing" := by
  unfold end_op at h
  dsimp only at h
  split at h
  · cases h
    rfl
  split at h <;> cases h

/-! ## Concurrent operations -/

variable {ι : Type}

/-- The log together with the operations using it: `op i` is `none` outside a
transaction, else the distinct blocks `i` has passed to `log_write` so far. -/
structure Sys (ι : Type) where
  log : log
  op : ι → Option (List Nat)

/-- What an operation (or the committing `end_op`) does next. -/
inductive Event (ι : Type) where
  | begin_op (i : ι)
  | log_write (i : ι) (b : Nat)
  | end_op (i : ι)
  | commit

variable [DecidableEq ι]

/-- One critical section. `none`: not enabled (the caller sleeps, or the event
is not one this operation makes now); `some (.error m)`: `panic(m)`. An
operation writes at most `MAXOPBLOCKS` distinct blocks per transaction. -/
def step (s : Sys ι) : Event ι → Option (Except String (Sys ι))
  | .begin_op i =>
    match s.op i with
    | some _ => none
    | none => (begin_op s.log).map fun l => .ok { log := l, op := Function.update s.op i (some []) }
  | .log_write i b =>
    match s.op i with
    | none => none
    | some w =>
      if b ∈ w ∨ w.length < MAXOPBLOCKS then
        some ((log_write s.log b).map fun l =>
          { log := l, op := Function.update s.op i (some (absorb w b)) })
      else none
  | .end_op i =>
    match s.op i with
    | none => none
    | some _ => some ((end_op s.log).map fun l => { log := l, op := Function.update s.op i none })
  | .commit => if s.log.committing then some (.ok { s with log := end_commit s.log }) else none

/-- After `initlog`: mkfs's superblock gives the log `nlog = LOGSIZE` blocks
from `start`, recovery has emptied the header, and no operation has begun. -/
def init (start : Nat) : Sys ι :=
  { log := { start, size := LOGSIZE, outstanding := 0, committing := false, lh := [] },
    op := fun _ => none }

/-- A step that completes. -/
def Next (s t : Sys ι) : Prop := ∃ e, step s e = some (.ok t)

/-- A step that panics with message `m`. -/
def Panics (s : Sys ι) (m : String) : Prop := ∃ e, step s e = some (.error m)

/-- The states reachable from `init start` (for some log start). -/
def LogReachable (s : Sys ι) : Prop :=
  Reachable (fun s => ∃ start, s = init start) Next s

/-! ## The reservation invariant -/

/-- The blocks an operation's state still reserves in the log. -/
def reservation : Option (List Nat) → Nat
  | some w => MAXOPBLOCKS - w.length
  | none => 0

/-- One for an operation inside a transaction. -/
def admitted : Option (List Nat) → Nat
  | some _ => 1
  | none => 0

@[simp] theorem reservation_some (w : List Nat) : reservation (some w) = MAXOPBLOCKS - w.length :=
  rfl

@[simp] theorem reservation_none : reservation none = 0 := rfl

@[simp] theorem admitted_some (w : List Nat) : admitted (some w) = 1 := rfl

@[simp] theorem admitted_none : admitted none = 0 := rfl

theorem reservation_le (o : Option (List Nat)) : reservation o ≤ admitted o * MAXOPBLOCKS := by
  cases o <;> simp [reservation, admitted]

/-- What every reachable state satisfies. -/
structure Inv [Fintype ι] (s : Sys ι) : Prop where
  /-- the log has room for every admitted operation's remaining writes -/
  reserve : s.log.lh.length + ∑ i, reservation (s.op i) ≤ LOGSIZE
  /-- `outstanding` counts the admitted operations -/
  count : s.log.outstanding = ∑ i, admitted (s.op i)
  /-- an operation's distinct blocks are logged, and within its budget -/
  written : ∀ i w, s.op i = some w → w.length ≤ MAXOPBLOCKS ∧ ∀ b ∈ w, b ∈ s.log.lh
  /-- absorption keeps the header free of repeats -/
  nodup : s.log.lh.Nodup
  /-- nothing is admitted during a commit -/
  quiet : s.log.committing = true → ∀ i, s.op i = none
  size : s.log.size = LOGSIZE

variable [Fintype ι]

omit [DecidableEq ι] in
theorem inv_init (start : Nat) : Inv (init start : Sys ι) where
  reserve := by simp [init]
  count := by simp [init]
  written := by simp [init]
  nodup := List.nodup_nil
  quiet := by simp [init]
  size := rfl

theorem inv_begin_op {s : Sys ι} {i : ι} {l : log} (hs : Inv s) (hi : s.op i = none)
    (hl : begin_op s.log = some l) :
    Inv { log := l, op := Function.update s.op i (some []) } := by
  unfold begin_op at hl
  split at hl
  · cases hl
  split at hl
  · cases hl
  rename_i hc hroom
  cases hl
  have hr := Function.sum_update_add reservation s.op i (some [])
  have ha := Function.sum_update_add admitted s.op i (some [])
  simp only [hi, reservation_some, reservation_none, admitted_some, admitted_none,
    List.length_nil, Nat.sub_zero, Nat.add_zero] at hr ha
  -- the admitted operations reserve at most `MAXOPBLOCKS` each
  have hle : ∑ j, reservation (s.op j) ≤ s.log.outstanding * MAXOPBLOCKS := by
    rw [hs.count, Finset.sum_mul]
    exact Finset.sum_le_sum fun j _ => reservation_le (s.op j)
  refine ⟨?_, ?_, fun j w hj => ?_, hs.nodup, fun h => absurd h hc, hs.size⟩
  · dsimp only
    rw [hr]
    simp only [MAXOPBLOCKS, LOGSIZE] at hroom hle ⊢
    omega
  · dsimp only
    rw [ha, hs.count]
  · dsimp only at hj ⊢
    by_cases hji : j = i
    · subst hji
      simp only [Function.update_self, Option.some.injEq] at hj
      subst hj
      simp [MAXOPBLOCKS]
    · rw [Function.update_of_ne hji] at hj
      exact hs.written j w hj

theorem inv_log_write {s : Sys ι} {i : ι} {w : List Nat} {b : Nat} {l : log} (hs : Inv s)
    (hi : s.op i = some w) (hbudget : b ∈ w ∨ w.length < MAXOPBLOCKS)
    (hl : log_write s.log b = .ok l) :
    Inv { log := l, op := Function.update s.op i (some (absorb w b)) } := by
  unfold log_write at hl
  split at hl
  · cases hl
  split at hl
  · cases hl
  cases hl
  obtain ⟨hwlen, hwlh⟩ := hs.written i w hi
  have hr := Function.sum_update_add reservation s.op i (some (absorb w b))
  have ha := Function.sum_update_add admitted s.op i (some (absorb w b))
  simp only [hi, reservation_some, admitted_some] at hr ha
  refine ⟨?_, ?_, fun j v hj => ?_, nodup_absorb hs.nodup b,
    fun h => absurd (hs.quiet h i) (by simp [hi]), hs.size⟩
  · dsimp only
    have hres := hs.reserve
    by_cases hbw : b ∈ w
    · -- an absorbed write changes neither the header nor the reservation
      rw [absorb_of_mem hbw] at hr ⊢
      rw [absorb_of_mem (hwlh b hbw)]
      omega
    · -- a new block costs this operation one unit of reservation, the log at
      -- most one block
      have hlt : w.length < MAXOPBLOCKS := hbudget.resolve_left hbw
      have hw' : (absorb w b).length = w.length + 1 := by simp [absorb, hbw]
      have hlh := length_absorb_le s.log.lh b
      rw [hw'] at hr
      simp only [MAXOPBLOCKS] at hr hlt
      omega
  · dsimp only
    rw [hs.count]
    omega
  · dsimp only at hj ⊢
    by_cases hji : j = i
    · subst hji
      simp only [Function.update_self, Option.some.injEq] at hj
      subst hj
      refine ⟨?_, fun x hx => ?_⟩
      · by_cases hbw : b ∈ w
        · rw [absorb_of_mem hbw]
          exact hwlen
        · have := length_absorb_le w b
          have := hbudget.resolve_left hbw
          omega
      · rcases mem_absorb.mp hx with hx | rfl
        · exact mem_absorb.mpr (Or.inl (hwlh x hx))
        · exact mem_absorb.mpr (Or.inr rfl)
    · rw [Function.update_of_ne hji] at hj
      obtain ⟨h1, h2⟩ := hs.written j v hj
      exact ⟨h1, fun x hx => mem_absorb.mpr (Or.inl (h2 x hx))⟩

theorem inv_end_op {s : Sys ι} {i : ι} {w : List Nat} {l : log} (hs : Inv s)
    (hi : s.op i = some w) (hl : end_op s.log = .ok l) :
    Inv { log := l, op := Function.update s.op i none } := by
  have hr := Function.sum_update_add reservation s.op i none
  have ha := Function.sum_update_add admitted s.op i none
  simp only [hi, reservation_some, reservation_none, admitted_some, admitted_none,
    Nat.add_zero] at hr ha
  -- `end_op` only lowers `outstanding`, possibly to the commit
  have hout : l.outstanding = s.log.outstanding - 1 ∧ l.lh = s.log.lh ∧ l.size = s.log.size ∧
      (l.committing = true → l.outstanding = 0) := by
    unfold end_op at hl
    dsimp only at hl
    split at hl
    · cases hl
    split at hl
    · cases hl
      rename_i h0
      exact ⟨rfl, rfl, rfl, fun _ => h0⟩
    · cases hl
      rename_i hc _
      exact ⟨rfl, rfl, rfl, fun h => absurd h hc⟩
  obtain ⟨hout, hlh, hsize, hquiet⟩ := hout
  refine ⟨?_, ?_, fun j v hj => ?_, hlh ▸ hs.nodup, fun h j => ?_, hsize.trans hs.size⟩
  · dsimp only
    rw [hlh]
    have := hs.reserve
    omega
  · dsimp only
    rw [hout, hs.count]
    omega
  · dsimp only at hj ⊢
    rw [hlh]
    by_cases hji : j = i
    · subst hji
      simp at hj
    · rw [Function.update_of_ne hji] at hj
      exact hs.written j v hj
  · -- the commit starts only once no operation is left
    dsimp only at h ⊢
    have h0 := hquiet h
    rw [hout, hs.count] at h0
    have hsum : ∑ k, admitted (Function.update s.op i none k) = 0 := by omega
    have hj := (Finset.sum_eq_zero_iff.mp hsum) j (Finset.mem_univ j)
    cases hk : Function.update s.op i none j with
    | none => rfl
    | some v => rw [hk, admitted_some] at hj; cases hj

omit [DecidableEq ι] in
theorem inv_commit {s : Sys ι} (hs : Inv s) (hc : s.log.committing = true) :
    Inv { s with log := end_commit s.log } := by
  have hnone := hs.quiet hc
  refine ⟨?_, hs.count, fun j v hj => ?_, List.nodup_nil, fun h => ?_, hs.size⟩
  · simp [end_commit, hnone]
  · simp [hnone j] at hj
  · simp [end_commit] at h

/-- Every step that completes keeps the invariant. -/
theorem inv_step {s t : Sys ι} (hs : Inv s) (h : Next s t) : Inv t := by
  obtain ⟨e, he⟩ := h
  cases e with
  | begin_op i =>
    simp only [step] at he
    split at he
    · cases he
    · rename_i hi
      cases hl : begin_op s.log with
      | none => rw [hl] at he; cases he
      | some l =>
        rw [hl] at he
        cases he
        exact inv_begin_op hs hi hl
  | log_write i b =>
    simp only [step] at he
    split at he
    · cases he
    · rename_i w hi
      split at he
      · rename_i hbudget
        cases hl : log_write s.log b with
        | error m => rw [hl] at he; cases he
        | ok l =>
          rw [hl] at he
          cases he
          exact inv_log_write hs hi hbudget hl
      · cases he
  | end_op i =>
    simp only [step] at he
    split at he
    · cases he
    · rename_i w hi
      cases hl : end_op s.log with
      | error m => rw [hl] at he; cases he
      | ok l =>
        rw [hl] at he
        cases he
        exact inv_end_op hs hi hl
  | commit =>
    simp only [step] at he
    split at he
    · rename_i hc
      cases he
      exact inv_commit hs hc
    · cases he

/-- **The reservation invariant** holds in every reachable state. -/
theorem reachable_inv {s : Sys ι} (hs : LogReachable s) : Inv s := by
  unfold LogReachable at hs
  refine invariant ?_ ?_ hs
  · rintro _ ⟨start, rfl⟩
    exact inv_init start
  · intro a b _ ha hab
    exact inv_step ha hab

/-- The header never passes `LOGSIZE`: the first half of `log_write`'s panic
test is never what fires. -/
theorem lh_length_le_LOGSIZE {s : Sys ι} (hs : LogReachable s) : s.log.lh.length ≤ LOGSIZE := by
  have := (reachable_inv hs).reserve
  omega

/-! ## The panic that admission does not prevent -/

/-- A step as a partial function: `none` unless it completes. -/
def stepOk (s : Sys ι) (e : Event ι) : Option (Sys ι) :=
  match step s e with
  | some (.ok t) => some t
  | _ => none

omit [Fintype ι] in
theorem next_of_stepOk {s t : Sys ι} {e : Event ι} (h : stepOk s e = some t) : Next s t := by
  unfold stepOk at h
  split at h
  · rename_i t' he
    cases h
    exact ⟨e, he⟩
  · cases h

/-- Three operations admitted together (`0 + 3 * MAXOPBLOCKS ≤ LOGSIZE`); the
first two log ten distinct blocks each, the third nine. -/
def tooBigRun : List (Event (Fin 3)) :=
  [.begin_op 0, .begin_op 1, .begin_op 2] ++
    (List.range 10).map (fun k => .log_write 0 (100 + k)) ++
    (List.range 10).map (fun k => .log_write 1 (110 + k)) ++
    (List.range 9).map (fun k => .log_write 2 (120 + k))

/-- **The log fills one block early.** With `log.size = LOGSIZE`, three admitted
operations that each log `MAXOPBLOCKS` distinct blocks reach `log_write`'s
"too big a transaction" panic: the third operation's tenth block finds
`lh.n = 29 = log.size - 1`. -/
theorem log_write_too_big_reachable :
    ∃ t : Sys (Fin 3), LogReachable t ∧ runLabels stepOk (init 2) tooBigRun = some t ∧
      step t (.log_write 2 129) = some (.error "too big a transaction") := by
  obtain ⟨t, ht, hp⟩ : ∃ t, runLabels stepOk (init 2) tooBigRun = some t ∧
      step t (.log_write 2 129) = some (.error "too big a transaction") := ⟨_, rfl, rfl⟩
  have hnext : ∀ (s : Sys (Fin 3)) e u, stepOk s e = some u → Next s u :=
    fun _ _ _ h => next_of_stepOk h
  have hinit : LogReachable (init 2 : Sys (Fin 3)) := Reachable.init ⟨2, rfl⟩
  exact ⟨t, Reachable.of_run hnext tooBigRun hinit ht, ht, hp⟩

end Xv6.Log
