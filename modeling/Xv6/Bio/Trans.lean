/-
File-system operations inside log transactions, over the buffer cache.

Each operation `i : ι` uses the cache between its `begin_op` and `end_op` as the
comment above `log_write` prescribes:

    bp = bread(...)
    modify bp->data[]
    log_write(bp)
    brelse(bp)

The steps are one critical section each:
* `bget`: `bread`'s `bget`, with the reference taken;
* `lock`: its `acquiresleep` returning, followed by the read when the buffer is
  not valid. An operation waiting here does nothing else.
* `modify`: a store into the data of a buffer it holds locked;
* `log_write` and `brelse`;
* `begin_op` and `end_op` from `Xv6.Log.Admission`, with the same budget of
  `MAXOPBLOCKS` distinct logged blocks per operation;
* `commit`: the end of the last `end_op`, running `Xv6.Bio.commit` through the
  cache and then clearing `committing`.

Operations address only blocks outside the log area, since the file system's
blocks follow the log on disk. Nothing else uses the cache.

Two fields are ghost state that the C code does not have: `hold.changed` (the
operation has stored into the buffer since it last passed it to `log_write`)
and `Sys.mem`, the most recent contents stored into each block. A `brelse` of a
changed buffer is not enabled, which is the discipline above.
-/
import Xv6.Bio.Commit
import Xv6.Log.Admission

set_option autoImplicit false

namespace Xv6.Bio

open TransitionSystem
open Xv6.Log (Disk HeaderBlock MAXOPBLOCKS LOGSIZE read_head)

/-! ## Operations and the system -/

/-- A buffer an operation holds: the block it asked for, the buffer `bget` gave
it, whether `acquiresleep` has returned, and (ghost) whether the operation has
stored into it since its last `log_write` of it. -/
structure hold where
  blockno : Nat
  buf : Fin NBUF
  locked : Bool
  changed : Bool
  deriving DecidableEq, Repr

/-- An operation inside a transaction: the distinct blocks it has passed to
`log_write` (as in `Log.Sys`), the distinct blocks it has asked `bget` for, and
the buffers it holds. -/
structure opstate where
  written : List Nat
  touched : List Nat
  holds : List hold
  deriving DecidableEq, Repr

namespace opstate

/-- Not asleep in `acquiresleep`. -/
def ready (o : opstate) : Bool :=
  o.holds.all (·.locked)

/-- The hold on block `b`. -/
def held (o : opstate) (b : Nat) : Option hold :=
  o.holds.find? (·.blockno == b)

/-- Replace the hold on block `h.blockno` by `h`. -/
def sethold (o : opstate) (h : hold) : opstate :=
  { o with holds := o.holds.map fun h' => if h'.blockno = h.blockno then h else h' }

/-- Forget the hold on block `b`. -/
def release (o : opstate) (b : Nat) : opstate :=
  { o with holds := o.holds.filter (·.blockno ≠ b) }

theorem held_some {o : opstate} {b : Nat} {h : hold} (hh : o.held b = some h) :
    h ∈ o.holds ∧ h.blockno = b := by
  have hb := List.find?_some hh
  simp only [beq_iff_eq] at hb
  exact ⟨List.mem_of_find?_eq_some hh, hb⟩

theorem held_none {o : opstate} {b : Nat} (hh : o.held b = none) :
    ∀ h ∈ o.holds, h.blockno ≠ b := by
  intro h hm heq
  have := List.find?_eq_none.mp hh h hm
  simp [heq] at this

@[simp] theorem sethold_written (o : opstate) (h : hold) : (o.sethold h).written = o.written := rfl

@[simp] theorem sethold_touched (o : opstate) (h : hold) : (o.sethold h).touched = o.touched := rfl

@[simp] theorem release_written (o : opstate) (b : Nat) : (o.release b).written = o.written := rfl

@[simp] theorem release_touched (o : opstate) (b : Nat) : (o.release b).touched = o.touched := rfl

theorem mem_sethold {o : opstate} {h x : hold} :
    x ∈ (o.sethold h).holds ↔ ∃ y ∈ o.holds, (if y.blockno = h.blockno then h else y) = x := by
  simp [sethold]

/-- `sethold` keeps the blocks held. -/
theorem sethold_blocknos (o : opstate) (h : hold) :
    (o.sethold h).holds.map hold.blockno = o.holds.map hold.blockno := by
  simp only [sethold, List.map_map]
  apply List.map_congr_left
  intro y _
  simp only [Function.comp_apply]
  split
  · rename_i hy
    exact hy.symm
  · rfl

theorem mem_release {o : opstate} {b : Nat} {x : hold} :
    x ∈ (o.release b).holds ↔ x ∈ o.holds ∧ x.blockno ≠ b := by
  simp [release]

end opstate

/-- The log, the cache, the disk, the operations, and (ghost) the latest
contents of every block. -/
structure Sys (α ι : Type) where
  log : Log.log
  cache : bcache α
  disk : Disk α
  op : ι → Option opstate
  mem : Disk α

/-- A block that is not one of the log's. -/
def outside (l : Log.log) (b : Nat) : Prop :=
  b < l.start ∨ l.start + l.size ≤ b

instance (l : Log.log) (b : Nat) : Decidable (outside l b) :=
  inferInstanceAs (Decidable (b < l.start ∨ l.start + l.size ≤ b))

/-- Whether an operation holds buffer `k` with its sleep lock. -/
def lockedBy : Option opstate → Fin NBUF → Bool
  | some o, k => o.holds.any fun h => h.buf = k ∧ h.locked
  | none, _ => false

/-- What an operation (or the committing `end_op`) does next. -/
inductive Event (α ι : Type) where
  | begin_op (i : ι)
  | bget (i : ι) (b : Nat)
  | lock (i : ι) (b : Nat)
  | modify (i : ι) (b : Nat) (v : α)
  | log_write (i : ι) (b : Nat)
  | brelse (i : ι) (b : Nat)
  | end_op (i : ι)
  | commit

variable {α ι : Type} [HeaderBlock α] [DecidableEq ι] [Fintype ι]

/-- One critical section. `none`: not enabled; `some (.error m)`: `panic(m)`. -/
def step (s : Sys α ι) : Event α ι → Option (Except String (Sys α ι))
  | .begin_op i =>
    match s.op i with
    | some _ => none
    | none => (Log.begin_op s.log).map fun l =>
      .ok { s with log := l, op := Function.update s.op i (some ⟨[], [], []⟩) }
  | .bget i b =>
    match s.op i with
    | none => none
    | some o =>
      if o.ready ∧ o.held b = none ∧ outside s.log b then
        some ((bget ROOTDEV b s.cache).map fun (k, c) =>
          { s with
            cache := c
            op := Function.update s.op i (some
              { o with touched := Log.absorb o.touched b, holds := ⟨b, k, false, false⟩ :: o.holds }) })
      else none
  | .lock i b =>
    match s.op i with
    | none => none
    | some o =>
      match o.held b with
      | none => none
      | some h =>
        if h.locked = false ∧ ∀ j, lockedBy (s.op j) h.buf = false then
          some (.ok { s with
            cache := fill s.disk h.buf s.cache
            op := Function.update s.op i (some (o.sethold { h with locked := true })) })
        else none
  | .modify i b v =>
    match s.op i with
    | none => none
    | some o =>
      match o.held b with
      | none => none
      | some h =>
        if o.ready then
          some (.ok { s with
            cache := s.cache.upd h.buf fun x => { x with data := v }
            op := Function.update s.op i (some (o.sethold { h with changed := true }))
            mem := Function.update s.mem b v })
        else none
  | .log_write i b =>
    match s.op i with
    | none => none
    | some o =>
      match o.held b with
      | none => none
      | some h =>
        if o.ready ∧ (b ∈ o.written ∨ o.written.length < MAXOPBLOCKS) then
          some ((Log.log_write s.log b).map fun l =>
            { s with
              log := l
              cache := s.cache.upd h.buf fun x => { x with dirty := true }
              op := Function.update s.op i (some
                { o.sethold { h with changed := false } with written := Log.absorb o.written b }) })
        else none
  | .brelse i b =>
    match s.op i with
    | none => none
    | some o =>
      match o.held b with
      | none => none
      | some h =>
        if o.ready ∧ h.changed = false then
          some (.ok { s with
            cache := brelse h.buf s.cache
            op := Function.update s.op i (some (o.release b)) })
        else none
  | .end_op i =>
    match s.op i with
    | none => none
    | some o =>
      if o.holds = [] then
        some ((Log.end_op s.log).map fun l => { s with log := l, op := Function.update s.op i none })
      else none
  | .commit =>
    if s.log.committing then
      some ((commit s.log.start s.log.lh (s.cache, s.disk)).map fun (c, d) =>
        { s with log := Log.end_commit s.log, cache := c, disk := d, mem := d })
    else none

/-- After `binit`, and `initlog` on mkfs's layout: `nlog = LOGSIZE` blocks from
`start`, and no operation has begun. The contents are the disk's. -/
def init [Inhabited α] (start : Nat) (d : Disk α) : Sys α ι :=
  { log := { start, size := LOGSIZE, outstanding := 0, committing := false, lh := [] },
    cache := binit, disk := d, op := fun _ => none, mem := d }

/-- A step that completes. -/
def Next (s t : Sys α ι) : Prop :=
  ∃ e, step s e = some (.ok t)

/-- The states reachable from a boot whose recovery left the log header empty. -/
def CacheReachable [Inhabited α] (s : Sys α ι) : Prop :=
  Reachable (fun s => ∃ start d, read_head start d = [] ∧ s = init start d) Next s

/-- An operation asks `bget` for at most `MAXOPBLOCKS` distinct blocks per
transaction. -/
def within (s : Sys α ι) : Event α ι → Bool
  | .bget i b =>
    match s.op i with
    | some o => decide (b ∈ o.touched ∨ o.touched.length < MAXOPBLOCKS)
    | none => true
  | _ => true

/-- A step that completes, by operations that keep to that budget. -/
def WithinNext (s t : Sys α ι) : Prop :=
  ∃ e, within s e = true ∧ step s e = some (.ok t)

/-- The states reachable when every operation keeps to the budget. -/
def WithinReachable [Inhabited α] (s : Sys α ι) : Prop :=
  Reachable (fun s => ∃ start d, read_head start d = [] ∧ s = init start d) WithinNext s

/-- A step as a partial function: `none` unless it completes. -/
def stepOk (s : Sys α ι) (e : Event α ι) : Option (Sys α ι) :=
  match step s e with
  | some (.ok t) => some t
  | _ => none

theorem step_of_stepOk {s t : Sys α ι} {e : Event α ι} (h : stepOk s e = some t) :
    step s e = some (.ok t) := by
  unfold stepOk at h
  split at h
  · rename_i t' he
    cases h
    exact he
  · cases h

theorem next_of_stepOk {s t : Sys α ι} {e : Event α ι} (h : stepOk s e = some t) : Next s t :=
  ⟨e, step_of_stepOk h⟩

/-- A run of completed steps from a boot is reachable. -/
theorem CacheReachable.of_run [Inhabited α] {start : Nat} {d : Disk α}
    (hd : read_head start d = []) (es : List (Event α ι)) {t : Sys α ι}
    (h : runLabels stepOk (init start d) es = some t) : CacheReachable t := by
  have hinit : CacheReachable (init start d : Sys α ι) := Reachable.init ⟨start, d, hd, rfl⟩
  have hnext : ∀ (s : Sys α ι) e u, stepOk s e = some u → Next s u := fun _ _ _ h => next_of_stepOk h
  exact Reachable.of_run hnext es hinit h

/-- A step as a partial function that also refuses an event over the budget. -/
def stepWithin (s : Sys α ι) (e : Event α ι) : Option (Sys α ι) :=
  if within s e then stepOk s e else none

theorem withinNext_of_stepWithin {s t : Sys α ι} {e : Event α ι} (h : stepWithin s e = some t) :
    WithinNext s t := by
  unfold stepWithin at h
  split at h
  · rename_i hw
    exact ⟨e, hw, step_of_stepOk h⟩
  · cases h

/-- A run within the budget from a boot is reachable within the budget. -/
theorem WithinReachable.of_run [Inhabited α] {start : Nat} {d : Disk α}
    (hd : read_head start d = []) (es : List (Event α ι)) {t : Sys α ι}
    (h : runLabels stepWithin (init start d) es = some t) : WithinReachable t := by
  have hinit : WithinReachable (init start d : Sys α ι) := Reachable.init ⟨start, d, hd, rfl⟩
  have hnext : ∀ (s : Sys α ι) e u, stepWithin s e = some u → WithinNext s u :=
    fun _ _ _ h => withinNext_of_stepWithin h
  exact Reachable.of_run hnext es hinit h

/-! ## What a step can do -/

/-- The completed steps, one constructor per event with its guards, indexed by
the event. -/
inductive Move : Sys α ι → Event α ι → Sys α ι → Prop
  | begin_op {s : Sys α ι} {i : ι} {l : Log.log} (hi : s.op i = none)
      (hl : Log.begin_op s.log = some l) :
      Move s (.begin_op i) { s with log := l, op := Function.update s.op i (some ⟨[], [], []⟩) }
  | bget {s : Sys α ι} {i : ι} {o : opstate} {b : Nat} {k : Fin NBUF} {c : bcache α}
      (hi : s.op i = some o) (hr : o.ready = true) (hb : o.held b = none) (hout : outside s.log b)
      (hk : bget ROOTDEV b s.cache = .ok (k, c)) :
      Move s (.bget i b) { s with
        cache := c
        op := Function.update s.op i (some
          { o with touched := Log.absorb o.touched b, holds := ⟨b, k, false, false⟩ :: o.holds }) }
  | lock {s : Sys α ι} {i : ι} {o : opstate} {b : Nat} {h : hold} (hi : s.op i = some o)
      (hh : o.held b = some h) (hl : h.locked = false) (hfree : ∀ j, lockedBy (s.op j) h.buf = false) :
      Move s (.lock i b) { s with
        cache := fill s.disk h.buf s.cache
        op := Function.update s.op i (some (o.sethold { h with locked := true })) }
  | modify {s : Sys α ι} {i : ι} {o : opstate} {b : Nat} {h : hold} {v : α}
      (hi : s.op i = some o) (hh : o.held b = some h) (hr : o.ready = true) :
      Move s (.modify i b v) { s with
        cache := s.cache.upd h.buf fun x => { x with data := v }
        op := Function.update s.op i (some (o.sethold { h with changed := true }))
        mem := Function.update s.mem b v }
  | log_write {s : Sys α ι} {i : ι} {o : opstate} {b : Nat} {h : hold} {l : Log.log}
      (hi : s.op i = some o) (hh : o.held b = some h) (hr : o.ready = true)
      (hbudget : b ∈ o.written ∨ o.written.length < MAXOPBLOCKS) (hl : Log.log_write s.log b = .ok l) :
      Move s (.log_write i b) { s with
        log := l
        cache := s.cache.upd h.buf fun x => { x with dirty := true }
        op := Function.update s.op i (some
          { o.sethold { h with changed := false } with written := Log.absorb o.written b }) }
  | brelse {s : Sys α ι} {i : ι} {o : opstate} {b : Nat} {h : hold} (hi : s.op i = some o)
      (hh : o.held b = some h) (hr : o.ready = true) (hc : h.changed = false) :
      Move s (.brelse i b) { s with
        cache := brelse h.buf s.cache
        op := Function.update s.op i (some (o.release b)) }
  | end_op {s : Sys α ι} {i : ι} {o : opstate} {l : Log.log} (hi : s.op i = some o)
      (hnil : o.holds = []) (hl : Log.end_op s.log = .ok l) :
      Move s (.end_op i) { s with log := l, op := Function.update s.op i none }
  | commit {s : Sys α ι} {c : bcache α} {d : Disk α} (hc : s.log.committing = true)
      (h : commit s.log.start s.log.lh (s.cache, s.disk) = .ok (c, d)) :
      Move s .commit { s with log := Log.end_commit s.log, cache := c, disk := d, mem := d }

theorem Move.of_step {s t : Sys α ι} {e : Event α ι} (h : step s e = some (.ok t)) :
    Move s e t := by
  cases e with
  | begin_op i =>
    simp only [step] at h
    split at h
    · cases h
    · rename_i hi
      cases hl : Log.begin_op s.log with
      | none => rw [hl] at h; cases h
      | some l => rw [hl] at h; cases h; exact .begin_op hi hl
  | bget i b =>
    simp only [step] at h
    split at h
    · cases h
    · rename_i o hi
      split at h
      · rename_i hg
        cases hk : Bio.bget ROOTDEV b s.cache with
        | error m => rw [hk] at h; cases h
        | ok r =>
          rw [hk] at h
          cases h
          exact .bget hi hg.1 hg.2.1 hg.2.2 hk
      · cases h
  | lock i b =>
    simp only [step] at h
    split at h
    · cases h
    · rename_i o hi
      split at h
      · cases h
      · rename_i hd hh
        split at h
        · rename_i hg
          cases h
          exact .lock hi hh hg.1 hg.2
        · cases h
  | modify i b v =>
    simp only [step] at h
    split at h
    · cases h
    · rename_i o hi
      split at h
      · cases h
      · rename_i hd hh
        split at h
        · rename_i hr
          cases h
          exact .modify hi hh hr
        · cases h
  | log_write i b =>
    simp only [step] at h
    split at h
    · cases h
    · rename_i o hi
      split at h
      · cases h
      · rename_i hd hh
        split at h
        · rename_i hg
          cases hl : Log.log_write s.log b with
          | error m => rw [hl] at h; cases h
          | ok l =>
            rw [hl] at h
            cases h
            exact .log_write hi hh hg.1 hg.2 hl
        · cases h
  | brelse i b =>
    simp only [step] at h
    split at h
    · cases h
    · rename_i o hi
      split at h
      · cases h
      · rename_i hd hh
        split at h
        · rename_i hg
          cases h
          exact .brelse hi hh hg.1 hg.2
        · cases h
  | end_op i =>
    simp only [step] at h
    split at h
    · cases h
    · rename_i o hi
      split at h
      · rename_i hnil
        cases hl : Log.end_op s.log with
        | error m => rw [hl] at h; cases h
        | ok l => rw [hl] at h; cases h; exact .end_op hi hnil hl
      · cases h
  | commit =>
    simp only [step] at h
    split at h
    · rename_i hc
      cases hr : Bio.commit s.log.start s.log.lh (s.cache, s.disk) with
      | error m => rw [hr] at h; cases h
      | ok r =>
        rw [hr] at h
        cases h
        exact .commit hc hr
    · cases h

/-- The panics a step can reach: `bget`'s, the two of `log_write`, `end_op`'s,
and whatever `commit()` reaches through `bread`. -/
theorem step_error {s : Sys α ι} {e : Event α ι} {m : String} (h : step s e = some (.error m)) :
    (∃ i b o, e = .bget i b ∧ s.op i = some o ∧ o.ready = true ∧ o.held b = none ∧
      outside s.log b ∧ bget ROOTDEV b s.cache = .error m) ∨
    (∃ i b, e = .log_write i b ∧ Log.log_write s.log b = .error m) ∨
    (∃ i, e = .end_op i ∧ Log.end_op s.log = .error m) ∨
    (e = .commit ∧ s.log.committing = true ∧
      commit s.log.start s.log.lh (s.cache, s.disk) = .error m) := by
  cases e with
  | begin_op i =>
    simp only [step] at h
    split at h
    · cases h
    · cases hl : Log.begin_op s.log with
      | none => rw [hl] at h; cases h
      | some l => rw [hl] at h; cases h
  | bget i b =>
    simp only [step] at h
    split at h
    · cases h
    · rename_i o hi
      split at h
      · rename_i hg
        cases hk : bget ROOTDEV b s.cache with
        | error m' =>
          rw [hk] at h
          cases h
          exact .inl ⟨i, b, o, rfl, hi, hg.1, hg.2.1, hg.2.2, hk⟩
        | ok r => rw [hk] at h; cases h
      · cases h
  | lock i b =>
    simp only [step] at h
    split at h
    · cases h
    · split at h
      · cases h
      · split at h <;> cases h
  | modify i b v =>
    simp only [step] at h
    split at h
    · cases h
    · split at h
      · cases h
      · split at h <;> cases h
  | log_write i b =>
    simp only [step] at h
    split at h
    · cases h
    · split at h
      · cases h
      · split at h
        · cases hl : Log.log_write s.log b with
          | error m' =>
            rw [hl] at h
            cases h
            exact .inr (.inl ⟨i, b, rfl, hl⟩)
          | ok l => rw [hl] at h; cases h
        · cases h
  | brelse i b =>
    simp only [step] at h
    split at h
    · cases h
    · split at h
      · cases h
      · split at h <;> cases h
  | end_op i =>
    simp only [step] at h
    split at h
    · cases h
    · split at h
      · cases hl : Log.end_op s.log with
        | error m' =>
          rw [hl] at h
          cases h
          exact .inr (.inr (.inl ⟨i, rfl, rfl⟩))
        | ok l => rw [hl] at h; cases h
      · cases h
  | commit =>
    simp only [step] at h
    split at h
    · rename_i hc
      cases hr : commit s.log.start s.log.lh (s.cache, s.disk) with
      | error m' =>
        rw [hr] at h
        cases h
        exact .inr (.inr (.inr ⟨rfl, hc, rfl⟩))
      | ok r => rw [hr] at h; cases h
    · cases h

/-! ## The log underneath -/

/-- The log's view: each operation's written blocks. -/
def toLog (s : Sys α ι) : Log.Sys ι :=
  { log := s.log, op := fun i => (s.op i).map opstate.written }

omit [HeaderBlock α] [DecidableEq ι] [Fintype ι] in
@[simp] theorem toLog_op (s : Sys α ι) (i : ι) : (toLog s).op i = (s.op i).map opstate.written :=
  rfl

omit [HeaderBlock α] [Fintype ι] in
theorem toLog_op_update (s : Sys α ι) (i : ι) (y : Option opstate) :
    (fun j => (Function.update s.op i y j).map opstate.written) =
      Function.update (toLog s).op i (y.map opstate.written) := by
  funext j
  by_cases hj : j = i
  · subst hj
    simp
  · simp [hj, toLog]

omit [HeaderBlock α] [DecidableEq ι] [Fintype ι] in
@[simp] theorem toLog_log (s : Sys α ι) : (toLog s).log = s.log :=
  rfl

omit [HeaderBlock α] [Fintype ι] in
theorem toLog_update (s : Sys α ι) (l : Log.log) (c : bcache α) (d m : Disk α) (i : ι)
    (y : Option opstate) :
    toLog { log := l, cache := c, disk := d, op := Function.update s.op i y, mem := m } =
      { log := l, op := Function.update (toLog s).op i (y.map opstate.written) } := by
  rw [← toLog_op_update]
  rfl

omit [HeaderBlock α] [Fintype ι] in
/-- A change to an operation's holds alone is invisible to the log. -/
theorem toLog_op_update_same (s : Sys α ι) {i : ι} {o o' : opstate} (hi : s.op i = some o)
    (hw : o'.written = o.written) :
    (fun j => (Function.update s.op i (some o') j).map opstate.written) = (toLog s).op := by
  rw [toLog_op_update, Function.update_eq_self_iff]
  simp [hi, hw]

omit [Fintype ι] in
/-- Every completed step is a step of the log, or leaves it alone. -/
theorem Move.log_next {s t : Sys α ι} {e : Event α ι} (h : Move s e t) :
    toLog t = toLog s ∨ Log.Next (toLog s) (toLog t) := by
  cases h with
  | @begin_op i _ hi hl =>
    refine .inr ⟨.begin_op i, ?_⟩
    simp only [Log.step, toLog_op, hi, Option.map_none, toLog_log, hl, Option.map_some,
      toLog_update]
  | bget hi _ _ _ _ => exact .inl (congrArg (Log.Sys.mk s.log) (toLog_op_update_same s hi rfl))
  | lock hi _ _ _ => exact .inl (congrArg (Log.Sys.mk s.log) (toLog_op_update_same s hi rfl))
  | modify hi _ _ => exact .inl (congrArg (Log.Sys.mk s.log) (toLog_op_update_same s hi rfl))
  | brelse hi _ _ _ => exact .inl (congrArg (Log.Sys.mk s.log) (toLog_op_update_same s hi rfl))
  | @log_write i _ b _ _ hi _ _ hbudget hl =>
    refine .inr ⟨.log_write i b, ?_⟩
    simp only [Log.step, toLog_op, hi, Option.map_some, hbudget, if_true, toLog_log, hl,
      toLog_update]
    rfl
  | @end_op i _ _ hi _ hl =>
    refine .inr ⟨.end_op i, ?_⟩
    simp only [Log.step, toLog_op, hi, Option.map_some, toLog_log, hl, toLog_update]
    rfl
  | commit hc _ =>
    refine .inr ⟨.commit, ?_⟩
    simp only [Log.step, toLog_log, hc, if_true]
    rfl

/-- The log's invariant holds along every run. -/
theorem Move.log_inv {s t : Sys α ι} {e : Event α ι} (h : Move s e t) (hs : Log.Inv (toLog s)) :
    Log.Inv (toLog t) := by
  rcases h.log_next with h | h
  · rw [h]
    exact hs
  · exact Log.inv_step hs h

omit [HeaderBlock α] [DecidableEq ι] [Fintype ι] in
theorem toLog_init [Inhabited α] (start : Nat) (d : Disk α) :
    toLog (init start d : Sys α ι) = Log.init start := by
  simp [toLog, init, Log.init]

end Xv6.Bio
