/-
`pipe.c`: the ring buffer of a pipe, and the loops that move bytes through it.

A pipe keeps `PIPESIZE` bytes of data and two `uint` counters: `nwrite` counts
the bytes `pipewrite` stored, `nread` those `piperead` took. The byte with
counter value `n` sits at `data[n % PIPESIZE]`, the pipe is full when
`nwrite == nread + PIPESIZE` and empty when `nread == nwrite`, all in 32-bit
arithmetic that wraps. `PIPESIZE` divides `2^32`, so the ring of `Xv6.Lib.Ring`
describes it across the wrap: the pipe holds the queue `contents p`, a write
adds at its back and a read takes from its front (`contents_pipewrite1`,
`contents_readLoop`).

The model steps a pipe byte by byte for a writer, since `pipewrite` may sleep
between two bytes, and one whole copy loop for a reader, which `piperead` runs
under the lock without sleeping. Whoever the writers and readers are, every byte
read was written earlier, in order, and the counters never drift more than
`PIPESIZE` apart, and the pipe acts as a queue of at most `PIPESIZE` bytes
(`fifo_prefix`).
-/
import Xv6.Lib.Ring
import Xv6.Lib.Reach

set_option autoImplicit false

namespace Xv6.Pipe

open Ring TransitionSystem

/-- `PIPESIZE`. -/
def PIPESIZE : Nat := 512

instance : NeZero PIPESIZE := ⟨by decide⟩

theorem PIPESIZE_dvd : PIPESIZE ∣ 2 ^ 32 := ⟨2 ^ 23, by decide⟩

theorem PIPESIZE_lt : PIPESIZE < 2 ^ 32 := by decide

/-- `struct pipe`, without its lock. The bytes are of any type `α`: the pipe
never looks at them. -/
structure pipe (α : Type) where
  data : Fin PIPESIZE → α
  nread : UInt32
  nwrite : UInt32
  readopen : Bool
  writeopen : Bool

variable {α : Type}

/-- The pipe `pipealloc` makes, over the page `kalloc` gave it. -/
def pipealloc (page : Fin PIPESIZE → α) : pipe α where
  data := page
  nread := 0
  nwrite := 0
  readopen := true
  writeopen := true

/-- One round of `pipewrite`'s loop: store `b` at `nwrite`, unless the pipe is
full, where the writer sleeps (or gives up with -1; either way nothing changes). -/
def pipewrite1 (p : pipe α) (b : α) : Option (pipe α) :=
  if p.nwrite = p.nread + PIPESIZE.toUInt32 then none
  else some { p with data := Function.update p.data (slot PIPESIZE p.nwrite.toNat) b
                     nwrite := p.nwrite + 1 }

/-- `piperead`'s copy loop for `n` bytes: the bytes from `nread` on, fewer if
the pipe runs empty. -/
def readLoop (p : pipe α) : Nat → List α × pipe α
  | 0 => ([], p)
  | n + 1 =>
    if p.nread = p.nwrite then ([], p)
    else
      let r := readLoop { p with nread := p.nread + 1 } n
      (p.data (slot PIPESIZE p.nread.toNat) :: r.1, r.2)

/-- `piperead` of `n` bytes, after its wait: `none` while the pipe is empty and
its write end open, where the reader sleeps (or gives up with -1 unchanged). -/
def piperead (p : pipe α) (n : Nat) : Option (List α × pipe α) :=
  if p.nread = p.nwrite ∧ p.writeopen = true then none
  else some (readLoop p n)

/-- `pipeclose` of one end. When both are closed the page goes back to
`kfree`, and nothing uses the pipe again. -/
def pipeclose (p : pipe α) (writable : Bool) : pipe α :=
  if writable then { p with writeopen := false } else { p with readopen := false }

/-! ## The queue a pipe holds -/

/-- The bytes stored and not yet read, oldest first. -/
def contents (p : pipe α) : List α :=
  window p.data p.nread.toNat (p.nwrite - p.nread).toNat

/-- The counters are at most `PIPESIZE` apart. -/
def Bounded (p : pipe α) : Prop :=
  (p.nwrite - p.nread).toNat ≤ PIPESIZE

@[simp] theorem length_contents (p : pipe α) : (contents p).length = (p.nwrite - p.nread).toNat :=
  length_window _ _ _

theorem full_iff (p : pipe α) :
    p.nwrite = p.nread + PIPESIZE.toUInt32 ↔ (p.nwrite - p.nread).toNat = PIPESIZE :=
  (length_eq_iff PIPESIZE_lt).symm

/-- A write stores at the back of the queue. -/
theorem contents_pipewrite1 {p q : pipe α} {b : α} (hp : Bounded p) (h : pipewrite1 p b = some q) :
    contents q = contents p ++ [b] ∧ Bounded q := by
  unfold pipewrite1 at h
  split at h
  · cases h
  rename_i hfull
  cases h
  -- not full: fewer than `PIPESIZE` bytes, so the slot at `nwrite` is free
  have hlt : (p.nwrite - p.nread).toNat < PIPESIZE := by
    have := (full_iff p).not.mp hfull
    exact lt_of_le_of_ne hp this
  have hlen : (p.nwrite + 1 - p.nread).toNat = (p.nwrite - p.nread).toNat + 1 :=
    length_succ_stop (by have := PIPESIZE_lt; omega)
  refine ⟨?_, by unfold Bounded; rw [hlen]; omega⟩
  unfold contents
  dsimp only
  rw [hlen, ← slot_stop PIPESIZE_dvd p.nread p.nwrite]
  exact window_push hlt b

/-- The front byte is the one at `nread`; the rest starts one counter later. -/
theorem contents_pop {p : pipe α} (hne : p.nread ≠ p.nwrite) :
    contents p = p.data (slot PIPESIZE p.nread.toNat) :: contents { p with nread := p.nread + 1 } := by
  have hlen := length_succ_start hne
  have hmod := toNat_succ_mod PIPESIZE_dvd p.nread
  unfold contents
  dsimp only
  rw [← hlen, window_pop, window_mod hmod.symm]

/-- A copy loop of `n` bytes returns the first `n` bytes of the queue, or all of
them, and leaves the rest. -/
theorem readLoop_take (p : pipe α) (n : Nat) :
    (readLoop p n).1 = (contents p).take n ∧ contents (readLoop p n).2 = (contents p).drop n := by
  induction n generalizing p with
  | zero => simp [readLoop]
  | succ n ih =>
    unfold readLoop
    split
    · -- an empty pipe: the loop stops at once
      rename_i he
      have hnil : contents p = [] := by
        rw [← List.length_eq_zero_iff, length_contents, length_eq_zero.mpr he]
      simp [hnil]
    · rename_i hne
      obtain ⟨h₁, h₂⟩ := ih { p with nread := p.nread + 1 }
      rw [contents_pop hne]
      dsimp only
      exact ⟨by rw [h₁, List.take_succ_cons], by rw [h₂, List.drop_succ_cons]⟩

theorem contents_readLoop (p : pipe α) (n : Nat) :
    contents p = (readLoop p n).1 ++ contents (readLoop p n).2 := by
  obtain ⟨h₁, h₂⟩ := readLoop_take p n
  rw [h₁, h₂, List.take_append_drop]

theorem Bounded.readLoop {p : pipe α} (hp : Bounded p) (n : Nat) : Bounded (readLoop p n).2 := by
  have hlen := congrArg List.length (contents_readLoop p n)
  simp only [List.length_append, length_contents] at hlen
  unfold Bounded at hp ⊢
  omega

/-! ## What a pipe is for

A queue of at most `PIPESIZE` bytes: a write waits while it is full, a read
takes up to `n` bytes from its front. The ring refines it. -/

/-- A write to the queue `q`: `none` while it is full. -/
def qwrite (q : List α) (b : α) : Option (List α) :=
  if q.length < PIPESIZE then some (q ++ [b]) else none

/-- A read of up to `n` bytes from the queue `q`, and what stays. -/
def qread (q : List α) (n : Nat) : List α × List α :=
  (q.take n, q.drop n)

theorem pipewrite1_refines {p : pipe α} (hp : Bounded p) (b : α) :
    (pipewrite1 p b).map contents = qwrite (contents p) b := by
  cases hw : pipewrite1 p b with
  | some q =>
    obtain ⟨hc, -⟩ := contents_pipewrite1 hp hw
    have hnot : ¬p.nwrite = p.nread + PIPESIZE.toUInt32 := by
      intro hfull
      simp [pipewrite1, hfull] at hw
    have hlt : (contents p).length < PIPESIZE := by
      rw [length_contents]
      exact lt_of_le_of_ne hp ((full_iff p).not.mp hnot)
    rw [Option.map_some, qwrite, if_pos hlt, hc]
  | none =>
    -- only a full pipe refuses a byte
    have hfull : p.nwrite = p.nread + PIPESIZE.toUInt32 := by
      by_contra hnot
      simp [pipewrite1, hnot] at hw
    have hlen : ¬(contents p).length < PIPESIZE := by
      rw [length_contents, (full_iff p).mp hfull]
      exact lt_irrefl _
    rw [Option.map_none, qwrite, if_neg hlen]

theorem readLoop_refines (p : pipe α) (n : Nat) :
    ((readLoop p n).1, contents (readLoop p n).2) = qread (contents p) n := by
  obtain ⟨h₁, h₂⟩ := readLoop_take p n
  rw [h₁, h₂]
  rfl

/-- A `piperead` that does not sleep is the queue's read. -/
theorem piperead_refines {p : pipe α} {n : Nat} {r : List α × pipe α} (h : piperead p n = some r) :
    (r.1, contents r.2) = qread (contents p) n := by
  unfold piperead at h
  split at h
  · cases h
  · cases h
    exact readLoop_refines p n

/-! ## Readers and writers -/

/-- A pipe, with every byte a writer stored and every byte a reader returned. -/
structure Sys (α : Type) where
  p : pipe α
  written : List α
  returned : List α

/-- A writer's round, a reader's call, or a close. -/
inductive Event (α : Type) where
  | write (b : α)
  | read (n : Nat)
  | close (writable : Bool)

/-- One step; `none` when it sleeps. -/
def step (s : Sys α) : Event α → Option (Sys α)
  | .write b => (pipewrite1 s.p b).map fun q => { s with p := q, written := s.written ++ [b] }
  | .read n => (piperead s.p n).map fun r => { s with p := r.2, returned := s.returned ++ r.1 }
  | .close w => some { s with p := pipeclose s.p w }

/-- The states from a fresh pipe. -/
def PipeReachable (s : Sys α) : Prop :=
  Reachable (fun s => ∃ page, s = ⟨pipealloc page, [], []⟩) (fun s t => ∃ e, step s e = some t) s

/-- What went in came out in order, and the rest is in the pipe. -/
def Inv (s : Sys α) : Prop :=
  Bounded s.p ∧ s.written = s.returned ++ contents s.p

theorem inv_step {s t : Sys α} {e : Event α} (hs : Inv s) (h : step s e = some t) : Inv t := by
  obtain ⟨hb, hq⟩ := hs
  cases e with
  | write b =>
    obtain ⟨q, hw, rfl⟩ := Option.map_eq_some_iff.mp h
    obtain ⟨hc, hb'⟩ := contents_pipewrite1 hb hw
    exact ⟨hb', by simp only [hc, hq, List.append_assoc]⟩
  | read n =>
    obtain ⟨r, hr, rfl⟩ := Option.map_eq_some_iff.mp h
    unfold piperead at hr
    split at hr
    · cases hr
    cases hr
    refine ⟨hb.readLoop n, ?_⟩
    simp only [hq, contents_readLoop s.p n, List.append_assoc]
  | close w =>
    cases h
    -- closing an end moves no byte
    have hc : contents (pipeclose s.p w) = contents s.p := by
      unfold pipeclose; split <;> rfl
    have hb' : Bounded (pipeclose s.p w) := by
      unfold pipeclose; split <;> exact hb
    exact ⟨hb', by simp only [hc, hq]⟩

theorem inv_reachable {s : Sys α} (hs : PipeReachable s) : Inv s := by
  refine invariant ?_ (fun s t _ hi ⟨e, he⟩ => inv_step hi he) hs
  rintro _ ⟨page, rfl⟩
  exact ⟨by simp [Bounded, pipealloc], by simp [contents, pipealloc]⟩

/-- In every state a pipe reaches, under any interleaving of writers and
readers: the counters are at most `PIPESIZE` apart, as 32-bit differences; the
bytes the writers stored are those the readers returned followed by those still
in the pipe, so that none is lost, duplicated or reordered; and from there the
next round of a writer acts on the bytes in the pipe as the bounded queue's
write, and a reader's call as the queue's read. -/
theorem fifo_prefix {s : Sys α} (hs : PipeReachable s) :
    (s.p.nwrite - s.p.nread).toNat ≤ PIPESIZE ∧ s.written = s.returned ++ contents s.p ∧
      (∀ b, (pipewrite1 s.p b).map contents = qwrite (contents s.p) b) ∧
      (∀ n r, piperead s.p n = some r → (r.1, contents r.2) = qread (contents s.p) n) := by
  obtain ⟨hb, hq⟩ := inv_reachable hs
  exact ⟨hb, hq, pipewrite1_refines hb, fun _ _ => piperead_refines⟩

theorem PipeReachable.of_run (page : Fin PIPESIZE → α) (es : List (Event α)) {t : Sys α}
    (h : runLabels step ⟨pipealloc page, [], []⟩ es = some t) : PipeReachable t :=
  Reachable.of_run (fun _ e _ he => ⟨e, he⟩) es (Reachable.init ⟨page, rfl⟩) h

/-- Two bytes written and one read: the reader has the first, the second is
still in the pipe, and the next read of the pipe is the queue's. -/
theorem fifo_prefix_two_writes :
    ∃ s, runLabels step ⟨pipealloc (fun _ => (0 : Nat)), [], []⟩ [.write 7, .write 8, .read 1] =
        some s ∧ s.returned = [7] ∧ contents s.p = [8] ∧
      (s.p.nwrite - s.p.nread).toNat ≤ PIPESIZE ∧ s.written = s.returned ++ contents s.p ∧
      (∀ b, (pipewrite1 s.p b).map contents = qwrite (contents s.p) b) ∧
      (∀ n r, piperead s.p n = some r → (r.1, contents r.2) = qread (contents s.p) n) := by
  obtain ⟨s, hrun, hr, hc⟩ : ∃ s, runLabels step ⟨pipealloc (fun _ => (0 : Nat)), [], []⟩
      [.write 7, .write 8, .read 1] = some s ∧ s.returned = [7] ∧ contents s.p = [8] :=
    ⟨_, rfl, rfl, rfl⟩
  exact ⟨s, hrun, hr, hc, fifo_prefix (PipeReachable.of_run _ _ hrun)⟩

end Xv6.Pipe
