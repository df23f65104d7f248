/-
Crash atomicity of `log.c`'s transactions.

Cut `commit()` after any number of its block writes, then run
`recover_from_log()` (cut short and rerun as often as the machine likes, and
finally let it finish): every logged block ends up holding its contents from
before the transaction, or every logged block holds its contents from the
cache, never a mix. This is `commit_crash_atomic`.

The argument is the one the comments in `log.c` give, split into three phases of
the disk (relative to the transaction `lh`, the disk `pre` it started from and
the cached contents `cache`):

* `Uncommitted`: the on-disk header is empty and the home blocks are old. This
  holds while `write_log` fills the log slots, whatever the slots hold.
* `Committed`: the header lists `lh` and the slots hold the new contents. The
  header write makes it true (the commit point) and `install_trans` keeps it,
  whatever the home blocks hold in between.
* `Installed`: the header is empty again and the home blocks are new.

Each procedure is one crash triple whose crash condition is the disjunction
`Consistent`; recovery from `Committed` is a redo, which is why a recovery cut
short can simply be run again.

Two facts about the disk layout enter as hypotheses, and the code provides both:
the transaction fits the log (`log_write` panics before `lh.n` reaches
`log.size - 1`, so `lh.length < size`), and no logged block is a block of the
log area `[start, start + size)` (the file system only `log_write`s inode,
bitmap and data blocks, which mkfs lays out after the log). The disk's header
is empty when `commit()` starts: `recover_from_log` at boot and every earlier
`commit` end by clearing it (`recover_triple`, `commit_triple`).
-/
import Xv6.Log.Basic

set_option autoImplicit false

namespace Xv6.Log

open CrashHoare

variable {α : Type} [HeaderBlock α]

/-- The layout facts: the transaction has room in the log, and no logged block
lies in the log area. -/
structure Fits (start size : Nat) (lh : List Nat) : Prop where
  room : lh.length < size
  outside : ∀ b ∈ lh, b < start ∨ start + size ≤ b

theorem Fits.ne_start {start size : Nat} {lh : List Nat} (hf : Fits start size lh) {b : Nat}
    (hb : b ∈ lh) : b ≠ start := by
  have := hf.outside b hb
  have := hf.room
  omega

/-- A logged block is never one of the transaction's log slots. -/
theorem Fits.ne_slot {start size : Nat} {lh : List Nat} (hf : Fits start size lh) {b i : Nat}
    (hb : b ∈ lh) (hi : i < lh.length) : b ≠ start + i + 1 := by
  have := hf.outside b hb
  have := hf.room
  omega

private theorem drop_eq_cons {l : List Nat} {i b : Nat} {bs : List Nat} (h : l.drop i = b :: bs) :
    ∃ hi : i < l.length, l[i] = b ∧ l.drop (i + 1) = bs := by
  have hi : i < l.length := by
    by_contra hc
    rw [List.drop_eq_nil_of_le (by omega)] at h
    cases h
  rw [List.drop_eq_getElem_cons hi] at h
  obtain ⟨h1, h2⟩ := List.cons.inj h
  exact ⟨hi, h1, h2⟩

/-! ## The three phases -/

section Phases

variable (start : Nat) (lh : List Nat) (pre : Disk α) (cache : Nat → α)

/-- Before the commit point: empty header, old home blocks. -/
def Uncommitted (d : Disk α) : Prop :=
  read_head start d = [] ∧ ∀ b ∈ lh, d b = pre b

/-- Log slot `i` holds the cached contents of the `i`-th logged block. -/
def LogHolds (d : Disk α) : Prop :=
  ∀ i (hi : i < lh.length), d (start + i + 1) = cache lh[i]

/-- After the commit point: the header lists the transaction and the log holds it. -/
def Committed (d : Disk α) : Prop :=
  read_head start d = lh ∧ LogHolds start lh cache d

/-- Installed and erased: empty header, new home blocks. -/
def Installed (d : Disk α) : Prop :=
  read_head start d = [] ∧ ∀ b ∈ lh, d b = cache b

/-- The disks a crash can leave, during the commit or during a recovery. -/
def Consistent (d : Disk α) : Prop :=
  Uncommitted start lh pre d ∨ Committed start lh cache d ∨ Installed start lh cache d

end Phases

variable {start size : Nat} {lh : List Nat} {pre : Disk α} {cache : Nat → α}

/-- With an empty header on disk, recovery only rewrites the header. -/
theorem recover_from_log_of_empty {d : Disk α} (h : read_head start d = []) :
    recover_from_log start d = write_head start [] := by
  simp [recover_from_log, h, install_trans, install_trans_from]

/-- Clearing the header touches nothing else a phase looks at. -/
theorem write_head_nil_homes (hf : Fits start size lh) (d : Disk α) :
    read_head start (run (write_head start []) d) = [] ∧
      ∀ b ∈ lh, run (write_head start []) d b = d b := by
  refine ⟨by simp [write_head], fun b hb => ?_⟩
  simp only [write_head, run_cons, run_nil]
  exact bwrite_other _ d (hf.ne_start hb)

/-! ## `commit()` -/

/-- `write_log` from slot `i` on: every crash point is still uncommitted, and at
the end every slot holds its block. -/
theorem write_log_from_triple (hf : Fits start size lh) (i : Nat) (bs : List Nat)
    (hbs : lh.drop i = bs) :
    Triple (fun d => Uncommitted start lh pre d ∧
        ∀ j (hj : j < lh.length), j < i → d (start + j + 1) = cache lh[j])
      (write_log_from start cache i bs)
      (fun d => Uncommitted start lh pre d ∧ LogHolds start lh cache d)
      (Uncommitted start lh pre) := by
  induction bs generalizing i with
  | nil =>
    have hi : lh.length ≤ i := List.drop_eq_nil_iff.mp hbs
    refine Triple.nil (fun _ hd => hd.1) ?_
    rintro d ⟨hu, hp⟩
    exact ⟨hu, fun j hj => hp j hj (by omega)⟩
  | cons b bs ih =>
    obtain ⟨hi, hb, hrest⟩ := drop_eq_cons hbs
    refine Triple.cons (fun _ hd => hd.1) ?_ (ih (i + 1) hrest)
    rintro d ⟨⟨hhead, hhome⟩, hp⟩
    refine ⟨⟨?_, fun x hx => ?_⟩, fun j hj hji => ?_⟩
    · rw [read_head_bwrite_other _ _ (by omega)]
      exact hhead
    · rw [bwrite_other _ _ (hf.ne_slot hx hi)]
      exact hhome x hx
    · -- slot `i` is the one just written; the earlier ones are untouched
      by_cases hji' : j = i
      · subst hji'
        rw [hb, bwrite_same]
      · rw [bwrite_other _ _ (by omega)]
        exact hp j hj (by omega)

/-- The header write is the commit point. -/
theorem write_head_triple :
    Triple (fun d => Uncommitted start lh pre d ∧ LogHolds start lh cache d)
      (write_head start lh) (Committed start lh cache) (Consistent start lh pre cache) := by
  refine Triple.cons (fun _ hd => Or.inl hd.1) (fun d hd => ⟨by simp, fun i hi => ?_⟩)
    (Triple.nil (fun _ hd => Or.inr (Or.inl hd)) (fun _ hd => hd))
  rw [bwrite_other _ _ (by omega)]
  exact hd.2 i hi

/-- `install_trans` from slot `i` on, once committed: the header and the log stay
as they are, and at the end every home block holds its new contents. This is the
redo that recovery repeats. -/
theorem install_trans_from_triple (hf : Fits start size lh) (i : Nat) (bs : List Nat)
    (hbs : lh.drop i = bs) :
    Triple (fun d => Committed start lh cache d ∧
        ∀ j (hj : j < lh.length), j < i → d lh[j] = cache lh[j])
      (install_trans_from start i bs)
      (fun d => Committed start lh cache d ∧ ∀ b ∈ lh, d b = cache b)
      (Committed start lh cache) := by
  induction bs generalizing i with
  | nil =>
    have hi : lh.length ≤ i := List.drop_eq_nil_iff.mp hbs
    refine Triple.nil (fun _ hd => hd.1) ?_
    rintro d ⟨hc, hp⟩
    refine ⟨hc, fun b hb => ?_⟩
    obtain ⟨j, hj, rfl⟩ := List.mem_iff_getElem.mp hb
    exact hp j hj (by omega)
  | cons b bs ih =>
    obtain ⟨hi, hb, hrest⟩ := drop_eq_cons hbs
    have hbmem : b ∈ lh := hb ▸ List.getElem_mem hi
    refine Triple.cons (fun _ hd => hd.1) ?_ (ih (i + 1) hrest)
    rintro d ⟨⟨hhead, hlog⟩, hp⟩
    -- the copy reads slot `i`, which holds the new contents of `b`
    have hcopy : d (start + i + 1) = cache b := by rw [hlog i hi, hb]
    refine ⟨⟨?_, fun j hj => ?_⟩, fun j hj hji => ?_⟩
    · rw [read_head_bwrite_other _ _ (hf.ne_start hbmem).symm]
      exact hhead
    · rw [bwrite_other _ _ (hf.ne_slot hbmem hj).symm]
      exact hlog j hj
    · by_cases hjb : lh[j] = b
      · rw [hjb, bwrite_same, hcopy]
      · rw [bwrite_other _ _ hjb]
        have hji' : j ≠ i := fun h => hjb (by subst h; exact hb)
        exact hp j hj (by omega)

/-- Erasing the header after the install. -/
theorem write_head_nil_triple (hf : Fits start size lh) :
    Triple (fun d => Committed start lh cache d ∧ ∀ b ∈ lh, d b = cache b)
      (write_head start []) (Installed start lh cache) (Consistent start lh pre cache) := by
  intro d hd
  obtain ⟨hhead, hhome⟩ := write_head_nil_homes hf d
  have hinst : Installed start lh cache (run (write_head start []) d) :=
    ⟨hhead, fun b hb => (hhome b hb).trans (hd.2 b hb)⟩
  refine ⟨fun k => ?_, hinst⟩
  cases k with
  | zero => exact Or.inr (Or.inl hd.1)
  | succ k =>
    rw [List.take_of_length_le (by simp [write_head])]
    exact Or.inr (Or.inr hinst)

/-- **`commit()` under crashes.** From an empty header and old home blocks,
every crash point is consistent and the full run installs the transaction. -/
theorem commit_triple (hf : Fits start size lh) :
    Triple (Uncommitted start lh pre) (commit start cache lh)
      (Installed start lh cache) (Consistent start lh pre cache) := by
  unfold commit
  split
  · have hwl : Triple (Uncommitted start lh pre) (write_log start cache lh)
        (fun d => Uncommitted start lh pre d ∧ LogHolds start lh cache d)
        (Consistent start lh pre cache) :=
      (write_log_from_triple hf 0 lh rfl).conseq
        (fun d hd => ⟨hd, fun j _ hj => absurd hj (Nat.not_lt_zero j)⟩) (fun _ hd => hd)
        (fun _ hd => Or.inl hd)
    have hin : Triple (Committed start lh cache) (install_trans start lh)
        (fun d => Committed start lh cache d ∧ ∀ b ∈ lh, d b = cache b)
        (Consistent start lh pre cache) :=
      (install_trans_from_triple hf 0 lh rfl).conseq
        (fun d hd => ⟨hd, fun j _ hj => absurd hj (Nat.not_lt_zero j)⟩) (fun _ hd => hd)
        (fun _ hd => Or.inr (Or.inl hd))
    exact ((hwl.append write_head_triple).append hin).append (write_head_nil_triple hf)
  · rename_i hn
    have hnil : lh = [] := List.eq_nil_of_length_eq_zero (by omega)
    subst hnil
    exact Triple.nil (fun _ hd => Or.inl hd) (fun _ hd => ⟨hd.1, fun _ hb => absurd hb List.not_mem_nil⟩)

/-! ## `recover_from_log()` -/

/-- Recovery from a consistent disk: every crash point is consistent again, and
the full run leaves an empty header over all-old or all-new home blocks. -/
theorem recover_triple (hf : Fits start size lh) (d : Disk α)
    (hd : Consistent start lh pre cache d) :
    (∀ k, Consistent start lh pre cache (run ((recover_from_log start d).take k) d)) ∧
      (Uncommitted start lh pre (run (recover_from_log start d) d) ∨
        Installed start lh cache (run (recover_from_log start d) d)) := by
  -- with an empty header recovery only rewrites the header, and every phase
  -- that has an empty header keeps it
  have hclear : ∀ (P : Disk α → Prop), (∀ e, P e → read_head start e = []) →
      (∀ e e', (∀ b ∈ lh, e' b = e b) → read_head start e' = [] → P e → P e') →
      (∀ e, P e → Consistent start lh pre cache e) → P d →
      (∀ k, Consistent start lh pre cache (run ((recover_from_log start d).take k) d)) ∧
        P (run (recover_from_log start d) d) := by
    intro P hP hkeep hcons hPd
    have hprog := recover_from_log_of_empty (hP d hPd)
    have htriple : Triple P (write_head start []) P (Consistent start lh pre cache) := by
      refine Triple.cons hcons (fun e he => ?_) (Triple.nil hcons (fun _ h => h))
      obtain ⟨h1, h2⟩ := write_head_nil_homes hf e
      exact hkeep e _ h2 h1 he
    rw [hprog]
    exact htriple d hPd
  rcases hd with hu | hc | hi
  · obtain ⟨hk, hq⟩ := hclear (Uncommitted start lh pre) (fun _ h => h.1)
      (fun e e' hh h1 h => ⟨h1, fun b hb => (hh b hb).trans (h.2 b hb)⟩)
      (fun _ h => Or.inl h) hu
    exact ⟨hk, Or.inl hq⟩
  · -- committed: recovery is the redo `install_trans` followed by the erase
    have hprog : recover_from_log start d = install_trans start lh ++ write_head start [] := by
      rw [recover_from_log, hc.1]
    have hin : Triple (Committed start lh cache) (install_trans start lh)
        (fun e => Committed start lh cache e ∧ ∀ b ∈ lh, e b = cache b)
        (Consistent start lh pre cache) :=
      (install_trans_from_triple hf 0 lh rfl).conseq
        (fun e he => ⟨he, fun j _ hj => absurd hj (Nat.not_lt_zero j)⟩) (fun _ he => he)
        (fun _ he => Or.inr (Or.inl he))
    have h := (hin.append (write_head_nil_triple hf)) d hc
    rw [hprog]
    exact ⟨h.1, Or.inr h.2⟩
  · obtain ⟨hk, hq⟩ := hclear (Installed start lh cache) (fun _ h => h.1)
      (fun e e' hh h1 h => ⟨h1, fun b hb => (hh b hb).trans (h.2 b hb)⟩)
      (fun _ h => Or.inr (Or.inr h)) hi
    exact ⟨hk, Or.inr hq⟩

/-! ## The theorem -/

/-- **Crash atomicity of a transaction.** Start `commit()` on a disk whose
header is empty, with a transaction that fits the log and logs no block of the
log area. Crash after any number `k` of its block writes, then run
`recover_from_log()` any number of times, each cut short anywhere, and finally
once to the end: the header is empty, and either every logged block holds what
it held before `commit()` or every logged block holds its cached contents. -/
theorem commit_crash_atomic (start size : Nat) (lh : List Nat) (cache : Nat → α) (d : Disk α)
    (hclean : read_head start d = []) (hroom : lh.length < size)
    (hout : ∀ b ∈ lh, b < start ∨ start + size ≤ b) (k : Nat) (d' : Disk α)
    (hrec : Relation.ReflTransGen (Restart (recover_from_log start))
      (run ((commit start cache lh).take k) d) d') :
    read_head start (run (recover_from_log start d') d') = [] ∧
      ((∀ b ∈ lh, run (recover_from_log start d') d' b = d b) ∨
        (∀ b ∈ lh, run (recover_from_log start d') d' b = cache b)) := by
  have hf : Fits start size lh := ⟨hroom, hout⟩
  -- the crash during the commit leaves a consistent disk
  have hcrash : Consistent start lh d cache (run ((commit start cache lh).take k) d) :=
    ((commit_triple hf) d ⟨hclean, fun _ _ => rfl⟩).1 k
  -- and so does every interrupted recovery after it
  have hcons : Consistent start lh d cache d' :=
    Restart.invariant (fun e he => (recover_triple hf e he).1) hrec hcrash
  rcases (recover_triple hf d' hcons).2 with h | h
  · exact ⟨h.1, Or.inl h.2⟩
  · exact ⟨h.1, Or.inr h.2⟩

/-- Two logged blocks, a crash right after the header write, and one complete
recovery: the new contents are installed. -/
theorem commit_crash_atomic_two_blocks :
    read_head 2 (fun _ => ([] : List Nat)) = [] ∧ [40, 41].length < 30 ∧
      (∀ b ∈ [40, 41], b < 2 ∨ 2 + 30 ≤ b) ∧
      (let d' := run ((commit 2 (fun b => [b]) [40, 41]).take 3) fun _ => []
       read_head 2 (run (recover_from_log 2 d') d') = [] ∧
        ((∀ b ∈ [40, 41], run (recover_from_log 2 d') d' b = []) ∨
          (∀ b ∈ [40, 41], run (recover_from_log 2 d') d' b = [b]))) :=
  ⟨rfl, by decide, by decide,
    commit_crash_atomic 2 30 [40, 41] (fun b => [b]) (fun _ => []) rfl (by decide) (by decide) 3 _
      Relation.ReflTransGen.refl⟩

end Xv6.Log
