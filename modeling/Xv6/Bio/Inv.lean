/-
What holds of the buffer cache in every reachable state of `Xv6.Bio.Trans`.

The invariant `Inv` has four parts:
* the log's own invariant (`Xv6.Log.Admission`), read through `toLog`. It
  gives no operation during a commit, and a header without repeats.
* The header fits the log, and names only blocks outside the log area.
* `CacheOk`, the cache against the header and the latest contents:
  - one buffer per block;
  - a valid buffer holds its block's latest contents;
  - the dirty buffers are those of the logged blocks.
* The disk differs from the latest contents only where a buffer is dirty or
  holds a store that has not yet been passed to `log_write`. Each reference
  count is the number of holds on its buffer, and every hold agrees with its
  buffer.

Two facts make `bget` safe for the logged blocks. A dirty buffer is never
recycled. A buffer with a store not yet logged is held, and a held buffer has
references. So a logged block's buffer stays in the cache until the commit,
and no one re-reads a stale copy of it from the disk. `commit_spec` then turns
the invariant into the commit's effect. The disk then holds every logged block's
latest contents (`logged_updates_kept`).
-/
import Xv6.Bio.Trans

set_option autoImplicit false

namespace Xv6.Bio

open TransitionSystem
open Xv6.Log (Disk HeaderBlock LOGSIZE read_head)

variable {α ι : Type}

/-! ## Holds and references -/

/-- The references the holds of one operation take on buffer `k`. -/
def holding : Option opstate → Fin NBUF → Nat
  | some o, k => o.holds.countP (·.buf = k)
  | none, _ => 0

/-- One operation has stored into buffer `k` and not yet passed it to
`log_write`. -/
def changedIn : Option opstate → Fin NBUF → Prop
  | some o, k => ∃ h ∈ o.holds, h.buf = k ∧ h.changed = true
  | none, _ => False

/-- Some operation has. -/
def changed (op : ι → Option opstate) (k : Fin NBUF) : Prop :=
  ∃ i, changedIn (op i) k

@[simp] theorem holding_none (k : Fin NBUF) : holding none k = 0 := rfl

@[simp] theorem changedIn_none (k : Fin NBUF) : ¬changedIn none k := id

theorem holding_of_nil {o : opstate} (h : o.holds = []) (k : Fin NBUF) :
    holding (some o) k = 0 := by
  simp [holding, h]

theorem changedIn_of_nil {o : opstate} (h : o.holds = []) (k : Fin NBUF) :
    ¬changedIn (some o) k := by
  simp [changedIn, h]

/-- A changed buffer stays changed when one operation's holds change in a way
that keeps its changed holds. -/
theorem changed_update [DecidableEq ι] {op : ι → Option opstate} {i : ι} {y : Option opstate}
    {k : Fin NBUF} (h : changed op k) (hy : changedIn (op i) k → changedIn y k) :
    changed (Function.update op i y) k := by
  obtain ⟨j, hj⟩ := h
  by_cases hji : j = i
  · subst hji
    exact ⟨j, by rw [Function.update_self]; exact hy hj⟩
  · exact ⟨j, by rw [Function.update_of_ne hji]; exact hj⟩

/-- The reference counts after one operation's holds change: each count moves
by what that operation's holds on the buffer moved. -/
theorem refcnt_update [DecidableEq ι] [Fintype ι] {op : ι → Option opstate} {i : ι}
    {y : Option opstate} {r r' : Fin NBUF → Nat} (hr : ∀ k, r k = ∑ j, holding (op j) k)
    (h : ∀ k, r' k + holding (op i) k = r k + holding y k) :
    ∀ k, r' k = ∑ j, holding (Function.update op i y j) k := by
  intro k
  have hsum := Function.sum_update_add (fun o => holding o k) op i y
  have := h k
  rw [hr k] at this
  omega

/-- A buffer no one references is held by no operation. -/
theorem unheld_of_refcnt [Fintype ι] {op : ι → Option opstate} {r : Fin NBUF → Nat}
    (hr : ∀ k, r k = ∑ j, holding (op j) k) {k : Fin NBUF} (hk : r k = 0) :
    ∀ j o, op j = some o → ∀ h ∈ o.holds, h.buf ≠ k := by
  intro j o hj h hm heq
  have hzero := (Finset.sum_eq_zero_iff.mp ((hr k).symm.trans hk)) j (Finset.mem_univ j)
  rw [hj, holding, List.countP_eq_zero] at hzero
  exact hzero h hm (by simp [heq])

/-- Replacing a hold by one on the same buffer keeps the references. -/
theorem holding_sethold {o : opstate} {h : hold}
    (hb : ∀ y ∈ o.holds, y.blockno = h.blockno → y.buf = h.buf) (k : Fin NBUF) :
    holding (some (o.sethold h)) k = holding (some o) k := by
  simp only [holding, opstate.sethold, List.countP_map]
  apply List.countP_congr
  intro y hy
  simp only [Function.comp_apply]
  split
  · rename_i hyb
    rw [hb y hy hyb]
  · exact Iff.rfl

/-- Filtering out the one element of block `h0.blockno` drops its buffer from
the count. -/
theorem countP_filter_blockno {l : List hold} (hnd : (l.map hold.blockno).Nodup) {h0 : hold}
    (hm : h0 ∈ l) (k : Fin NBUF) :
    (l.filter fun x => decide (x.blockno ≠ h0.blockno)).countP (·.buf = k) +
      (if h0.buf = k then 1 else 0) = l.countP (·.buf = k) := by
  induction l with
  | nil => cases hm
  | cons y l ih =>
    simp only [List.map_cons, List.nodup_cons, List.mem_map] at hnd
    obtain ⟨hy, hnd⟩ := hnd
    rcases List.mem_cons.mp hm with rfl | hm
    · -- `h0` is the head: the rest holds other blocks, and the filter keeps it
      have hrest : (l.filter fun x => decide (x.blockno ≠ h0.blockno)) = l := by
        apply List.filter_eq_self.mpr
        intro x hx
        simp only [ne_eq, decide_eq_true_eq]
        exact fun h => hy ⟨x, hx, h⟩
      rw [List.filter_cons_of_neg (by simp), hrest, List.countP_cons]
      simp
    · have hne : y.blockno ≠ h0.blockno := fun h => hy ⟨h0, hm, h.symm⟩
      have := ih hnd hm
      simp only [List.filter_cons, hne, ne_eq, not_false_eq_true, decide_true, if_true,
        List.countP_cons] at this ⊢
      omega

/-- Releasing the hold `h0` gives back its one reference, when the operation
holds each block once. -/
theorem holding_release {o : opstate} (hnd : (o.holds.map hold.blockno).Nodup) {h0 : hold}
    (hm : h0 ∈ o.holds) (k : Fin NBUF) :
    holding (some (o.release h0.blockno)) k + (if h0.buf = k then 1 else 0) =
      holding (some o) k :=
  countP_filter_blockno hnd hm k

/-! ## The invariant -/

/-- The cache against the header `lh` and the latest contents `mem`. -/
structure CacheOk (c : bcache α) (lh : List Nat) (mem : Disk α) : Prop where
  /-- one buffer per block of the device -/
  uniq : ∀ k j, (c.buf k).dev = ROOTDEV → (c.buf j).dev = ROOTDEV →
    (c.buf k).blockno = (c.buf j).blockno → k = j
  /-- a valid buffer holds its block's latest contents -/
  fresh : ∀ k, (c.buf k).dev = ROOTDEV → (c.buf k).valid = true →
    (c.buf k).data = mem (c.buf k).blockno
  /-- only the buffers of logged blocks are dirty, and they are valid -/
  dirty : ∀ k, (c.buf k).dirty = true →
    (c.buf k).dev = ROOTDEV ∧ (c.buf k).valid = true ∧ (c.buf k).blockno ∈ lh
  /-- every logged block has its dirty buffer -/
  pinned : ∀ b ∈ lh, ∃ k, (c.buf k).dev = ROOTDEV ∧ (c.buf k).blockno = b ∧
    (c.buf k).dirty = true

/-- What a hold says about its buffer and its operation. -/
structure HoldOk (c : bcache α) (l : Log.log) (o : opstate) (h : hold) : Prop where
  dev : (c.buf h.buf).dev = ROOTDEV
  blockno : (c.buf h.buf).blockno = h.blockno
  touched : h.blockno ∈ o.touched
  out : outside l h.blockno
  valid : h.locked = true → (c.buf h.buf).valid = true
  locked : h.changed = true → h.locked = true

/-- What an operation's lists satisfy: each block once, and every written block
was asked for. -/
structure OpOk (o : opstate) : Prop where
  blocknos : (o.holds.map hold.blockno).Nodup
  touched : o.touched.Nodup
  written : o.written.Nodup
  written_touched : ∀ b ∈ o.written, b ∈ o.touched

/-! ## How the parts survive a change of the cache -/

section Transfer

variable {c c' : bcache α} {lh : List Nat} {mem : Disk α}

/-- A buffer that keeps its block and does not lose its contents. -/
def SamePlace (c c' : bcache α) (k : Fin NBUF) : Prop :=
  (c'.buf k).dev = (c.buf k).dev ∧ (c'.buf k).blockno = (c.buf k).blockno ∧
    ((c.buf k).valid = true → (c'.buf k).valid = true)

theorem HoldOk.of_place {l l' : Log.log} {o o' : opstate} {h : hold} (hh : HoldOk c l o h)
    (hp : SamePlace c c' h.buf) (hl : l'.start = l.start ∧ l'.size = l.size)
    (ht : o.touched ⊆ o'.touched) : HoldOk c' l' o' h where
  dev := hp.1.trans hh.dev
  blockno := hp.2.1.trans hh.blockno
  touched := ht hh.touched
  out := by
    unfold outside
    rw [hl.1, hl.2]
    exact hh.out
  valid := fun h' => hp.2.2 (hh.valid h')
  locked := hh.locked

theorem samePlace_upd {k : Fin NBUF} {f : buf α → buf α} (hf : (f (c.buf k)).dev = (c.buf k).dev ∧
    (f (c.buf k)).blockno = (c.buf k).blockno ∧ (f (c.buf k)).valid = (c.buf k).valid)
    (j : Fin NBUF) : SamePlace c (c.upd k f) j := by
  rw [SamePlace, bcache.upd_buf]
  split
  · rename_i hj
    subst hj
    rw [hf.1, hf.2.1, hf.2.2]
    exact ⟨rfl, rfl, id⟩
  · exact ⟨rfl, rfl, id⟩

theorem samePlace_fill (d : Disk α) (k j : Fin NBUF) : SamePlace c (fill d k c) j := by
  by_cases hj : j = k
  · subst hj
    obtain ⟨hd, hb, -, -, hv⟩ := fill_buf_self_fields d j c
    exact ⟨hd, hb, fun _ => hv⟩
  · rw [SamePlace, fill_buf_of_ne d c hj]
    exact ⟨rfl, rfl, id⟩

theorem samePlace_brelse (k j : Fin NBUF) : SamePlace c (brelse k c) j := by
  rw [SamePlace, brelse_buf]
  exact samePlace_upd ⟨rfl, rfl, rfl⟩ j

/-- `CacheOk` does not look at reference counts. -/
theorem CacheOk.of_refcnt (hc : CacheOk c lh mem)
    (h : ∀ j, c'.buf j = { c.buf j with refcnt := (c'.buf j).refcnt }) : CacheOk c' lh mem := by
  have hb : ∀ j, (c'.buf j).dev = (c.buf j).dev ∧ (c'.buf j).blockno = (c.buf j).blockno ∧
      (c'.buf j).valid = (c.buf j).valid ∧ (c'.buf j).dirty = (c.buf j).dirty ∧
      (c'.buf j).data = (c.buf j).data := fun j => by
    rw [h j]
    exact ⟨rfl, rfl, rfl, rfl, rfl⟩
  refine ⟨fun k j hk hj hkj => ?_, fun k hk hv => ?_, fun k hk => ?_, fun b hb' => ?_⟩
  · simp only [hb] at hk hj hkj
    exact hc.uniq k j hk hj hkj
  · simp only [hb] at hk hv ⊢
    exact hc.fresh k hk hv
  · simp only [hb] at hk ⊢
    exact hc.dirty k hk
  · obtain ⟨k, hk⟩ := hc.pinned b hb'
    exact ⟨k, by simpa only [hb] using hk⟩

theorem CacheOk.addref (hc : CacheOk c lh mem) (k : Fin NBUF) :
    CacheOk (c.upd k fun b => { b with refcnt := b.refcnt + 1 }) lh mem := by
  apply hc.of_refcnt
  intro j
  rw [bcache.upd_buf]
  split <;> simp_all

theorem CacheOk.brelse (hc : CacheOk c lh mem) (k : Fin NBUF) :
    CacheOk (brelse k c) lh mem := by
  apply hc.of_refcnt
  intro j
  rw [brelse_buf, bcache.upd_buf]
  split <;> simp_all

/-- `bget` takes over a free buffer for a block no buffer caches. -/
theorem CacheOk.recycle {k : Fin NBUF} {b : Nat} (hc : CacheOk c lh mem) (hk : c.free k)
    (hno : ∀ j, ¬((c.buf j).dev = ROOTDEV ∧ (c.buf j).blockno = b)) :
    CacheOk (c.upd k (Bio.recycle ROOTDEV b)) lh mem := by
  have hother : ∀ j, j ≠ k → (c.upd k (Bio.recycle ROOTDEV b)).buf j = c.buf j :=
    fun j hj => c.upd_buf_of_ne _ hj
  have hself : (c.upd k (Bio.recycle ROOTDEV b)).buf k = Bio.recycle ROOTDEV b (c.buf k) :=
    c.upd_buf_self _ _
  refine ⟨fun i j hi hj hij => ?_, fun j hj hv => ?_, fun j hj => ?_, fun x hx => ?_⟩
  · by_cases hik : i = k <;> by_cases hjk : j = k
    · rw [hik, hjk]
    · rw [hik, hself, hother j hjk] at hij
      rw [hother j hjk] at hj
      exact absurd ⟨hj, hij.symm⟩ (hno j)
    · rw [hjk, hself, hother i hik] at hij
      rw [hother i hik] at hi
      exact absurd ⟨hi, hij⟩ (hno i)
    · rw [hother i hik] at hi hij
      rw [hother j hjk] at hj hij
      exact hc.uniq i j hi hj hij
  · by_cases hjk : j = k
    · -- the recycled buffer is not valid yet
      rw [hjk, hself] at hv
      cases hv
    · rw [hother j hjk] at hj hv ⊢
      exact hc.fresh j hj hv
  · by_cases hjk : j = k
    · rw [hjk, hself] at hj
      cases hj
    · rw [hother j hjk] at hj ⊢
      exact hc.dirty j hj
  · obtain ⟨j, hj⟩ := hc.pinned x hx
    have hjk : j ≠ k := fun h => by
      rw [h, hk.2] at hj
      cases hj.2.2
    exact ⟨j, by rwa [hother j hjk]⟩

/-- The read after `acquiresleep`, of a block whose disk copy is the latest. -/
theorem CacheOk.fill (hc : CacheOk c lh mem) {d : Disk α} {k : Fin NBUF}
    (hd : (c.buf k).valid = false → d (c.buf k).blockno = mem (c.buf k).blockno) :
    CacheOk (fill d k c) lh mem := by
  have hp := fun j => samePlace_fill (c := c) d k j
  -- the read changes the data and `valid` of `k` only
  have hdirty : ∀ j, ((Bio.fill d k c).buf j).dirty = (c.buf j).dirty := fun j => by
    by_cases hjk : j = k
    · rw [hjk]
      exact (fill_buf_self_fields d k c).2.2.2.1
    · rw [fill_buf_of_ne d c hjk]
  refine ⟨fun i j hi hj hij => ?_, fun j hj hv => ?_, fun j hj => ?_, fun x hx => ?_⟩
  · rw [(hp i).1] at hi
    rw [(hp j).1] at hj
    rw [(hp i).2.1, (hp j).2.1] at hij
    exact hc.uniq i j hi hj hij
  · rw [(hp j).1] at hj
    rw [(hp j).2.1]
    by_cases hjk : j = k
    · subst hjk
      rw [fill_buf_self]
      split
      · rename_i hv'
        exact hc.fresh j hj hv'
      · rename_i hv'
        exact hd (by simpa using hv')
    · rw [fill_buf_of_ne d c hjk] at hv ⊢
      exact hc.fresh j hj hv
  · rw [hdirty] at hj
    obtain ⟨h1, h2, h3⟩ := hc.dirty j hj
    exact ⟨(hp j).1.trans h1, (hp j).2.2 h2, by rw [(hp j).2.1]; exact h3⟩
  · obtain ⟨j, h1, h2, h3⟩ := hc.pinned x hx
    exact ⟨j, (hp j).1.trans h1, (hp j).2.1.trans h2, (hdirty j).trans h3⟩

/-- A store into the buffer of block `b` is the block's latest contents. -/
theorem CacheOk.store (hc : CacheOk c lh mem) {k : Fin NBUF} {b : Nat}
    (hk : (c.buf k).dev = ROOTDEV) (hb : (c.buf k).blockno = b) (v : α) :
    CacheOk (c.upd k fun x => { x with data := v }) lh (Function.update mem b v) := by
  have hp := fun j => samePlace_upd (c := c) (k := k) (f := fun x => { x with data := v })
    ⟨rfl, rfl, rfl⟩ j
  have hdirty : ∀ j, ((c.upd k fun x => { x with data := v }).buf j).dirty = (c.buf j).dirty :=
    fun j => by rw [bcache.upd_buf]; split <;> simp_all
  refine ⟨fun i j hi hj hij => ?_, fun j hj hv => ?_, fun j hj => ?_, fun x hx => ?_⟩
  · rw [(hp i).1] at hi
    rw [(hp j).1] at hj
    rw [(hp i).2.1, (hp j).2.1] at hij
    exact hc.uniq i j hi hj hij
  · rw [(hp j).1] at hj
    rw [(hp j).2.1]
    by_cases hjk : j = k
    · subst hjk
      simp [hb]
    · rw [bcache.upd_buf_of_ne _ _ hjk] at hv ⊢
      -- another buffer caches another block
      have hne : (c.buf j).blockno ≠ b := fun h => hjk (hc.uniq j k hj hk (h.trans hb.symm))
      rw [Function.update_of_ne hne]
      exact hc.fresh j hj hv
  · rw [hdirty] at hj
    obtain ⟨h1, h2, h3⟩ := hc.dirty j hj
    refine ⟨(hp j).1.trans h1, ?_, by rw [(hp j).2.1]; exact h3⟩
    rw [bcache.upd_buf]
    split <;> simp_all
  · obtain ⟨j, h1, h2, h3⟩ := hc.pinned x hx
    exact ⟨j, (hp j).1.trans h1, (hp j).2.1.trans h2, (hdirty j).trans h3⟩

/-- `log_write` pins the buffer of block `b` and records the block. -/
theorem CacheOk.pin (hc : CacheOk c lh mem) {k : Fin NBUF} {b : Nat}
    (hk : (c.buf k).dev = ROOTDEV) (hv : (c.buf k).valid = true) (hb : (c.buf k).blockno = b) :
    CacheOk (c.upd k fun x => { x with dirty := true }) (Log.absorb lh b) mem := by
  have hp := fun j => samePlace_upd (c := c) (k := k) (f := fun x => { x with dirty := true })
    ⟨rfl, rfl, rfl⟩ j
  have hbuf : ∀ j, (c.upd k fun x => { x with dirty := true }).buf j =
      if j = k then { c.buf k with dirty := true } else c.buf j := fun j => bcache.upd_buf _ _ _ _
  refine ⟨fun i j hi hj hij => ?_, fun j hj hv' => ?_, fun j hj => ?_, fun x hx => ?_⟩
  · rw [(hp i).1] at hi
    rw [(hp j).1] at hj
    rw [(hp i).2.1, (hp j).2.1] at hij
    exact hc.uniq i j hi hj hij
  · rw [hbuf] at hj hv' ⊢
    split
    · rename_i hjk
      subst hjk
      exact hc.fresh j hk hv
    · simp only [*, if_false] at hj hv'
      exact hc.fresh j hj hv'
  · rw [hbuf] at hj ⊢
    split
    · rename_i hjk
      subst hjk
      exact ⟨hk, hv, Log.mem_absorb.mpr (.inr hb)⟩
    · simp only [*, if_false] at hj
      obtain ⟨h1, h2, h3⟩ := hc.dirty j hj
      exact ⟨h1, h2, Log.mem_absorb.mpr (.inl h3)⟩
  · rcases Log.mem_absorb.mp hx with hx | rfl
    · obtain ⟨j, h1, h2, h3⟩ := hc.pinned x hx
      refine ⟨j, (hp j).1.trans h1, (hp j).2.1.trans h2, ?_⟩
      rw [hbuf]
      split <;> simp_all
    · exact ⟨k, (hp k).1.trans hk, (hp k).2.1.trans hb, by simp⟩

end Transfer

/-- The hold on a block, when an operation holds each block once: replacing it
leaves the other holds as they were. -/
theorem mem_sethold_of {o : opstate} (hnd : (o.holds.map hold.blockno).Nodup) {h0 x : hold}
    (hm : h0 ∈ o.holds) (h : hold) (hb : h.blockno = h0.blockno) :
    x ∈ (o.sethold h).holds ↔ x = h ∨ (x ∈ o.holds ∧ x ≠ h0) := by
  rw [opstate.mem_sethold]
  constructor
  · rintro ⟨y, hy, rfl⟩
    split
    · exact .inl rfl
    · rename_i hyb
      exact .inr ⟨hy, fun h' => hyb (h' ▸ hb.symm)⟩
  · rintro (rfl | ⟨hx, hne⟩)
    · exact ⟨h0, hm, by rw [if_pos hb.symm]⟩
    · refine ⟨x, hx, ?_⟩
      -- another hold is on another block
      have hxb : x.blockno ≠ h.blockno := fun h' =>
        hne (List.inj_on_of_nodup_map hnd hx hm (h'.trans hb))
      rw [if_neg hxb]

/-- Replacing a hold by one on the same buffer keeps the references. -/
theorem holding_sethold_of {o : opstate} (hnd : (o.holds.map hold.blockno).Nodup) {h : hold}
    (hm : h ∈ o.holds) (h' : hold) (hb : h'.blockno = h.blockno) (hbuf : h'.buf = h.buf) (k : Fin NBUF) :
    holding (some (o.sethold h')) k = holding (some o) k :=
  holding_sethold (fun y hy hyb => by
    rw [List.inj_on_of_nodup_map hnd hy hm (hyb.trans hb), hbuf]) k

/-- Replacing a hold by one on the same buffer that is changed whenever the old
one was keeps every changed buffer changed. -/
theorem changedIn_sethold {o : opstate} (hnd : (o.holds.map hold.blockno).Nodup) {h : hold}
    (hm : h ∈ o.holds) (h' : hold) (hb : h'.blockno = h.blockno) (hbuf : h'.buf = h.buf)
    (hch : h.changed = true → h'.changed = true) {k : Fin NBUF} (hk : changedIn (some o) k) :
    changedIn (some (o.sethold h')) k := by
  obtain ⟨y, hy, hyk, hyc⟩ := hk
  by_cases hyh : y = h
  · subst hyh
    exact ⟨h', (mem_sethold_of hnd hm h' hb).mpr (.inl rfl), hbuf.trans hyk, hch hyc⟩
  · exact ⟨y, (mem_sethold_of hnd hm h' hb).mpr (.inr ⟨hy, hyh⟩), hyk, hyc⟩

theorem OpOk.sethold {o : opstate} (ho : OpOk o) (h : hold) : OpOk (o.sethold h) where
  blocknos := by
    rw [opstate.sethold_blocknos]
    exact ho.blocknos
  touched := ho.touched
  written := ho.written
  written_touched := ho.written_touched

/-- A property of every operation, after one operation's state is replaced. -/
theorem update_forall [DecidableEq ι] {P : opstate → Prop} {op : ι → Option opstate} {i : ι}
    {y : Option opstate} (h : ∀ j o, j ≠ i → op j = some o → P o) (hy : ∀ o, y = some o → P o) :
    ∀ j o, Function.update op i y j = some o → P o := by
  intro j o hj
  by_cases hji : j = i
  · subst hji
    rw [Function.update_self] at hj
    exact hy o hj
  · rw [Function.update_of_ne hji] at hj
    exact h j o hji hj

variable [HeaderBlock α] [DecidableEq ι] [Fintype ι]

/-- The invariant of the transaction system over the cache. -/
structure Inv (s : Sys α ι) : Prop where
  log : Log.Inv (toLog s)
  room : s.log.lh.length < s.log.size
  logged : ∀ b ∈ s.log.lh, outside s.log b
  head : read_head s.log.start s.disk = []
  cache : CacheOk s.cache s.log.lh s.mem
  /-- the disk is stale only under a dirty or changed buffer -/
  stale : ∀ b, s.disk b ≠ s.mem b → ∃ k, (s.cache.buf k).dev = ROOTDEV ∧
    (s.cache.buf k).blockno = b ∧ ((s.cache.buf k).dirty = true ∨ changed s.op k)
  refcnt : ∀ k, (s.cache.buf k).refcnt = ∑ i, holding (s.op i) k
  holds : ∀ i o, s.op i = some o → ∀ h ∈ o.holds, HoldOk s.cache s.log o h
  ops : ∀ i o, s.op i = some o → OpOk o

/-! ## Each step keeps the invariant -/

section Steps

variable {s : Sys α ι}

omit [DecidableEq ι] in
theorem inv_init [Inhabited α] {start : Nat} {d : Disk α} (hd : read_head start d = []) :
    Inv (init start d : Sys α ι) := by
  -- every buffer is on device 0, so the cache part holds vacuously
  have hdev : ∀ k, ((init start d : Sys α ι).cache.buf k).dev ≠ ROOTDEV := by
    simp [init, binit, ROOTDEV]
  refine ⟨?_, ?_, ?_, hd, ⟨?_, ?_, ?_, ?_⟩, ?_, ?_, ?_, ?_⟩
  · rw [toLog_init]
    exact Log.inv_init start
  · simp [init, LOGSIZE, Log.MAXOPBLOCKS]
  · intro _ hb
    cases hb
  · exact fun k _ hk => absurd hk (hdev k)
  · exact fun k hk => absurd hk (hdev k)
  · intro k hk
    simp [init, binit] at hk
  · intro _ hb
    cases hb
  · intro _ hb
    exact absurd rfl hb
  · intro k
    simp [init, binit]
  · intro _ _ hi
    cases hi
  · intro _ _ hi
    cases hi

/-- The empty operation `begin_op` admits. -/
theorem opOk_empty : OpOk ⟨[], [], []⟩ :=
  ⟨List.nodup_nil, List.nodup_nil, List.nodup_nil, fun _ h => by cases h⟩

theorem inv_begin_op {i : ι} {l : Log.log} (hs : Inv s) (hi : s.op i = none)
    (hl : Log.begin_op s.log = some l) :
    Inv { s with log := l, op := Function.update s.op i (some ⟨[], [], []⟩) } := by
  have hlog := (Move.begin_op hi hl).log_inv hs.log
  obtain rfl := Log.begin_op_some hl
  refine ⟨hlog, hs.room, hs.logged, hs.head, hs.cache, fun b hb => ?_, ?_, ?_, ?_⟩
  · -- the new operation holds nothing
    obtain ⟨k, hk1, hk2, hk3⟩ := hs.stale b hb
    refine ⟨k, hk1, hk2, hk3.imp_right fun h => changed_update h ?_⟩
    rw [hi]
    exact False.elim
  · exact refcnt_update hs.refcnt fun k => by simp [hi, holding]
  · refine update_forall (fun j o _ hj h hm =>
      (hs.holds j o hj h hm).of_place ⟨rfl, rfl, id⟩ ⟨rfl, rfl⟩ (fun _ h => h)) ?_
    rintro o ⟨⟩ h hm
    cases hm
  · refine update_forall (fun j o _ hj => hs.ops j o hj) ?_
    rintro o ⟨⟩
    exact opOk_empty

theorem inv_end_op {i : ι} {o : opstate} {l : Log.log} (hs : Inv s) (hi : s.op i = some o)
    (hnil : o.holds = []) (hl : Log.end_op s.log = .ok l) :
    Inv { s with log := l, op := Function.update s.op i none } := by
  have hlog := (Move.end_op hi hnil hl).log_inv hs.log
  obtain ⟨hst, hsz, hlh⟩ := Log.end_op_ok hl
  refine ⟨hlog, ?_, fun b hb => ?_, ?_, ?_, fun b hb => ?_, ?_, ?_, ?_⟩
  · rw [hlh, hsz]
    exact hs.room
  · rw [hlh] at hb
    unfold outside
    rw [hst, hsz]
    exact hs.logged b hb
  · rw [hst]
    exact hs.head
  · rw [hlh]
    exact hs.cache
  · -- the operation that ends holds nothing
    obtain ⟨k, hk1, hk2, hk3⟩ := hs.stale b hb
    refine ⟨k, hk1, hk2, hk3.imp_right fun h => changed_update h ?_⟩
    rw [hi]
    exact fun h => absurd h (changedIn_of_nil hnil k)
  · exact refcnt_update hs.refcnt fun k => by simp [hi, holding_of_nil hnil]
  · refine update_forall (fun j o _ hj h hm =>
      (hs.holds j o hj h hm).of_place ⟨rfl, rfl, id⟩ ⟨hst, hsz⟩ (fun _ h => h)) ?_
    rintro o ⟨⟩
  · refine update_forall (fun j o _ hj => hs.ops j o hj) ?_
    rintro o ⟨⟩

omit [DecidableEq ι] in
/-- During a commit no operation is in a transaction. -/
theorem Inv.quiet (hs : Inv s) (hc : s.log.committing = true) (j : ι) : s.op j = none := by
  have := hs.log.quiet hc j
  simpa using this

omit [DecidableEq ι] in
/-- With no operation in a transaction, the cache is what `commit_spec` needs:
no buffer held, and every clean valid buffer agreeing with the disk. -/
theorem Inv.coherent (hs : Inv s) (hnone : ∀ j, s.op j = none) :
    Coherent s.mem s.log.lh s.cache s.disk ∧ s.cache.idle := by
  refine ⟨⟨hs.cache.uniq, fun k hk hv => ?_, hs.cache.dirty, hs.cache.pinned⟩, fun k => ?_⟩
  · rw [hs.cache.fresh k hk hv]
    split
    · rfl
    · rename_i hclean
      -- a stale block would have a dirty or changed buffer, which is `k` itself
      by_contra hne
      obtain ⟨j, hj1, hj2, hj3⟩ := hs.stale _ (Ne.symm hne)
      have hjk : j = k := hs.cache.uniq j k hj1 hk hj2
      rcases hj3 with hd | ⟨i, hi⟩
      · rw [hjk] at hd
        exact hclean hd
      · rw [hnone i] at hi
        exact hi
  · rw [hs.refcnt k]
    simp [hnone]

theorem inv_commit {c : bcache α} {d : Disk α} (hs : Inv s) (hc : s.log.committing = true)
    (h : commit s.log.start s.log.lh (s.cache, s.disk) = .ok (c, d)) :
    Inv { s with log := Log.end_commit s.log, cache := c, disk := d, mem := d } := by
  have hlog := (Move.commit hc h).log_inv hs.log
  have hnone := hs.quiet hc
  obtain ⟨hcoh, hidle⟩ := hs.coherent hnone
  have hf : Log.Fits s.log.start s.log.size s.log.lh := ⟨hs.room, hs.logged⟩
  have hsize : s.log.size ≤ NBUF := le_of_eq hs.log.size
  obtain ⟨c', hc', hcoh', hidle'⟩ := commit_spec hf hsize hs.log.nodup hcoh hidle
  rw [h] at hc'
  obtain ⟨rfl, rfl⟩ := Prod.mk.inj (Except.ok.inj hc')
  -- no buffer is dirty once every logged block is installed
  have hclean : ∀ k, (c.buf k).dirty = false := fun k => by
    cases hk : (c.buf k).dirty
    · rfl
    · exact absurd (hcoh'.dirty k hk).2.2 List.not_mem_nil
  refine ⟨hlog, ?_, fun _ hb => absurd hb List.not_mem_nil, ?_, ⟨hcoh'.uniq, fun k hk hv => ?_,
    fun k hk => absurd hk (by rw [hclean k]; exact Bool.false_ne_true),
    fun _ hb => absurd hb List.not_mem_nil⟩, fun _ hb => absurd rfl hb, fun k => ?_, ?_, ?_⟩
  · have hsz : s.log.size = LOGSIZE := hs.log.size
    show 0 < s.log.size
    rw [hsz]
    decide
  · -- the commit ends by clearing the header (`Log.commit_triple`)
    exact ((Log.commit_triple hf) s.disk ⟨hs.head, fun _ _ => rfl⟩).2.1
  · rw [hcoh'.fresh k hk hv, hclean k]
    rfl
  · rw [hidle' k]
    simp [hnone]
  · intro j o hj
    simp [hnone j] at hj
  · intro j o hj
    simp [hnone j] at hj

omit [DecidableEq ι] in
/-- A held buffer has references. -/
theorem Inv.refcnt_ne_zero (hs : Inv s) {i : ι} {o : opstate} {h : hold} (hi : s.op i = some o)
    (hm : h ∈ o.holds) : (s.cache.buf h.buf).refcnt ≠ 0 :=
  fun hz => unheld_of_refcnt hs.refcnt hz i o hi h hm rfl

omit [DecidableEq ι] in
/-- A buffer that is dirty or changed is valid: dirty ones by `CacheOk`, changed
ones because a changed hold is locked. -/
theorem Inv.valid_of_taken (hs : Inv s) {k : Fin NBUF}
    (hk : (s.cache.buf k).dirty = true ∨ changed s.op k) : (s.cache.buf k).valid = true := by
  rcases hk with hk | ⟨i, hi⟩
  · exact (hs.cache.dirty k hk).2.1
  · cases hop : s.op i with
    | none => rw [hop] at hi; exact hi.elim
    | some o =>
      rw [hop] at hi
      obtain ⟨h, hm, rfl, hc⟩ := hi
      have hok := hs.holds i o hop h hm
      exact hok.valid (hok.locked hc)

omit [DecidableEq ι] in
/-- A buffer that is dirty or changed is not one `bget` may recycle. -/
theorem Inv.taken (hs : Inv s) {k : Fin NBUF}
    (hk : (s.cache.buf k).dirty = true ∨ changed s.op k) : ¬s.cache.free k := by
  rintro ⟨hz, hd⟩
  rcases hk with hk | ⟨i, hi⟩
  · rw [hd] at hk
    cases hk
  · cases hop : s.op i with
    | none => rw [hop] at hi; exact hi
    | some o =>
      rw [hop] at hi
      obtain ⟨h, hm, rfl, -⟩ := hi
      exact hs.refcnt_ne_zero hop hm hz

omit [HeaderBlock α] in
theorem samePlace_of_keep {c c' : bcache α} {k : Fin NBUF}
    (h : c'.buf k = { c.buf k with refcnt := (c'.buf k).refcnt }) : SamePlace c c' k := by
  rw [SamePlace, h]
  exact ⟨rfl, rfl, id⟩

omit [DecidableEq ι] in
/-- What `bget` does to the cache: the block's buffer, one more reference on
it, and every buffer that was taken kept as it was. -/
theorem bget_taken {b : Nat} {k : Fin NBUF} {c : bcache α} (hs : Inv s)
    (hk : bget ROOTDEV b s.cache = .ok (k, c)) :
    CacheOk c s.log.lh s.mem ∧
      (∀ j, (c.buf j).refcnt = (s.cache.buf j).refcnt + if j = k then 1 else 0) ∧
      (c.buf k).dev = ROOTDEV ∧ (c.buf k).blockno = b ∧
      ∀ j, ¬s.cache.free j → c.buf j = { s.cache.buf j with refcnt := (c.buf j).refcnt } := by
  rcases bget_cases ROOTDEV b s.cache with ⟨k', hd, hbn, hget⟩ | ⟨hno, ⟨k', hfree, hget⟩ | ⟨-, hget⟩⟩
  · -- cached: one more reference, nothing else
    rw [hk] at hget
    obtain ⟨rfl, rfl⟩ := Prod.mk.inj (Except.ok.inj hget)
    refine ⟨hs.cache.addref k, fun j => addref_refcnt _ _ _, by simpa using hd, by simpa using hbn,
      fun j _ => ?_⟩
    rw [bcache.upd_buf]
    split <;> simp_all
  · -- recycled: the free buffer, which no one held
    rw [hk] at hget
    obtain ⟨rfl, rfl⟩ := Prod.mk.inj (Except.ok.inj hget)
    refine ⟨hs.cache.recycle hfree hno, fun j => ?_, by simp [recycle], by simp [recycle],
      fun j hj => ?_⟩
    · rw [bcache.upd_buf]
      split
      · rename_i hjk
        subst hjk
        simp [recycle, hfree.1]
      · simp_all
    · have hjk : j ≠ k := fun h => hj (h ▸ hfree)
      rw [bcache.upd_buf_of_ne _ _ hjk]
  · rw [hk] at hget
    cases hget

theorem inv_bget {i : ι} {o : opstate} {b : Nat} {k : Fin NBUF} {c : bcache α} (hs : Inv s)
    (hi : s.op i = some o) (hr : o.ready = true) (hb : o.held b = none) (hout : outside s.log b)
    (hk : bget ROOTDEV b s.cache = .ok (k, c)) :
    Inv { s with
      cache := c
      op := Function.update s.op i (some
        { o with touched := Log.absorb o.touched b, holds := ⟨b, k, false, false⟩ :: o.holds }) } := by
  have hlog := (Move.bget hi hr hb hout hk).log_inv hs.log
  obtain ⟨hcache, hrc, hkdev, hkbno, hkeep⟩ := bget_taken hs hk
  have hsub : o.touched ⊆ Log.absorb o.touched b := fun x hx => Log.mem_absorb.mpr (.inl hx)
  refine ⟨hlog, hs.room, hs.logged, hs.head, hcache, fun x hx => ?_, ?_, ?_, ?_⟩
  · -- the witness of a stale block was taken, so `bget` left it alone
    obtain ⟨j, hj1, hj2, hj3⟩ := hs.stale x hx
    have hj := hkeep j (hs.taken hj3)
    refine ⟨j, by rw [hj]; exact hj1, by rw [hj]; exact hj2, ?_⟩
    rw [hj]
    refine hj3.imp id fun h => changed_update h ?_
    rw [hi]
    rintro ⟨h, hm, hbuf, hch⟩
    exact ⟨h, List.mem_cons_of_mem _ hm, hbuf, hch⟩
  · refine refcnt_update hs.refcnt fun j => ?_
    rw [hrc j, hi]
    by_cases hjk : j = k
    · subst hjk
      simp only [holding, List.countP_cons, decide_true, if_pos]
      omega
    · simp [holding, hjk, Ne.symm hjk]
  · refine update_forall (fun j o' _ hj h hm => (hs.holds j o' hj h hm).of_place
      (samePlace_of_keep (hkeep _ (fun hf => hs.refcnt_ne_zero hj hm hf.1))) ⟨rfl, rfl⟩
      (fun _ h => h)) ?_
    rintro o' ⟨⟩ h hm
    rcases List.mem_cons.mp hm with rfl | hm
    · exact ⟨hkdev, hkbno, Log.mem_absorb.mpr (.inr rfl), hout, (fun h => by cases h),
        (fun h => by cases h)⟩
    · exact (hs.holds i o hi h hm).of_place
        (samePlace_of_keep (hkeep _ (fun hf => hs.refcnt_ne_zero hi hm hf.1))) ⟨rfl, rfl⟩ hsub
  · refine update_forall (fun j o' _ hj => hs.ops j o' hj) ?_
    rintro o' ⟨⟩
    have hop := hs.ops i o hi
    refine ⟨?_, Log.nodup_absorb hop.touched b, hop.written,
      fun x hx => hsub (hop.written_touched x hx)⟩
    simp only [List.map_cons, List.nodup_cons, List.mem_map]
    exact ⟨fun ⟨h, hm, hbh⟩ => opstate.held_none hb h hm hbh, hop.blocknos⟩

theorem inv_lock {i : ι} {o : opstate} {b : Nat} {h : hold} (hs : Inv s) (hi : s.op i = some o)
    (hh : o.held b = some h) (hl : h.locked = false)
    (hfree : ∀ j, lockedBy (s.op j) h.buf = false) :
    Inv { s with
      cache := fill s.disk h.buf s.cache
      op := Function.update s.op i (some (o.sethold { h with locked := true })) } := by
  have hlog := (Move.lock hi hh hl hfree).log_inv hs.log
  obtain ⟨hm, -⟩ := opstate.held_some hh
  have hok := hs.holds i o hi h hm
  have hnd := (hs.ops i o hi).blocknos
  have hp := fun j => samePlace_fill (c := s.cache) s.disk h.buf j
  -- a buffer that is not valid is neither dirty nor changed, so its block is
  -- not stale on disk and the read brings in the latest contents
  have hread : (s.cache.buf h.buf).valid = false →
      s.disk (s.cache.buf h.buf).blockno = s.mem (s.cache.buf h.buf).blockno := by
    intro hv
    by_contra hne
    obtain ⟨j, hj1, hj2, hj3⟩ := hs.stale _ hne
    have hjk : j = h.buf := hs.cache.uniq j h.buf hj1 hok.dev hj2
    rw [← hjk, hs.valid_of_taken hj3] at hv
    cases hv
  refine ⟨hlog, hs.room, hs.logged, hs.head, hs.cache.fill hread, fun x hx => ?_, ?_, ?_, ?_⟩
  · obtain ⟨j, hj1, hj2, hj3⟩ := hs.stale x hx
    refine ⟨j, (hp j).1.trans hj1, (hp j).2.1.trans hj2, ?_⟩
    rw [fill_dirty]
    refine hj3.imp id fun hc => changed_update hc ?_
    rw [hi]
    exact changedIn_sethold hnd hm { h with locked := true } rfl rfl id
  · refine refcnt_update hs.refcnt fun j => ?_
    rw [fill_refcnt, hi, holding_sethold_of hnd hm { h with locked := true } rfl rfl]
  · refine update_forall (fun j o' _ hj y hy =>
      (hs.holds j o' hj y hy).of_place (hp y.buf) ⟨rfl, rfl⟩ (fun _ h => h)) ?_
    rintro o' ⟨⟩ y hy
    rcases (mem_sethold_of hnd hm { h with locked := true } rfl).mp hy with rfl | ⟨hy, -⟩
    · exact ⟨(hp h.buf).1.trans hok.dev, (hp h.buf).2.1.trans hok.blockno, hok.touched, hok.out,
        fun _ => (fill_buf_self_fields s.disk h.buf s.cache).2.2.2.2, fun _ => rfl⟩
    · exact (hs.holds i o hi y hy).of_place (hp y.buf) ⟨rfl, rfl⟩ (fun _ h => h)
  · refine update_forall (fun j o' _ hj => hs.ops j o' hj) ?_
    rintro o' ⟨⟩
    exact (hs.ops i o hi).sethold _

theorem inv_modify {i : ι} {o : opstate} {b : Nat} {h : hold} {v : α} (hs : Inv s)
    (hi : s.op i = some o) (hh : o.held b = some h) (hr : o.ready = true) :
    Inv { s with
      cache := s.cache.upd h.buf fun x => { x with data := v }
      op := Function.update s.op i (some (o.sethold { h with changed := true }))
      mem := Function.update s.mem b v } := by
  have hlog := (Move.modify (v := v) hi hh hr).log_inv hs.log
  obtain ⟨hm, hb⟩ := opstate.held_some hh
  have hok := hs.holds i o hi h hm
  have hnd := (hs.ops i o hi).blocknos
  have hlocked : h.locked = true := List.all_eq_true.mp hr h hm
  have hp := fun j => samePlace_upd (c := s.cache) (k := h.buf)
    (f := fun x => { x with data := v }) ⟨rfl, rfl, rfl⟩ j
  have hdirty : ∀ j, ((s.cache.upd h.buf fun x => { x with data := v }).buf j).dirty =
      (s.cache.buf j).dirty := fun j => by
    rw [bcache.upd_buf]
    split <;> simp_all
  have hnew : { h with changed := true } ∈ (o.sethold { h with changed := true }).holds :=
    (mem_sethold_of hnd hm { h with changed := true } rfl).mpr (.inl rfl)
  refine ⟨hlog, hs.room, hs.logged, hs.head, hs.cache.store hok.dev (hok.blockno.trans hb) v,
    fun x hx => ?_, ?_, ?_, ?_⟩
  · by_cases hxb : x = b
    · -- the stored block: its buffer is now changed
      subst hxb
      refine ⟨h.buf, (hp h.buf).1.trans hok.dev, (hp h.buf).2.1.trans (hok.blockno.trans hb), ?_⟩
      exact .inr ⟨i, by simp only [Function.update_self]; exact ⟨_, hnew, rfl, rfl⟩⟩
    · have hx' : s.disk x ≠ s.mem x := by simpa [Function.update_of_ne hxb] using hx
      obtain ⟨j, hj1, hj2, hj3⟩ := hs.stale x hx'
      refine ⟨j, (hp j).1.trans hj1, (hp j).2.1.trans hj2, ?_⟩
      rw [hdirty]
      refine hj3.imp id fun hc => changed_update hc ?_
      rw [hi]
      exact changedIn_sethold hnd hm { h with changed := true } rfl rfl fun _ => rfl
  · refine refcnt_update hs.refcnt fun j => ?_
    rw [upd_data_refcnt, hi, holding_sethold_of hnd hm { h with changed := true } rfl rfl]
  · refine update_forall (fun j o' _ hj y hy =>
      (hs.holds j o' hj y hy).of_place (hp y.buf) ⟨rfl, rfl⟩ (fun _ h => h)) ?_
    rintro o' ⟨⟩ y hy
    rcases (mem_sethold_of hnd hm { h with changed := true } rfl).mp hy with rfl | ⟨hy, -⟩
    · exact ⟨(hp h.buf).1.trans hok.dev, (hp h.buf).2.1.trans hok.blockno, hok.touched, hok.out,
        fun hl => (hp h.buf).2.2 (hok.valid hl), fun _ => hlocked⟩
    · exact (hs.holds i o hi y hy).of_place (hp y.buf) ⟨rfl, rfl⟩ (fun _ h => h)
  · refine update_forall (fun j o' _ hj => hs.ops j o' hj) ?_
    rintro o' ⟨⟩
    exact (hs.ops i o hi).sethold _

theorem inv_log_write {i : ι} {o : opstate} {b : Nat} {h : hold} {l : Log.log} (hs : Inv s)
    (hi : s.op i = some o) (hh : o.held b = some h) (hr : o.ready = true)
    (hbudget : b ∈ o.written ∨ o.written.length < Log.MAXOPBLOCKS)
    (hl : Log.log_write s.log b = .ok l) :
    Inv { s with
      log := l
      cache := s.cache.upd h.buf fun x => { x with dirty := true }
      op := Function.update s.op i (some
        { o.sethold { h with changed := false } with written := Log.absorb o.written b }) } := by
  have hlog := (Move.log_write hi hh hr hbudget hl).log_inv hs.log
  obtain ⟨hroom, rfl⟩ := Log.log_write_ok hl
  obtain ⟨hm, hb⟩ := opstate.held_some hh
  have hok := hs.holds i o hi h hm
  have hnd := (hs.ops i o hi).blocknos
  have hlocked : h.locked = true := List.all_eq_true.mp hr h hm
  have hp := fun j => samePlace_upd (c := s.cache) (k := h.buf)
    (f := fun x => { x with dirty := true }) ⟨rfl, rfl, rfl⟩ j
  have hbuf : ∀ j, (s.cache.upd h.buf fun x => { x with dirty := true }).buf j =
      if j = h.buf then { s.cache.buf h.buf with dirty := true } else s.cache.buf j :=
    fun j => bcache.upd_buf _ _ _ _
  refine ⟨hlog, ?_, fun x hx => ?_, hs.head,
    hs.cache.pin hok.dev (hok.valid hlocked) (hok.blockno.trans hb), fun x hx => ?_, ?_, ?_, ?_⟩
  · have := Log.length_absorb_le s.log.lh b
    show (Log.absorb s.log.lh b).length < s.log.size
    omega
  · rcases Log.mem_absorb.mp hx with hx | rfl
    · exact hs.logged x hx
    · exact hb ▸ hok.out
  · obtain ⟨j, hj1, hj2, hj3⟩ := hs.stale x hx
    refine ⟨j, (hp j).1.trans hj1, (hp j).2.1.trans hj2, ?_⟩
    by_cases hjk : j = h.buf
    · -- the logged buffer is dirty now
      subst hjk
      exact .inl (by simp)
    · rw [hbuf, if_neg hjk]
      refine hj3.imp id fun hc => changed_update hc ?_
      rw [hi]
      -- its changed hold is not the one passed to `log_write`
      rintro ⟨y, hy, hyj, hyc⟩
      have hyh : y ≠ h := fun hyh => hjk (hyh ▸ hyj.symm)
      exact ⟨y, (mem_sethold_of hnd hm { h with changed := false } rfl).mpr (.inr ⟨hy, hyh⟩), hyj, hyc⟩
  · refine refcnt_update hs.refcnt fun j => ?_
    have hre : ((s.cache.upd h.buf fun x => { x with dirty := true }).buf j).refcnt =
        (s.cache.buf j).refcnt := by
      rw [hbuf]
      split <;> simp_all
    rw [hre, hi]
    exact congrArg _ (holding_sethold_of hnd hm { h with changed := false } rfl rfl j).symm
  · refine update_forall (fun j o' _ hj y hy =>
      (hs.holds j o' hj y hy).of_place (hp y.buf) ⟨rfl, rfl⟩ (fun _ h => h)) ?_
    rintro o' ⟨⟩ y hy
    rcases (mem_sethold_of hnd hm { h with changed := false } rfl).mp hy with rfl | ⟨hy, -⟩
    · exact ⟨(hp h.buf).1.trans hok.dev, (hp h.buf).2.1.trans hok.blockno, hok.touched, hok.out,
        fun hl => (hp h.buf).2.2 (hok.valid hl), fun hc => by cases hc⟩
    · exact (hs.holds i o hi y hy).of_place (hp y.buf) ⟨rfl, rfl⟩ (fun _ h => h)
  · refine update_forall (fun j o' _ hj => hs.ops j o' hj) ?_
    rintro o' ⟨⟩
    have hop := (hs.ops i o hi).sethold { h with changed := false }
    refine ⟨hop.blocknos, hop.touched, Log.nodup_absorb hop.written b, fun x hx => ?_⟩
    rcases Log.mem_absorb.mp hx with hx | rfl
    · exact hop.written_touched x hx
    · exact hb ▸ hok.touched

theorem inv_brelse {i : ι} {o : opstate} {b : Nat} {h : hold} (hs : Inv s)
    (hi : s.op i = some o) (hh : o.held b = some h) (hr : o.ready = true)
    (hc : h.changed = false) :
    Inv { s with
      cache := brelse h.buf s.cache
      op := Function.update s.op i (some (o.release b)) } := by
  have hlog := (Move.brelse hi hh hr hc).log_inv hs.log
  obtain ⟨hm, rfl⟩ := opstate.held_some hh
  have hnd := (hs.ops i o hi).blocknos
  have hp := fun j => samePlace_brelse (c := s.cache) h.buf j
  refine ⟨hlog, hs.room, hs.logged, hs.head, hs.cache.brelse h.buf, fun x hx => ?_, ?_, ?_, ?_⟩
  · obtain ⟨j, hj1, hj2, hj3⟩ := hs.stale x hx
    refine ⟨j, (hp j).1.trans hj1, (hp j).2.1.trans hj2, ?_⟩
    rw [brelse_dirty]
    refine hj3.imp id fun hch => changed_update hch ?_
    rw [hi]
    -- a changed hold is not the released one, which is unchanged
    rintro ⟨y, hy, hyj, hyc⟩
    have hyb : y.blockno ≠ h.blockno := fun hyb => by
      rw [List.inj_on_of_nodup_map hnd hy hm hyb, hc] at hyc
      cases hyc
    exact ⟨y, opstate.mem_release.mpr ⟨hy, hyb⟩, hyj, hyc⟩
  · refine refcnt_update hs.refcnt fun j => ?_
    have hrel := holding_release hnd hm j
    have hpos := hs.refcnt_ne_zero hi hm
    rw [brelse_refcnt, hi]
    by_cases hjk : j = h.buf
    · subst hjk
      simp only [if_true] at hrel ⊢
      omega
    · simp only [hjk, if_false, Ne.symm hjk] at hrel ⊢
      omega
  · refine update_forall (fun j o' _ hj y hy =>
      (hs.holds j o' hj y hy).of_place (hp y.buf) ⟨rfl, rfl⟩ (fun _ h => h)) ?_
    rintro o' ⟨⟩ y hy
    exact (hs.holds i o hi y (opstate.mem_release.mp hy).1).of_place (hp y.buf) ⟨rfl, rfl⟩
      (fun _ h => h)
  · refine update_forall (fun j o' _ hj => hs.ops j o' hj) ?_
    rintro o' ⟨⟩
    have hop := hs.ops i o hi
    exact ⟨hnd.sublist (List.filter_sublist.map _), hop.touched, hop.written,
      hop.written_touched⟩

/-- A due commit completes. With no operation left, the cache-level commit
makes exactly the writes of `Log.commit`. -/
theorem Inv.step_commit (hs : Inv s) (hc : s.log.committing = true) :
    ∃ c, step s .commit = some (.ok { s with
      log := Log.end_commit s.log, cache := c,
      disk := CrashHoare.run (Log.commit s.log.start s.mem s.log.lh) s.disk,
      mem := CrashHoare.run (Log.commit s.log.start s.mem s.log.lh) s.disk }) := by
  obtain ⟨hcoh, hidle⟩ := hs.coherent (hs.quiet hc)
  have hf : Log.Fits s.log.start s.log.size s.log.lh := ⟨hs.room, hs.logged⟩
  obtain ⟨c, hcommit, -, -⟩ := commit_spec hf (le_of_eq hs.log.size) hs.log.nodup hcoh hidle
  exact ⟨c, by simp only [step, hc, if_true, hcommit]; rfl⟩

end Steps

/-! ## Every reachable state -/

/-- Every completed step keeps the invariant. -/
theorem Inv.move {s t : Sys α ι} {e : Event α ι} (hs : Inv s) (h : Move s e t) : Inv t := by
  cases h with
  | begin_op hi hl => exact inv_begin_op hs hi hl
  | bget hi hr hb hout hk => exact inv_bget hs hi hr hb hout hk
  | lock hi hh hl hfree => exact inv_lock hs hi hh hl hfree
  | modify hi hh hr => exact inv_modify hs hi hh hr
  | log_write hi hh hr hbudget hl => exact inv_log_write hs hi hh hr hbudget hl
  | brelse hi hh hr hc => exact inv_brelse hs hi hh hr hc
  | end_op hi hnil hl => exact inv_end_op hs hi hnil hl
  | commit hc h => exact inv_commit hs hc h

theorem Inv.reachable [Inhabited α] {s : Sys α ι} (hs : CacheReachable s) : Inv s := by
  refine invariant ?_ ?_ hs
  · rintro _ ⟨start, d, hd, rfl⟩
    exact inv_init hd
  · rintro a b - ha ⟨e, he⟩
    exact ha.move (Move.of_step he)

/-- **Logged updates are kept until the commit.** In every reachable state,
each block of the log header has exactly one buffer on the device. That
buffer is dirty and holds the block's latest contents. Whenever a commit is
due, the commit step completes, and the home location of every logged block
then holds that block's latest contents. -/
theorem logged_updates_kept [Inhabited α] {s : Sys α ι} (hs : CacheReachable s) :
    (∀ b ∈ s.log.lh, ∃ k, (s.cache.buf k).dev = ROOTDEV ∧ (s.cache.buf k).blockno = b ∧
      (s.cache.buf k).dirty = true ∧ (s.cache.buf k).data = s.mem b ∧
      ∀ j, (s.cache.buf j).dev = ROOTDEV → (s.cache.buf j).blockno = b → j = k) ∧
    (s.log.committing = true → ∃ t, step s .commit = some (.ok t) ∧
      ∀ b ∈ s.log.lh, t.disk b = s.mem b) := by
  have hinv := Inv.reachable hs
  refine ⟨fun b hb => ?_, fun hc => ?_⟩
  · obtain ⟨k, hdev, hbno, hdirty⟩ := hinv.cache.pinned b hb
    have hvalid := (hinv.cache.dirty k hdirty).2.1
    refine ⟨k, hdev, hbno, hdirty, ?_, fun j hj hjb =>
      hinv.cache.uniq j k hj hdev (hjb.trans hbno.symm)⟩
    rw [hinv.cache.fresh k hdev hvalid, hbno]
  · obtain ⟨c, hstep⟩ := hinv.step_commit hc
    refine ⟨_, hstep, fun b hb => ?_⟩
    -- `Log.commit` from an empty header installs every logged block
    have hf : Log.Fits s.log.start s.log.size s.log.lh := ⟨hinv.room, hinv.logged⟩
    exact ((Log.commit_triple hf) s.disk ⟨hinv.head, fun _ _ => rfl⟩).2.2 b hb

/-- One operation stores `[7]` into block 40, logs it, releases it and ends, so
the commit is due. -/
def storeRun : List (Event (List Nat) (Fin 1)) :=
  [.begin_op 0, .bget 0 40, .lock 0 40, .modify 0 40 [7], .log_write 0 40, .brelse 0 40, .end_op 0]

theorem logged_updates_kept_store :
    ∃ t : Sys (List Nat) (Fin 1), runLabels stepOk (init 2 fun _ => []) storeRun = some t ∧
      t.log.lh = [40] ∧ t.log.committing = true ∧ t.mem 40 = [7] ∧
      ∃ u, step t .commit = some (.ok u) ∧ u.disk 40 = [7] := by
  obtain ⟨t, ht, hlh, hc, hmem⟩ : ∃ t : Sys (List Nat) (Fin 1),
      runLabels stepOk (init 2 fun _ => []) storeRun = some t ∧ t.log.lh = [40] ∧
        t.log.committing = true ∧ t.mem 40 = [7] := ⟨_, rfl, rfl, rfl, rfl⟩
  obtain ⟨u, hu, hdisk⟩ := (logged_updates_kept (CacheReachable.of_run rfl storeRun ht)).2 hc
  exact ⟨t, ht, hlh, hc, hmem, u, hu, by rw [hdisk 40 (by simp [hlh]), hmem]⟩

end Xv6.Bio
