/-
`log.c`'s `commit()` as it runs through the buffer cache.

`Xv6.Log.Basic` models `commit()` by the block writes it makes, with the new
contents of each logged block given as `cache`. Here `write_log`, `write_head`
and `install_trans` are the C code's loops of `bread`, `memmove`, `bwrite` and
`brelse`, and `commit_spec` connects the two levels. Start `commit()` with no
buffer held, with the buffers of the logged blocks dirty, and with every other
valid buffer agreeing with the disk. Then it never panics, and it makes exactly
the block writes of `Log.commit`, with `cache` read off the dirty buffers.
Afterwards every buffer is clean and agrees with the new disk.

The argument is one predicate, `Coherent`, that each `bread`, write and release
keeps:
* one buffer per block;
* a valid buffer holds its sector as on disk, unless it is dirty, and then it
  holds its logged contents;
* the dirty buffers are those of the blocks `pend` whose home write is still to
  come.

While nothing is held, the dirty buffers are the only ones `bget` cannot recycle.
There are fewer of them than buffers, because the transaction fits the log and
`LOGSIZE = NBUF`. So each `bread` of a log block or of the header finds a buffer.
-/
import Xv6.Bio.Basic
import Xv6.Log.Crash

set_option autoImplicit false

namespace Xv6.Bio

open CrashHoare
open Xv6.Log (Disk HeaderBlock)

variable {α : Type}

/-! ## The procedures -/

/-- `write_log`'s loop from `tail` on: read log slot `log.start+tail+1` and the
logged block, copy the block into the slot's buffer, write the slot, release
both. -/
def write_log_from (start : Nat) :
    Nat → List Nat → bcache α × Disk α → Except String (bcache α × Disk α)
  | _, [], cd => .ok cd
  | tail, b :: bs, (c, d) => do
    let (to_, c) ← bread ROOTDEV (start + tail + 1) d c
    let (from_, c) ← bread ROOTDEV b d c
    let c := c.upd to_ fun x => { x with data := (c.buf from_).data }
    let (c, d) := bwrite to_ c d
    write_log_from start (tail + 1) bs (brelse to_ (brelse from_ c), d)

/-- `write_log`: "Copy modified blocks from cache to log." -/
def write_log (start : Nat) (lh : List Nat) (cd : bcache α × Disk α) :
    Except String (bcache α × Disk α) :=
  write_log_from start 0 lh cd

/-- `install_trans`'s loop from `tail` on: read log slot `log.start+tail+1` and
the home block, copy the slot into the home block's buffer, write it, release
both. -/
def install_trans_from (start : Nat) :
    Nat → List Nat → bcache α × Disk α → Except String (bcache α × Disk α)
  | _, [], cd => .ok cd
  | tail, b :: bs, (c, d) => do
    let (lbuf, c) ← bread ROOTDEV (start + tail + 1) d c
    let (dbuf, c) ← bread ROOTDEV b d c
    let c := c.upd dbuf fun x => { x with data := (c.buf lbuf).data }
    let (c, d) := bwrite dbuf c d
    install_trans_from start (tail + 1) bs (brelse dbuf (brelse lbuf c), d)

/-- `install_trans`: "Copy committed blocks from log to their home location." -/
def install_trans (start : Nat) (lh : List Nat) (cd : bcache α × Disk α) :
    Except String (bcache α × Disk α) :=
  install_trans_from start 0 lh cd

section Header

variable [HeaderBlock α]

/-- `write_head`: read the header block, store the header in its buffer, write
it, release it. -/
def write_head (start : Nat) (lh : List Nat) : bcache α × Disk α → Except String (bcache α × Disk α)
  | (c, d) => do
    let (buf, c) ← bread ROOTDEV start d c
    let c := c.upd buf fun x => { x with data := HeaderBlock.setHeader x.data lh }
    let (c, d) := bwrite buf c d
    return (brelse buf c, d)

/-- `commit`: log, commit, install, erase; nothing for an empty transaction. -/
def commit (start : Nat) (lh : List Nat) (cd : bcache α × Disk α) :
    Except String (bcache α × Disk α) :=
  if 0 < lh.length then do
    let cd ← write_log start lh cd
    let cd ← write_head start lh cd
    let cd ← install_trans start lh cd
    write_head start [] cd
  else .ok cd

end Header

/-! ## The cache during a commit -/

/-- The cache against the disk `d`, with `m` the logged contents and `pend` the
logged blocks not yet installed. -/
structure Coherent (m : Nat → α) (pend : List Nat) (c : bcache α) (d : Disk α) : Prop where
  /-- one buffer per block of the device -/
  uniq : ∀ k j, (c.buf k).dev = ROOTDEV → (c.buf j).dev = ROOTDEV →
    (c.buf k).blockno = (c.buf j).blockno → k = j
  /-- a valid buffer holds the sector, or its logged contents while dirty -/
  fresh : ∀ k, (c.buf k).dev = ROOTDEV → (c.buf k).valid = true →
    (c.buf k).data = if (c.buf k).dirty then m (c.buf k).blockno else d (c.buf k).blockno
  /-- only the buffers of pending blocks are dirty, and they are valid -/
  dirty : ∀ k, (c.buf k).dirty = true →
    (c.buf k).dev = ROOTDEV ∧ (c.buf k).valid = true ∧ (c.buf k).blockno ∈ pend
  /-- every pending block has its dirty buffer -/
  pinned : ∀ b ∈ pend, ∃ k, (c.buf k).dev = ROOTDEV ∧ (c.buf k).blockno = b ∧
    (c.buf k).dirty = true

section Coherent

variable {m : Nat → α} {pend : List Nat} {c c' : bcache α} {d : Disk α}

/-- `Coherent` does not look at reference counts. -/
theorem Coherent.of_refcnt (hc : Coherent m pend c d)
    (h : ∀ j, c'.buf j = { c.buf j with refcnt := (c'.buf j).refcnt }) :
    Coherent m pend c' d := by
  have hb : ∀ j, (c'.buf j).dev = (c.buf j).dev ∧ (c'.buf j).blockno = (c.buf j).blockno ∧
      (c'.buf j).valid = (c.buf j).valid ∧ (c'.buf j).dirty = (c.buf j).dirty ∧
      (c'.buf j).data = (c.buf j).data := fun j => by
    rw [h j]
    exact ⟨rfl, rfl, rfl, rfl, rfl⟩
  refine ⟨fun k j hk hj hkj => ?_, fun k hk hv => ?_, fun k hk => ?_, fun b hb' => ?_⟩
  · simp only [hb] at hk hj hkj
    exact hc.uniq k j hk hj hkj
  · simp only [hb] at hk hv ⊢
    exact hc.fresh k hk hv
  · simp only [hb] at hk ⊢
    exact hc.dirty k hk
  · obtain ⟨k, hk⟩ := hc.pinned b hb'
    exact ⟨k, by simpa only [hb] using hk⟩

theorem Coherent.addref (hc : Coherent m pend c d) (k : Fin NBUF) :
    Coherent m pend (c.upd k fun b => { b with refcnt := b.refcnt + 1 }) d := by
  apply hc.of_refcnt
  intro j
  rw [bcache.upd_buf]
  split <;> simp_all

theorem Coherent.brelse (hc : Coherent m pend c d) (k : Fin NBUF) :
    Coherent m pend (brelse k c) d := by
  apply hc.of_refcnt
  intro j
  rw [brelse_buf, bcache.upd_buf]
  split <;> simp_all

/-- `bread` of a pending block finds its dirty buffer: one more reference, and
the logged contents. -/
theorem Coherent.bread_pinned (hc : Coherent m pend c d) {b : Nat} (hb : b ∈ pend) :
    ∃ k, bread ROOTDEV b d c = .ok (k, c.upd k fun x => { x with refcnt := x.refcnt + 1 }) ∧
      (c.buf k).dev = ROOTDEV ∧ (c.buf k).blockno = b ∧ (c.buf k).dirty = true ∧
      (c.buf k).data = m b := by
  obtain ⟨k, hdev, hbno, hdirty⟩ := hc.pinned b hb
  have hvalid : (c.buf k).valid = true := (hc.dirty k hdirty).2.1
  have hget := bget_of_cached (c := c) ⟨hdev, hbno⟩
    (fun j hj hjb => hc.uniq j k hj hdev (hjb.trans hbno.symm))
  -- the buffer is valid, so `bread` does not read the disk
  have hfill : fill d k (c.upd k fun x => { x with refcnt := x.refcnt + 1 }) =
      c.upd k fun x => { x with refcnt := x.refcnt + 1 } := by
    simp [fill, hvalid]
  have hdata := hc.fresh k hdev hvalid
  rw [if_pos hdirty, hbno] at hdata
  refine ⟨k, ?_, hdev, hbno, hdirty, hdata⟩
  rw [bread_eq hget, hfill]

/-- A buffer taken over for a block that is not pending, and read: `Coherent`
holds again. -/
theorem Coherent.take (hc : Coherent m pend c d) {x : Nat} {k : Fin NBUF}
    {f : buf α → buf α} (hk : (c.buf k).dirty = false)
    (hf : (f (c.buf k)).dev = ROOTDEV ∧ (f (c.buf k)).blockno = x ∧ (f (c.buf k)).dirty = false ∧
      ((f (c.buf k)).valid = true → (f (c.buf k)).data = d x))
    (hno : ∀ j, j ≠ k → ¬((c.buf j).dev = ROOTDEV ∧ (c.buf j).blockno = x)) :
    Coherent m pend (fill d k (c.upd k f)) d := by
  obtain ⟨hdev, hbno, hdirty, hdata⟩ := hf
  -- what the read leaves in buffer `k`
  have hk' : ((fill d k (c.upd k f)).buf k).dev = ROOTDEV ∧
      ((fill d k (c.upd k f)).buf k).blockno = x ∧
      ((fill d k (c.upd k f)).buf k).dirty = false ∧
      ((fill d k (c.upd k f)).buf k).data = d x := by
    rw [fill_buf_self]
    simp only [bcache.upd_buf_self]
    split
    · exact ⟨hdev, hbno, hdirty, hdata ‹_›⟩
    · exact ⟨hdev, hbno, hdirty, by rw [hbno]⟩
  have hother : ∀ j, j ≠ k → (fill d k (c.upd k f)).buf j = c.buf j := fun j hj => by
    rw [fill_buf_of_ne d _ hj, bcache.upd_buf_of_ne _ _ hj]
  refine ⟨fun i j hi hj hij => ?_, fun j hj hv => ?_, fun j hj => ?_, fun b hb => ?_⟩
  · by_cases hik : i = k
    · by_cases hjk : j = k
      · rw [hik, hjk]
      · rw [hik, hk'.2.1, hother j hjk] at hij
        rw [hother j hjk] at hj
        exact absurd ⟨hj, hij.symm⟩ (hno j hjk)
    · by_cases hjk : j = k
      · rw [hjk, hk'.2.1, hother i hik] at hij
        rw [hother i hik] at hi
        exact absurd ⟨hi, hij⟩ (hno i hik)
      · rw [hother i hik] at hi hij
        rw [hother j hjk] at hj hij
        exact hc.uniq i j hi hj hij
  · by_cases hjk : j = k
    · subst hjk
      rw [hk'.2.2.1, hk'.2.2.2, hk'.2.1]
      rfl
    · rw [hother j hjk] at hj hv ⊢
      exact hc.fresh j hj hv
  · by_cases hjk : j = k
    · subst hjk
      rw [hk'.2.2.1] at hj
      cases hj
    · rw [hother j hjk] at hj ⊢
      exact hc.dirty j hj
  · -- the pinned buffers are dirty, so none of them is `k`
    obtain ⟨j, hj⟩ := hc.pinned b hb
    have hjk : j ≠ k := fun h => by
      rw [h, hk] at hj
      cases hj.2.2
    exact ⟨j, by rwa [hother j hjk]⟩

/-- `bread` of a block that is not pending, while nothing is held: it finds or
recycles a buffer, since the dirty ones are too few to fill the cache, and
reads the sector into it. -/
theorem Coherent.bread_clean (hc : Coherent m pend c d) (hidle : c.idle)
    (hn : pend.length < NBUF) {x : Nat} (hx : x ∉ pend) :
    ∃ k c', bread ROOTDEV x d c = .ok (k, c') ∧ Coherent m pend c' d ∧
      (c'.buf k).dev = ROOTDEV ∧ (c'.buf k).blockno = x ∧ (c'.buf k).dirty = false ∧
      (c'.buf k).data = d x ∧ ∀ j, (c'.buf j).refcnt = if j = k then 1 else 0 := by
  -- the refcounts after taking one reference on `k` from an idle cache
  have hrc : ∀ (k : Fin NBUF) (f : buf α → buf α), (f (c.buf k)).refcnt = 1 →
      ∀ j, ((fill d k (c.upd k f)).buf j).refcnt = if j = k then 1 else 0 := by
    intro k f hf j
    rw [fill_refcnt, bcache.upd_buf]
    split
    · exact hf
    · exact hidle j
  rcases bget_cases ROOTDEV x c with ⟨k, hdev, hbno, hget⟩ | ⟨hno, ⟨k, hfree, hget⟩ | ⟨hall, -⟩⟩
  · -- cached: a clean buffer, since the block is not pending
    have hk : (c.buf k).dirty = false := by
      cases h : (c.buf k).dirty
      · rfl
      · exact absurd (hbno ▸ (hc.dirty k h).2.2) hx
    have hvalid : (c.buf k).valid = true → (c.buf k).data = d x := fun hv => by
      rw [hc.fresh k hdev hv, hk, hbno]
      rfl
    have hcoh := hc.take (f := fun b => { b with refcnt := b.refcnt + 1 }) hk
      ⟨hdev, hbno, hk, hvalid⟩
      (fun j hj hjx => hj (hc.uniq j k hjx.1 hdev (hjx.2.trans hbno.symm)))
    refine ⟨k, _, bread_eq hget, hcoh, ?_⟩
    have hrefs := hrc k (fun b => { b with refcnt := b.refcnt + 1 }) (by simp [hidle k])
    rw [fill_buf_self]
    simp only [bcache.upd_buf_self]
    by_cases hv : (c.buf k).valid = true
    · simp only [hv, if_true]
      exact ⟨hdev, hbno, hk, hvalid hv, hrefs⟩
    · simp only [hv, Bool.false_eq_true, if_false]
      exact ⟨hdev, hbno, hk, by rw [hbno], hrefs⟩
  · -- recycled: the free buffer now caches `x`
    have hcoh := hc.take (f := recycle ROOTDEV x) hfree.2
      ⟨rfl, rfl, rfl, fun h => by cases h⟩ (fun j _ => hno j)
    refine ⟨k, _, bread_eq hget, hcoh, ?_⟩
    have hread : (fill d k (c.upd k (recycle ROOTDEV x))).buf k =
        { recycle ROOTDEV x (c.buf k) with data := d x, valid := true } := by
      rw [fill_buf_self]
      simp [recycle]
    rw [hread]
    exact ⟨rfl, rfl, rfl, rfl, hrc k _ rfl⟩
  · -- every buffer taken is impossible: the taken ones are the dirty ones
    have htaken : ∀ k, ¬c.free k → (c.buf k).dirty = true := fun k hk => by
      simp only [bcache.free, hidle k, true_and, Bool.not_eq_false] at hk
      exact hk
    have hmem : ∀ k, ¬c.free k → (c.buf k).blockno ∈ pend.toFinset := fun k hk =>
      List.mem_toFinset.mpr (hc.dirty k (htaken k hk)).2.2
    have hinj : ∀ k j, ¬c.free k → ¬c.free j → (c.buf k).blockno = (c.buf j).blockno → k = j :=
      fun k j hk hj hkj =>
        hc.uniq k j (hc.dirty k (htaken k hk)).1 (hc.dirty j (htaken j hj)).1 hkj
    obtain ⟨k, hk⟩ := exists_free pend.toFinset
      (lt_of_le_of_lt (List.toFinset_card_le pend) hn) hmem hinj
    exact absurd hk (hall k)

theorem bwrite_upd_buf (k j : Fin NBUF) (c : bcache α) (d : Disk α) (v : α) :
    (bwrite k (c.upd k fun b => { b with data := v }) d).1.buf j =
      if j = k then { c.buf k with data := v, valid := true, dirty := false } else c.buf j := by
  rw [bwrite_buf]
  by_cases hjk : j = k
  · subst hjk
    simp
  · simp [hjk, bcache.upd_buf_of_ne _ _ hjk]

theorem bwrite_upd_disk (k : Fin NBUF) (c : bcache α) (d : Disk α) (v : α) :
    (bwrite k (c.upd k fun b => { b with data := v }) d).2 =
      Function.update d (c.buf k).blockno v := by
  simp [bwrite_disk]

/-- Overwriting and writing out a buffer moves it to no other block. -/
theorem bwrite_upd_place (k j : Fin NBUF) (c : bcache α) (d : Disk α) (v : α) :
    ((bwrite k (c.upd k fun b => { b with data := v }) d).1.buf j).dev = (c.buf j).dev ∧
      ((bwrite k (c.upd k fun b => { b with data := v }) d).1.buf j).blockno =
        (c.buf j).blockno := by
  rw [bwrite_upd_buf]
  by_cases hjk : j = k
  · subst hjk
    simp
  · simp [hjk]

/-- Overwrite a clean buffer and write it out: the sector takes the new data. -/
theorem Coherent.write_clean (hc : Coherent m pend c d) {k : Fin NBUF}
    (hk : (c.buf k).dev = ROOTDEV) (hx : (c.buf k).blockno ∉ pend) (v : α) :
    Coherent m pend (bwrite k (c.upd k fun b => { b with data := v }) d).1
      (Function.update d (c.buf k).blockno v) := by
  have hclean : (c.buf k).dirty = false := by
    cases h : (c.buf k).dirty
    · rfl
    · exact absurd (hc.dirty k h).2.2 hx
  have hplace := fun j => bwrite_upd_place k j c d v
  refine ⟨fun i j hi hj hij => ?_, fun j hj hv => ?_, fun j hj => ?_, fun b hb => ?_⟩
  · rw [(hplace i).1] at hi
    rw [(hplace j).1] at hj
    rw [(hplace i).2, (hplace j).2] at hij
    exact hc.uniq i j hi hj hij
  · rw [bwrite_upd_buf] at hj hv ⊢
    by_cases hjk : j = k
    · subst hjk
      simp
    · simp only [hjk, if_false] at hj hv ⊢
      rw [hc.fresh j hj hv]
      -- another buffer caches another block
      have hne : (c.buf j).blockno ≠ (c.buf k).blockno := fun h => hjk (hc.uniq j k hj hk h)
      split <;> simp [hne]
  · rw [bwrite_upd_buf] at hj ⊢
    by_cases hjk : j = k
    · simp [hjk] at hj
    · simp only [hjk, if_false] at hj ⊢
      exact hc.dirty j hj
  · obtain ⟨j, hj⟩ := hc.pinned b hb
    have hjk : j ≠ k := fun h => by
      rw [h, hclean] at hj
      cases hj.2.2
    exact ⟨j, by rwa [bwrite_upd_buf, if_neg hjk]⟩

/-- Overwrite the buffer of the next pending block and write it out: the block
is installed and no longer pending. -/
theorem Coherent.write_pinned {b : Nat} {bs : List Nat} (hc : Coherent m (b :: bs) c d)
    (hnd : b ∉ bs) {k : Fin NBUF} (hk : (c.buf k).dev = ROOTDEV) (hkb : (c.buf k).blockno = b)
    (v : α) :
    Coherent m bs (bwrite k (c.upd k fun b => { b with data := v }) d).1
      (Function.update d b v) := by
  have hplace := fun j => bwrite_upd_place k j c d v
  -- every other buffer caches another block
  have hne : ∀ j, j ≠ k → (c.buf j).dev = ROOTDEV → (c.buf j).blockno ≠ b :=
    fun j hjk hj h => hjk (hc.uniq j k hj hk (h.trans hkb.symm))
  refine ⟨fun i j hi hj hij => ?_, fun j hj hv => ?_, fun j hj => ?_, fun x hx => ?_⟩
  · rw [(hplace i).1] at hi
    rw [(hplace j).1] at hj
    rw [(hplace i).2, (hplace j).2] at hij
    exact hc.uniq i j hi hj hij
  · rw [bwrite_upd_buf] at hj hv ⊢
    by_cases hjk : j = k
    · subst hjk
      simp [hkb]
    · simp only [hjk, if_false] at hj hv ⊢
      rw [hc.fresh j hj hv]
      split <;> simp [hne j hjk hj]
  · rw [bwrite_upd_buf] at hj ⊢
    by_cases hjk : j = k
    · simp [hjk] at hj
    · simp only [hjk, if_false] at hj ⊢
      obtain ⟨hd, hv, hm⟩ := hc.dirty j hj
      refine ⟨hd, hv, ?_⟩
      rcases List.mem_cons.mp hm with h | h
      · exact absurd h (hne j hjk hd)
      · exact h
  · obtain ⟨j, hj⟩ := hc.pinned x (List.mem_cons_of_mem b hx)
    have hjk : j ≠ k := fun h => by
      rw [h, hkb] at hj
      exact hnd (hj.2.1 ▸ hx)
    exact ⟨j, by rwa [bwrite_upd_buf, if_neg hjk]⟩

end Coherent

/-! ## The loops -/

section Loops

variable {m : Nat → α} {pend : List Nat}

theorem upd_data_refcnt (c : bcache α) (k j : Fin NBUF) (v : α) :
    ((c.upd k fun b => { b with data := v }).buf j).refcnt = (c.buf j).refcnt := by
  rw [bcache.upd_buf]
  split <;> simp_all

theorem addref_refcnt (c : bcache α) (k j : Fin NBUF) :
    ((c.upd k fun b => { b with refcnt := b.refcnt + 1 }).buf j).refcnt =
      (c.buf j).refcnt + if j = k then 1 else 0 := by
  rw [bcache.upd_buf]
  split <;> simp_all

/-- A round of either loop takes one reference on each of two buffers of an idle
cache and gives both back. -/
theorem idle_of_two {c : bcache α} {k l : Fin NBUF}
    (h : ∀ j, (c.buf j).refcnt = (if j = k then 1 else 0) + if j = l then 1 else 0) :
    (brelse l (brelse k c)).idle := by
  intro j
  rw [brelse_refcnt, brelse_refcnt, brelse_refcnt, h, h]
  by_cases hjl : j = l <;> by_cases hjk : j = k <;> simp_all

/-- One round of `write_log`: log slot `log.start+tail+1` takes the logged
contents of `b`, and nothing stays held. -/
theorem write_log_from_cons {start tail b : Nat} (bs : List Nat) {c : bcache α} {d : Disk α}
    (hc : Coherent m pend c d) (hidle : c.idle) (hn : pend.length < NBUF) (hb : b ∈ pend)
    (hslot : start + tail + 1 ∉ pend) :
    ∃ c', write_log_from start tail (b :: bs) (c, d) =
        write_log_from start (tail + 1) bs (c', Log.bwrite (start + tail + 1) (m b) d) ∧
      Coherent m pend c' (Log.bwrite (start + tail + 1) (m b) d) ∧ c'.idle := by
  obtain ⟨to_, c1, h1, hc1, hdev1, hbno1, -, -, hrc1⟩ := hc.bread_clean hidle hn hslot
  obtain ⟨from_, h2, -, hbno2, -, hdata2⟩ := hc1.bread_pinned hb
  -- the two buffers differ: one caches a pending block, the other does not
  have hne : to_ ≠ from_ := fun h => hslot (by rw [← hbno1, h, hbno2]; exact hb)
  set c2 := c1.upd from_ fun x => { x with refcnt := x.refcnt + 1 } with hc2_def
  have hto : c2.buf to_ = c1.buf to_ := c1.upd_buf_of_ne _ hne
  have hcopy : (c2.buf from_).data = m b := by
    rw [hc2_def, bcache.upd_buf_self]
    exact hdata2
  have hc3 := (hc1.addref from_).write_clean (k := to_) (by rw [hto, hdev1])
    (by rw [hto, hbno1]; exact hslot) (m b)
  rw [hto, hbno1] at hc3
  refine ⟨brelse to_ (brelse from_ (bwrite to_ (c2.upd to_ fun x => { x with data := m b }) d).1),
    ?_, hc3.brelse from_ |>.brelse to_, ?_⟩
  · simp only [write_log_from, h1, h2, bind, Except.bind, hcopy, bwrite_upd_disk, hto,
      hbno1]
    rfl
  · apply idle_of_two
    intro j
    rw [bwrite_refcnt, upd_data_refcnt, addref_refcnt, hrc1 j, Nat.add_comm]

/-- `write_log`'s loop copies each remaining logged block to its slot, as
`Log.write_log_from` does. -/
theorem write_log_from_spec {start size : Nat} (hout : ∀ x ∈ pend, x < start ∨ start + size ≤ x)
    (hn : pend.length < NBUF) :
    ∀ (tail : Nat) (bs : List Nat) (c : bcache α) (d : Disk α), (∀ b ∈ bs, b ∈ pend) →
      tail + bs.length < size → Coherent m pend c d → c.idle →
      ∃ c', write_log_from start tail bs (c, d) =
          .ok (c', run (Log.write_log_from start m tail bs) d) ∧
        Coherent m pend c' (run (Log.write_log_from start m tail bs) d) ∧ c'.idle
  | _, [], c, _, _, _, hc, hidle => ⟨c, rfl, hc, hidle⟩
  | tail, b :: bs, c, d, hbs, hlen, hc, hidle => by
    simp only [List.length_cons] at hlen
    -- the slot lies inside the log area, where no logged block is
    have hslot : start + tail + 1 ∉ pend := fun h => by
      have := hout _ h
      omega
    obtain ⟨c', heq, hc', hidle'⟩ :=
      write_log_from_cons bs hc hidle hn (hbs b List.mem_cons_self) hslot
    obtain ⟨c'', h, hc'', hidle''⟩ := write_log_from_spec hout hn (tail + 1) bs c' _
      (fun x hx => hbs x (List.mem_cons_of_mem b hx)) (by omega) hc' hidle'
    exact ⟨c'', heq.trans h, hc'', hidle''⟩

/-- One round of `install_trans`: the home block `b` takes what its log slot
holds on disk, and is no longer pending. -/
theorem install_trans_from_cons {start tail b : Nat} {bs : List Nat} {c : bcache α}
    {d : Disk α} (hc : Coherent m (b :: bs) c d) (hidle : c.idle) (hn : (b :: bs).length < NBUF)
    (hnd : b ∉ bs) (hslot : start + tail + 1 ∉ b :: bs) :
    ∃ c', install_trans_from start tail (b :: bs) (c, d) =
        install_trans_from start (tail + 1) bs (c', Log.bwrite b (d (start + tail + 1)) d) ∧
      Coherent m bs c' (Log.bwrite b (d (start + tail + 1)) d) ∧ c'.idle := by
  obtain ⟨lbuf, c1, h1, hc1, -, hbno1, -, hdata1, hrc1⟩ := hc.bread_clean hidle hn hslot
  obtain ⟨dbuf, h2, hdev2, hbno2, -, -⟩ := hc1.bread_pinned List.mem_cons_self
  have hne : lbuf ≠ dbuf := fun h => hslot (by rw [← hbno1, h, hbno2]; exact List.mem_cons_self)
  set c2 := c1.upd dbuf fun x => { x with refcnt := x.refcnt + 1 } with hc2_def
  have hl : c2.buf lbuf = c1.buf lbuf := c1.upd_buf_of_ne _ hne
  have hd : (c2.buf dbuf).dev = ROOTDEV ∧ (c2.buf dbuf).blockno = b := by
    rw [hc2_def, bcache.upd_buf_self]
    exact ⟨hdev2, hbno2⟩
  have hc3 := (hc1.addref dbuf).write_pinned hnd hd.1 hd.2 (d (start + tail + 1))
  refine ⟨brelse dbuf (brelse lbuf
      (bwrite dbuf (c2.upd dbuf fun x => { x with data := d (start + tail + 1) }) d).1),
    ?_, hc3.brelse lbuf |>.brelse dbuf, ?_⟩
  · simp only [install_trans_from, h1, h2, bind, Except.bind, hl, hdata1,
      bwrite_upd_disk, hd.2]
    rfl
  · apply idle_of_two
    intro j
    rw [bwrite_refcnt, upd_data_refcnt, addref_refcnt, hrc1 j]

/-- `install_trans`'s loop copies each remaining slot to its home block, as
`Log.install_trans_from` does, and leaves no buffer dirty. -/
theorem install_trans_from_spec {start size : Nat} (hsize : size ≤ NBUF) :
    ∀ (tail : Nat) (bs : List Nat) (c : bcache α) (d : Disk α), bs.Nodup →
      (∀ x ∈ bs, x < start ∨ start + size ≤ x) → tail + bs.length < size →
      Coherent m bs c d → c.idle →
      ∃ c', install_trans_from start tail bs (c, d) =
          .ok (c', run (Log.install_trans_from start tail bs) d) ∧
        Coherent m [] c' (run (Log.install_trans_from start tail bs) d) ∧ c'.idle
  | _, [], c, _, _, _, _, hc, hidle => ⟨c, rfl, hc, hidle⟩
  | tail, b :: bs, c, d, hnd, hout, hlen, hc, hidle => by
    simp only [List.length_cons] at hlen
    have hslot : start + tail + 1 ∉ b :: bs := fun h => by
      have := hout _ h
      omega
    obtain ⟨hb, hnd'⟩ := List.nodup_cons.mp hnd
    obtain ⟨c', heq, hc', hidle'⟩ :=
      install_trans_from_cons hc hidle (by simp only [List.length_cons]; omega) hb hslot
    obtain ⟨c'', h, hc'', hidle''⟩ := install_trans_from_spec hsize (tail + 1) bs c' _ hnd'
      (fun x hx => hout x (List.mem_cons_of_mem b hx)) (by omega) hc' hidle'
    exact ⟨c'', heq.trans h, hc'', hidle''⟩

variable [HeaderBlock α]

/-- `write_head` writes the header through its buffer, as `Log.write_head` does. -/
theorem write_head_spec (start : Nat) (l : List Nat) {c : bcache α} {d : Disk α}
    (hc : Coherent m pend c d) (hidle : c.idle) (hn : pend.length < NBUF) (hs : start ∉ pend) :
    ∃ c', write_head start l (c, d) = .ok (c', run (Log.write_head start l) d) ∧
      Coherent m pend c' (run (Log.write_head start l) d) ∧ c'.idle := by
  obtain ⟨k, c1, h1, hc1, hdev, hbno, -, hdata, hrc⟩ := hc.bread_clean hidle hn hs
  -- the buffer holds the header block as on disk
  have hupd : (c1.upd k fun x => { x with data := HeaderBlock.setHeader x.data l }) =
      c1.upd k fun x => { x with data := HeaderBlock.setHeader (d start) l } :=
    c1.upd_congr k (by rw [hdata])
  have hc2 := hc1.write_clean hdev (by rw [hbno]; exact hs) (HeaderBlock.setHeader (d start) l)
  rw [hbno] at hc2
  refine ⟨brelse k (bwrite k (c1.upd k fun x => { x with data := HeaderBlock.setHeader (d start) l })
    d).1, ?_, hc2.brelse k, ?_⟩
  · simp only [write_head, h1, bind, Except.bind, hupd, bwrite_upd_disk, hbno]
    rfl
  · intro j
    rw [brelse_refcnt, bwrite_refcnt, upd_data_refcnt, bwrite_refcnt, upd_data_refcnt, hrc, hrc]
    split <;> simp_all

/-- **`commit()` through the buffer cache is `Log.commit`.** Started with no
buffer held, with the logged blocks' buffers dirty and holding `m`, and with
the transaction fitting a log no larger than the cache, the cache-level
`commit()` never panics, makes the block writes of `Log.commit` with
`cache := m`, and leaves every buffer clean and agreeing with the disk. -/
theorem commit_spec {start size : Nat} {lh : List Nat} (hf : Log.Fits start size lh)
    (hsize : size ≤ NBUF) (hnd : lh.Nodup) {c : bcache α} {d : Disk α}
    (hc : Coherent m lh c d) (hidle : c.idle) :
    ∃ c', commit start lh (c, d) = .ok (c', run (Log.commit start m lh) d) ∧
      Coherent m [] c' (run (Log.commit start m lh) d) ∧ c'.idle := by
  have hn : lh.length < NBUF := lt_of_lt_of_le hf.room hsize
  have hs : start ∉ lh := fun h => hf.ne_start h rfl
  unfold commit Log.commit
  split
  · obtain ⟨c1, h1, hc1, hi1⟩ := write_log_from_spec hf.outside hn 0 lh c d (fun _ h => h)
      (by simpa using hf.room) hc hidle
    obtain ⟨c2, h2, hc2, hi2⟩ := write_head_spec start lh hc1 hi1 hn hs
    obtain ⟨c3, h3, hc3, hi3⟩ := install_trans_from_spec hsize 0 lh c2 _ hnd hf.outside
      (by simpa using hf.room) hc2 hi2
    obtain ⟨c4, h4, hc4, hi4⟩ := write_head_spec start [] hc3 hi3 (by simp [NBUF, Log.MAXOPBLOCKS])
      List.not_mem_nil
    refine ⟨c4, ?_, ?_, hi4⟩
    · simp only [write_log, install_trans, h1, h2, h3, h4, bind, Except.bind, run_append]
      rfl
    · simp only [run_append]
      exact hc4
  · rename_i hlen
    have hnil : lh = [] := List.eq_nil_of_length_eq_zero (by omega)
    subst hnil
    exact ⟨c, rfl, hc, hidle⟩

end Loops

end Xv6.Bio
