/-
`bio.c`: the buffer cache.

`NBUF` buffers sit on one doubly linked list through `bcache.head`, most
recently released first. `bcache.lru` is that list read from `head.next`
onwards. `bget` walks it forwards for a buffer that already caches the block,
and backwards for one to recycle. The structure carries the fact that the list
holds every buffer exactly once, which the C code keeps with its `next` and
`prev` pointers; a search of the list is then a search of the whole cache.

`buf.flags` is split into its two bits, `valid` (`B_VALID`) and `dirty`
(`B_DIRTY`). The sleep lock and the disk queue link are not fields here. Who
holds a buffer's lock is recorded by the callers' model (`Xv6.Bio.Trans`), and
`iderw` appears only after it has returned. Its read (`ideintr` copies the
sector in) sets `valid`. Its write (`bwrite` sets `B_DIRTY`, and `ideintr`
clears it once the sector is out) stores the data and leaves the buffer valid
and clean.

`bget` returns the buffer with its reference taken, before `acquiresleep`.
The read that `bread` adds once the lock is held is `fill`, a step of its own
for callers that interleave, and `bread` is the two together.
-/
import Mathlib.Data.Fintype.Card
import Mathlib.Data.List.FinRange
import Mathlib.Algebra.GroupWithZero.Nat
import Xv6.Log.Basic

set_option autoImplicit false

namespace Xv6.Bio

open Xv6.Log (Disk MAXOPBLOCKS)

/-! ## Parameters (`param.h`) -/

/-- `NBUF`: the size of the buffer cache, `MAXOPBLOCKS*3`. -/
def NBUF : Nat := MAXOPBLOCKS * 3

instance : NeZero NBUF := ⟨by decide⟩

/-- `ROOTDEV`: the device of the file system and of its log. -/
def ROOTDEV : Nat := 1

/-! ## `struct buf` and `bcache` -/

/-- `struct buf` without its lock and list links. -/
structure buf (α : Type) where
  dev : Nat
  blockno : Nat
  refcnt : Nat
  valid : Bool
  dirty : Bool
  data : α
  deriving DecidableEq, Repr

/-- `bcache`: the buffers, and the list from `head.next` on, which holds each
of them once. -/
structure bcache (α : Type) where
  buf : Fin NBUF → buf α
  lru : List (Fin NBUF)
  perm : lru.Perm (List.finRange NBUF)

variable {α : Type}

namespace bcache

/-- Change one buffer, leaving the list alone. -/
def upd (c : bcache α) (k : Fin NBUF) (f : Bio.buf α → Bio.buf α) : bcache α :=
  { c with buf := Function.update c.buf k (f (c.buf k)) }

@[simp] theorem upd_buf_self (c : bcache α) (k : Fin NBUF) (f : Bio.buf α → Bio.buf α) :
    (c.upd k f).buf k = f (c.buf k) := by
  simp [upd]

theorem upd_buf_of_ne (c : bcache α) {k j : Fin NBUF} (f : Bio.buf α → Bio.buf α) (h : j ≠ k) :
    (c.upd k f).buf j = c.buf j := by
  simp [upd, h]

theorem upd_buf (c : bcache α) (k j : Fin NBUF) (f : Bio.buf α → Bio.buf α) :
    (c.upd k f).buf j = if j = k then f (c.buf k) else c.buf j := by
  by_cases h : j = k
  · subst h
    simp
  · simp [upd_buf_of_ne c f h, h]

/-- `upd` reads only the buffer it changes. -/
theorem upd_congr (c : bcache α) (k : Fin NBUF) {f g : Bio.buf α → Bio.buf α}
    (h : f (c.buf k) = g (c.buf k)) : c.upd k f = c.upd k g := by
  simp [upd, h]

@[simp] theorem upd_lru (c : bcache α) (k : Fin NBUF) (f : Bio.buf α → Bio.buf α) :
    (c.upd k f).lru = c.lru := rfl

theorem mem_lru (c : bcache α) (k : Fin NBUF) : k ∈ c.lru :=
  c.perm.mem_iff.mpr (List.mem_finRange k)

/-- No buffer is held. -/
def idle (c : bcache α) : Prop :=
  ∀ k, (c.buf k).refcnt = 0

/-- What `bget`'s second loop may recycle: no references, and not pinned by
`B_DIRTY`. -/
def free (c : bcache α) (k : Fin NBUF) : Prop :=
  (c.buf k).refcnt = 0 ∧ (c.buf k).dirty = false

instance (c : bcache α) : DecidablePred c.free := fun k =>
  inferInstanceAs (Decidable ((c.buf k).refcnt = 0 ∧ (c.buf k).dirty = false))

/-- `brelse` relinks a buffer right after `head`. -/
def toFront (c : bcache α) (k : Fin NBUF) : bcache α where
  buf := c.buf
  lru := k :: c.lru.erase k
  perm := (List.perm_cons_erase (c.mem_lru k)).symm.trans c.perm

@[simp] theorem toFront_buf (c : bcache α) (k : Fin NBUF) : (c.toFront k).buf = c.buf := rfl

end bcache

/-! ## The functions of `bio.c` -/

/-- `binit`: every buffer is zero, and each in turn is linked in right after
`head`, so `buf[NBUF-1]` ends up first. -/
def binit [Inhabited α] : bcache α where
  buf _ := { dev := 0, blockno := 0, refcnt := 0, valid := false, dirty := false, data := default }
  lru := (List.finRange NBUF).reverse
  perm := List.reverse_perm _

/-- `bget`'s second loop takes the buffer over: the new block, no flags, one
reference. -/
def recycle (dev blockno : Nat) (b : buf α) : buf α :=
  { b with dev, blockno, valid := false, dirty := false, refcnt := 1 }

/-- `bget`: the buffer that caches the block, with one more reference; else the
least recently released free buffer, recycled; else the panic. -/
def bget (dev blockno : Nat) (c : bcache α) : Except String (Fin NBUF × bcache α) :=
  match c.lru.find? (fun k => (c.buf k).dev = dev ∧ (c.buf k).blockno = blockno) with
  | some k => .ok (k, c.upd k fun b => { b with refcnt := b.refcnt + 1 })
  | none =>
    match c.lru.reverse.find? (fun k => (c.buf k).refcnt = 0 ∧ (c.buf k).dirty = false) with
    | some k => .ok (k, c.upd k (recycle dev blockno))
    | none => .error "bget: no buffers"

/-- The read `bread` makes once it holds the buffer: `iderw` when `B_VALID` is
clear, after which the buffer holds the sector. -/
def fill (d : Disk α) (k : Fin NBUF) (c : bcache α) : bcache α :=
  if (c.buf k).valid then c
  else c.upd k fun b => { b with data := d b.blockno, valid := true }

/-- `bread`: `bget`, then the read if the buffer is not valid. -/
def bread (dev blockno : Nat) (d : Disk α) (c : bcache α) :
    Except String (Fin NBUF × bcache α) := do
  let (k, c) ← bget dev blockno c
  return (k, fill d k c)

/-- `bwrite`: the sector takes the buffer's data, and `ideintr` leaves the
buffer valid and clean. -/
def bwrite (k : Fin NBUF) (c : bcache α) (d : Disk α) : bcache α × Disk α :=
  (c.upd k fun b => { b with valid := true, dirty := false },
    Function.update d (c.buf k).blockno (c.buf k).data)

/-- `brelse`: drop a reference; the last one moves the buffer to the front. -/
def brelse (k : Fin NBUF) (c : bcache α) : bcache α :=
  let c := c.upd k fun b => { b with refcnt := b.refcnt - 1 }
  if (c.buf k).refcnt = 0 then c.toFront k else c

/-! ## What they do to the buffers -/

theorem bread_eq {dev blockno : Nat} {d : Disk α} {c c' : bcache α} {k : Fin NBUF}
    (h : bget dev blockno c = .ok (k, c')) : bread dev blockno d c = .ok (k, fill d k c') := by
  simp only [bread, h]
  rfl

/-- `bget`'s three outcomes. The search of the list is a search of every
buffer, because the list holds them all. -/
theorem bget_cases (dev blockno : Nat) (c : bcache α) :
    (∃ k, (c.buf k).dev = dev ∧ (c.buf k).blockno = blockno ∧
      bget dev blockno c = .ok (k, c.upd k fun b => { b with refcnt := b.refcnt + 1 })) ∨
    ((∀ k, ¬((c.buf k).dev = dev ∧ (c.buf k).blockno = blockno)) ∧
      ((∃ k, c.free k ∧ bget dev blockno c = .ok (k, c.upd k (recycle dev blockno))) ∨
        ((∀ k, ¬c.free k) ∧ bget dev blockno c = .error "bget: no buffers"))) := by
  unfold bget
  split
  · rename_i k hk
    have hp := List.find?_some hk
    simp only [decide_eq_true_eq] at hp
    exact .inl ⟨k, hp.1, hp.2, rfl⟩
  · rename_i hnone
    have hno : ∀ k, ¬((c.buf k).dev = dev ∧ (c.buf k).blockno = blockno) := fun k hk => by
      have := List.find?_eq_none.mp hnone k (c.mem_lru k)
      simp only [decide_eq_true_eq] at this
      exact this hk
    refine .inr ⟨hno, ?_⟩
    split
    · rename_i k hk
      have hp := List.find?_some hk
      simp only [decide_eq_true_eq] at hp
      exact .inl ⟨k, hp, rfl⟩
    · rename_i hnone'
      refine .inr ⟨fun k hk => ?_, rfl⟩
      have := List.find?_eq_none.mp hnone' k (List.mem_reverse.mpr (c.mem_lru k))
      simp only [decide_eq_true_eq] at this
      exact this hk

/-- A block with a buffer is found there, when no other buffer caches it. -/
theorem bget_of_cached {dev blockno : Nat} {c : bcache α} {k : Fin NBUF}
    (hk : (c.buf k).dev = dev ∧ (c.buf k).blockno = blockno)
    (huniq : ∀ j, (c.buf j).dev = dev → (c.buf j).blockno = blockno → j = k) :
    bget dev blockno c = .ok (k, c.upd k fun b => { b with refcnt := b.refcnt + 1 }) := by
  rcases bget_cases dev blockno c with ⟨j, hd, hb, h⟩ | ⟨hno, -⟩
  · rwa [← huniq j hd hb]
  · exact absurd hk (hno k)

/-- `bget` panics only when every buffer is held or dirty. -/
theorem bget_ne_error_of_free {dev blockno : Nat} {c : bcache α} {k : Fin NBUF} (hk : c.free k)
    (m : String) : bget dev blockno c ≠ .error m := by
  rcases bget_cases dev blockno c with ⟨_, _, _, h⟩ | ⟨_, ⟨_, _, h⟩ | ⟨hall, _⟩⟩
  · rw [h]; exact fun h => nomatch h
  · rw [h]; exact fun h => nomatch h
  · exact absurd hk (hall k)

@[simp] theorem fill_buf_of_ne (d : Disk α) {k j : Fin NBUF} (c : bcache α) (h : j ≠ k) :
    (fill d k c).buf j = c.buf j := by
  unfold fill
  split
  · rfl
  · exact c.upd_buf_of_ne _ h

theorem fill_buf_self (d : Disk α) (k : Fin NBUF) (c : bcache α) :
    (fill d k c).buf k =
      if (c.buf k).valid then c.buf k
      else { c.buf k with data := d (c.buf k).blockno, valid := true } := by
  unfold fill
  split <;> simp

/-- The read keeps everything but the data and `valid`, and leaves the buffer
valid. -/
theorem fill_buf_self_fields (d : Disk α) (k : Fin NBUF) (c : bcache α) :
    ((fill d k c).buf k).dev = (c.buf k).dev ∧ ((fill d k c).buf k).blockno = (c.buf k).blockno ∧
      ((fill d k c).buf k).refcnt = (c.buf k).refcnt ∧ ((fill d k c).buf k).dirty = (c.buf k).dirty ∧
      ((fill d k c).buf k).valid = true := by
  rw [fill_buf_self]
  split <;> simp_all

theorem bwrite_buf (k j : Fin NBUF) (c : bcache α) (d : Disk α) :
    (bwrite k c d).1.buf j =
      if j = k then { c.buf k with valid := true, dirty := false } else c.buf j := by
  unfold bwrite
  exact c.upd_buf k j fun b => { b with valid := true, dirty := false }

theorem bwrite_disk (k : Fin NBUF) (c : bcache α) (d : Disk α) :
    (bwrite k c d).2 = Function.update d (c.buf k).blockno (c.buf k).data := rfl

theorem brelse_buf (k : Fin NBUF) (c : bcache α) :
    (brelse k c).buf = (c.upd k fun b => { b with refcnt := b.refcnt - 1 }).buf := by
  unfold brelse
  dsimp only
  split <;> rfl

@[simp] theorem fill_refcnt (d : Disk α) (k j : Fin NBUF) (c : bcache α) :
    ((fill d k c).buf j).refcnt = (c.buf j).refcnt := by
  by_cases h : j = k
  · subst h
    rw [fill_buf_self]
    split <;> rfl
  · rw [fill_buf_of_ne d c h]

@[simp] theorem bwrite_refcnt (k j : Fin NBUF) (c : bcache α) (d : Disk α) :
    ((bwrite k c d).1.buf j).refcnt = (c.buf j).refcnt := by
  rw [bwrite_buf]
  split <;> simp_all

@[simp] theorem fill_dirty (d : Disk α) (k j : Fin NBUF) (c : bcache α) :
    ((fill d k c).buf j).dirty = (c.buf j).dirty := by
  by_cases h : j = k
  · subst h
    exact (fill_buf_self_fields d j c).2.2.2.1
  · rw [fill_buf_of_ne d c h]

@[simp] theorem brelse_dirty (k j : Fin NBUF) (c : bcache α) :
    ((brelse k c).buf j).dirty = (c.buf j).dirty := by
  rw [brelse_buf, bcache.upd_buf]
  split <;> simp_all

theorem brelse_refcnt (k j : Fin NBUF) (c : bcache α) :
    ((brelse k c).buf j).refcnt = if j = k then (c.buf k).refcnt - 1 else (c.buf j).refcnt := by
  rw [brelse_buf, bcache.upd_buf]
  split <;> rfl

/-! ## Running out -/

/-- **Counting buffers.** If every buffer that is held or dirty caches a block
of `S` on one device, one buffer per block, then with fewer blocks in `S` than
buffers some buffer is free. -/
theorem exists_free {c : bcache α} (S : Finset Nat) (hS : S.card < NBUF)
    (hmem : ∀ k, ¬c.free k → (c.buf k).blockno ∈ S)
    (hinj : ∀ k j, ¬c.free k → ¬c.free j → (c.buf k).blockno = (c.buf j).blockno → k = j) :
    ∃ k, c.free k := by
  by_contra hnone
  simp only [not_exists] at hnone
  -- every buffer is taken, so `blockno` maps all `NBUF` of them into `S`
  have hle : (Finset.univ : Finset (Fin NBUF)).card ≤ S.card :=
    Finset.card_le_card_of_injOn (fun k => (c.buf k).blockno)
      (fun k _ => hmem k (hnone k))
      (fun k _ j _ h => hinj k j (hnone k) (hnone j) h)
  rw [Finset.card_univ, Fintype.card_fin] at hle
  omega

end Xv6.Bio
