/-
`bio.c`'s buffer list, by its pointers.

`Xv6.Bio` keeps the buffer list as `bcache.lru`, a list that holds every buffer
once. Here the list is what the C code keeps: a `next` and a `prev` pointer at
`bcache.head` and at each buffer, which `binit` sets, `bget` walks and `brelse`
rewrites. The pointers link `lru` into one ring through the head, forwards and
backwards (`Refines`). `binit` links them so (`binit_refines`), and each
operation keeps them so while it does to the buffers what the operation of
`Xv6.Bio` does (`bget_refines`, `brelse_refines`, ...): `bget`'s walks find
what the searches of `lru` find, and never run round a cycle that misses the
head.

Over any run of `bget`, `bread`, `bwrite` and `brelse` from `binit`, each
`brelse` releasing a buffer its caller got from `bget` and every request for a
device other than 0, the list stays one ring through the head and every buffer,
each buffer's `refcnt` is the number of its `bget` results not yet released,
and no two buffers that `bget` has handed out hold the same block, so that two
callers that ask for one block share its buffer (`bcache_ring`).
-/
import Xv6.Bio.Basic
import Xv6.Lib.DList
import Xv6.Lib.Reach

set_option autoImplicit false

namespace Xv6.Bio.Links

open Xv6.Log (Disk)

/-- A node of the list: `bcache.head` (`none`) or a buffer. -/
abbrev Node := Option (Fin NBUF)

/-- `bcache`, with the `next` and `prev` pointer of each node. -/
structure bcache (α : Type) where
  buf : Fin NBUF → Bio.buf α
  next : Node → Node
  prev : Node → Node

variable {α : Type}

namespace bcache

/-- Change one buffer, leaving the pointers alone. -/
def upd (c : bcache α) (k : Fin NBUF) (f : Bio.buf α → Bio.buf α) : bcache α :=
  { c with buf := Function.update c.buf k (f (c.buf k)) }

/-- Link buffer `b` in right after the head. -/
def pushFront (c : bcache α) (b : Fin NBUF) : bcache α :=
  { c with next := (DList.pushFront c.next c.prev none (some b)).1,
           prev := (DList.pushFront c.next c.prev none (some b)).2 }

/-- Take buffer `b` out of the list. -/
def unlink (c : bcache α) (b : Fin NBUF) : bcache α :=
  { c with next := (DList.unlink c.next c.prev (some b)).1,
           prev := (DList.unlink c.next c.prev (some b)).2 }

end bcache

/-! ## The functions of `bio.c` -/

/-- `binit`: the buffers are those of static storage, the head is linked to
itself, and each buffer in turn is linked in right after the head. The pointers
the buffers start with are never read, and start as the head's here. -/
def binit [Inhabited α] : bcache α :=
  (List.finRange NBUF).foldl bcache.pushFront ⟨(Bio.binit : Bio.bcache α).buf, fun _ => none, fun _ => none⟩

/-- The test of `bget`'s first loop: the buffer caches the block. -/
def cachedAt (buf : Fin NBUF → Bio.buf α) (dev blockno : Nat) : Node → Bool
  | some k => decide ((buf k).dev = dev ∧ (buf k).blockno = blockno)
  | none => false

/-- The test of `bget`'s second loop: no references and not dirty. -/
def freeAt (buf : Fin NBUF → Bio.buf α) : Node → Bool
  | some k => decide ((buf k).refcnt = 0 ∧ (buf k).dirty = false)
  | none => false

/-- `bget`: walk forwards from `head.next` for the buffer that caches the block,
then backwards from `head.prev` for one to recycle. A walk that passes
`NBUF + 1` nodes without meeting the head has met some buffer twice, and from
there goes round a cycle without the head: the C loop then never ends. -/
def bget (dev blockno : Nat) (c : bcache α) : Except String (Fin NBUF × bcache α) :=
  -- Is the block already cached?
  match DList.scan c.next none (cachedAt c.buf dev blockno) (NBUF + 1) (c.next none) with
  | none => .error "bget: loops forever"
  | some (some (some k)) => .ok (k, c.upd k fun b => { b with refcnt := b.refcnt + 1 })
  | some _ =>
    -- Not cached; recycle an unused buffer.
    match DList.scan c.prev none (freeAt c.buf) (NBUF + 1) (c.prev none) with
    | none => .error "bget: loops forever"
    | some (some (some k)) => .ok (k, c.upd k (recycle dev blockno))
    | some _ => .error "bget: no buffers"

/-- The read `bread` makes once it holds the buffer, when `B_VALID` is clear. -/
def fill (d : Disk α) (k : Fin NBUF) (c : bcache α) : bcache α :=
  if (c.buf k).valid then c
  else c.upd k fun b => { b with data := d b.blockno, valid := true }

/-- `bread`: `bget`, then the read if the buffer is not valid. -/
def bread (dev blockno : Nat) (d : Disk α) (c : bcache α) : Except String (Fin NBUF × bcache α) := do
  let (k, c) ← bget dev blockno c
  return (k, fill d k c)

/-- `bwrite`: the sector takes the buffer's data, and the buffer is left valid
and clean. -/
def bwrite (k : Fin NBUF) (c : bcache α) (d : Disk α) : bcache α × Disk α :=
  (c.upd k fun b => { b with valid := true, dirty := false },
    Function.update d (c.buf k).blockno (c.buf k).data)

/-- `brelse`: drop a reference; with the last one, unlink the buffer and link it
in again right after the head. -/
def brelse (k : Fin NBUF) (c : bcache α) : bcache α :=
  let c := c.upd k fun b => { b with refcnt := b.refcnt - 1 }
  if (c.buf k).refcnt = 0 then (c.unlink k).pushFront k else c

/-! ## The pointers link `lru` -/

/-- The buffers are `a`'s, and the pointers link `a.lru` into a ring through the
head. -/
structure Refines (a : Bio.bcache α) (c : bcache α) : Prop where
  buf : c.buf = a.buf
  linked : DList.Linked c.next c.prev none (a.lru.map some)

theorem length_lru (a : Bio.bcache α) : a.lru.length = NBUF := by
  rw [a.perm.length_eq, List.length_finRange]

/-- New buffers over the same list. -/
theorem Refines.setBuf {a a' : Bio.bcache α} {c : bcache α} (h : Refines a c) (hl : a'.lru = a.lru) :
    Refines a' { c with buf := a'.buf } :=
  ⟨rfl, hl ▸ h.linked⟩

/-- `bget`'s first walk is the search of `lru`. -/
theorem Refines.scan_next {a : Bio.bcache α} {c : bcache α} (h : Refines a c) (p : Node → Bool) :
    DList.scan c.next none p (NBUF + 1) (c.next none) = some ((a.lru.map some).find? p) := by
  have hstart : c.next none = (a.lru.map some).headD none := by
    rw [h.linked.next none (List.mem_cons_self ..), DList.nextIn_cons_self]
  rw [hstart]
  exact h.linked.next.scan h.linked.nodup p (List.nil_append _).symm (by simp [length_lru])

/-- `bget`'s second walk is the search of `lru` from its end. -/
theorem Refines.scan_prev {a : Bio.bcache α} {c : bcache α} (h : Refines a c) (p : Node → Bool) :
    DList.scan c.prev none p (NBUF + 1) (c.prev none) = some ((a.lru.reverse.map some).find? p) := by
  have hrev : (a.lru.map some).reverse = a.lru.reverse.map some := (List.map_reverse ..).symm
  have hstart : c.prev none = (a.lru.reverse.map some).headD none := by
    rw [h.linked.prev none (List.mem_cons_self ..), DList.nextIn_cons_self, hrev]
  rw [hstart]
  exact (hrev ▸ h.linked.prev).scan (hrev ▸ h.linked.nodup_reverse) p (List.nil_append _).symm
    (by simp [length_lru])

theorem upd_eq {a : Bio.bcache α} {c : bcache α} (h : Refines a c) (k : Fin NBUF)
    (f : Bio.buf α → Bio.buf α) : c.upd k f = { c with buf := (a.upd k f).buf } := by
  simp only [bcache.upd, Bio.bcache.upd, h.buf]

/-- **`bget` on the pointers is `bget` on `lru`.** -/
theorem bget_refines {a : Bio.bcache α} {c : bcache α} (h : Refines a c) (dev blockno : Nat) :
    bget dev blockno c = (Bio.bget dev blockno a).map fun r => (r.1, { c with buf := r.2.buf }) := by
  have hcached : (cachedAt a.buf dev blockno ∘ some) =
      fun k => decide ((a.buf k).dev = dev ∧ (a.buf k).blockno = blockno) := rfl
  have hfree : (freeAt a.buf ∘ some) =
      fun k => decide ((a.buf k).refcnt = 0 ∧ (a.buf k).dirty = false) := rfl
  unfold bget Bio.bget
  rw [h.scan_next, List.find?_map, h.buf, hcached]
  -- the first search finds the block, or goes on to the second
  cases a.lru.find? fun k => decide ((a.buf k).dev = dev ∧ (a.buf k).blockno = blockno) with
  | some k =>
    simp only [Option.map_some, Except.map]
    rw [upd_eq h]
  | none =>
    simp only [Option.map_none]
    rw [h.scan_prev, List.find?_map, hfree]
    cases a.lru.reverse.find? fun k => decide ((a.buf k).refcnt = 0 ∧ (a.buf k).dirty = false) with
    | some k =>
      simp only [Option.map_some, Except.map]
      rw [upd_eq h]
    | none => rfl

theorem bget_refines_ok {a : Bio.bcache α} {c c' : bcache α} (h : Refines a c) {dev blockno : Nat}
    {k : Fin NBUF} (hg : bget dev blockno c = .ok (k, c')) :
    ∃ a', Bio.bget dev blockno a = .ok (k, a') ∧ c' = { c with buf := a'.buf } ∧ Refines a' c' := by
  rw [bget_refines h] at hg
  cases hb : Bio.bget dev blockno a with
  | error e => simp [hb, Except.map] at hg
  | ok r =>
    simp only [hb, Except.map, Except.ok.injEq, Prod.mk.injEq] at hg
    obtain ⟨rfl, rfl⟩ := hg
    -- `bget` changes the buffers only
    have hl : r.2.lru = a.lru := by
      rcases bget_cases dev blockno a with ⟨j, -, -, hj⟩ | ⟨-, ⟨j, -, hj⟩ | ⟨-, hj⟩⟩
      all_goals rw [hj] at hb
      · cases hb; rfl
      · cases hb; rfl
      · cases hb
    exact ⟨r.2, rfl, rfl, h.setBuf hl⟩

theorem fill_refines {a : Bio.bcache α} {c : bcache α} (h : Refines a c) (d : Disk α) (k : Fin NBUF) :
    Refines (Bio.fill d k a) (fill d k c) := by
  unfold fill Bio.fill
  rw [h.buf]
  split
  · exact h
  · rw [upd_eq h]
    exact h.setBuf rfl

theorem bread_refines_ok {a : Bio.bcache α} {c c' : bcache α} (h : Refines a c) {dev blockno : Nat}
    {d : Disk α} {k : Fin NBUF} (hg : bread dev blockno d c = .ok (k, c')) :
    ∃ a', Bio.bread dev blockno d a = .ok (k, a') ∧ Refines a' c' := by
  simp only [bread, bind, Except.bind] at hg
  cases hb : bget dev blockno c with
  | error e => simp [hb] at hg
  | ok r =>
    rcases r with ⟨k₁, c₁⟩
    obtain ⟨a', ha', -, hra⟩ := bget_refines_ok h hb
    simp only [hb, pure, Except.pure, Except.ok.injEq, Prod.mk.injEq] at hg
    obtain ⟨rfl, rfl⟩ := hg
    exact ⟨Bio.fill d k₁ a', by rw [bread_eq ha'], fill_refines hra d k₁⟩

theorem bwrite_refines {a : Bio.bcache α} {c : bcache α} (h : Refines a c) (k : Fin NBUF) (d : Disk α) :
    Refines (Bio.bwrite k a d).1 (bwrite k c d).1 ∧ (bwrite k c d).2 = (Bio.bwrite k a d).2 := by
  unfold bwrite Bio.bwrite
  rw [upd_eq h, h.buf]
  exact ⟨h.setBuf rfl, rfl⟩

/-- **`brelse` on the pointers is `brelse` on `lru`**: the unlink and the push
after the head move the buffer to the front of the ring. -/
theorem brelse_refines {a : Bio.bcache α} {c : bcache α} (h : Refines a c) (k : Fin NBUF) :
    Refines (Bio.brelse k a) (brelse k c) := by
  have h₁ : Refines (a.upd k fun b => { b with refcnt := b.refcnt - 1 })
      (c.upd k fun b => { b with refcnt := b.refcnt - 1 }) := by
    rw [upd_eq h]
    exact h.setBuf rfl
  unfold brelse Bio.brelse
  dsimp only
  rw [← h₁.buf]
  split
  · -- the last reference: `k` is unlinked and pushed after the head
    have hk : some k ∈ (a.lru.map some) := List.mem_map_of_mem (a.mem_lru k)
    have hnot : some k ∉ none :: (a.lru.map some).erase (some k) := by
      rintro (_ | ⟨_, hm⟩)
      exact ((List.nodup_cons.mp h.linked.nodup).2.not_mem_erase) hm
    have hp := (h₁.linked.unlink hk).pushFront hnot
    refine ⟨h₁.buf, ?_⟩
    simp only [Bio.bcache.toFront, List.map_cons, List.map_erase (Option.some_injective _)]
    exact hp
  · exact h₁

theorem foldl_pushFront_buf (xs : List (Fin NBUF)) (c : bcache α) :
    (xs.foldl bcache.pushFront c).buf = c.buf := by
  induction xs generalizing c with
  | nil => rfl
  | cons x xs ih => exact ih (c.pushFront x)

/-- `binit` links the buffers in, each after the head: the list it leaves is
theirs in reverse. -/
theorem foldl_pushFront (xs : List (Fin NBUF)) {c : bcache α} {l : List Node}
    (hc : DList.Linked c.next c.prev none l) (hnd : (none :: (xs.reverse.map some ++ l)).Nodup) :
    DList.Linked (xs.foldl bcache.pushFront c).next (xs.foldl bcache.pushFront c).prev none
      (xs.reverse.map some ++ l) := by
  induction xs generalizing c l with
  | nil => simpa using hc
  | cons x xs ih =>
    have hnd' : (none :: (xs.reverse.map some ++ some x :: l)).Nodup := by simpa using hnd
    have hx : some x ∉ none :: l := by
      rintro (_ | ⟨_, hm⟩)
      exact (List.nodup_cons.mp ((List.nodup_cons.mp hnd').2.sublist
        (List.sublist_append_right _ _))).1 hm
    rw [List.foldl_cons]
    simpa using ih (hc.pushFront hx) hnd'

/-- **`binit` links `lru`.** -/
theorem binit_refines [Inhabited α] : Refines (Bio.binit : Bio.bcache α) binit := by
  -- the head linked to itself
  have h0 : DList.Linked (fun _ => none : Node → Node) (fun _ => none) none [] :=
    ⟨List.nodup_singleton _, fun x hx => by rw [List.mem_singleton.mp hx]; rfl,
      fun x hx => by rw [List.mem_singleton.mp hx]; rfl⟩
  have hnd : (none :: ((List.finRange NBUF).reverse.map some ++ [])).Nodup := by
    rw [List.append_nil]
    refine List.nodup_cons.mpr ⟨by simp, ?_⟩
    exact (List.nodup_reverse.mpr (List.nodup_finRange NBUF)).map (Option.some_injective _)
  refine ⟨foldl_pushFront_buf _ _, ?_⟩
  simpa [Bio.binit, binit] using foldl_pushFront (List.finRange NBUF) h0 hnd

/-! ## What holds of the buffers -/

/-- Each `refcnt` counts the holds on its buffer, a held buffer caches a block
of a device other than 0, and no two buffers that caches such a block cache the
same one. -/
structure BufOk (buf : Fin NBUF → Bio.buf α) (held : List (Fin NBUF)) : Prop where
  refcnt : ∀ k, (buf k).refcnt = held.count k
  dev : ∀ k ∈ held, (buf k).dev ≠ 0
  uniq : ∀ j k, j ≠ k → (buf j).dev ≠ 0 →
    ¬((buf j).dev = (buf k).dev ∧ (buf j).blockno = (buf k).blockno)

section BufOk

variable {buf buf' : Fin NBUF → Bio.buf α} {held held' : List (Fin NBUF)}

/-- Buffers that cache the blocks `buf` caches, with `refcnt`s that count new
holds, each on a buffer of a device other than 0. -/
theorem BufOk.of_blocks (h : BufOk buf held)
    (hb : ∀ k, (buf' k).dev = (buf k).dev ∧ (buf' k).blockno = (buf k).blockno)
    (hr : ∀ k, (buf' k).refcnt = held'.count k) (hd : ∀ k ∈ held', (buf k).dev ≠ 0) :
    BufOk buf' held' := by
  refine ⟨hr, fun k hk => (hb k).1 ▸ hd k hk, ?_⟩
  intro j k hjk hj
  rw [(hb j).1, (hb j).2, (hb k).1, (hb k).2]
  exact h.uniq j k hjk ((hb j).1 ▸ hj)

/-- A change of one `refcnt` keeps every buffer's block. -/
theorem blocks_update_refcnt (buf : Fin NBUF → Bio.buf α) (k : Fin NBUF) (n : Nat) (x : Fin NBUF) :
    (Function.update buf k { buf k with refcnt := n } x).dev = (buf x).dev ∧
      (Function.update buf k { buf k with refcnt := n } x).blockno = (buf x).blockno := by
  by_cases hx : x = k
  · subst hx
    simp
  · simp [Function.update_of_ne hx]

/-- A change that keeps every buffer's block and `refcnt` keeps `BufOk`. -/
theorem BufOk.same (h : BufOk buf held)
    (hs : ∀ k, (buf' k).dev = (buf k).dev ∧ (buf' k).blockno = (buf k).blockno ∧
      (buf' k).refcnt = (buf k).refcnt) : BufOk buf' held :=
  h.of_blocks (fun k => ⟨(hs k).1, (hs k).2.1⟩) (fun k => (hs k).2.2.trans (h.refcnt k)) h.dev

/-- One more hold on a buffer of a device other than 0. -/
theorem BufOk.addref (h : BufOk buf held) {k : Fin NBUF} (hk : (buf k).dev ≠ 0) :
    BufOk (Function.update buf k { buf k with refcnt := (buf k).refcnt + 1 }) (k :: held) := by
  refine h.of_blocks (blocks_update_refcnt buf k _) (fun j => ?_) fun j hj => ?_
  · by_cases hjk : j = k
    · subst hjk
      simp [h.refcnt j]
    · simp [Function.update_of_ne hjk, h.refcnt j, Ne.symm hjk]
  · rcases List.mem_cons.mp hj with rfl | hj
    · exact hk
    · exact h.dev j hj

/-- A hold released. -/
theorem BufOk.release (h : BufOk buf held) {k : Fin NBUF} (hk : k ∈ held) :
    BufOk (Function.update buf k { buf k with refcnt := (buf k).refcnt - 1 }) (held.erase k) := by
  refine h.of_blocks (blocks_update_refcnt buf k _) (fun j => ?_)
    fun j hj => h.dev j (List.mem_of_mem_erase hj)
  by_cases hjk : j = k
  · subst hjk
    simp [h.refcnt j, List.count_erase_self]
  · simp [Function.update_of_ne hjk, h.refcnt j, List.count_erase_of_ne hjk]

/-- A free buffer taken over for a block that no buffer caches. -/
theorem BufOk.recycle (h : BufOk buf held) {k : Fin NBUF} {dev blockno : Nat} (hdev : dev ≠ 0)
    (hfree : (buf k).refcnt = 0)
    (hno : ∀ j, ¬((buf j).dev = dev ∧ (buf j).blockno = blockno)) :
    BufOk (Function.update buf k (recycle dev blockno (buf k))) (k :: held) := by
  have hk : held.count k = 0 := (h.refcnt k).symm.trans hfree
  refine ⟨fun j => ?_, fun j hj => ?_, fun i j hij hi => ?_⟩
  · by_cases hjk : j = k
    · subst hjk
      simp [Bio.recycle, hk]
    · simp [Function.update_of_ne hjk, h.refcnt j, Ne.symm hjk]
  · by_cases hjk : j = k
    · subst hjk
      simpa [Bio.recycle] using hdev
    · rw [Function.update_of_ne hjk]
      exact h.dev j ((List.mem_cons.mp hj).resolve_left hjk)
  · -- the new block is cached nowhere else, and the other buffers keep theirs
    by_cases hik : i = k
    · subst hik
      rw [Function.update_of_ne (Ne.symm hij)]
      simp only [Function.update_self, Bio.recycle]
      exact fun ⟨hd, hb⟩ => hno j ⟨hd.symm, hb.symm⟩
    · rw [Function.update_of_ne hik] at hi ⊢
      by_cases hjk : j = k
      · subst hjk
        simp only [Function.update_self, Bio.recycle]
        exact hno i
      · rw [Function.update_of_ne hjk]
        exact h.uniq i j hij hi

end BufOk

/-- `bget` of a block of a device other than 0 adds a hold on a buffer that
caches it: the buffer that did, or a free one taken over. -/
theorem BufOk.bget {a a' : Bio.bcache α} {held : List (Fin NBUF)} (h : BufOk a.buf held)
    {dev blockno : Nat} (hdev : dev ≠ 0) {k : Fin NBUF} (hg : Bio.bget dev blockno a = .ok (k, a')) :
    BufOk a'.buf (k :: held) := by
  rcases bget_cases dev blockno a with ⟨j, hd, -, hj⟩ | ⟨hno, ⟨j, hfree, hj⟩ | ⟨-, hj⟩⟩
  · rw [hj] at hg
    cases hg
    exact h.addref (by rw [hd]; exact hdev)
  · rw [hj] at hg
    cases hg
    exact h.recycle hdev hfree.1 hno
  · rw [hj] at hg
    cases hg

/-- The read keeps every buffer's block and `refcnt`. -/
theorem fill_same (d : Disk α) (k : Fin NBUF) (a : Bio.bcache α) (j : Fin NBUF) :
    ((Bio.fill d k a).buf j).dev = (a.buf j).dev ∧ ((Bio.fill d k a).buf j).blockno = (a.buf j).blockno ∧
      ((Bio.fill d k a).buf j).refcnt = (a.buf j).refcnt := by
  by_cases hj : j = k
  · subst hj
    obtain ⟨hd, hb, hr, -⟩ := fill_buf_self_fields d j a
    exact ⟨hd, hb, hr⟩
  · rw [fill_buf_of_ne d a hj]
    exact ⟨rfl, rfl, rfl⟩

/-- The write keeps every buffer's block and `refcnt`. -/
theorem bwrite_same (k : Fin NBUF) (a : Bio.bcache α) (d : Disk α) (j : Fin NBUF) :
    ((Bio.bwrite k a d).1.buf j).dev = (a.buf j).dev ∧
      ((Bio.bwrite k a d).1.buf j).blockno = (a.buf j).blockno ∧
      ((Bio.bwrite k a d).1.buf j).refcnt = (a.buf j).refcnt := by
  rw [bwrite_buf]
  split
  · rename_i hj
    subst hj
    exact ⟨rfl, rfl, rfl⟩
  · exact ⟨rfl, rfl, rfl⟩

/-- `bread` on `lru` is its `bget`, then the read. -/
theorem bread_cases {dev blockno : Nat} {d : Disk α} {a a' : Bio.bcache α} {k : Fin NBUF}
    (h : Bio.bread dev blockno d a = .ok (k, a')) :
    ∃ a'', Bio.bget dev blockno a = .ok (k, a'') ∧ a' = Bio.fill d k a'' := by
  simp only [Bio.bread, bind, Except.bind] at h
  cases hb : Bio.bget dev blockno a with
  | error e => simp [hb] at h
  | ok r =>
    simp only [hb, pure, Except.pure, Except.ok.injEq, Prod.mk.injEq] at h
    obtain ⟨rfl, rfl⟩ := h
    exact ⟨r.2, rfl, rfl⟩

/-! ## Runs of the cache -/

/-- The cache, the disk, and one entry for each `bget` result not yet released. -/
structure Sys (α : Type) where
  cache : bcache α
  disk : Disk α
  held : List (Fin NBUF)

/-- The calls: each asks for a block of a device other than 0, and `bwrite` and
`brelse` name a buffer their caller got from `bget`. -/
inductive Next : Sys α → Sys α → Prop
  | bget {s : Sys α} {dev blockno : Nat} {k : Fin NBUF} {c : bcache α} :
      dev ≠ 0 → bget dev blockno s.cache = .ok (k, c) → Next s ⟨c, s.disk, k :: s.held⟩
  | bread {s : Sys α} {dev blockno : Nat} {k : Fin NBUF} {c : bcache α} :
      dev ≠ 0 → bread dev blockno s.disk s.cache = .ok (k, c) → Next s ⟨c, s.disk, k :: s.held⟩
  | bwrite {s : Sys α} {k : Fin NBUF} :
      k ∈ s.held → Next s ⟨(bwrite k s.cache s.disk).1, (bwrite k s.cache s.disk).2, s.held⟩
  | brelse {s : Sys α} {k : Fin NBUF} :
      k ∈ s.held → Next s ⟨brelse k s.cache, s.disk, s.held.erase k⟩

/-- The states reached from `binit`, with no buffer held, over any disk. -/
def Reachable [Inhabited α] (s : Sys α) : Prop :=
  TransitionSystem.Reachable (fun s => s.cache = binit ∧ s.held = []) Next s

/-- The pointers link some `lru`, and the buffers are `BufOk`. -/
def Inv (s : Sys α) : Prop :=
  (∃ a, Refines a s.cache) ∧ BufOk s.cache.buf s.held

theorem inv_binit [Inhabited α] {s : Sys α} (hc : s.cache = binit) (hh : s.held = []) : Inv s := by
  have hbuf : s.cache.buf = (Bio.binit : Bio.bcache α).buf := by
    rw [hc]
    exact binit_refines.buf
  refine ⟨⟨Bio.binit, hc ▸ binit_refines⟩, ⟨fun k => ?_, fun k hk => ?_, fun j k _ hj => ?_⟩⟩
  · rw [hbuf, hh]
    rfl
  · rw [hh] at hk
    exact absurd hk List.not_mem_nil
  · rw [hbuf] at hj
    exact absurd rfl hj

/-- Each call keeps the invariant. -/
theorem Inv.next {s t : Sys α} (hi : Inv s) (hn : Next s t) : Inv t := by
  obtain ⟨⟨a, ha⟩, hb⟩ := hi
  rw [ha.buf] at hb
  cases hn with
  | bget hdev hg =>
    obtain ⟨a', ha', rfl, hr⟩ := bget_refines_ok ha hg
    exact ⟨⟨a', hr⟩, hb.bget hdev ha'⟩
  | bread hdev hg =>
    obtain ⟨a', ha', hr⟩ := bread_refines_ok ha hg
    obtain ⟨a'', hg', rfl⟩ := bread_cases ha'
    refine ⟨⟨_, hr⟩, ?_⟩
    rw [hr.buf]
    exact (hb.bget hdev hg').same (fill_same _ _ _)
  | @bwrite k _ =>
    have hr := (bwrite_refines ha k s.disk).1
    refine ⟨⟨_, hr⟩, ?_⟩
    rw [hr.buf]
    exact hb.same (bwrite_same _ _ _)
  | @brelse k hk =>
    have hr := brelse_refines ha k
    refine ⟨⟨_, hr⟩, ?_⟩
    rw [hr.buf, brelse_buf]
    exact hb.release hk

theorem Inv.reachable [Inhabited α] {s : Sys α} (hs : Reachable s) : Inv s := by
  apply TransitionSystem.invariant _ _ hs
  · rintro s ⟨hc, hh⟩
    exact inv_binit hc hh
  · intro s t _ hi hn
    exact hi.next hn

/-- **The buffer cache's list and identities.** In every state reached from
`binit` by `bget`, `bread`, `bwrite` and `brelse` (each `brelse` on a buffer its
caller got, every request for a device other than 0): the pointers link the head
and every buffer, each once, into one ring forwards and backwards, so that
`b->next->prev == b` and `b->prev->next == b` at every node; each `refcnt` is
the number of `bget` results on its buffer not yet released; no two buffers of a
device other than 0 cache the same block; and every held buffer is one of
those, which `bget` of its block returns again. -/
theorem bcache_ring [Inhabited α] {s : Sys α} (hs : Reachable s) :
    (∃ l : List (Fin NBUF), l.Perm (List.finRange NBUF) ∧
      DList.Linked s.cache.next s.cache.prev none (l.map some)) ∧
    (∀ x : Node, s.cache.prev (s.cache.next x) = x ∧ s.cache.next (s.cache.prev x) = x) ∧
    (∀ k, (s.cache.buf k).refcnt = s.held.count k) ∧
    (∀ j k, j ≠ k → (s.cache.buf j).dev ≠ 0 →
      ¬((s.cache.buf j).dev = (s.cache.buf k).dev ∧
        (s.cache.buf j).blockno = (s.cache.buf k).blockno)) ∧
    (∀ k ∈ s.held, (s.cache.buf k).dev ≠ 0 ∧
      ∃ c, bget (s.cache.buf k).dev (s.cache.buf k).blockno s.cache = .ok (k, c)) := by
  obtain ⟨⟨a, ha⟩, hb⟩ := Inv.reachable hs
  -- every node is on the ring
  have hmem : ∀ x : Node, x ∈ none :: a.lru.map some := by
    intro x
    cases x with
    | none => exact List.mem_cons_self ..
    | some k => exact List.mem_cons_of_mem _ (List.mem_map_of_mem (a.mem_lru k))
  refine ⟨⟨a.lru, a.perm, ha.linked⟩,
    fun x => ⟨ha.linked.prev_next (hmem x), ha.linked.next_prev (hmem x)⟩,
    hb.refcnt, hb.uniq, fun k hk => ⟨hb.dev k hk, ?_⟩⟩
  -- a held buffer is the one buffer of its block
  have huniq : ∀ j, (a.buf j).dev = (s.cache.buf k).dev → (a.buf j).blockno = (s.cache.buf k).blockno →
      j = k := by
    intro j hd hbl
    rw [← ha.buf] at hd hbl
    by_contra hjk
    exact hb.uniq k j (Ne.symm hjk) (hb.dev k hk) ⟨hd.symm, hbl.symm⟩
  rw [bget_refines ha, bget_of_cached (by rw [ha.buf]; exact ⟨rfl, rfl⟩) huniq]
  exact ⟨_, rfl⟩

set_option maxRecDepth 20000 in
/-- A run that recycles two buffers and releases them: buffer 0 is recycled for
block 5 of device 1, shared by two callers and released by one; buffer 1 is
recycled for block 6 and read; then the last reference to buffer 0 goes, which
links it in again right after the head. The ring, the counts and the one buffer
per block hold there. -/
theorem bcache_ring_recycled :
    ∃ s : Sys Nat, Reachable s ∧ s.held = [1] ∧
      (s.cache.buf 0).blockno = 5 ∧ (s.cache.buf 0).refcnt = 0 ∧
      (s.cache.buf 1).blockno = 6 ∧ (s.cache.buf 1).refcnt = 1 ∧ s.cache.next none = some 0 ∧
      (∃ l : List (Fin NBUF), l.Perm (List.finRange NBUF) ∧
        DList.Linked s.cache.next s.cache.prev none (l.map some)) ∧
      (∀ x : Node, s.cache.prev (s.cache.next x) = x ∧ s.cache.next (s.cache.prev x) = x) ∧
      (∀ k, (s.cache.buf k).refcnt = s.held.count k) ∧
      (∀ j k, j ≠ k → (s.cache.buf j).dev ≠ 0 →
        ¬((s.cache.buf j).dev = (s.cache.buf k).dev ∧
          (s.cache.buf j).blockno = (s.cache.buf k).blockno)) ∧
      (∀ k ∈ s.held, (s.cache.buf k).dev ≠ 0 ∧
        ∃ c, bget (s.cache.buf k).dev (s.cache.buf k).blockno s.cache = .ok (k, c)) := by
  obtain ⟨c₁, c₂, c₄, h₁, h₂, h₄, hb0, hr0, hb1, hr1, hfront⟩ : ∃ c₁ c₂ c₄ : bcache Nat,
      bget 1 5 binit = .ok (0, c₁) ∧ bget 1 5 c₁ = .ok (0, c₂) ∧
      bread 1 6 (fun _ => 0) (brelse 0 c₂) = .ok (1, c₄) ∧
      ((brelse 0 c₄).buf 0).blockno = 5 ∧ ((brelse 0 c₄).buf 0).refcnt = 0 ∧
      ((brelse 0 c₄).buf 1).blockno = 6 ∧ ((brelse 0 c₄).buf 1).refcnt = 1 ∧
      (brelse 0 c₄).next none = some 0 :=
    ⟨_, _, _, rfl, rfl, rfl, rfl, rfl, rfl, rfl, rfl⟩
  -- a buffer recycled for block 5, shared, released once; a second recycled
  -- for block 6 and read; then the first released to the front of the list
  have hs₁ : Reachable (⟨c₁, fun _ => 0, [0]⟩ : Sys Nat) :=
    .step (s := ⟨binit, fun _ => 0, []⟩) (.init ⟨rfl, rfl⟩) (.bget one_ne_zero h₁)
  have hs₂ : Reachable (⟨c₂, fun _ => 0, [0, 0]⟩ : Sys Nat) := .step hs₁ (.bget one_ne_zero h₂)
  have hs₃ : Reachable (⟨brelse 0 c₂, fun _ => 0, [0]⟩ : Sys Nat) := .step hs₂ (.brelse (by simp))
  have hs₄ : Reachable (⟨c₄, fun _ => 0, [1, 0]⟩ : Sys Nat) := .step hs₃ (.bread one_ne_zero h₄)
  have hs : Reachable (⟨brelse 0 c₄, fun _ => 0, [1]⟩ : Sys Nat) := .step hs₄ (.brelse (by simp))
  exact ⟨_, hs, rfl, hb0, hr0, hb1, hr1, hfront, bcache_ring hs⟩

end Xv6.Bio.Links
