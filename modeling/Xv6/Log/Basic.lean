/-
`log.c`'s disk side: the write-ahead log as a program of block writes.

Every disk effect of `commit()` and `recover_from_log()` is a `bwrite` of one
whole block (one sector: `BSIZE` is 512), and the disk writes a sector
atomically. So each of the two procedures is modelled as the list of its
`bwrite`s, in the order the C code issues them, and a crash is the run of a
prefix of that list (`CrashHoare`). A `bwrite` whose contents come from a
`bread` of another block reads that block off the disk at that moment: in
`install_trans` the log block was just written through the cache by
`write_log` (or, in recovery at boot, the cache is empty), so the buffer holds
what the disk holds.

What stays in memory is not modelled here: `log.lh` is the list `lh` of logged
block numbers (its length is `log.lh.n`), and the buffer cache enters only
through `cache`, the contents `bread` returns for a logged block (they are
pinned there, `B_DIRTY`, until the commit: `Xv6.Bio`).

The header block is cast to `struct logheader` in place. `HeaderBlock` is that
cast: the list of block numbers a block's header fields hold (`n` and
`block[0..n)`), and the update `write_head` makes to those fields, leaving the
rest of the block as it was.
-/
import Mathlib.Logic.Function.Basic
import Xv6.Lib.CrashHoare

set_option autoImplicit false

namespace Xv6.Log

open CrashHoare

/-! ## Parameters (`param.h`) -/

/-- `MAXOPBLOCKS`: the most blocks any file-system operation writes. -/
def MAXOPBLOCKS : Nat := 10

/-- `LOGSIZE`: the data blocks `param.h` counts for the on-disk log. -/
def LOGSIZE : Nat := MAXOPBLOCKS * 3

/-! ## The disk -/

/-- The disk as the log sees it: the contents of every block number. -/
abbrev Disk (α : Type) := Nat → α

/-- A block read as `struct logheader`: `header` is what `read_head` copies out
(`lh->n` and `lh->block[0..n)`), `setHeader` what `write_head` stores into the
buffer before writing it back. Reading back what was stored gives it back. -/
class HeaderBlock (α : Type) where
  header : α → List Nat
  setHeader : α → List Nat → α
  header_setHeader : ∀ (b : α) (l : List Nat), header (setHeader b l) = l

attribute [simp] HeaderBlock.header_setHeader

/-- `struct logheader` over a block of 32-bit words: word 0 is `n`, words `1..n`
are `block[0..n)`. `write_head` rewrites those `n + 1` words and keeps the rest
of the block. -/
instance : HeaderBlock (List Nat) where
  header b := (b.drop 1).take (b.headD 0)
  setHeader b l := l.length :: (l ++ b.drop (l.length + 1))
  header_setHeader b l := by simp

variable {α : Type}

/-- `bwrite` as the disk sees it: block `b` now holds `v`. -/
def bwrite (b : Nat) (v : α) (d : Disk α) : Disk α :=
  Function.update d b v

@[simp] theorem bwrite_same (b : Nat) (v : α) (d : Disk α) : bwrite b v d b = v := by
  simp [bwrite]

theorem bwrite_other {b x : Nat} (v : α) (d : Disk α) (h : x ≠ b) :
    bwrite b v d x = d x := by
  simp [bwrite, h]

/-! ## The four procedures -/

/-- `write_log`'s loop from `tail` on: copy the cached contents of each logged
block into its log slot `log.start+tail+1`. -/
def write_log_from (start : Nat) (cache : Nat → α) : Nat → List Nat → Prog (Disk α)
  | _, [] => []
  | tail, b :: bs => bwrite (start + tail + 1) (cache b) :: write_log_from start cache (tail + 1) bs

/-- `write_log`: "Copy modified blocks from cache to log." -/
def write_log (start : Nat) (cache : Nat → α) (lh : List Nat) : Prog (Disk α) :=
  write_log_from start cache 0 lh

variable [HeaderBlock α]

/-- `write_head`: read the header block, store the in-memory header in it, write
it back. "This is the true point at which the current transaction commits." -/
def write_head (start : Nat) (lh : List Nat) : Prog (Disk α) :=
  [fun d => bwrite start (HeaderBlock.setHeader (d start) lh) d]

/-- `install_trans`'s loop from `tail` on: copy log slot `log.start+tail+1` to
the home location of the block it logs. -/
def install_trans_from (start : Nat) : Nat → List Nat → Prog (Disk α)
  | _, [] => []
  | tail, b :: bs => (fun d => bwrite b (d (start + tail + 1)) d) :: install_trans_from start (tail + 1) bs

/-- `install_trans`: "Copy committed blocks from log to their home location." -/
def install_trans (start : Nat) (lh : List Nat) : Prog (Disk α) :=
  install_trans_from start 0 lh

/-- `commit`: log, commit, install, erase; nothing at all for an empty
transaction. -/
def commit (start : Nat) (cache : Nat → α) (lh : List Nat) : Prog (Disk α) :=
  if 0 < lh.length then
    write_log start cache lh ++ write_head start lh ++ install_trans start lh ++ write_head start []
  else []

/-- `read_head`: the header as it is on disk. -/
def read_head (start : Nat) (d : Disk α) : List Nat :=
  HeaderBlock.header (d start)

/-- `recover_from_log`: install whatever header the disk holds, then clear it.
The program depends on the disk it starts from, through `read_head`. -/
def recover_from_log (start : Nat) (d : Disk α) : Prog (Disk α) :=
  install_trans start (read_head start d) ++ write_head start []

@[simp] theorem read_head_bwrite_start (start : Nat) (v : α) (d : Disk α) :
    read_head start (bwrite start v d) = HeaderBlock.header v := by
  simp [read_head]

theorem read_head_bwrite_other {start b : Nat} (v : α) (d : Disk α) (h : start ≠ b) :
    read_head start (bwrite b v d) = read_head start d := by
  simp [read_head, bwrite_other v d h]

end Xv6.Log
