/-
`fs.c`'s block layer under an inode: `balloc`, `bmap`, `readi`, `writei` and
`iupdate`, over the bytes of the disk.

Block `b` of the disk is the `BSIZE` bytes at `b * BSIZE` of a byte memory
(`ByteMem`). `bread` and `log_write` pass through to it: a buffer holds its
block's bytes, and what the code writes into the buffer is the disk's (how the
log makes a system call's writes reach the disk together is `Xv6.Log`). The
state is the disk, the superblock `sb` that `readsb` read at boot, and the
locked in-memory inode `ip` that the call works on: `bmap` records a new block
in `ip->addrs`, which reaches the disk's inode when `iupdate` writes it.

Each function is a program of `BM` that stops with the kernel's panic message
where the source calls `panic`. `readi` and `writei` check that `off + n` does
not wrap past `2^32` before their loops, so the loops count in `Nat`, with the
number of bytes to go as fuel: every round moves at least one byte.

A device inode's `readi` and `writei` go to its driver in `devsw`, which is a
parameter here (the console's driver is `Xv6.Console`).

`readsb` and `ilock` read the superblock and an inode from the disk's bytes, as
the kernel does at boot and when it first locks an inode: `ilocked` is the
state the block layer then works on.
-/
import Xv6.Lib.Bitmap
import Xv6.Lib.StateExcept
import Xv6.Fs.Basic

set_option autoImplicit false

namespace Xv6.Blocks

open ByteMem
open Xv6.Fs (BSIZE NDIRECT NINDIRECT MAXFILE T_DEV)

/-! ## `fs.h` and `param.h` -/

/-- `NDEV`: maximum major device number. -/
def NDEV : Nat := 10

/-- `sizeof(struct dinode)`. -/
def DINODESZ : Nat := 64

/-- `IPB`: inodes per block. -/
def IPB : Nat := BSIZE / DINODESZ

/-- `BPB`: bitmap bits per block. -/
def BPB : Nat := BSIZE * 8

/-- `struct superblock`: the disk's layout, in blocks. -/
structure superblock where
  size : UInt32
  nblocks : UInt32
  ninodes : UInt32
  nlog : UInt32
  logstart : UInt32
  inodestart : UInt32
  bmapstart : UInt32
  deriving DecidableEq, Repr

/-- `IBLOCK(i, sb)`: the block holding inode `i`. -/
def IBLOCK (i : UInt32) (sb : superblock) : UInt32 := i / IPB.toUInt32 + sb.inodestart

/-- `BBLOCK(b, sb)`: the bitmap block holding the bit of block `b`. -/
def BBLOCK (b : UInt32) (sb : superblock) : UInt32 := b / BPB.toUInt32 + sb.bmapstart

/-! ## The state -/

/-- What `struct inode` holds of an inode's content: the fields `iupdate`
writes, and the number the inode has on the disk. -/
structure inode where
  inum : UInt32
  type : Int16
  major : Int16
  minor : Int16
  nlink : Int16
  size : UInt32
  addrs : Fin (NDIRECT + 1) → UInt32

/-- An entry of `devsw`: a device's read and write functions, when it has them.
`read n` returns the driver's result and the bytes it copied out; `write src n`
consumes the `n` bytes of `src`. -/
structure devsw where
  read : Option (UInt32 → Int × List UInt8)
  write : Option (List UInt8 → UInt32 → Int)

/-- The disk, the superblock, and the locked inode. -/
structure St where
  disk : Mem
  sb : superblock
  ip : inode

/-- The block layer's code: a program over the state that may panic. -/
abbrev BM (α : Type) := StateT St (Except String) α

/-- A `uint` returned as an `int`, as a C conversion does. -/
def toInt (n : UInt32) : Int := n.toInt32.toInt

/-! ## Blocks -/

/-- The bytes of block `b` start at `b * BSIZE`. -/
def blockAddr (b : UInt32) : Nat := b.toNat * BSIZE

/-- The bitmap's bit for block `b`. -/
def inUse (s : St) (b : UInt32) : Bool :=
  Bitmap.test s.disk (blockAddr (BBLOCK b s.sb)) (b.toNat % BPB)

/-- `bzero`: zero block `bno`. -/
def bzero (bno : UInt32) : BM Unit :=
  modify fun s => { s with disk := memset s.disk (blockAddr bno) BSIZE 0 }

/-- `balloc`: mark the first free block in use, zero it, and return it. The two
loops of the source visit the blocks `b + bi` below `sb.size` in increasing
order, reading the bitmap block of each. -/
def balloc : BM UInt32 := do
  let s ← get
  match (List.range s.sb.size.toNat).find? (fun x => !inUse s x.toUInt32) with
  | none => throw "balloc: out of blocks"
  | some x =>
    -- `bp->data[bi/8] |= m`
    modify fun s =>
      { s with disk := Bitmap.set s.disk (blockAddr (BBLOCK x.toUInt32 s.sb)) (x % BPB) }
    bzero x.toUInt32
    return x.toUInt32

/-! ## `bmap` -/

/-- `ip->addrs[i]`, allocating a block for it when it is 0: the direct blocks,
and the indirect block. -/
def allocAddr (i : Fin (NDIRECT + 1)) : BM UInt32 := do
  let addr := (← get).ip.addrs i
  if addr ≠ 0 then return addr
  let addr ← balloc
  modify fun s => { s with ip := { s.ip with addrs := Function.update s.ip.addrs i addr } }
  return addr

/-- `a[bn]` of the indirect block `ind`, allocating a block for it when it is 0.
The buffer of `ind` stays held across `balloc`, which writes other blocks. -/
def allocEntry (ind : UInt32) (bn : Nat) : BM UInt32 := do
  let addr := load32 (← get).disk (blockAddr ind + 4 * bn)
  if addr ≠ 0 then return addr
  let addr ← balloc
  modify fun s => { s with disk := store32 s.disk (blockAddr ind + 4 * bn) addr }
  return addr

/-- `bmap`: the block of the inode's block `bn`, allocated when there is none. -/
def bmap (bn : Nat) : BM UInt32 :=
  if h : bn < NDIRECT then allocAddr ⟨bn, by omega⟩
  else if bn - NDIRECT < NINDIRECT then do
    -- Load indirect block, allocating if necessary.
    let ind ← allocAddr ⟨NDIRECT, by omega⟩
    allocEntry ind (bn - NDIRECT)
  else throw "bmap: out of range"

/-! ## `iupdate` -/

/-- Where inode `inum` lies on the disk. -/
def dinodeAddr (sb : superblock) (inum : UInt32) : Nat :=
  blockAddr (IBLOCK inum sb) + (inum.toNat % IPB) * DINODESZ

/-- `iupdate`: copy the inode's fields to its `dinode`. -/
def iupdate : BM Unit :=
  modify fun s =>
    let a := dinodeAddr s.sb s.ip.inum
    let d := store16 s.disk a s.ip.type.toUInt16
    let d := store16 d (a + 2) s.ip.major.toUInt16
    let d := store16 d (a + 4) s.ip.minor.toUInt16
    let d := store16 d (a + 6) s.ip.nlink.toUInt16
    let d := store32 d (a + 8) s.ip.size
    -- `memmove(dip->addrs, ip->addrs, sizeof(ip->addrs))`
    { s with disk := memmove d (a + 12) ((List.finRange (NDIRECT + 1)).flatMap fun i => bytes32 (s.ip.addrs i)) }

/-! ## `readsb` and `ilock` -/

/-- `struct dinode`: an inode as the disk holds it. -/
structure dinode where
  type : Int16
  major : Int16
  minor : Int16
  nlink : Int16
  size : UInt32
  addrs : Fin (NDIRECT + 1) → UInt32

/-- The `dinode` whose bytes start at `a`. -/
def dinodeAt (m : Mem) (a : Nat) : dinode where
  type := (load16 m a).toInt16
  major := (load16 m (a + 2)).toInt16
  minor := (load16 m (a + 4)).toInt16
  nlink := (load16 m (a + 6)).toInt16
  size := load32 m (a + 8)
  addrs i := load32 m (a + 12 + 4 * i.val)

/-- `readsb`: the superblock is the first bytes of block 1. -/
def readsb (m : Mem) : superblock :=
  let a := blockAddr 1
  ⟨load32 m a, load32 m (a + 4), load32 m (a + 8), load32 m (a + 12), load32 m (a + 16),
    load32 m (a + 20), load32 m (a + 24)⟩

/-- `ilock`: the fields of inode `inum`, copied from its `dinode`. -/
def ilock (m : Mem) (sb : superblock) (inum : UInt32) : inode :=
  let dip := dinodeAt m (dinodeAddr sb inum)
  { inum, type := dip.type, major := dip.major, minor := dip.minor, nlink := dip.nlink,
    size := dip.size, addrs := dip.addrs }

/-- The state in which the kernel reads and writes inode `inum` of the disk
`m`: the superblock that `readsb` read, and the inode that `ilock` read. -/
def ilocked (m : Mem) (inum : UInt32) : St := ⟨m, readsb m, ilock m (readsb m) inum⟩

/-! ## `readi` and `writei` -/

/-- The loop of `readi`: `n` bytes from offset `off`, `tot` of them copied. -/
def readiLoop (n : Nat) : Nat → Nat → Nat → BM (List UInt8)
  | 0, _, _ => return []
  | fuel + 1, tot, off => do
    if tot < n then
      let b ← bmap (off / BSIZE)
      let m := min (n - tot) (BSIZE - off % BSIZE)
      let d := read (← get).disk (blockAddr b + off % BSIZE) m
      let rest ← readiLoop n fuel (tot + m) (off + m)
      return d ++ rest
    else return []

/-- The device number of `ip`, when it names an entry of `devsw`. -/
def devOf (ip : inode) : Option (Fin NDEV) :=
  if h : ip.major.toInt < 0 ∨ ip.major.toInt ≥ NDEV then none
  else some ⟨ip.major.toInt.toNat, by omega⟩

/-- `readi(ip, dst, off, n)`: the result, and the bytes copied to `dst`. -/
def readi (devsw : Fin NDEV → devsw) (off n : UInt32) : BM (Int × List UInt8) := do
  let ip := (← get).ip
  if ip.type.toInt = T_DEV then
    match devOf ip with
    | none => return (-1, [])
    | some d =>
      match (devsw d).read with
      | none => return (-1, [])
      | some rd => return rd n
  if off > ip.size ∨ off + n < off then return (-1, [])
  let n := if off + n > ip.size then ip.size - off else n
  let d ← readiLoop n.toNat (n.toNat + 1) 0 off.toNat
  return (toInt n, d)

/-- The loop of `writei`: `n` bytes of `src` to offset `off`, `tot` of them
copied; the offset it ends at. -/
def writeiLoop (src : List UInt8) (n : Nat) : Nat → Nat → Nat → BM Nat
  | 0, _, off => return off
  | fuel + 1, tot, off => do
    if tot < n then
      let b ← bmap (off / BSIZE)
      let m := min (n - tot) (BSIZE - off % BSIZE)
      modify fun s => { s with disk := memmove s.disk (blockAddr b + off % BSIZE) ((src.drop tot).take m) }
      writeiLoop src n fuel (tot + m) (off + m)
    else return off

/-- `writei(ip, src, off, n)`, where `src` holds the `n` bytes at the pointer. -/
def writei (devsw : Fin NDEV → devsw) (src : List UInt8) (off n : UInt32) : BM Int := do
  let ip := (← get).ip
  if ip.type.toInt = T_DEV then
    match devOf ip with
    | none => return -1
    | some d =>
      match (devsw d).write with
      | none => return -1
      | some wr => return wr src n
  if off > ip.size ∨ off + n < off then return -1
  if (off + n).toNat > MAXFILE * BSIZE then return -1
  let off ← writeiLoop src n.toNat (n.toNat + 1) 0 off.toNat
  if n > 0 ∧ off > (← get).ip.size.toNat then
    modify fun s => { s with ip := { s.ip with size := off.toUInt32 } }
    iupdate
  return toInt n

end Xv6.Blocks
