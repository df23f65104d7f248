/-
The inode layer of `fs.c`: the in-memory inode cache over the on-disk inodes,
and directories.

The disk holds one `dinode` per inode number. A directory's content is kept
as its list of entries. Entry `i` is the 16 bytes at offset `16 * i`, and
`size` is 16 times the list's length. The content of other inodes is not
modelled, and neither are the blocks that hold it (`Xv6.Blocks` models those).
`icache` holds `NINODE` entries. Each entry has the reference count `ref`, and
a copy of its inode that `ilock` reads when `valid` is false.

Each function is a program of `FsM`: it reads and writes the state, and stops
with the kernel's panic message where the source calls `panic`. The sleep locks
are not modelled, and each system call runs as one step (`Xv6.Fs.Syscall`).

The lemmas state what each function does to the reference counts (`Inner`).
Callers cite those lemmas and never unfold the function.
-/
import Mathlib.Data.List.FinRange
import Mathlib.Data.Multiset.AddSub
import Xv6.Lib.StateExcept
import Xv6.Bio.Basic

set_option autoImplicit false

namespace Xv6.Fs

open StateExcept
open Xv6.Bio (ROOTDEV)

/-! ## Parameters -/

/-- `NINODE`: maximum number of active i-nodes. -/
def NINODE : Nat := 50

/-- `NFILE`: open files per system. -/
def NFILE : Nat := 100

/-- `NOFILE`: open files per process. -/
def NOFILE : Nat := 16

instance : NeZero NINODE := ⟨by decide⟩
instance : NeZero NFILE := ⟨by decide⟩
instance : NeZero NOFILE := ⟨by decide⟩

/-- `ROOTINO`: the root i-number. -/
def ROOTINO : Nat := 1

/-- `BSIZE`: block size. -/
def BSIZE : Nat := 512

/-- `NDIRECT`: direct block addresses per inode. -/
def NDIRECT : Nat := 12

/-- `NINDIRECT`: addresses in the indirect block, `BSIZE / sizeof(uint)`. -/
def NINDIRECT : Nat := BSIZE / 4

/-- `MAXFILE`: the largest file, in blocks. -/
def MAXFILE : Nat := NDIRECT + NINDIRECT

/-- `DIRSIZ`: the length of a name in a directory entry. -/
def DIRSIZ : Nat := 14

/-- `sizeof(struct dirent)`. -/
def DIRENTSZ : Nat := 16

/-- `T_DIR`, `T_FILE`, `T_DEV`: the inode types of `stat.h`; 0 is a free inode. -/
def T_DIR : Nat := 1
def T_FILE : Nat := 2
def T_DEV : Nat := 3

/-- The open modes of `fcntl.h`. -/
def O_RDONLY : Nat := 0x000
def O_WRONLY : Nat := 0x001
def O_RDWR : Nat := 0x002
def O_CREATE : Nat := 0x200

/-! ## The state -/

/-- `struct dirent`. A slot with `inum = 0` is free. -/
structure dirent where
  inum : Nat
  name : List Char
  deriving DecidableEq, Repr

/-- `struct dinode`, with a directory's content as its entries. -/
structure dinode where
  type : Nat
  major : Nat
  minor : Nat
  nlink : Nat
  dirents : List dirent
  deriving DecidableEq, Repr

/-- `struct inode`: an entry of `icache`. -/
structure inode where
  dev : Nat
  inum : Nat
  ref : Nat
  valid : Bool
  type : Nat
  major : Nat
  minor : Nat
  nlink : Nat
  deriving DecidableEq, Repr

/-- The kinds of `struct file`. -/
inductive ftype where
  | FD_NONE
  | FD_PIPE
  | FD_INODE
  deriving DecidableEq, Repr

/-- `struct file`. -/
structure file where
  type : ftype
  ref : Nat
  readable : Bool
  writable : Bool
  ip : Fin NINODE
  off : Nat
  deriving DecidableEq, Repr

/-- What `struct proc` holds of the file system: the current directory and
the open files. -/
structure proc where
  cwd : Fin NINODE
  ofile : Fin NOFILE → Option (Fin NFILE)

/-- The disk's inodes, `icache`, `ftable` and the process table, with
`sb.ninodes` and `initproc`. -/
structure Sys (ι : Type) where
  ninodes : Nat
  disk : Nat → dinode
  icache : Fin NINODE → inode
  ftable : Fin NFILE → file
  ptable : ι → Option proc
  initproc : ι

/-- The file-system code: a program over the state that may panic. -/
abbrev FsM (ι α : Type) := StateT (Sys ι) (Except String) α

variable {ι : Type}

/-- Rewrite entry `k` of `icache`. -/
def setInode (k : Fin NINODE) (f : inode → inode) : FsM ι Unit :=
  modify fun s => { s with icache := Function.update s.icache k (f (s.icache k)) }

/-- Rewrite inode `inum` on the disk. -/
def setDisk (inum : Nat) (f : dinode → dinode) : FsM ι Unit :=
  modify fun s => { s with disk := Function.update s.disk inum (f (s.disk inum)) }

/-! ## Inodes -/

/-- `iget`: the entry caching inode `inum` of `dev`, with one more reference.
An uncached inode takes over the first free entry, which `ilock` then reads. -/
def iget (dev inum : Nat) : FsM ι (Fin NINODE) := do
  let s ← get
  match (List.finRange NINODE).find? fun k =>
      0 < (s.icache k).ref ∧ (s.icache k).dev = dev ∧ (s.icache k).inum = inum with
  | some k =>
    setInode k fun ip => { ip with ref := ip.ref + 1 }
    return k
  | none =>
    match (List.finRange NINODE).find? fun k => (s.icache k).ref = 0 with
    | some k =>
      setInode k fun ip => { ip with dev := dev, inum := inum, ref := 1, valid := false }
      return k
    | none => throw "iget: no inodes"

/-- `idup`. -/
def idup (k : Fin NINODE) : FsM ι (Fin NINODE) := do
  setInode k fun ip => { ip with ref := ip.ref + 1 }
  return k

/-- `ilock`, which reads the inode from the disk if the entry is not valid. -/
def ilock (k : Fin NINODE) : FsM ι Unit := do
  let s ← get
  if (s.icache k).ref < 1 then throw "ilock"
  else if (s.icache k).valid = false then do
    let dip := s.disk (s.icache k).inum
    setInode k fun ip =>
      { ip with type := dip.type, major := dip.major, minor := dip.minor, nlink := dip.nlink
                valid := true }
    if dip.type = 0 then throw "ilock: no type"
  else pure ()

/-- `iunlock`. -/
def iunlock (k : Fin NINODE) : FsM ι Unit := do
  let s ← get
  if (s.icache k).ref < 1 then throw "iunlock" else pure ()

/-- `iupdate`: write the cached inode through to the disk. -/
def iupdate (k : Fin NINODE) : FsM ι Unit := do
  let ip := (← get).icache k
  setDisk ip.inum fun dip =>
    { dip with type := ip.type, major := ip.major, minor := ip.minor, nlink := ip.nlink }

/-- `itrunc`: discard the content. -/
def itrunc (k : Fin NINODE) : FsM ι Unit := do
  let ip := (← get).icache k
  setDisk ip.inum fun dip => { dip with dirents := [] }
  iupdate k

/-- `iput`: drop a reference. The last reference to an inode with no links
frees the inode on the disk. -/
def iput (k : Fin NINODE) : FsM ι Unit := do
  let ip := (← get).icache k
  if ip.valid = true ∧ ip.nlink = 0 ∧ ip.ref = 1 then do
    itrunc k
    setInode k fun ip => { ip with type := 0 }
    iupdate k
    setInode k fun ip => { ip with valid := false }
  setInode k fun ip => { ip with ref := ip.ref - 1 }

/-- `iunlockput`. -/
def iunlockput (k : Fin NINODE) : FsM ι Unit := do
  iunlock k
  iput k

/-- `ialloc`: the first free inode on the disk, given type `type`. -/
def ialloc (dev type : Nat) : FsM ι (Fin NINODE) := do
  let s ← get
  match (List.range' 1 (s.ninodes - 1)).find? fun inum => (s.disk inum).type = 0 with
  | some inum =>
    setDisk inum fun _ => ⟨type, 0, 0, 0, []⟩
    iget dev inum
  | none => throw "ialloc: no inodes"

/-! ## Directories -/

/-- `namecmp`: true where `strncmp(s, t, DIRSIZ)` is zero. -/
def namecmp (s t : List Char) : Bool :=
  s.take DIRSIZ == t.take DIRSIZ

/-- `dirlookup`: the entry naming `name`, with one more reference, and its slot. -/
def dirlookup (dp : Fin NINODE) (name : List Char) :
    FsM ι (Option (Fin NINODE × Nat)) := do
  let s ← get
  let ip := s.icache dp
  if ip.type ≠ T_DIR then throw "dirlookup not DIR"
  else
    match (s.disk ip.inum).dirents.zipIdx.find? fun (de, _) =>
        de.inum ≠ 0 ∧ namecmp name de.name with
    | some (de, off) => do
      let k ← iget ip.dev de.inum
      return some (k, off)
    | none => return none

/-- `writei` of one directory entry at slot `off`, as `dirlink` and
`sys_unlink` call it: `sizeof(de)`, or -1 past the end or past `MAXFILE`
blocks. -/
def writei (dp : Fin NINODE) (de : dirent) (off : Nat) : FsM ι Int := do
  let s ← get
  let inum := (s.icache dp).inum
  let ents := (s.disk inum).dirents
  if off > ents.length then return -1
  else if (off + 1) * DIRENTSZ > MAXFILE * BSIZE then return -1
  else do
    setDisk inum fun dip =>
      { dip with dirents := if off < ents.length then ents.set off de else ents ++ [de] }
    return DIRENTSZ

/-- `dirlink`: write the entry `(name, inum)` into the first free slot of
`dp`, or after its last one; -1 if `name` is there. -/
def dirlink (dp : Fin NINODE) (name : List Char) (inum : Nat) : FsM ι Int := do
  match ← dirlookup dp name with
  | some (ip, _) => do
    iput ip
    return -1
  | none => do
    let s ← get
    let ents := (s.disk (s.icache dp).inum).dirents
    let off := (ents.findIdx? fun de => de.inum = 0).getD ents.length
    if (← writei dp ⟨inum, name.take DIRSIZ⟩ off) ≠ DIRENTSZ then throw "dirlink"
    else return 0

/-- `isdirempty`: no entry past "." and "..". -/
def isdirempty (dp : Fin NINODE) : FsM ι Bool := do
  let s ← get
  return ((s.disk (s.icache dp).inum).dirents.drop 2).all fun de => de.inum = 0

/-! ## References -/

/-- Entries in use cache distinct inodes. -/
def Uniq (s : Sys ι) : Prop :=
  ∀ k j, 0 < (s.icache k).ref → 0 < (s.icache j).ref → (s.icache k).dev = (s.icache j).dev →
    (s.icache k).inum = (s.icache j).inum → k = j

/-- A step of the inode layer. The file table, the processes and the
superblock stay, each entry gains the references `inc` counts on it and loses
those `dec` counts, and the entries in use stay distinct. -/
structure Inner (s t : Sys ι) (inc dec : Multiset (Fin NINODE)) : Prop where
  ftable : t.ftable = s.ftable
  ptable : t.ptable = s.ptable
  ninodes : t.ninodes = s.ninodes
  initproc : t.initproc = s.initproc
  refs : ∀ k, (t.icache k).ref + dec.count k = (s.icache k).ref + inc.count k
  uniq : Uniq s → Uniq t

/-- The reference a lookup's result holds, if it found an entry. -/
def taken : Option (Fin NINODE) → Multiset (Fin NINODE)
  | some k => {k}
  | none => 0

@[simp] theorem taken_some (k : Fin NINODE) : taken (some k) = {k} := rfl

@[simp] theorem taken_none : taken none = 0 := rfl

variable {s t u : Sys ι}

theorem Inner.refl (s : Sys ι) : Inner s s 0 0 :=
  ⟨rfl, rfl, rfl, rfl, fun _ => rfl, id⟩

theorem Inner.trans {i₁ d₁ i₂ d₂ : Multiset (Fin NINODE)} (h₁ : Inner s t i₁ d₁)
    (h₂ : Inner t u i₂ d₂) : Inner s u (i₁ + i₂) (d₁ + d₂) where
  ftable := h₂.ftable.trans h₁.ftable
  ptable := h₂.ptable.trans h₁.ptable
  ninodes := h₂.ninodes.trans h₁.ninodes
  initproc := h₂.initproc.trans h₁.initproc
  refs k := by
    have := h₁.refs k
    have := h₂.refs k
    simp only [Multiset.count_add]
    omega
  uniq := h₂.uniq ∘ h₁.uniq

/-- A step that moves no reference adds nothing to the count. -/
theorem Inner.trans_quiet {i d : Multiset (Fin NINODE)} (h₁ : Inner s t i d) (h₂ : Inner t u 0 0) :
    Inner s u i d := by
  simpa using h₁.trans h₂

/-- The same step, with its references counted another way: `inc' + dec`
and `inc + dec'` count alike on each entry. -/
theorem Inner.of_counts {i d i' d' : Multiset (Fin NINODE)} (h : Inner s t i d)
    (hc : ∀ k, i'.count k + d.count k = i.count k + d'.count k) : Inner s t i' d' where
  __ := h
  refs k := by
    have := h.refs k
    have := hc k
    omega

/-- An entry that keeps references after a step had them before it. -/
theorem Inner.pos {i d : Multiset (Fin NINODE)} (h : Inner s t i d) {k : Fin NINODE}
    (hk : 0 < (s.icache k).ref + i.count k - d.count k) : 0 < (t.icache k).ref := by
  have := h.refs k
  omega

/-- Distinct entries stay distinct while no entry comes into use and none
changes its inode. -/
theorem Uniq.mono (hs : Uniq s) (h : ∀ k, 0 < (t.icache k).ref → 0 < (s.icache k).ref ∧
    (t.icache k).dev = (s.icache k).dev ∧ (t.icache k).inum = (s.icache k).inum) : Uniq t := by
  intro k j hk hj hdev hinum
  obtain ⟨hk', hkd, hki⟩ := h k hk
  obtain ⟨hj', hjd, hji⟩ := h j hj
  exact hs k j hk' hj' (by rw [← hkd, ← hjd, hdev]) (by rw [← hki, ← hji, hinum])

/-- Rewriting one entry keeps the others distinct from it when the entry was
in use and keeps its inode. -/
theorem Uniq.update {k : Fin NINODE} {ip : inode} (hs : Uniq s)
    (hip : 0 < ip.ref → 0 < (s.icache k).ref ∧ ip.dev = (s.icache k).dev ∧
      ip.inum = (s.icache k).inum) :
    Uniq { s with icache := Function.update s.icache k ip } := by
  refine hs.mono fun j hj => ?_
  by_cases hjk : j = k
  · subst hjk
    simpa using hip (by simpa using hj)
  · dsimp only at hj ⊢
    rw [Function.update_of_ne hjk] at hj ⊢
    exact ⟨hj, rfl, rfl⟩

/-- Rewriting one entry, with `i` references more and `d` fewer on it. -/
theorem inner_setInode (k : Fin NINODE) (ip : inode) {i d : Nat}
    (href : ip.ref + d = (s.icache k).ref + i)
    (huniq : Uniq s → Uniq { s with icache := Function.update s.icache k ip }) :
    Inner s { s with icache := Function.update s.icache k ip } (Multiset.replicate i k)
      (Multiset.replicate d k) where
  ftable := rfl
  ptable := rfl
  ninodes := rfl
  initproc := rfl
  refs j := by
    by_cases hj : j = k
    · subst hj
      simpa [Multiset.count_replicate] using href
    · simp [Function.update_of_ne hj, Multiset.count_replicate, Ne.symm hj]
  uniq := huniq

/-- Rewriting one entry in a way that keeps its inode and its references. -/
theorem setInode_inner {k : Fin NINODE} {f : inode → inode} {a : Unit}
    (hf : (f (s.icache k)).dev = (s.icache k).dev ∧ (f (s.icache k)).inum = (s.icache k).inum ∧
      (f (s.icache k)).ref = (s.icache k).ref) (h : Runs (setInode k f) s a t) :
    Inner s t 0 0 := by
  simp only [setInode, runs_modify] at h
  subst h
  have := inner_setInode (s := s) k (f (s.icache k)) (i := 0) (d := 0)
    (by rw [hf.2.2]) fun hs => hs.update fun hpos => ⟨hf.2.2 ▸ hpos, hf.1, hf.2.1⟩
  simpa using this

theorem setDisk_inner {inum : Nat} {f : dinode → dinode} {a : Unit}
    (h : Runs (setDisk inum f) s a t) : Inner s t 0 0 := by
  simp only [setDisk, runs_modify] at h
  subst h
  exact ⟨rfl, rfl, rfl, rfl, fun _ => rfl, id⟩

/-- A fresh entry for an inode no entry in use caches keeps entries distinct. -/
theorem Uniq.recycle {k : Fin NINODE} {dev inum : Nat} (hs : Uniq s)
    (hno : ∀ j, ¬(0 < (s.icache j).ref ∧ (s.icache j).dev = dev ∧ (s.icache j).inum = inum))
    {ip : inode} (hip : ip.dev = dev ∧ ip.inum = inum) :
    Uniq { s with icache := Function.update s.icache k ip } := by
  intro a b ha hb hdev hinum
  by_cases hak : a = k <;> by_cases hbk : b = k
  · rw [hak, hbk]
  · subst hak
    simp only [Function.update_self, Function.update_of_ne hbk] at hb hdev hinum
    exact absurd ⟨hb, by rw [← hdev, hip.1], by rw [← hinum, hip.2]⟩ (hno b)
  · subst hbk
    simp only [Function.update_self, Function.update_of_ne hak] at ha hdev hinum
    exact absurd ⟨ha, by rw [hdev, hip.1], by rw [hinum, hip.2]⟩ (hno a)
  · simp only [Function.update_of_ne hak, Function.update_of_ne hbk] at ha hb hdev hinum
    exact hs a b ha hb hdev hinum

/-- One more reference on an entry in use. -/
theorem inner_addref {k : Fin NINODE} {a : Unit} (hk : 0 < (s.icache k).ref)
    (h : Runs (setInode k fun ip => { ip with ref := ip.ref + 1 }) s a t) : Inner s t {k} 0 := by
  simp only [setInode, runs_modify] at h
  subst h
  have := inner_setInode (s := s) k { s.icache k with ref := (s.icache k).ref + 1 }
    (i := 1) (d := 0) rfl fun hs => hs.update fun _ => ⟨hk, rfl, rfl⟩
  simpa using this

/-! ## What each function does to the references -/

/-- `iget` takes one reference on the entry it returns, which caches the inode
it was asked for. -/
theorem iget_spec {dev inum : Nat} {k : Fin NINODE} (h : Runs (iget dev inum) s k t) :
    Inner s t {k} 0 ∧ (t.icache k).dev = dev ∧ (t.icache k).inum = inum := by
  simp only [iget, runs_bind, runs_get] at h
  obtain ⟨_, _, ⟨rfl, rfl⟩, h⟩ := h
  split at h
  · -- the inode is cached: one more reference on its entry
    rename_i k' hk'
    simp only [runs_bind, runs_pure] at h
    obtain ⟨_, t₁, hset, rfl, rfl⟩ := h
    have hc := List.find?_some hk'
    simp only [decide_eq_true_eq] at hc
    refine ⟨inner_addref hc.1 hset, ?_⟩
    simp only [setInode, runs_modify] at hset
    subst hset
    simpa using hc.2
  · -- not cached: the first free entry is recycled for it
    rename_i hnone
    split at h
    · rename_i k' hk'
      simp only [setInode, runs_bind, runs_modify, runs_pure] at h
      obtain ⟨_, _, rfl, rfl, rfl⟩ := h
      have hfree := List.find?_some hk'
      simp only [decide_eq_true_eq] at hfree
      have hno : ∀ j, ¬(0 < (s.icache j).ref ∧ (s.icache j).dev = dev ∧
          (s.icache j).inum = inum) := fun j hj =>
        List.find?_eq_none.mp hnone j (List.mem_finRange j) (by simpa using hj)
      refine ⟨?_, by simp, by simp⟩
      have := inner_setInode (s := s) k
        { s.icache k with dev := dev, inum := inum, ref := 1, valid := false }
        (i := 1) (d := 0) (by simp [hfree]) fun hs => hs.recycle hno ⟨rfl, rfl⟩
      simpa using this
    · simp at h

/-- `idup` of an entry in use takes one more reference on it. -/
theorem idup_spec {k k' : Fin NINODE} (hk : 0 < (s.icache k).ref) (h : Runs (idup k) s k' t) :
    k' = k ∧ Inner s t {k} 0 := by
  simp only [idup, runs_bind, runs_pure] at h
  obtain ⟨_, t₁, hset, rfl, rfl⟩ := h
  exact ⟨rfl, inner_addref hk hset⟩

theorem ilock_spec {k : Fin NINODE} {a : Unit} (h : Runs (ilock k) s a t) : Inner s t 0 0 := by
  simp only [ilock, runs_bind, runs_get] at h
  obtain ⟨_, _, ⟨rfl, rfl⟩, h⟩ := h
  split at h
  · simp at h
  · split at h
    · -- the entry is read from the disk: its inode and references stay
      simp only [runs_bind] at h
      obtain ⟨_, t₁, hset, h⟩ := h
      have hin := setInode_inner ⟨rfl, rfl, rfl⟩ hset
      split at h
      · simp at h
      · obtain ⟨-, rfl⟩ := (runs_pure _ _ _ _).mp h
        exact hin
    · obtain ⟨-, rfl⟩ := (runs_pure _ _ _ _).mp h
      exact Inner.refl s

theorem iunlock_spec {k : Fin NINODE} {a : Unit} (h : Runs (iunlock k) s a t) : s = t := by
  simp only [iunlock, runs_bind, runs_get] at h
  obtain ⟨_, _, ⟨rfl, rfl⟩, h⟩ := h
  split at h
  · simp at h
  · exact ((runs_pure _ _ _ _).mp h).2

theorem iupdate_spec {k : Fin NINODE} {a : Unit} (h : Runs (iupdate k) s a t) :
    Inner s t 0 0 := by
  simp only [iupdate, runs_bind, runs_get] at h
  obtain ⟨_, _, ⟨rfl, rfl⟩, h⟩ := h
  exact setDisk_inner h

theorem itrunc_spec {k : Fin NINODE} {a : Unit} (h : Runs (itrunc k) s a t) : Inner s t 0 0 := by
  simp only [itrunc, runs_bind, runs_get] at h
  obtain ⟨_, _, ⟨rfl, rfl⟩, _, t₁, hd, h⟩ := h
  simpa using (setDisk_inner hd).trans (iupdate_spec h)

/-- `iput` gives back one reference. -/
theorem iput_spec {k : Fin NINODE} {a : Unit} (hk : 0 < (s.icache k).ref)
    (h : Runs (iput k) s a t) : Inner s t 0 {k} := by
  simp only [iput, runs_bind, runs_get] at h
  obtain ⟨_, _, ⟨rfl, rfl⟩, h⟩ := h
  -- freeing the inode moves no reference; then the count drops by one
  obtain ⟨t₁, h₁, h⟩ : ∃ t₁, Inner s t₁ 0 0 ∧
      Runs (setInode k fun ip => { ip with ref := ip.ref - 1 }) t₁ () t := by
    split at h
    · simp only [runs_bind] at h
      obtain ⟨_, t₂, htr, _, t₃, hty, _, t₄, hup, _, t₅, hva, hdec⟩ := h
      have h₂ := itrunc_spec htr
      have h₃ := setInode_inner ⟨rfl, rfl, rfl⟩ hty
      have h₄ := iupdate_spec hup
      have h₅ := setInode_inner ⟨rfl, rfl, rfl⟩ hva
      exact ⟨t₅, by simpa using ((h₂.trans h₃).trans h₄).trans h₅, hdec⟩
    · exact ⟨s, Inner.refl s, h⟩
  have hk₁ : 0 < (t₁.icache k).ref := h₁.pos (by simpa using hk)
  simp only [setInode, runs_modify] at h
  subst h
  have := inner_setInode (s := t₁) k
    { t₁.icache k with ref := (t₁.icache k).ref - 1 } (i := 0) (d := 1)
    (by simp only; omega) fun hs => hs.update fun _ => ⟨hk₁, rfl, rfl⟩
  simpa using h₁.trans this

theorem iunlockput_spec {k : Fin NINODE} {a : Unit} (hk : 0 < (s.icache k).ref)
    (h : Runs (iunlockput k) s a t) : Inner s t 0 {k} := by
  simp only [iunlockput, runs_bind] at h
  obtain ⟨_, t₁, hun, hput⟩ := h
  obtain rfl := iunlock_spec hun
  exact iput_spec hk hput

/-- `ialloc` returns an entry for the inode it allocated, with one reference. -/
theorem ialloc_spec {dev type : Nat} {k : Fin NINODE} (h : Runs (ialloc dev type) s k t) :
    Inner s t {k} 0 := by
  simp only [ialloc, runs_bind, runs_get] at h
  obtain ⟨_, _, ⟨rfl, rfl⟩, h⟩ := h
  split at h
  · simp only [runs_bind] at h
    obtain ⟨_, t₁, hd, hget⟩ := h
    simpa using (setDisk_inner hd).trans (iget_spec hget).1
  · simp at h

/-- `dirlookup` takes one reference on the entry it finds. -/
theorem dirlookup_spec {dp : Fin NINODE} {name : List Char} {r : Option (Fin NINODE × Nat)}
    (h : Runs (dirlookup dp name) s r t) : Inner s t (taken (r.map Prod.fst)) 0 := by
  simp only [dirlookup, runs_bind, runs_get] at h
  obtain ⟨_, _, ⟨rfl, rfl⟩, h⟩ := h
  split at h
  · simp at h
  · split at h
    · simp only [runs_bind, runs_pure] at h
      obtain ⟨k, t₁, hget, rfl, rfl⟩ := h
      simpa using (iget_spec hget).1
    · obtain ⟨rfl, rfl⟩ := (runs_pure _ _ _ _).mp h
      simpa using Inner.refl s

theorem writei_spec {dp : Fin NINODE} {de : dirent} {off : Nat} {r : Int}
    (h : Runs (writei dp de off) s r t) : Inner s t 0 0 := by
  simp only [writei, runs_bind, runs_get] at h
  obtain ⟨_, _, ⟨rfl, rfl⟩, h⟩ := h
  split at h
  · obtain ⟨-, rfl⟩ := (runs_pure _ _ _ _).mp h
    exact Inner.refl s
  · split at h
    · obtain ⟨-, rfl⟩ := (runs_pure _ _ _ _).mp h
      exact Inner.refl s
    · simp only [runs_bind, runs_pure] at h
      obtain ⟨_, t₁, hd, -, rfl⟩ := h
      exact setDisk_inner hd

/-- `dirlink` moves no reference: what its lookup takes it gives back. -/
theorem dirlink_spec {dp : Fin NINODE} {name : List Char} {inum : Nat} {r : Int}
    (h : Runs (dirlink dp name inum) s r t) : Inner s t 0 0 := by
  simp only [dirlink, runs_bind] at h
  obtain ⟨found, t₁, hlook, h⟩ := h
  have h₁ := dirlookup_spec hlook
  split at h
  · rename_i ip off
    simp only [runs_bind, runs_pure] at h
    obtain ⟨_, t₂, hput, -, rfl⟩ := h
    refine (h₁.trans (iput_spec (h₁.pos (by simp)) hput)).of_counts fun k => ?_
    simp only [Option.map_some, taken_some, Multiset.count_add, Multiset.count_zero]
    omega
  · simp only [runs_bind, runs_get] at h
    obtain ⟨_, _, ⟨rfl, rfl⟩, r', t₂, hw, h⟩ := h
    split at h
    · simp at h
    · obtain ⟨-, rfl⟩ := (runs_pure _ _ _ _).mp h
      simpa using h₁.trans (writei_spec hw)

theorem isdirempty_spec {dp : Fin NINODE} {r : Bool} (h : Runs (isdirempty dp) s r t) :
    s = t := by
  simp only [isdirempty, runs_bind, runs_get, runs_pure] at h
  obtain ⟨_, _, ⟨rfl, rfl⟩, -, rfl⟩ := h
  rfl

end Xv6.Fs
