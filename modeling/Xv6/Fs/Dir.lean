/-
Directory entries: what `dirlink`, `dirlookup` and the entry clears of
`sys_unlink` do to a directory.

A directory's content is its list of entries, each an inode number and a name
of at most `DIRSIZ` characters; its size is `DIRENTSZ` bytes per entry, so it
is always a whole number of entries. An entry with inode number 0 is free.
`dirlookup` finds the first entry in use whose name agrees with the one it is
given on the first `DIRSIZ` characters (`findEntry`), `dirlink` writes its
entry at the first free slot or one past the last (`freeSlot`), and
`sys_unlink` clears an entry by writing a zero one over it.

`Unique` says that no two entries in use have names that `namecmp` equates.
Each write keeps it (`unique_putEntry`), so it holds after any sequence of links
and clears (`unique_runOps`); and once `dirlink` has written its entry, a lookup
of any name that agrees with the linked one on `DIRSIZ` characters finds that
entry at its slot (`findEntry_link`).

`dirlink` appends only while the directory has room. At `MAXFILE * BSIZE`
bytes with every slot in use, `writei` refuses the entry and `dirlink` panics
(`dirlink_full`) where its callers expect -1 or a new entry: the root directory
that 4478 calls of `link()` fill, under the distinct names they give, is one.
-/
import Xv6.Fs.Walk

set_option autoImplicit false

namespace Xv6.Fs

open StateExcept

variable {ι : Type}

/-! ## Entries -/

/-- The entry a lookup of `name` finds, with its slot: the first in use whose
name `namecmp` equates with `name`, as `dirlookup` scans them. -/
def findEntry (name : List Char) (ents : List dirent) : Option (dirent × Nat) :=
  ents.zipIdx.find? fun (de, _) => de.inum ≠ 0 ∧ namecmp name de.name

/-- Where `dirlink` writes its entry: the first free slot, or one past the last. -/
def freeSlot (ents : List dirent) : Nat :=
  (ents.findIdx? fun de => de.inum = 0).getD ents.length

/-- Entry `de` written at slot `off`, as `writei` writes one entry: over the
entry there, or after the last. -/
def putEntry (ents : List dirent) (off : Nat) (de : dirent) : List dirent :=
  if off < ents.length then ents.set off de else ents ++ [de]

/-- No two entries in use, at two slots, have names that `namecmp` equates. -/
def Unique (ents : List dirent) : Prop :=
  ∀ (i j : Nat) (a b : dirent), ents[i]? = some a → ents[j]? = some b → i ≠ j →
    a.inum ≠ 0 → b.inum ≠ 0 → namecmp a.name b.name = false

theorem namecmp_iff {n m : List Char} : namecmp n m = true ↔ n.take DIRSIZ = m.take DIRSIZ := by
  simp [namecmp]

theorem namecmp_comm (n m : List Char) : namecmp n m = namecmp m n := by
  rw [Bool.eq_iff_iff, namecmp_iff, namecmp_iff, eq_comm]

/-- `namecmp` reads only the first `DIRSIZ` characters. -/
@[simp] theorem namecmp_take (n m : List Char) : namecmp (n.take DIRSIZ) m = namecmp n m := by
  simp only [namecmp, List.take_take, Nat.min_self]

/-- A lookup finds nothing exactly when no entry in use has a name `namecmp`
equates with `name`. -/
theorem findEntry_eq_none_iff {name : List Char} {ents : List dirent} :
    findEntry name ents = none ↔
      ∀ (i : Nat) (a : dirent), ents[i]? = some a → a.inum ≠ 0 → namecmp name a.name = false := by
  unfold findEntry
  rw [List.find?_eq_none]
  constructor
  · intro h i a hi ha
    have := h (a, i) (List.mem_zipIdx_iff_getElem?.mpr hi)
    simpa [ha] using this
  · rintro h ⟨a, i⟩ hmem
    have hi : ents[i]? = some a := List.mem_zipIdx_iff_getElem?.mp hmem
    by_cases ha : a.inum = 0
    · simp [ha]
    · simp [ha, h i a hi ha]

/-- Under `Unique`, a lookup finds the one entry in use that agrees with `name`. -/
theorem findEntry_of_unique {name : List Char} {ents : List dirent} {k : Nat} {a : dirent}
    (hu : Unique ents) (hk : ents[k]? = some a) (ha : a.inum ≠ 0)
    (hname : namecmp name a.name = true) : findEntry name ents = some (a, k) := by
  obtain ⟨hklt, hka⟩ := List.getElem?_eq_some_iff.mp hk
  unfold findEntry
  rw [List.find?_eq_some_iff_getElem]
  refine ⟨by simp [ha, hname], k, by simpa using hklt, by simp [hka], fun j hj => ?_⟩
  -- an earlier entry in use that agreed with `name` would agree with `a`
  have hjlt : j < ents.length := by omega
  have hj : ents[j]? = some ents[j] := List.getElem?_eq_getElem hjlt
  simp only [List.getElem_zipIdx, Nat.zero_add, ne_eq, Bool.not_eq_eq_eq_not, Bool.not_true,
    decide_eq_false_iff_not, not_and, Bool.not_eq_true]
  intro hj0
  by_contra hjn
  have hsame : namecmp ents[j].name a.name = true := by
    rw [Bool.not_eq_false, namecmp_iff] at hjn
    rw [namecmp_iff] at hname ⊢
    rw [← hjn, hname]
  rw [hu j k ents[j] a hj hk (by omega) hj0 ha] at hsame
  cases hsame

theorem freeSlot_le (ents : List dirent) : freeSlot ents ≤ ents.length := by
  unfold freeSlot
  cases h : ents.findIdx? fun de => decide (de.inum = 0) with
  | none => exact Nat.le_refl _
  | some i => exact Nat.le_of_lt (List.findIdx?_eq_some_iff_getElem.mp h).1

/-- `freeSlot` is the first free slot: every slot before it is in use, and the
slot itself, if it is not one past the last, is free. -/
theorem freeSlot_spec (ents : List dirent) :
    (∀ (j : Nat) (b : dirent), j < freeSlot ents → ents[j]? = some b → b.inum ≠ 0) ∧
      ∀ b, ents[freeSlot ents]? = some b → b.inum = 0 := by
  unfold freeSlot
  cases h : ents.findIdx? fun de => decide (de.inum = 0) with
  | none =>
    rw [List.findIdx?_eq_none_iff] at h
    refine ⟨fun j b _ hj => ?_, fun b hb => by simp at hb⟩
    simpa using h b (List.mem_of_getElem? hj)
  | some i =>
    obtain ⟨hi, hfree, hbefore⟩ := List.findIdx?_eq_some_iff_getElem.mp h
    refine ⟨fun j b hj hjb => ?_, fun b hb => ?_⟩
    · obtain ⟨hjlt, rfl⟩ := List.getElem?_eq_some_iff.mp hjb
      simpa using hbefore j hj
    · obtain ⟨-, rfl⟩ := List.getElem?_eq_some_iff.mp hb
      simpa using hfree

/-- After a write at a slot up to the last but one past, the slot holds the new
entry and every other slot what it held. -/
theorem getElem?_putEntry {ents : List dirent} {off : Nat} (de : dirent) (hoff : off ≤ ents.length)
    (i : Nat) : (putEntry ents off de)[i]? = if i = off then some de else ents[i]? := by
  unfold putEntry
  split
  · rename_i hlt
    rw [List.getElem?_set]
    by_cases hi : i = off
    · subst hi
      simp [hlt]
    · simp [hi, Ne.symm hi]
  · have heq : off = ents.length := by omega
    subst heq
    by_cases hi : i = ents.length
    · subst hi
      simp
    · rw [if_neg hi, List.getElem?_append]
      split
      · rfl
      · rename_i hge
        have hgt : ents.length < i := by omega
        simp [List.getElem?_eq_none (by omega : ents.length ≤ i),
          List.getElem?_eq_none (by simp; omega : [de].length ≤ i - ents.length)]

/-- A write keeps `Unique` when the new entry, if in use, agrees with no other
entry in use. -/
theorem unique_putEntry {ents : List dirent} {off : Nat} {de : dirent} (hu : Unique ents)
    (hoff : off ≤ ents.length)
    (hnew : de.inum ≠ 0 → ∀ (j : Nat) (b : dirent), ents[j]? = some b → j ≠ off → b.inum ≠ 0 →
      namecmp de.name b.name = false) :
    Unique (putEntry ents off de) := by
  intro i j a b hi hj hij ha hb
  rw [getElem?_putEntry de hoff] at hi hj
  by_cases hio : i = off <;> by_cases hjo : j = off
  · exact absurd (hio.trans hjo.symm) hij
  · rw [if_pos hio] at hi
    rw [if_neg hjo] at hj
    cases hi
    exact hnew ha j b hj hjo hb
  · rw [if_neg hio] at hi
    rw [if_pos hjo] at hj
    cases hj
    rw [namecmp_comm]
    exact hnew hb i a hi hio ha
  · rw [if_neg hio] at hi
    rw [if_neg hjo] at hj
    exact hu i j a b hi hj hij ha hb

/-- `dirlink`'s write, of a name no entry in use agrees with, keeps `Unique`. -/
theorem unique_link {ents : List dirent} {name : List Char} {inum : Nat} (hu : Unique ents)
    (hnone : findEntry name ents = none) :
    Unique (putEntry ents (freeSlot ents) ⟨inum, name.take DIRSIZ⟩) := by
  refine unique_putEntry hu (freeSlot_le ents) fun _ j b hj _ hb => ?_
  rw [namecmp_take]
  exact findEntry_eq_none_iff.mp hnone j b hj hb

/-- A clear keeps `Unique`. -/
theorem unique_clear {ents : List dirent} {off : Nat} (hu : Unique ents) (hoff : off ≤ ents.length) :
    Unique (putEntry ents off ⟨0, []⟩) :=
  unique_putEntry hu hoff fun h => absurd rfl h

/-- After `dirlink`'s write, a lookup of any name that agrees with the linked
one on `DIRSIZ` characters finds the new entry at its slot. -/
theorem findEntry_link {ents : List dirent} {name name' : List Char} {inum : Nat} (hu : Unique ents)
    (hnone : findEntry name ents = none) (hinum : inum ≠ 0)
    (hname : name'.take DIRSIZ = name.take DIRSIZ) :
    findEntry name' (putEntry ents (freeSlot ents) ⟨inum, name.take DIRSIZ⟩) =
      some (⟨inum, name.take DIRSIZ⟩, freeSlot ents) := by
  refine findEntry_of_unique (unique_link hu hnone) ?_ hinum ?_
  · rw [getElem?_putEntry _ (freeSlot_le ents), if_pos rfl]
  · rw [namecmp_iff, List.take_take, Nat.min_self]
    exact hname

/-! ## The calls -/

/-- The entries of the directory entry `dp` caches. -/
def entries (s : Sys ι) (dp : Fin NINODE) : List dirent :=
  (s.disk (s.icache dp).inum).dirents

section Calls

variable {s t : Sys ι} {dp : Fin NINODE}

/-- `dirlookup` in a directory: nothing found and nothing changed, or the entry
`findEntry` names, with an entry of the cache taken for its inode. -/
theorem dirlookup_cases {name : List Char} {r : Option (Fin NINODE × Nat)}
    (h : Runs (dirlookup dp name) s r t) :
    (s.icache dp).type = T_DIR ∧
      ((findEntry name (entries s dp) = none ∧ r = none ∧ t = s) ∨
        ∃ de off k, findEntry name (entries s dp) = some (de, off) ∧ r = some (k, off) ∧
          Runs (iget (s.icache dp).dev de.inum) s k t) := by
  simp only [dirlookup, runs_bind, runs_get] at h
  obtain ⟨_, _, ⟨rfl, rfl⟩, h⟩ := h
  split at h
  · simp at h
  · rename_i hdir
    refine ⟨by simpa using hdir, ?_⟩
    split at h
    · rename_i de off hde
      simp only [runs_bind, runs_pure] at h
      obtain ⟨k, t₁, hget, rfl, rfl⟩ := h
      exact Or.inr ⟨de, off, k, hde, rfl, hget⟩
    · rename_i hnone
      obtain ⟨rfl, rfl⟩ := (runs_pure _ _ _ _).mp h
      exact Or.inl ⟨hnone, rfl, rfl⟩

/-- `writei` of one entry: refused past one after the last entry or past
`MAXFILE` blocks, else written. -/
theorem writei_cases {de : dirent} {off : Nat} {r : Int} (h : Runs (writei dp de off) s r t) :
    (r = -1 ∧ t = s ∧ ((entries s dp).length < off ∨ MAXFILE * BSIZE < (off + 1) * DIRENTSZ)) ∨
      (r = DIRENTSZ ∧ off ≤ (entries s dp).length ∧ (off + 1) * DIRENTSZ ≤ MAXFILE * BSIZE ∧
        t = { s with
              disk := Function.update s.disk (s.icache dp).inum
                { s.disk (s.icache dp).inum with dirents := putEntry (entries s dp) off de } }) := by
  simp only [writei, runs_bind, runs_get] at h
  obtain ⟨_, _, ⟨rfl, rfl⟩, h⟩ := h
  split at h
  · rename_i hpast
    obtain ⟨rfl, rfl⟩ := (runs_pure _ _ _ _).mp h
    exact Or.inl ⟨rfl, rfl, Or.inl hpast⟩
  · split at h
    · rename_i hbig
      obtain ⟨rfl, rfl⟩ := (runs_pure _ _ _ _).mp h
      exact Or.inl ⟨rfl, rfl, Or.inr hbig⟩
    · rename_i hpast hbig
      simp only [setDisk, runs_bind, runs_modify, runs_pure] at h
      obtain ⟨_, _, rfl, rfl, rfl⟩ := h
      exact Or.inr ⟨rfl, Nat.le_of_not_lt hpast, Nat.le_of_not_lt hbig, rfl⟩

/-- `dirlink`: -1 when the name is there, with the reference its lookup took
given back; else 0 with its entry written at `freeSlot`, which must fit. -/
theorem dirlink_cases {name : List Char} {inum : Nat} {r : Int}
    (h : Runs (dirlink dp name inum) s r t) :
    (s.icache dp).type = T_DIR ∧
      ((∃ de off k u, findEntry name (entries s dp) = some (de, off) ∧
          Runs (iget (s.icache dp).dev de.inum) s k u ∧ Runs (iput k) u () t ∧ r = -1) ∨
       (findEntry name (entries s dp) = none ∧ r = 0 ∧
          (freeSlot (entries s dp) + 1) * DIRENTSZ ≤ MAXFILE * BSIZE ∧
          t = { s with
                disk := Function.update s.disk (s.icache dp).inum
                  { s.disk (s.icache dp).inum with
                    dirents := putEntry (entries s dp) (freeSlot (entries s dp))
                      ⟨inum, name.take DIRSIZ⟩ } })) := by
  simp only [dirlink, runs_bind] at h
  obtain ⟨found, t₁, hlook, h⟩ := h
  obtain ⟨hdir, hfound⟩ := dirlookup_cases hlook
  refine ⟨hdir, ?_⟩
  split at h
  · -- the name is there
    rename_i ip off
    rcases hfound with ⟨-, hr, -⟩ | ⟨de, off', k, hde, hr, hget⟩
    · cases hr
    · simp only [Option.some.injEq, Prod.mk.injEq] at hr
      obtain ⟨rfl, rfl⟩ := hr
      simp only [runs_bind, runs_pure] at h
      obtain ⟨_, t₂, hput, rfl, rfl⟩ := h
      exact Or.inl ⟨de, off, ip, t₁, hde, hget, hput, rfl⟩
  · rcases hfound with ⟨hnone, -, rfl⟩ | ⟨de, off', k, -, hr, -⟩
    · simp only [runs_bind, runs_get] at h
      obtain ⟨_, _, ⟨rfl, rfl⟩, r', t₂, hw, h⟩ := h
      split at h
      · simp at h
      · rename_i hr'
        obtain ⟨rfl, rfl⟩ := (runs_pure _ _ _ _).mp h
        rcases writei_cases hw with ⟨rfl, -, -⟩ | ⟨-, -, hfit, rfl⟩
        · simp [DIRENTSZ] at hr'
        · exact Or.inr ⟨hnone, rfl, hfit, rfl⟩
    · cases hr

/-- A lookup's entry taken and given back, from a directory entry in use: the
directory keeps its cache entry, its reference and its entries, and entries in
use stay distinct. A freed inode is not the directory's, which is still held. -/
theorem frame_iget_iput (hu : Uniq s) (hdp : 0 < (s.icache dp).ref) {x : Nat} {k : Fin NINODE}
    {u : Sys ι} {a : Unit} (hget : Runs (iget (s.icache dp).dev x) s k u) (hput : Runs (iput k) u a t) :
    Uniq t ∧ 0 < (t.icache dp).ref ∧ (t.icache dp).inum = (s.icache dp).inum ∧
      entries t dp = entries s dp := by
  obtain ⟨h₁, hdevk, -⟩ := iget_spec hget
  have hu₁ : Uniq u := h₁.uniq hu
  have hk : 0 < (u.icache k).ref := h₁.pos (by simp)
  have h₂ := iput_spec hk hput
  -- the directory's cache entry after `iget`: the same inode, and one more
  -- reference if it was the one taken
  have hsame₁ : (u.icache dp).inum = (s.icache dp).inum ∧ (u.icache dp).dev = (s.icache dp).dev ∧
      u.disk = s.disk := by
    obtain ⟨hdisk, ⟨-, -, -, hc⟩ | ⟨hk0, -, hc⟩⟩ := iget_cases hget
    · rw [hc]
      by_cases hdk : dp = k
      · subst hdk
        simp [hdisk]
      · simp [Function.update_of_ne hdk, hdisk]
    · have hdk : dp ≠ k := fun e => by rw [e, hk0] at hdp; exact absurd hdp (Nat.lt_irrefl 0)
      rw [hc]
      simp [Function.update_of_ne hdk, hdisk]
  have e₁ := h₁.refs dp
  have e₂ := h₂.refs dp
  refine ⟨h₂.uniq hu₁, ?_, ?_⟩
  · by_cases hdk : dp = k
    · subst hdk
      simp at e₁ e₂
      omega
    · simp [hdk] at e₁ e₂
      omega
  · rcases iput_cases hput with ⟨hd, hc⟩ | ⟨h1, hold, -, -, -, hdisk⟩
    · -- only the reference changed
      have hinum : (t.icache dp).inum = (u.icache dp).inum := by
        rw [hc]
        by_cases hdk : dp = k
        · subst hdk
          simp
        · simp [Function.update_of_ne hdk]
      refine ⟨hinum.trans hsame₁.1, ?_⟩
      unfold entries
      rw [hinum, hd, hsame₁.1, hsame₁.2.2]
    · -- the entry taken is freed: it is not the directory's, which holds one more
      have hdk : dp ≠ k := fun e => by
        subst e
        simp at e₁
        omega
      have hx : (u.icache dp).inum ≠ (u.icache k).inum := fun e =>
        hdk (hu₁ dp k (by simp at e₁; omega) hk (hsame₁.2.1.trans hdevk.symm) e)
      refine ⟨by rw [hold dp hdk, hsame₁.1], ?_⟩
      unfold entries
      rw [hold dp hdk, hdisk _ hx, hsame₁.1, hsame₁.2.2]

/-- A lookup that finds nothing changes nothing. -/
theorem runs_dirlookup_none {name : List Char} (hdir : (s.icache dp).type = T_DIR)
    (hnone : findEntry name (entries s dp) = none) : Runs (dirlookup dp name) s none s := by
  simp only [dirlookup, runs_bind, runs_get]
  refine ⟨s, s, ⟨rfl, rfl⟩, ?_⟩
  rw [if_neg (by simp [hdir])]
  split
  · rename_i de off hde
    exact absurd (hnone.symm.trans hde) (by simp)
  · exact (runs_pure _ _ _ _).mpr ⟨rfl, rfl⟩

/-- `writei` refuses an entry past `MAXFILE` blocks. -/
theorem runs_writei_big {de : dirent} {off : Nat} (hbig : MAXFILE * BSIZE < (off + 1) * DIRENTSZ) :
    Runs (writei dp de off) s (-1) s := by
  simp only [writei, runs_bind, runs_get]
  refine ⟨s, s, ⟨rfl, rfl⟩, ?_⟩
  split <;> exact (runs_pure _ _ _ _).mpr ⟨rfl, rfl⟩

/-- The entries after a write to the directory's inode. -/
@[simp] theorem entries_setDirents (ents : List dirent) :
    entries { s with
              disk := Function.update s.disk (s.icache dp).inum
                { s.disk (s.icache dp).inum with dirents := ents } } dp = ents := by
  simp [entries]

end Calls

/-! ## Sequences of links and clears -/

/-- The writes to a directory's entries: `dirlink`, and the clear of the entry
at a slot, as `sys_unlink` writes it. -/
inductive DirOp where
  | link (name : List Char) (inum : Nat)
  | clear (off : Nat)

/-- The code of one write to directory `dp`. -/
def DirOp.run (dp : Fin NINODE) : DirOp → FsM ι Int
  | .link name inum => dirlink dp name inum
  | .clear off => writei dp ⟨0, []⟩ off

/-- The writes one after another, their results dropped. -/
def runOps (dp : Fin NINODE) : List DirOp → FsM ι Unit
  | [] => pure ()
  | op :: ops => do
    let _ ← op.run dp
    runOps dp ops

/-- What the writes keep: the entries in use in the cache distinct, `dp` held
and caching the inode `x`, and that inode's entries `Unique`. -/
structure DirInv (x : Nat) (s : Sys ι) (dp : Fin NINODE) : Prop where
  uniq : Uniq s
  held : 0 < (s.icache dp).ref
  inum : (s.icache dp).inum = x
  unique : Unique (entries s dp)

section Ops

variable {x : Nat} {s t : Sys ι} {dp : Fin NINODE}

/-- One write keeps `DirInv`. -/
theorem DirInv.step (hi : DirInv x s dp) {op : DirOp} {r : Int} (h : Runs (op.run dp) s r t) :
    DirInv x t dp := by
  cases op with
  | link name inum =>
    obtain ⟨-, ⟨de, off, k, u, -, hget, hput, -⟩ | ⟨hnone, -, -, rfl⟩⟩ := dirlink_cases h
    · -- the name was there: only the lookup's reference moved
      obtain ⟨hu, hheld, hinum, hents⟩ := frame_iget_iput hi.uniq hi.held hget hput
      exact ⟨hu, hheld, hinum.trans hi.inum, by rw [hents]; exact hi.unique⟩
    · exact ⟨hi.uniq, hi.held, hi.inum, by rw [entries_setDirents]; exact unique_link hi.unique hnone⟩
  | clear off =>
    rcases writei_cases h with ⟨-, rfl, -⟩ | ⟨-, hoff, -, rfl⟩
    · exact hi
    · exact ⟨hi.uniq, hi.held, hi.inum, by rw [entries_setDirents]; exact unique_clear hi.unique hoff⟩

/-- Any sequence of links and clears keeps `DirInv`: the entries in use keep
distinct names. -/
theorem DirInv.runOps (hi : DirInv x s dp) {ops : List DirOp} {a : Unit}
    (h : Runs (runOps dp ops) s a t) : DirInv x t dp := by
  induction ops generalizing s with
  | nil =>
    obtain ⟨-, rfl⟩ := (runs_pure _ _ _ _).mp h
    exact hi
  | cons op ops ih =>
    simp only [Fs.runOps, runs_bind] at h
    obtain ⟨_, u, hop, h⟩ := h
    exact ih (hi.step hop) h

/-- After `dirlink` returns 0, `dirlookup` of any name that agrees with the
linked one on `DIRSIZ` characters finds the new entry at its slot, and returns
an entry of the cache for the linked inode. -/
theorem dirlookup_after_link (hi : DirInv x s dp) {name name' : List Char} {inum : Nat}
    {u : Sys ι} {r : Option (Fin NINODE × Nat)} (hinum : inum ≠ 0)
    (hname : name'.take DIRSIZ = name.take DIRSIZ) (hlink : Runs (dirlink dp name inum) s 0 t)
    (hlook : Runs (dirlookup dp name') t r u) :
    ∃ k, r = some (k, freeSlot (entries s dp)) ∧ (u.icache k).inum = inum := by
  obtain ⟨-, ⟨-, -, -, -, -, -, -, hr⟩ | ⟨hnone, -, -, rfl⟩⟩ := dirlink_cases hlink
  · cases hr
  · have hfind := findEntry_link hi.unique hnone hinum hname
    obtain ⟨-, ⟨hno, -, -⟩ | ⟨de, off, k, hde, rfl, hget⟩⟩ := dirlookup_cases hlook
    · rw [entries_setDirents, hfind] at hno
      cases hno
    · rw [entries_setDirents, hfind] at hde
      simp only [Option.some.injEq, Prod.mk.injEq] at hde
      obtain ⟨rfl, rfl⟩ := hde
      exact ⟨k, rfl, (iget_spec hget).2.2⟩

end Ops

/-! ## A full directory -/

theorem dirlink_full (s : Sys ι) (dp : Fin NINODE) (name : List Char) (inum : Nat)
    (hdir : (s.icache dp).type = T_DIR)
    (hused : ∀ (i : Nat) (a : dirent), (entries s dp)[i]? = some a → a.inum ≠ 0)
    (hlen : (entries s dp).length * DIRENTSZ = MAXFILE * BSIZE)
    (hnew : findEntry name (entries s dp) = none) :
    (dirlink dp name inum).run s = .error "dirlink" := by
  -- no slot is free, so the entry goes one past the last, where it does not fit
  have hslot : freeSlot (entries s dp) = (entries s dp).length := by
    have hle := freeSlot_le (entries s dp)
    by_contra hne
    obtain ⟨b, hb⟩ : ∃ b, (entries s dp)[freeSlot (entries s dp)]? = some b :=
      Option.isSome_iff_exists.mp (by simp; omega)
    exact hused _ b hb ((freeSlot_spec _).2 b hb)
  have hbig : MAXFILE * BSIZE < (freeSlot (entries s dp) + 1) * DIRENTSZ := by
    rw [hslot, Nat.succ_mul, hlen]
    simp [DIRENTSZ]
  unfold dirlink
  rw [run_bind_of_runs (runs_dirlookup_none hdir hnew)]
  rw [run_bind_of_runs ((runs_get s s s).mpr ⟨rfl, rfl⟩)]
  dsimp only
  rw [show (s.disk (s.icache dp).inum).dirents = entries s dp from rfl,
    show ((entries s dp).findIdx? fun de => decide (de.inum = 0)).getD (entries s dp).length =
      freeSlot (entries s dp) from rfl]
  rw [run_bind_of_runs (runs_writei_big hbig)]
  -- -1 is not `sizeof(de)`: the panic
  simp only [DIRENTSZ, ne_eq, Int.reduceNeg, reduceCtorEq, not_false_eq_true, if_true]
  rfl

/-! ## A directory that `link()` fills -/

/-- Decimal names of numbers below `10^4` fit in `DIRSIZ` characters, so
`namecmp` tells them apart. -/
theorem namecmp_toDigits_iff {k k' : Nat} (hk : k < 10 ^ 4) (hk' : k' < 10 ^ 4) :
    namecmp (Nat.toDigits 10 k) (Nat.toDigits 10 k') = true ↔ k = k' := by
  have hl : ∀ n, n < 10 ^ 4 → (Nat.toDigits 10 n).take DIRSIZ = Nat.toDigits 10 n := fun n hn =>
    List.take_of_length_le (((Nat.length_toDigits_le_iff (by decide) (by decide)).mpr hn).trans (by decide))
  rw [namecmp_iff, hl k hk, hl k' hk']
  constructor
  · -- the digits give the number back
    intro h
    rw [← Nat.ofDigitChars_ten_toDigits (n := k), h, Nat.ofDigitChars_ten_toDigits]
  · rintro rfl
    rfl

/-- A name that starts with no digit is no decimal name. -/
theorem namecmp_toDigits_eq_false {c : Char} (n : List Char) (hc : c.isDigit = false) (k : Nat) :
    namecmp (c :: n) (Nat.toDigits 10 k) = false := by
  rw [Bool.eq_false_iff, ne_eq, namecmp_iff]
  intro h
  obtain ⟨d, ds, hd⟩ := List.exists_cons_of_ne_nil (Nat.toDigits_ne_nil (n := k) (b := 10))
  have hdig : d.isDigit = true :=
    Nat.isDigit_of_mem_toDigits (by decide) (by decide) (hd ▸ List.mem_cons_self)
  rw [hd] at h
  simp only [DIRSIZ, List.take_succ_cons, List.cons.injEq] at h
  rw [← h.1, hc] at hdig
  cases hdig

/-- The root directory after 4478 calls of `link()` of inode 2: `.` and `..`,
then an entry under each name `0`, `1`, ..., `4477`. -/
def fullRoot : List dirent :=
  ⟨ROOTINO, ['.']⟩ :: ⟨ROOTINO, ['.', '.']⟩ :: (List.range 4478).map fun k => ⟨2, Nat.toDigits 10 k⟩

theorem fullRoot_getElem? {i : Nat} {a : dirent} (h : fullRoot[i]? = some a) :
    (i = 0 ∧ a = ⟨ROOTINO, ['.']⟩) ∨ (i = 1 ∧ a = ⟨ROOTINO, ['.', '.']⟩) ∨
      ∃ k < 4478, i = k + 2 ∧ a = ⟨2, Nat.toDigits 10 k⟩ := by
  rcases i with _ | _ | k
  · simp only [fullRoot, List.getElem?_cons_zero, Option.some.injEq] at h
    exact .inl ⟨rfl, h.symm⟩
  · simp only [fullRoot, List.getElem?_cons_succ, List.getElem?_cons_zero, Option.some.injEq] at h
    exact .inr (.inl ⟨rfl, h.symm⟩)
  · simp only [fullRoot, List.getElem?_cons_succ, List.getElem?_map] at h
    by_cases hk : k < 4478
    · rw [List.getElem?_range hk, Option.map_some, Option.some.injEq] at h
      exact .inr (.inr ⟨k, hk, rfl, h.symm⟩)
    · rw [List.getElem?_eq_none (by simp only [List.length_range]; omega), Option.map_none] at h
      cases h

/-- The names of `fullRoot` are distinct, as `dirlink` keeps them. -/
theorem unique_fullRoot : Unique fullRoot := by
  intro i j a b ha hb hij _ _
  have hdot : ∀ k, namecmp ['.'] (Nat.toDigits 10 k) = false := namecmp_toDigits_eq_false [] rfl
  have hdotdot : ∀ k, namecmp ['.', '.'] (Nat.toDigits 10 k) = false := namecmp_toDigits_eq_false ['.'] rfl
  rcases fullRoot_getElem? ha with ⟨rfl, rfl⟩ | ⟨rfl, rfl⟩ | ⟨k, hk, rfl, rfl⟩ <;>
    rcases fullRoot_getElem? hb with ⟨rfl, rfl⟩ | ⟨rfl, rfl⟩ | ⟨k', hk', rfl, rfl⟩
  -- `.` against each entry
  · exact absurd rfl hij
  · rfl
  · exact hdot k'
  -- `..` against each entry
  · rfl
  · exact absurd rfl hij
  · exact hdotdot k'
  -- a decimal name against each entry
  · rw [namecmp_comm]
    exact hdot k
  · rw [namecmp_comm]
    exact hdotdot k
  · rw [Bool.eq_false_iff, ne_eq, namecmp_toDigits_iff (by omega) (by omega)]
    omega

/-- The file system with `fullRoot` as its root directory, held locked in the
first entry of the cache. -/
def fullRootSys : Sys Unit :=
  { init 0 (fun x => if x = ROOTINO then ⟨T_DIR, 0, 0, 1, fullRoot⟩ else ⟨0, 0, 0, 0, []⟩) () with
    icache := Function.update (fun _ => ⟨0, 0, 0, false, 0, 0, 0, 0⟩) 0
      ⟨Xv6.Bio.ROOTDEV, ROOTINO, 1, true, T_DIR, 0, 0, 1⟩ }

/-- The root directory that 4478 `link()` calls have filled to `MAXFILE * BSIZE`
bytes: the next `link()`, of name `4478`, panics in `dirlink`. -/
theorem dirlink_full_root :
    Unique fullRoot ∧ (dirlink (0 : Fin NINODE) (Nat.toDigits 10 4478) 2).run fullRootSys = .error "dirlink" := by
  refine ⟨unique_fullRoot, ?_⟩
  have hents : entries fullRootSys (0 : Fin NINODE) = fullRoot := rfl
  apply dirlink_full
  · rfl
  · -- every entry is in use
    intro i a h
    rw [hents] at h
    rcases fullRoot_getElem? h with ⟨-, rfl⟩ | ⟨-, rfl⟩ | ⟨k, -, -, rfl⟩ <;> simp [ROOTINO]
  · rw [hents]
    simp only [fullRoot, List.length_cons, List.length_map, List.length_range]
    rfl
  · -- no entry has the new name
    rw [findEntry_eq_none_iff, hents]
    intro i a h _
    rcases fullRoot_getElem? h with ⟨-, rfl⟩ | ⟨-, rfl⟩ | ⟨k, hk, -, rfl⟩
    · rw [namecmp_comm]
      exact namecmp_toDigits_eq_false [] rfl _
    · rw [namecmp_comm]
      exact namecmp_toDigits_eq_false ['.'] rfl _
    · rw [Bool.eq_false_iff, ne_eq, namecmp_toDigits_iff (by omega) (by omega)]
      omega

end Xv6.Fs
