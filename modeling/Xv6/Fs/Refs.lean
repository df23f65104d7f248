/-
Who holds each reference of the file table and of the inode cache.

A file's `ref` counts the descriptors that name it in the processes' open
files. An entry of the inode cache counts the open inode files on it and the
processes whose current directory it is. Between two system calls nothing else
holds a reference: every call gives back, along each of its paths, what it took
and did not store (`Xv6.Fs.Calls` for the calls that store nothing).

Within a call the counts and their holders part for a while. `filealloc` takes
a file's reference before `fdalloc` gives it a descriptor, and `exit` drops its
directory's reference while the process is still in the table. `Ledger` keeps
the books across those moments: besides what the tables hold, it records the
references taken that no holder shows yet (`pf`, `pk`) and the holders whose
reference was already given back (`qf`, `qk`). Each function moves entries of
the books (`Ledger.setFile`, `Ledger.setProc`, `Ledger.inner`), and a call that
ends with both sides equal keeps `RefInv`, the books with nothing outstanding.
Processes are counted over a finite set `L` that holds every live one, since
the process table has no bound of its own; `fork` adds its child to it.
-/
import Xv6.Fs.Calls
import Xv6.Lib.Update
import Mathlib.Algebra.Order.BigOperators.Group.Finset
import Mathlib.Algebra.BigOperators.Fin

set_option autoImplicit false

namespace Xv6.Fs

open StateExcept TransitionSystem

variable {ι : Type}

/-! ## Holders -/

/-- The inode reference file `x` holds: one, on its inode, if it is an inode file. -/
def file.held (x : file) : Multiset (Fin NINODE) :=
  if x.type = .FD_INODE then {x.ip} else 0

/-- The files the descriptors of `p` name, one for each descriptor. -/
def proc.fds (p : proc) : Multiset (Fin NFILE) :=
  ∑ fd, ((p.ofile fd).toList : Multiset (Fin NFILE))

/-- The inode reference `p` holds as its current directory. -/
def proc.dir (p : proc) : Multiset (Fin NINODE) := {p.cwd}

/-- What the files of the table hold. -/
def fileHolds (ftable : Fin NFILE → file) : Multiset (Fin NINODE) :=
  ∑ f, (ftable f).held

/-- What the processes of `L` hold, each process `p` holding `c p`. -/
def procHolds {α : Type} (L : Finset ι) (ptable : ι → Option proc) (c : proc → Multiset α) :
    Multiset α :=
  ∑ i ∈ L, (ptable i).elim 0 c

theorem fileHolds_update (ftable : Fin NFILE → file) (f : Fin NFILE) (x : file) :
    fileHolds (Function.update ftable f x) + (ftable f).held = fileHolds ftable + x.held :=
  Function.sum_update_add_of_mem file.held ftable (Finset.mem_univ f) x

theorem procHolds_update [DecidableEq ι] {α : Type} {L : Finset ι} (ptable : ι → Option proc) {i : ι} (hi : i ∈ L)
    (o : Option proc) (c : proc → Multiset α) :
    procHolds L (Function.update ptable i o) c + (ptable i).elim 0 c =
      procHolds L ptable c + o.elim 0 c :=
  Function.sum_update_add_of_mem (fun o => o.elim 0 c) ptable hi o

/-- A free slot holds nothing, whether or not it is counted. -/
theorem procHolds_insert [DecidableEq ι] {α : Type} {L : Finset ι} {ptable : ι → Option proc} {j : ι}
    (hj : ptable j = none) (c : proc → Multiset α) :
    procHolds (insert j L) ptable c = procHolds L ptable c := by
  by_cases hjL : j ∈ L
  · rw [Finset.insert_eq_of_mem hjL]
  · rw [procHolds, Finset.sum_insert hjL, hj, Option.elim_none, zero_add]
    rfl

theorem le_procHolds {α : Type} {L : Finset ι} {ptable : ι → Option proc} {i : ι} {p : proc}
    (hi : i ∈ L) (hp : ptable i = some p) (c : proc → Multiset α) : c p ≤ procHolds L ptable c := by
  have := Finset.single_le_sum (f := fun i => (ptable i).elim 0 c) (fun _ _ => zero_le) hi
  simpa [procHolds, hp] using this

/-- Rewriting descriptor `d` moves the files `p` names by that descriptor's file alone. -/
theorem proc.fds_update (p : proc) (d : Fin NOFILE) (o : Option (Fin NFILE)) :
    ({ p with ofile := Function.update p.ofile d o } : proc).fds + ((p.ofile d).toList : Multiset _) =
      p.fds + (o.toList : Multiset _) :=
  Function.sum_update_add_of_mem (fun o => (o.toList : Multiset (Fin NFILE))) p.ofile
    (Finset.mem_univ d) o

/-! ## The books -/

/-- The books of the references from `L`'s processes, while a call runs. Each
file's references and the descriptors naming it agree once `pf`, the references
taken for no descriptor yet, and `qf`, the descriptors whose reference is given
back, are added; each inode's, with the open files and current directories on
it, once `pk` and `qk` are. A free file is no inode file, and the entries in use
cache distinct inodes. -/
structure Ledger (L : Finset ι) (s : Sys ι) (pf qf : Multiset (Fin NFILE))
    (pk qk : Multiset (Fin NINODE)) : Prop where
  live : ∀ i, (s.ptable i).isSome → i ∈ L
  uniq : Uniq s
  free : ∀ f, (s.ftable f).ref = 0 → (s.ftable f).type = .FD_NONE
  files : ∀ f, (s.ftable f).ref + qf.count f = (procHolds L s.ptable proc.fds).count f + pf.count f
  inodes : ∀ k, (s.icache k).ref + qk.count k =
    (fileHolds s.ftable + procHolds L s.ptable proc.dir).count k + pk.count k

/-- Between calls: every reference is held, by a descriptor, an open file or a
current directory. -/
def RefInv (L : Finset ι) (s : Sys ι) : Prop :=
  Ledger L s 0 0 0 0

variable {L : Finset ι} {s t : Sys ι} {pf qf : Multiset (Fin NFILE)} {pk qk : Multiset (Fin NINODE)}

namespace Ledger

/-- The books balance alike when the same references are added to both sides. -/
theorem congr (h : Ledger L s pf qf pk qk) {pf' qf' : Multiset (Fin NFILE)}
    {pk' qk' : Multiset (Fin NINODE)} (hf : pf' + qf = pf + qf') (hk : pk' + qk = pk + qk') :
    Ledger L s pf' qf' pk' qk' where
  live := h.live
  uniq := h.uniq
  free := h.free
  files f := by
    have h₁ := h.files f
    have h₂ := congrArg (Multiset.count f) hf
    simp only [Multiset.count_add] at h₂
    omega
  inodes k := by
    have h₁ := h.inodes k
    have h₂ := congrArg (Multiset.count k) hk
    simp only [Multiset.count_add] at h₁ h₂ ⊢
    omega

/-- A call whose books end with both sides equal keeps the invariant. -/
theorem done (h : Ledger L s pf qf pk qk) (hf : pf = qf) (hk : pk = qk) : RefInv L s :=
  h.congr (by simp [hf]) (by simp [hk])

theorem mem (h : Ledger L s pf qf pk qk) {i : ι} {p : proc} (hp : s.ptable i = some p) : i ∈ L :=
  h.live i (by simp [hp])

/-- An entry with more holders and taken references than given-back ones is in use. -/
theorem pos (h : Ledger L s pf qf pk qk) {k : Fin NINODE}
    (hk : qk.count k < (fileHolds s.ftable + procHolds L s.ptable proc.dir).count k + pk.count k) :
    0 < (s.icache k).ref := by
  have := h.inodes k
  omega

/-- The current directory of a live process is in use, while no reference is
given back ahead of its holder. -/
theorem cwd_pos (h : Ledger L s pf qf pk qk) (hq : qk ≤ pk) {i : ι} {p : proc}
    (hp : s.ptable i = some p) : 0 < (s.icache p.cwd).ref := by
  have hdir := Multiset.count_le_of_le p.cwd (le_procHolds (h.mem hp) hp proc.dir)
  have hq' := Multiset.count_le_of_le p.cwd hq
  refine h.pos ?_
  simp only [proc.dir, Multiset.count_singleton_self, Multiset.count_add] at hdir ⊢
  omega

/-- The inode step `Inner` moves the inode side of the books by what it takes
and gives back. -/
theorem inner (h : Ledger L s pf qf pk qk) {inc dec : Multiset (Fin NINODE)}
    (hi : Inner s t inc dec) : Ledger L t pf qf (pk + inc) (qk + dec) where
  live := by rw [hi.ptable]; exact h.live
  uniq := hi.uniq h.uniq
  free := by rw [hi.ftable]; exact h.free
  files := by rw [hi.ftable, hi.ptable]; exact h.files
  inodes k := by
    have h₁ := hi.refs k
    have h₂ := h.inodes k
    rw [hi.ftable, hi.ptable]
    simp only [Multiset.count_add] at h₂ ⊢
    omega

/-- Rewriting file `f`: its old references and what it held go to one side, its
new ones and what it holds to the other. -/
theorem setFile (h : Ledger L s pf qf pk qk) (f : Fin NFILE) (x : file)
    (hx : x.ref = 0 → x.type = .FD_NONE) :
    Ledger L { s with ftable := Function.update s.ftable f x } (pf + .replicate x.ref f)
      (qf + .replicate (s.ftable f).ref f) (pk + (s.ftable f).held) (qk + x.held) where
  live := h.live
  uniq := h.uniq
  free g := by
    by_cases hg : g = f
    · subst hg
      simpa using hx
    · simpa [Function.update_of_ne hg] using h.free g
  files g := by
    have h₁ := h.files g
    by_cases hg : g = f
    · subst hg
      simp only [Function.update_self, Multiset.count_add, Multiset.count_replicate_self]
      omega
    · simp only [Function.update_of_ne hg, Multiset.count_add, Multiset.count_replicate,
        if_neg (Ne.symm hg)]
      omega
  inodes k := by
    have h₁ := h.inodes k
    have h₂ := congrArg (Multiset.count k) (fileHolds_update s.ftable f x)
    simp only [Multiset.count_add] at h₁ h₂ ⊢
    omega

variable [DecidableEq ι]

/-- Rewriting the slot of a counted process: what the old process held goes to
one side, what the new one holds to the other. -/
theorem setProc (h : Ledger L s pf qf pk qk) {i : ι} (hi : i ∈ L) (o : Option proc) :
    Ledger L { s with ptable := Function.update s.ptable i o } (pf + (s.ptable i).elim 0 proc.fds)
      (qf + o.elim 0 proc.fds) (pk + (s.ptable i).elim 0 proc.dir) (qk + o.elim 0 proc.dir) where
  live j hj := by
    by_cases hji : j = i
    · exact hji ▸ hi
    · exact h.live j (by simpa [Function.update_of_ne hji] using hj)
  uniq := h.uniq
  free := h.free
  files f := by
    have h₁ := h.files f
    have h₂ := congrArg (Multiset.count f) (procHolds_update s.ptable hi o proc.fds)
    simp only [Multiset.count_add] at h₂ ⊢
    omega
  inodes k := by
    have h₁ := h.inodes k
    have h₂ := congrArg (Multiset.count k) (procHolds_update s.ptable hi o proc.dir)
    simp only [Multiset.count_add] at h₁ h₂ ⊢
    omega

/-- Counting a free slot too changes nothing. -/
theorem insert (h : Ledger L s pf qf pk qk) {j : ι} (hj : s.ptable j = none) :
    Ledger (insert j L) s pf qf pk qk where
  live i hi := Finset.mem_insert_of_mem (h.live i hi)
  uniq := h.uniq
  free := h.free
  files := by simpa only [procHolds_insert hj] using h.files
  inodes := by simpa only [procHolds_insert hj] using h.inodes

end Ledger

namespace RefInv

/-- The current directory of a live process is in use. -/
theorem hcwd (h : RefInv L s) (i : ι) : ∀ p, s.ptable i = some p → 0 < (s.icache p.cwd).ref :=
  fun _ hp => Ledger.cwd_pos h le_rfl hp

/-- A call that moves no inode reference and touches neither the files nor the
processes keeps the invariant. -/
theorem of_inner (h : RefInv L s) (hi : Inner s t 0 0) : RefInv L t :=
  (Ledger.inner h hi).done rfl rfl

end RefInv

/-! ## Files -/

@[simp] theorem runs_setFile (f : Fin NFILE) (g : file → file) (a : Unit) :
    Runs (setFile f g : FsM ι Unit) s a t ↔
      t = { s with ftable := Function.update s.ftable f (g (s.ftable f)) } := by
  simp [setFile]

theorem argfd_none {i : ι} {fd : Int} (h : Runs (argfd i fd) s none t) : t = s := by
  simp only [argfd, runs_bind] at h
  obtain ⟨p, _, hp, h⟩ := h
  obtain ⟨rfl, -⟩ := getproc_spec hp
  split at h <;> exact ((runs_pure _ _ _ _).mp h).2.symm

/-- `argfd` finds the file an open descriptor of the caller names. -/
theorem argfd_some {i : ι} {fd : Int} {d : Fin NOFILE} {f : Fin NFILE}
    (h : Runs (argfd i fd) s (some (d, f)) t) : t = s ∧ ∃ p, s.ptable i = some p ∧ p.ofile d = some f := by
  simp only [argfd, runs_bind] at h
  obtain ⟨p, _, hp, h⟩ := h
  obtain ⟨rfl, hpi⟩ := getproc_spec hp
  split at h
  · obtain ⟨hd, rfl⟩ := (runs_pure _ _ _ _).mp h
    obtain ⟨f', hf', heq⟩ := Option.map_eq_some_iff.mp hd.symm
    obtain ⟨rfl, rfl⟩ := Prod.mk.inj heq
    exact ⟨rfl, p, hpi, hf'⟩
  · simp at h

theorem filealloc_none (h : Runs filealloc s none t) : t = s := by
  simp only [filealloc, runs_bind, runs_get] at h
  obtain ⟨_, _, ⟨rfl, rfl⟩, h⟩ := h
  split at h
  · simp at h
  · exact ((runs_pure _ _ _ _).mp h).2.symm

/-- `filealloc` hands out a free file, with one reference. -/
theorem filealloc_some {f : Fin NFILE} (h : Runs filealloc s (some f) t) :
    (s.ftable f).ref = 0 ∧
      t = { s with ftable := Function.update s.ftable f { s.ftable f with ref := 1 } } := by
  simp only [filealloc, runs_bind, runs_get] at h
  obtain ⟨_, _, ⟨rfl, rfl⟩, h⟩ := h
  split at h
  · rename_i f' hf'
    simp only [runs_bind, runs_setFile, runs_pure, Option.some.injEq] at h
    obtain ⟨_, _, rfl, rfl, rfl⟩ := h
    simpa using List.find?_some hf'
  · simp at h

/-- `filedup` adds a reference to an open file. -/
theorem filedup_spec {f : Fin NFILE} {a : Unit} (h : Runs (filedup f) s a t) :
    0 < (s.ftable f).ref ∧ t = { s with ftable := (Function.update s.ftable f
      { s.ftable f with ref := (s.ftable f).ref + 1 }) } := by
  simp only [filedup, runs_bind, runs_get] at h
  obtain ⟨_, _, ⟨rfl, rfl⟩, h⟩ := h
  split at h
  · simp at h
  · exact ⟨by omega, (runs_setFile _ _ _).mp h⟩

namespace Ledger

/-- A file from `filealloc` is a reference taken for no descriptor yet. -/
theorem filealloc (h : Ledger L s pf qf pk qk) {f : Fin NFILE} (hr : Runs filealloc s (some f) t) :
    Ledger L t (pf + {f}) qf pk qk ∧ (t.ftable f).held = 0 ∧ (t.ftable f).ref = 1 := by
  obtain ⟨hfree, rfl⟩ := filealloc_some hr
  have hnone := h.free f hfree
  have hheld : (s.ftable f).held = 0 := by simp [file.held, hnone]
  refine ⟨(h.setFile f _ (by simp)).congr ?_ ?_, by simp [file.held, hnone], by simp⟩
  · simp [hfree]
  · simp [file.held, hnone]

/-- `filedup` takes a reference for no descriptor yet. -/
theorem filedup (h : Ledger L s pf qf pk qk) {f : Fin NFILE} {a : Unit}
    (hr : Runs (Xv6.Fs.filedup f) s a t) : Ledger L t (pf + {f}) qf pk qk ∧ t.ptable = s.ptable := by
  obtain ⟨hpos, rfl⟩ := filedup_spec hr
  refine ⟨(h.setFile f _ (by simp)).congr ?_ ?_, rfl⟩
  · simp only [Multiset.replicate_add, Multiset.replicate_one]
    abel
  · simp only [file.held]
    abel

/-- `fileclose` gives back a reference of a file; the last one gives back the
inode of an inode file too. -/
theorem fileclose (h : Ledger L s pf qf pk qk) (hq : qk ≤ pk) {f : Fin NFILE} {a : Unit}
    (hr : Runs (Xv6.Fs.fileclose f) s a t) : Ledger L t pf (qf + {f}) pk qk ∧ t.ptable = s.ptable := by
  simp only [Xv6.Fs.fileclose, runs_bind, runs_get] at hr
  obtain ⟨_, _, ⟨rfl, rfl⟩, hr⟩ := hr
  split at hr
  · simp at hr
  obtain ⟨n, hn⟩ : ∃ n, (s.ftable f).ref = n + 1 := ⟨_, (Nat.succ_pred_eq_of_pos (by omega)).symm⟩
  split at hr
  · -- references remain: one fewer
    rw [runs_setFile] at hr
    subst hr
    refine ⟨(h.setFile f _ fun h0 => by simp at h0; omega).congr ?_ ?_, rfl⟩
    · simp only [hn, Nat.add_sub_cancel, Multiset.replicate_add, Multiset.replicate_one]
      abel
    · simp only [file.held]
      abel
  -- the last reference: the file is free again
  simp only [runs_bind, runs_setFile] at hr
  obtain ⟨_, _, rfl, hr⟩ := hr
  have hn0 : n = 0 := by omega
  have h₁ := h.setFile f { s.ftable f with ref := 0, type := .FD_NONE } fun _ => rfl
  split at hr
  · -- an inode file gives back its inode
    rename_i hino
    have hip := Multiset.count_le_of_le (s.ftable f).ip hq
    have hpos := h₁.pos (k := (s.ftable f).ip) (by simp [file.held, hino]; omega)
    have hput := iput_spec hpos hr
    refine ⟨(h₁.inner hput).congr ?_ ?_, hput.ptable⟩
    · simp [hn, hn0]
    · simp only [file.held, hino, if_true]
      simp
      abel
  · obtain ⟨-, rfl⟩ := (runs_pure _ _ _ _).mp hr
    rename_i hino
    refine ⟨h₁.congr ?_ ?_, rfl⟩
    · simp [hn, hn0]
    · simp [file.held, hino]

/-- `fork`'s loop takes one reference on the file of each open descriptor of
the list, for the child to hold. -/
theorem dupfiles {ofile : Fin NOFILE → Option (Fin NFILE)} (l : List (Fin NOFILE)) {a : Unit}
    (h : Ledger L s pf qf pk qk) (hr : Runs (Xv6.Fs.dupfiles ofile l) s a t) :
    Ledger L t (pf + (l.map fun fd => ((ofile fd).toList : Multiset (Fin NFILE))).sum) qf pk qk ∧
      t.ptable = s.ptable := by
  induction l generalizing s pf with
  | nil =>
    simp only [Xv6.Fs.dupfiles, runs_pure] at hr
    obtain ⟨-, rfl⟩ := hr
    simpa using h
  | cons fd fds ih =>
    simp only [Xv6.Fs.dupfiles] at hr
    split at hr
    · -- an open descriptor: its file gains a reference
      rename_i f hf
      simp only [runs_bind] at hr
      obtain ⟨_, s₁, h₁, hr⟩ := hr
      obtain ⟨hl₁, hp₁⟩ := h.filedup h₁
      obtain ⟨hl, hp⟩ := ih hl₁ hr
      exact ⟨hl.congr (by simp [hf, add_assoc]) rfl, hp.trans hp₁⟩
    · rename_i hf
      obtain ⟨hl, hp⟩ := ih h hr
      exact ⟨hl.congr (by simp [hf]) rfl, hp⟩

end Ledger

/-! ## Descriptors -/

variable [DecidableEq ι]

@[simp] theorem runs_setProc (i : ι) (o : Option proc) (a : Unit) :
    Runs (setProc i o) s a t ↔ t = { s with ptable := Function.update s.ptable i o } := by
  simp [setProc]

theorem fdalloc_none {i : ι} {f : Fin NFILE} (h : Runs (fdalloc i f) s none t) : t = s := by
  simp only [fdalloc, runs_bind] at h
  obtain ⟨p, _, hp, h⟩ := h
  obtain ⟨rfl, -⟩ := getproc_spec hp
  split at h
  · simp at h
  · exact ((runs_pure _ _ _ _).mp h).2.symm

/-- `fdalloc` points a free descriptor of the caller at `f`. -/
theorem fdalloc_some {i : ι} {f : Fin NFILE} {d : Fin NOFILE} (h : Runs (fdalloc i f) s (some d) t) :
    ∃ p, s.ptable i = some p ∧ p.ofile d = none ∧
      t = { s with ptable := (Function.update s.ptable i
        (some { p with ofile := Function.update p.ofile d (some f) })) } := by
  simp only [fdalloc, runs_bind] at h
  obtain ⟨p, _, hp, h⟩ := h
  obtain ⟨rfl, hpi⟩ := getproc_spec hp
  split at h
  · rename_i d' hd'
    simp only [runs_bind, runs_setProc, runs_pure, Option.some.injEq] at h
    obtain ⟨_, _, rfl, rfl, rfl⟩ := h
    exact ⟨p, hpi, by simpa using List.find?_some hd', rfl⟩
  · simp at h

theorem modifyProc_spec {i : ι} {g : proc → proc} {a : Unit} (h : Runs (modifyProc i g) s a t) :
    ∃ p, s.ptable i = some p ∧ t = { s with ptable := Function.update s.ptable i (some (g p)) } := by
  simp only [modifyProc, runs_bind] at h
  obtain ⟨p, _, hp, h⟩ := h
  obtain ⟨rfl, hpi⟩ := getproc_spec hp
  exact ⟨p, hpi, (runs_setProc _ _ _).mp h⟩

namespace Ledger

/-- A descriptor from `fdalloc` holds a reference on its file. -/
theorem fdalloc (h : Ledger L s pf qf pk qk) {i : ι} {f : Fin NFILE} {d : Fin NOFILE}
    (hr : Runs (fdalloc i f) s (some d) t) : Ledger L t pf (qf + {f}) pk qk ∧ t.ftable = s.ftable := by
  obtain ⟨p, hp, hd, rfl⟩ := fdalloc_some hr
  have hfds := p.fds_update d (some f)
  rw [hd] at hfds
  simp only [Option.toList_none, Multiset.coe_nil, add_zero, Option.toList_some,
    Multiset.coe_singleton] at hfds
  refine ⟨(h.setProc (h.mem hp) _).congr ?_ ?_, rfl⟩
  · simp only [hp, Option.elim_some, hfds]
    abel
  · simp only [hp, Option.elim_some, proc.dir]
    abel

/-- Rewriting a process gives back what it held and takes what it holds. -/
theorem modifyProc (h : Ledger L s pf qf pk qk) {i : ι} {g : proc → proc} {a : Unit}
    (hr : Runs (Xv6.Fs.modifyProc i g) s a t) : ∃ p, s.ptable i = some p ∧
      t.ptable i = some (g p) ∧
      Ledger L t (pf + p.fds) (qf + (g p).fds) (pk + p.dir) (qk + (g p).dir) := by
  obtain ⟨p, hp, rfl⟩ := modifyProc_spec hr
  refine ⟨p, hp, by simp, ?_⟩
  simpa only [hp, Option.elim_some] using h.setProc (h.mem hp) (some (g p))

end Ledger

/-! ## The calls -/

namespace RefInv

/-- `exit`'s loop closes each open descriptor of the list and keeps the books
balanced after each. -/
theorem closefiles {i : ι} (l : List (Fin NOFILE)) {p : proc} {a : Unit} (h : RefInv L s)
    (hp : s.ptable i = some p) (hr : Runs (Xv6.Fs.closefiles i l) s a t) :
    RefInv L t ∧ t.ptable i = some { p with ofile := fun fd => if fd ∈ l then none else p.ofile fd } := by
  induction l generalizing s p with
  | nil =>
    simp only [Xv6.Fs.closefiles, runs_pure] at hr
    obtain ⟨-, rfl⟩ := hr
    exact ⟨h, by simpa using hp⟩
  | cons fd fds ih =>
    simp only [Xv6.Fs.closefiles, runs_bind] at hr
    obtain ⟨p₀, _, hp₀, hr⟩ := hr
    obtain ⟨rfl, hpi⟩ := getproc_spec hp₀
    obtain rfl : p = p₀ := Option.some.inj (hp.symm.trans hpi)
    -- the descriptor is closed if it is open; either way it is free after
    obtain ⟨s₁, hstep, hr⟩ : ∃ s₁, (RefInv L s₁ ∧
        s₁.ptable i = some { p with ofile := Function.update p.ofile fd none }) ∧
        Runs (Xv6.Fs.closefiles i fds) s₁ a t := by
      split at hr
      · rename_i f hf
        simp only [runs_bind] at hr
        obtain ⟨_, s₂, hclose, _, s₁, hmod, hr⟩ := hr
        obtain ⟨h₂, hp₂⟩ := Ledger.fileclose h le_rfl hclose
        obtain ⟨p₂, hp₂', hp₁, h₃⟩ := h₂.modifyProc hmod
        obtain rfl : p = p₂ := Option.some.inj ((hp₂ ▸ hp).symm.trans hp₂')
        have hfds := p.fds_update fd none
        rw [hf] at hfds
        simp only [Option.toList_some, Multiset.coe_singleton, Option.toList_none, Multiset.coe_nil,
          add_zero] at hfds
        refine ⟨s₁, ⟨h₃.done ?_ rfl, hp₁⟩, hr⟩
        rw [← hfds]
        abel
      · rename_i hf
        refine ⟨s, ⟨h, ?_⟩, hr⟩
        rw [← hf, Function.update_eq_self]
        exact hp
    obtain ⟨ht, hpt⟩ := ih hstep.1 hstep.2 hr
    refine ⟨ht, hpt.trans ?_⟩
    -- the descriptors of the whole list are closed
    congr 2
    funext fd'
    by_cases hfd : fd' = fd
    · simp [hfd]
    · simp [hfd]

/-- `sys_open` keeps the books on every path: the file it opens holds the
inode, and the new descriptor holds the file. -/
theorem sys_open (h : RefInv L s) {i : ι} {path : List Char} {omode : Nat} {r : Int}
    (hr : Runs (Xv6.Fs.sys_open i path omode) s r t) : RefInv L t := by
  simp only [Xv6.Fs.sys_open, runs_bind] at hr
  obtain ⟨p, _, hp, found, s₁, hfound, hr⟩ := hr
  obtain ⟨rfl, hpi⟩ := getproc_spec hp
  have h₁ := Ledger.inner h (openinode_spec (h.hcwd i p hpi) hfound)
  split at hr
  · obtain ⟨-, rfl⟩ := (runs_pure _ _ _ _).mp hr
    exact h₁.done rfl (by simp)
  rename_i ip
  simp only [runs_bind] at hr
  obtain ⟨fa, s₂, hfa, hr⟩ := hr
  split at hr
  · -- no free file: the inode is given back
    obtain rfl := filealloc_none hfa
    simp only [runs_bind, runs_pure] at hr
    obtain ⟨_, s₃, hput, -, rfl⟩ := hr
    exact (h₁.inner (iunlockput_spec (h₁.pos (by simp)) hput)).done rfl (by simp)
  rename_i f
  obtain ⟨h₂, hheld, hone⟩ := h₁.filealloc hfa
  simp only [runs_bind] at hr
  obtain ⟨fd, s₃, hfd, hr⟩ := hr
  split at hr
  · -- no free descriptor: the file is closed and the inode given back
    obtain rfl := fdalloc_none hfd
    simp only [runs_bind, runs_pure] at hr
    obtain ⟨_, s₄, hclose, _, s₅, hput, -, rfl⟩ := hr
    obtain ⟨h₄, -⟩ := h₂.fileclose (by simp) hclose
    exact (h₄.inner (iunlockput_spec (h₄.pos (by simp)) hput)).done (by simp) (by simp)
  rename_i d
  obtain ⟨h₃, hft⟩ := h₂.fdalloc hfd
  simp only [runs_bind, runs_pure, runs_setFile] at hr
  obtain ⟨_, s₄, hun, _, _, rfl, -, rfl⟩ := hr
  obtain rfl := iunlock_spec hun
  -- the file now holds the inode the lookup took
  refine (h₃.setFile f _ (by simp [hft, hone])).done (by simp) ?_
  rw [hft, hheld]
  simp [file.held]

/-- `sys_close` gives the descriptor's reference back to its file. -/
theorem sys_close (h : RefInv L s) {i : ι} {fd : Int} {r : Int}
    (hr : Runs (Xv6.Fs.sys_close i fd) s r t) : RefInv L t := by
  simp only [Xv6.Fs.sys_close, runs_bind] at hr
  obtain ⟨found, s₁, hfound, hr⟩ := hr
  split at hr
  · obtain rfl := argfd_none hfound
    obtain ⟨-, rfl⟩ := (runs_pure _ _ _ _).mp hr
    exact h
  rename_i d f
  obtain ⟨rfl, p, hp, hd⟩ := argfd_some hfound
  simp only [runs_bind, runs_pure] at hr
  obtain ⟨_, s₂, hmod, _, s₃, hclose, -, rfl⟩ := hr
  obtain ⟨p', hp', -, h₂⟩ := Ledger.modifyProc h hmod
  obtain rfl : p = p' := Option.some.inj (hp.symm.trans hp')
  have hfds := p.fds_update d none
  rw [hd] at hfds
  simp only [Option.toList_some, Multiset.coe_singleton, Option.toList_none, Multiset.coe_nil,
    add_zero] at hfds
  obtain ⟨h₃, -⟩ := h₂.fileclose (by simp [proc.dir]) hclose
  refine h₃.done ?_ rfl
  rw [← hfds]
  abel

/-- `sys_dup` takes a reference on the file for its new descriptor. -/
theorem sys_dup (h : RefInv L s) {i : ι} {fd : Int} {r : Int}
    (hr : Runs (Xv6.Fs.sys_dup i fd) s r t) : RefInv L t := by
  simp only [Xv6.Fs.sys_dup, runs_bind] at hr
  obtain ⟨found, s₁, hfound, hr⟩ := hr
  split at hr
  · obtain rfl := argfd_none hfound
    obtain ⟨-, rfl⟩ := (runs_pure _ _ _ _).mp hr
    exact h
  rename_i d f
  obtain ⟨rfl, -⟩ := argfd_some hfound
  simp only [runs_bind] at hr
  obtain ⟨fd', s₂, hfd, hr⟩ := hr
  split at hr
  · obtain rfl := fdalloc_none hfd
    obtain ⟨-, rfl⟩ := (runs_pure _ _ _ _).mp hr
    exact h
  simp only [runs_bind, runs_pure] at hr
  obtain ⟨_, s₃, hdup, -, rfl⟩ := hr
  obtain ⟨h₂, -⟩ := Ledger.fdalloc h hfd
  exact (h₂.filedup hdup).1.done rfl rfl

/-- `sys_chdir` moves the process's reference from its old directory to the
new one. -/
theorem sys_chdir (h : RefInv L s) {i : ι} {path : List Char} {r : Int}
    (hr : Runs (Xv6.Fs.sys_chdir i path) s r t) : RefInv L t := by
  simp only [Xv6.Fs.sys_chdir, runs_bind] at hr
  obtain ⟨p, _, hp, found, s₁, hfound, hr⟩ := hr
  obtain ⟨rfl, hpi⟩ := getproc_spec hp
  have hn := namei_spec (h.hcwd i p hpi) hfound
  have h₁ := Ledger.inner h hn
  split at hr
  · obtain ⟨-, rfl⟩ := (runs_pure _ _ _ _).mp hr
    exact h₁.done rfl (by simp)
  rename_i ip
  simp only [runs_bind, runs_get, runs_ite, runs_pure] at hr
  obtain ⟨_, s₂, hlock, _, _, ⟨rfl, rfl⟩, hr⟩ := hr
  have hl := ilock_spec hlock
  have h₂ := h₁.inner hl
  rcases hr with ⟨-, _, s₃, hput, -, rfl⟩ | ⟨-, _, s₃, hun, _, s₄, hput, _, s₅, hmod, -, rfl⟩
  · -- not a directory: the inode is given back
    exact (h₂.inner (iunlockput_spec (h₂.pos (by simp)) hput)).done rfl (by simp)
  obtain rfl := iunlock_spec hun
  have hpi₂ : s₂.ptable i = some p := by rw [hl.ptable, hn.ptable, hpi]
  have hin := iput_spec (h₂.cwd_pos (by simp) hpi₂) hput
  obtain ⟨p', hp', -, h₅⟩ := (h₂.inner hin).modifyProc hmod
  obtain rfl : p = p' := Option.some.inj (hpi₂.symm.trans (hin.ptable ▸ hp'))
  refine h₅.done rfl ?_
  simp only [proc.dir, zero_add, add_zero, taken_some]
  abel

/-- `fork` takes a reference on each file the parent has open and on its
directory, for the child to hold. -/
theorem fork (h : RefInv L s) {i j : ι} {r : Int} (hj : s.ptable j = none)
    (hr : Runs (Xv6.Fs.fork i (some j)) s r t) : RefInv (insert j L) t := by
  simp only [Xv6.Fs.fork, runs_bind, runs_pure, runs_setProc] at hr
  obtain ⟨p, _, hp, _, s₁, hdup, c, s₂, hidup, _, _, rfl, -, rfl⟩ := hr
  obtain ⟨rfl, hpi⟩ := getproc_spec hp
  obtain ⟨h₁, hp₁⟩ := Ledger.dupfiles (List.finRange NOFILE) (Ledger.insert h hj) hdup
  obtain ⟨rfl, hin⟩ := idup_spec (h₁.cwd_pos (by simp) (hp₁ ▸ hpi)) hidup
  have hj₂ : s₂.ptable j = none := by rw [hin.ptable, hp₁, hj]
  have h₃ := (h₁.inner hin).setProc (Finset.mem_insert_self j L) (some ⟨p.cwd, p.ofile⟩)
  rw [hj₂] at h₃
  refine h₃.done ?_ (by simp [proc.dir])
  simp [proc.fds, ← Fin.sum_univ_def]

/-- `exit` closes every descriptor, gives back its directory and leaves the table. -/
theorem exit (h : RefInv L s) {i : ι} {p : proc} {r : Int} (hp : s.ptable i = some p)
    (hr : Runs (Xv6.Fs.exit i) s r t) : RefInv L t := by
  simp only [Xv6.Fs.exit, runs_bind, runs_get] at hr
  obtain ⟨_, _, ⟨rfl, rfl⟩, hr⟩ := hr
  split at hr
  · simp at hr
  simp only [runs_bind, runs_pure, runs_setProc] at hr
  obtain ⟨_, s₁, hclose, p₁, _, hp₁, _, s₂, hput, _, _, rfl, -, rfl⟩ := hr
  obtain ⟨h₁, hpt₁⟩ := closefiles (List.finRange NOFILE) h hp hclose
  obtain ⟨rfl, hpi₁⟩ := getproc_spec hp₁
  obtain rfl := Option.some.inj (hpt₁.symm.trans hpi₁)
  have hin := iput_spec (Ledger.cwd_pos h₁ le_rfl hpt₁) hput
  have hpt₂ : s₂.ptable i = s₁.ptable i := by rw [hin.ptable]
  have h₃ := (h₁.inner hin).setProc (h₁.mem hpt₁) none
  rw [hpt₂, hpt₁] at h₃
  exact h₃.done (by simp [proc.fds]) (by simp [proc.dir])

/-- Every call that completes keeps the books balanced, on each of its paths;
`fork` adds its child to the processes counted. -/
theorem step (h : RefInv L s) {e : Event ι} {r : Int} (he : enabled s e = true)
    (hr : Runs (syscall e) s r t) : ∃ L' : Finset ι, RefInv L' t := by
  cases e with
  | sys_open i path omode => exact ⟨L, h.sys_open hr⟩
  | sys_mkdir i path => exact ⟨L, h.of_inner (mkinode_spec (h.hcwd i) hr)⟩
  | sys_mknod i path major minor => exact ⟨L, h.of_inner (mkinode_spec (h.hcwd i) hr)⟩
  | sys_link i old new => exact ⟨L, h.of_inner (sys_link_spec (h.hcwd i) hr)⟩
  | sys_unlink i path => exact ⟨L, h.of_inner (sys_unlink_spec (h.hcwd i) hr)⟩
  | sys_chdir i path => exact ⟨L, h.sys_chdir hr⟩
  | sys_close i fd => exact ⟨L, h.sys_close hr⟩
  | sys_dup i fd => exact ⟨L, h.sys_dup hr⟩
  | exec i path elfok => exact ⟨L, h.of_inner (exec_spec (h.hcwd i) hr)⟩
  | fork i child =>
    cases child with
    | none =>
      -- a fork that fails takes nothing
      obtain ⟨-, rfl⟩ := (runs_pure _ _ _ _).mp hr
      exact ⟨L, h⟩
    | some j =>
      simp only [enabled, Bool.and_eq_true, Option.isNone_iff_eq_none] at he
      exact ⟨insert j L, h.fork he.2 hr⟩
  | exit i =>
    simp only [enabled, Event.caller, Option.isSome_iff_exists] at he
    obtain ⟨p, hp⟩ := he
    exact ⟨L, h.exit hp hr⟩

/-- After `userinit` the first process holds the root directory's one
reference, and nothing else is held. -/
theorem init (n : Nat) (d : Nat → dinode) (i₀ : ι) : RefInv {i₀} (Xv6.Fs.init n d i₀) where
  live i hi := by
    by_cases h : i = i₀
    · simp [h]
    · simp [Xv6.Fs.init, h] at hi
  uniq k j hk hj _ _ := by
    simp only [Xv6.Fs.init, Function.update_apply] at hk hj
    split_ifs at hk hj with hk₀ hj₀ <;> simp_all
  free _ _ := rfl
  files f := by simp [Xv6.Fs.init, procHolds, proc.fds]
  inodes k := by
    by_cases hk : k = 0
    · subst hk
      simp [Xv6.Fs.init, fileHolds, file.held, procHolds, proc.dir]
    · simp [Xv6.Fs.init, fileHolds, file.held, procHolds, proc.dir, hk]

end RefInv

/-- A step of the system is an enabled call that completes. -/
theorem step_runs {e : Event ι} {r : Int} (h : step s e = some (.ok (r, t))) :
    enabled s e = true ∧ Runs (syscall e) s r t := by
  unfold step at h
  split at h
  · exact ⟨‹_›, Option.some.inj h⟩
  · cases h

/-- The books balance in every reachable state. -/
theorem reachable_refInv (hs : FsReachable s) : ∃ L : Finset ι, RefInv L s := by
  refine invariant (I := fun s => ∃ L : Finset ι, RefInv L s) ?_ ?_ hs
  · rintro _ ⟨n, d, i₀, rfl⟩
    exact ⟨{i₀}, RefInv.init n d i₀⟩
  · rintro u v - ⟨L, h⟩ ⟨e, r, hst⟩
    obtain ⟨he, hr⟩ := step_runs hst
    exact h.step he hr

/-- In every reachable state each reference is held: a file's references are
the descriptors that name it, an inode cache entry's are the open inode files
on it and the current directories it is, for a finite set of processes that
holds every live one. A free file is no inode file, and the entries in use
cache distinct inodes. -/
theorem refs_exact (hs : FsReachable s) : ∃ L : Finset ι,
    (∀ i, (s.ptable i).isSome → i ∈ L) ∧ Uniq s ∧
    (∀ f, (s.ftable f).ref = 0 → (s.ftable f).type = .FD_NONE) ∧
    (∀ f, (s.ftable f).ref = (procHolds L s.ptable proc.fds).count f) ∧
    (∀ k, (s.icache k).ref = (fileHolds s.ftable + procHolds L s.ptable proc.dir).count k) := by
  obtain ⟨L, h⟩ := reachable_refInv hs
  refine ⟨L, h.live, h.uniq, h.free, fun f => ?_, fun k => ?_⟩
  · simpa using h.files f
  · simpa using h.inodes k

/-- A boot that opens the file "a" of the root directory and forks: the parent
and the child share its open file and their directory. -/
theorem refs_exact_fork : ∃ t : Sys Nat,
    runLabels stepOk (init 2 (fun x => if x = ROOTINO then ⟨T_DIR, 0, 0, 1, [⟨ROOTINO, ['.']⟩, ⟨2, ['a']⟩]⟩
      else if x = 2 then ⟨T_FILE, 0, 0, 1, []⟩ else ⟨0, 0, 0, 0, []⟩) 0)
      [.sys_open 0 ['a'] O_RDONLY, .fork 0 (some 1)] = some t ∧
    ∃ L : Finset Nat, (∀ i, (t.ptable i).isSome → i ∈ L) ∧ Uniq t ∧
      (∀ f, (t.ftable f).ref = 0 → (t.ftable f).type = .FD_NONE) ∧
      (∀ f, (t.ftable f).ref = (procHolds L t.ptable proc.fds).count f) ∧
      (∀ k, (t.icache k).ref = (fileHolds t.ftable + procHolds L t.ptable proc.dir).count k) := by
  obtain ⟨t, ht⟩ : ∃ t, runLabels stepOk (init 2 (fun x => if x = ROOTINO then
      ⟨T_DIR, 0, 0, 1, [⟨ROOTINO, ['.']⟩, ⟨2, ['a']⟩]⟩ else if x = 2 then ⟨T_FILE, 0, 0, 1, []⟩
      else ⟨0, 0, 0, 0, []⟩) 0) [.sys_open 0 ['a'] O_RDONLY, .fork 0 (some 1)] = some t :=
    ⟨_, rfl⟩
  exact ⟨t, ht, refs_exact (FsReachable.of_run _ ht)⟩

end Xv6.Fs
