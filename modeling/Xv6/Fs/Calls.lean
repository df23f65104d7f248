/-
What the calls that only work on inodes do to the references.

`create`, `sys_open`'s lookup, `sys_mkdir`, `sys_mknod`, `sys_link`,
`sys_unlink` and `exec` touch neither the open files nor the processes: all
they do to the inode cache is take references and give them back. Each lemma
below follows one of them along every path, its failures included, and says
which references it ends with: the one it returns, or none. The calls that do
store a reference, in a file or as a current directory, are `Xv6.Fs.Refs`'s.
-/
import Xv6.Fs.Syscall

set_option autoImplicit false

namespace Xv6.Fs

open StateExcept

variable {ι : Type} {s t : Sys ι}

/-- An entry a step takes more references on than it gives back is in use after
it. -/
theorem Inner.pos_of_count_lt {i d : Multiset (Fin NINODE)} (h : Inner s t i d) {k : Fin NINODE}
    (hk : d.count k < i.count k) : 0 < (t.icache k).ref :=
  h.pos (by omega)

/-- An entry whose references a step only adds to stays in use. -/
theorem Inner.pos_of_inc {i : Multiset (Fin NINODE)} (h : Inner s t i 0) {k : Fin NINODE}
    (hk : 0 < (s.icache k).ref) : 0 < (t.icache k).ref :=
  h.pos (by simp only [Multiset.count_zero]; omega)

theorem getproc_spec {i : ι} {p : proc} (h : Runs (getproc i) s p t) :
    s = t ∧ s.ptable i = some p := by
  simp only [getproc, runs_bind, runs_get] at h
  obtain ⟨_, _, ⟨rfl, rfl⟩, h⟩ := h
  split at h
  · rename_i p' hp
    obtain ⟨rfl, rfl⟩ := (runs_pure _ _ _ _).mp h
    exact ⟨rfl, hp⟩
  · simp at h

/-- `create` ends with one reference, on the inode it returns. -/
theorem create_spec {cwd : Fin NINODE} {path : List Char} {type major minor : Nat}
    {r : Option (Fin NINODE)} (hcwd : 0 < (s.icache cwd).ref)
    (h : Runs (create cwd path type major minor) s r t) : Inner s t (taken r) 0 := by
  simp only [create, runs_bind] at h
  obtain ⟨par, s₁, hpar, h⟩ := h
  have h₁ := nameiparent_spec hcwd hpar
  split at h
  · obtain ⟨rfl, rfl⟩ := (runs_pure _ _ _ _).mp h
    simpa using h₁
  rename_i dp name
  simp only [runs_bind] at h
  obtain ⟨_, s₂, hlock, found, s₃, hlook, h⟩ := h
  have h₃ := (h₁.trans_quiet (ilock_spec hlock)).trans (dirlookup_spec hlook)
  split at h
  · -- the name is there: the inode is kept only for a file asked for as a file
    rename_i ip off
    simp only [runs_bind, runs_get, runs_ite, runs_pure] at h
    obtain ⟨_, s₄, hput, _, s₅, hlock', _, _, ⟨rfl, rfl⟩, h⟩ := h
    have hdp : 0 < (s₃.icache dp).ref := h₃.pos_of_count_lt (by
      simp only [Option.map_some, taken_some, Multiset.count_add, Multiset.count_zero, Multiset.count_singleton_self]; omega)
    have h₅ := (h₃.trans (iunlockput_spec hdp hput)).trans_quiet (ilock_spec hlock')
    rcases h with ⟨-, rfl, rfl⟩ | ⟨-, _, s₆, hput', rfl, rfl⟩
    · refine h₅.of_counts fun k => ?_
      simp only [Option.map_some, taken_some, Multiset.count_add, Multiset.count_zero]
      omega
    · have hip : 0 < (s₅.icache ip).ref := h₅.pos_of_count_lt (by
        simp only [Option.map_some, taken_some, Multiset.count_add, Multiset.count_zero, Multiset.count_singleton_self]; omega)
      refine (h₅.trans (iunlockput_spec hip hput')).of_counts fun k => ?_
      simp only [Option.map_some, taken_some, taken_none, Multiset.count_add, Multiset.count_zero]
      omega
  -- not there: a fresh inode, linked under `name`
  simp only [runs_bind, runs_get, runs_ite, runs_throw, runs_pure, false_and, exists_false,
    and_false, false_or] at h
  obtain ⟨_, _, ⟨rfl, rfl⟩, ip, s₄, halloc, _, s₅, hlock', _, s₆, hset, _, s₇, hup, h⟩ := h
  have h₇ : Inner s s₇ ({dp} + {ip}) 0 := by
    simpa using (((h₃.trans (ialloc_spec halloc)).trans_quiet (ilock_spec hlock')).trans_quiet
      (setInode_inner ⟨rfl, rfl, rfl⟩ hset)).trans_quiet (iupdate_spec hup)
  -- the link under `name` and the release of the parent, after either branch
  have tail : ∀ u, Inner s u ({dp} + {ip}) 0 → (∃ a u', (u = a ∧ u = u') ∧ ∃ x v,
      Runs (dirlink dp name (a.icache ip).inum) u' x v ∧ ¬x < 0 ∧
        ∃ a w, Runs (iunlockput dp) v a w ∧ r = some ip ∧ w = t) → Inner s t (taken r) 0 := by
    rintro u hu ⟨_, _, ⟨rfl, rfl⟩, x, v, hlink, -, _, _, hput, rfl, rfl⟩
    have hv := hu.trans_quiet (dirlink_spec hlink)
    have hdp : 0 < (v.icache dp).ref := hv.pos_of_count_lt (by
      simp only [Multiset.count_add, Multiset.count_zero, Multiset.count_singleton_self]; omega)
    refine (hv.trans (iunlockput_spec hdp hput)).of_counts fun k => ?_
    simp only [taken_some, Multiset.count_add, Multiset.count_zero]
    omega
  rcases h with ⟨-, _, s₈, hset', _, s₉, hup', _, _, ⟨rfl, rfl⟩, _, s₁₀, hdot, -, _, _,
    ⟨rfl, rfl⟩, _, s₁₁, hdotdot, -, h⟩ | ⟨-, h⟩
  · -- a directory: its "." and ".." entries move no reference
    refine tail s₁₁ ?_ h
    exact (((h₇.trans_quiet (setInode_inner ⟨rfl, rfl, rfl⟩ hset')).trans_quiet
      (iupdate_spec hup')).trans_quiet (dirlink_spec hdot)).trans_quiet (dirlink_spec hdotdot)
  · exact tail s₇ h₇ h

/-- The inode `sys_open` opens holds the one reference the lookup ends with. -/
theorem openinode_spec {cwd : Fin NINODE} {path : List Char} {omode : Nat}
    {r : Option (Fin NINODE)} (hcwd : 0 < (s.icache cwd).ref)
    (h : Runs (openinode cwd path omode) s r t) : Inner s t (taken r) 0 := by
  unfold openinode at h
  split at h
  · exact create_spec hcwd h
  simp only [runs_bind] at h
  obtain ⟨found, s₁, hfound, h⟩ := h
  have h₁ := namei_spec hcwd hfound
  split at h
  · obtain ⟨rfl, rfl⟩ := (runs_pure _ _ _ _).mp h
    simpa using h₁
  rename_i ip
  simp only [runs_bind, runs_get, runs_ite, runs_pure] at h
  obtain ⟨_, s₂, hlock, _, _, ⟨rfl, rfl⟩, h⟩ := h
  have h₂ : Inner s s₂ {ip} 0 := by simpa using h₁.trans_quiet (ilock_spec hlock)
  rcases h with ⟨-, _, s₃, hput, rfl, rfl⟩ | ⟨-, rfl, rfl⟩
  · -- a directory opened for writing
    have hip : 0 < (s₂.icache ip).ref := h₂.pos_of_count_lt (by simp)
    exact (h₂.trans (iunlockput_spec hip hput)).of_counts fun _ => by simp
  · exact h₂

/-- `sys_mkdir` and `sys_mknod` give back the reference `create` ends with. -/
theorem mkinode_spec {i : ι} {path : List Char} {type major minor : Nat} {r : Int}
    (hcwd : ∀ p, s.ptable i = some p → 0 < (s.icache p.cwd).ref)
    (h : Runs (mkinode i path type major minor) s r t) : Inner s t 0 0 := by
  simp only [mkinode, runs_bind] at h
  obtain ⟨p, _, hp, found, s₁, hc, h⟩ := h
  obtain ⟨rfl, hpi⟩ := getproc_spec hp
  have h₁ := create_spec (hcwd p hpi) hc
  split at h
  · obtain ⟨rfl, rfl⟩ := (runs_pure _ _ _ _).mp h
    simpa using h₁
  rename_i ip
  simp only [runs_bind, runs_pure] at h
  obtain ⟨_, s₂, hput, rfl, rfl⟩ := h
  have hip : 0 < (s₁.icache ip).ref := h₁.pos_of_count_lt (by simp)
  exact (h₁.trans (iunlockput_spec hip hput)).of_counts fun _ => by simp

/-- `sys_link`'s undo gives back the reference on the old inode. -/
theorem linkbad_spec {ip : Fin NINODE} {r : Int} (hip : 0 < (s.icache ip).ref)
    (h : Runs (linkbad ip) s r t) : Inner s t 0 {ip} := by
  simp only [linkbad, runs_bind, runs_pure] at h
  obtain ⟨_, s₁, hlock, _, s₂, hset, _, s₃, hup, _, s₄, hput, -, rfl⟩ := h
  have h₃ := ((ilock_spec hlock).trans_quiet (setInode_inner ⟨rfl, rfl, rfl⟩ hset)).trans_quiet
    (iupdate_spec hup)
  have hip₃ : 0 < (s₃.icache ip).ref := h₃.pos_of_inc hip
  simpa using h₃.trans (iunlockput_spec hip₃ hput)

/-- `sys_link` moves no reference, on every path. -/
theorem sys_link_spec {i : ι} {old new : List Char} {r : Int}
    (hcwd : ∀ p, s.ptable i = some p → 0 < (s.icache p.cwd).ref)
    (h : Runs (sys_link i old new) s r t) : Inner s t 0 0 := by
  simp only [sys_link, runs_bind] at h
  obtain ⟨p, _, hp, found, s₁, hfound, h⟩ := h
  obtain ⟨rfl, hpi⟩ := getproc_spec hp
  have h₁ := namei_spec (hcwd p hpi) hfound
  split at h
  · obtain ⟨rfl, rfl⟩ := (runs_pure _ _ _ _).mp h
    simpa using h₁
  rename_i ip
  simp only [runs_bind, runs_get, runs_ite, runs_pure] at h
  obtain ⟨_, s₂, hlock, _, _, ⟨rfl, rfl⟩, h⟩ := h
  have h₂ : Inner s s₂ {ip} 0 := by simpa using h₁.trans_quiet (ilock_spec hlock)
  have hip₂ : 0 < (s₂.icache ip).ref := h₂.pos_of_count_lt (by simp)
  rcases h with ⟨-, _, s₃, hput, rfl, rfl⟩ | ⟨-, _, s₃, hset, _, s₄, hup, _, s₅, hun, par, s₆, hpar, h⟩
  · -- a directory cannot be linked
    exact (h₂.trans (iunlockput_spec hip₂ hput)).of_counts fun _ => by simp
  obtain rfl := iunlock_spec hun
  -- the link count is up by one; every way out from here gives back `ip`
  have h₅ : Inner s s₄ {ip} 0 :=
    (h₂.trans_quiet (setInode_inner ⟨rfl, rfl, rfl⟩ hset)).trans_quiet (iupdate_spec hup)
  have h₆ := h₅.trans (nameiparent_spec (h₅.pos_of_inc (hcwd p hpi)) hpar)
  have hip₆ : 0 < (s₆.icache ip).ref := h₆.pos_of_count_lt (by
    simp only [Multiset.count_add, Multiset.count_zero, Multiset.count_singleton_self]; omega)
  split at h
  · have := h₆.trans (linkbad_spec hip₆ h)
    exact this.of_counts fun k => by simp
  rename_i dp name
  simp only [runs_bind, runs_get, runs_ite, runs_pure] at h
  obtain ⟨_, s₇, hlock', _, _, ⟨rfl, rfl⟩, h⟩ := h
  have h₇ : Inner s s₇ ({ip} + {dp}) 0 := by simpa using h₆.trans_quiet (ilock_spec hlock')
  have hdp₇ : 0 < (s₇.icache dp).ref := h₇.pos_of_count_lt (by
    simp only [Multiset.count_add, Multiset.count_zero, Multiset.count_singleton_self]; omega)
  -- give back `dp`, then `ip` through the undo: the two failures
  have undo : ∀ u v, Inner s u ({ip} + {dp}) 0 → Runs (iunlockput dp) u () v →
      Runs (linkbad ip) v r t → Inner s t 0 0 := by
    intro u v hu hput hbad
    have hdp : 0 < (u.icache dp).ref := hu.pos_of_count_lt (by
      simp only [Multiset.count_add, Multiset.count_zero, Multiset.count_singleton_self]; omega)
    have hv := hu.trans (iunlockput_spec hdp hput)
    have hip : 0 < (v.icache ip).ref := hv.pos_of_count_lt (by
      simp only [Multiset.count_add, Multiset.count_zero, Multiset.count_singleton_self]; omega)
    refine (hv.trans (linkbad_spec hip hbad)).of_counts fun k => ?_
    simp only [Multiset.count_add, Multiset.count_zero]
    omega
  rcases h with ⟨-, _, s₈, hput, hbad⟩ | ⟨-, x, s₈, hlink, h⟩
  · -- another device
    exact undo s₇ s₈ h₇ hput hbad
  have h₈ := h₇.trans_quiet (dirlink_spec hlink)
  rcases h with ⟨-, _, s₉, hput, hbad⟩ | ⟨-, _, s₉, hput, _, s₁₀, hput', rfl, rfl⟩
  · -- the name is taken
    exact undo s₈ s₉ h₈ hput hbad
  · -- linked: both references given back
    have hdp₈ : 0 < (s₈.icache dp).ref := h₈.pos_of_count_lt (by
      simp only [Multiset.count_add, Multiset.count_zero, Multiset.count_singleton_self]; omega)
    have h₉ := h₈.trans (iunlockput_spec hdp₈ hput)
    have hip₉ : 0 < (s₉.icache ip).ref := h₉.pos_of_count_lt (by
      simp only [Multiset.count_add, Multiset.count_zero, Multiset.count_singleton_self]; omega)
    refine (h₉.trans (iput_spec hip₉ hput')).of_counts fun k => ?_
    simp only [Multiset.count_add, Multiset.count_zero]
    omega

theorem unlinkbad_spec {dp : Fin NINODE} {r : Int} (hdp : 0 < (s.icache dp).ref)
    (h : Runs (unlinkbad dp) s r t) : Inner s t 0 {dp} := by
  simp only [unlinkbad, runs_bind, runs_pure] at h
  obtain ⟨_, s₁, hput, -, rfl⟩ := h
  exact iunlockput_spec hdp hput

/-- `sys_unlink` moves no reference, on every path. -/
theorem sys_unlink_spec {i : ι} {path : List Char} {r : Int}
    (hcwd : ∀ p, s.ptable i = some p → 0 < (s.icache p.cwd).ref)
    (h : Runs (sys_unlink i path) s r t) : Inner s t 0 0 := by
  simp only [sys_unlink, runs_bind] at h
  obtain ⟨p, _, hp, par, s₁, hpar, h⟩ := h
  obtain ⟨rfl, hpi⟩ := getproc_spec hp
  have h₁ := nameiparent_spec (hcwd p hpi) hpar
  split at h
  · obtain ⟨rfl, rfl⟩ := (runs_pure _ _ _ _).mp h
    simpa using h₁
  rename_i dp name
  simp only [runs_bind, runs_ite] at h
  obtain ⟨_, s₂, hlock, h⟩ := h
  have h₂ : Inner s s₂ {dp} 0 := by simpa using h₁.trans_quiet (ilock_spec hlock)
  have hdp₂ : 0 < (s₂.icache dp).ref := h₂.pos_of_count_lt (by simp)
  rcases h with ⟨-, hbad⟩ | ⟨-, found, s₃, hlook, h⟩
  · -- "." and ".." are never unlinked
    exact (h₂.trans (unlinkbad_spec hdp₂ hbad)).of_counts fun _ => by simp
  have h₃ := h₂.trans (dirlookup_spec hlook)
  have hdp₃ : 0 < (s₃.icache dp).ref := (dirlookup_spec hlook).pos_of_inc hdp₂
  split at h
  · -- no such entry
    refine (h₃.trans (unlinkbad_spec hdp₃ h)).of_counts fun _ => ?_
    simp
  rename_i ip off
  simp only [runs_bind, runs_get, runs_ite, runs_throw, runs_pure, false_and, exists_false,
    and_false, false_or] at h
  obtain ⟨_, s₄, hlock', _, _, ⟨rfl, rfl⟩, -, _, _, ⟨rfl, rfl⟩, empty, s₅, hempty, h⟩ := h
  obtain rfl := isdirempty_spec hempty
  have h₄ : Inner s s₄ ({dp} + {ip}) 0 := by simpa using h₃.trans_quiet (ilock_spec hlock')
  -- every way out gives back `dp`, then `ip`
  have release : ∀ u₀ u₁ u₂, Inner s u₀ ({dp} + {ip}) 0 → Runs (iunlockput dp) u₀ () u₁ →
      Inner u₁ u₂ 0 0 → ∀ x, Runs (iunlockput ip) u₂ x t → Inner s t 0 0 := by
    intro u₀ u₁ u₂ hu hput hmid x hput'
    have hdp : 0 < (u₀.icache dp).ref := hu.pos_of_count_lt (by
      simp only [Multiset.count_add, Multiset.count_zero, Multiset.count_singleton_self]; omega)
    have hu₂ := (hu.trans (iunlockput_spec hdp hput)).trans_quiet hmid
    have hip : 0 < (u₂.icache ip).ref := hu₂.pos_of_count_lt (by
      simp only [Multiset.count_add, Multiset.count_zero, Multiset.count_singleton_self]; omega)
    refine (hu₂.trans (iunlockput_spec hip hput')).of_counts fun k => ?_
    simp only [Multiset.count_add, Multiset.count_zero]
    omega
  rcases h with ⟨-, _, s₆, hput, hbad⟩ | ⟨-, _, s₆, hw, -, _, _, ⟨rfl, rfl⟩, h⟩
  · -- a directory with entries: `ip` first, then `dp` at `bad`
    have hip : 0 < (s₄.icache ip).ref := h₄.pos_of_count_lt (by
      simp only [Multiset.count_add, Multiset.count_zero, Multiset.count_singleton_self]; omega)
    have h₆ := h₄.trans (iunlockput_spec hip hput)
    have hdp₆ : 0 < (s₆.icache dp).ref := h₆.pos_of_count_lt (by
      simp only [Multiset.count_add, Multiset.count_zero, Multiset.count_singleton_self]; omega)
    refine (h₆.trans (unlinkbad_spec hdp₆ hbad)).of_counts fun k => ?_
    simp only [Multiset.count_add, Multiset.count_zero]
    omega
  have h₆ := h₄.trans_quiet (writei_spec hw)
  rcases h with ⟨-, _, s₇, hset, _, s₈, hup, _, s₉, hput, _, s₁₀, hset', _, s₁₁, hup', _, _, hput',
    rfl, rfl⟩ | ⟨-, _, s₇, hput, _, s₈, hset', _, s₉, hup', _, _, hput', rfl, rfl⟩
  · -- a directory: its ".." no longer links the parent
    have h₈ := h₆.trans_quiet ((setInode_inner ⟨rfl, rfl, rfl⟩ hset).trans_quiet (iupdate_spec hup))
    exact release s₈ s₉ s₁₁ h₈ hput
      ((setInode_inner ⟨rfl, rfl, rfl⟩ hset').trans_quiet (iupdate_spec hup')) _ hput'
  · exact release s₆ s₇ s₉ h₆ hput
      ((setInode_inner ⟨rfl, rfl, rfl⟩ hset').trans_quiet (iupdate_spec hup')) _ hput'

/-- `exec` gives back the program's inode, whether or not it loads. -/
theorem exec_spec {i : ι} {path : List Char} {elfok : Bool} {r : Int}
    (hcwd : ∀ p, s.ptable i = some p → 0 < (s.icache p.cwd).ref)
    (h : Runs (exec i path elfok) s r t) : Inner s t 0 0 := by
  simp only [exec, runs_bind] at h
  obtain ⟨p, _, hp, found, s₁, hfound, h⟩ := h
  obtain ⟨rfl, hpi⟩ := getproc_spec hp
  have h₁ := namei_spec (hcwd p hpi) hfound
  split at h
  · obtain ⟨rfl, rfl⟩ := (runs_pure _ _ _ _).mp h
    simpa using h₁
  rename_i ip
  simp only [runs_bind, runs_pure] at h
  obtain ⟨_, s₂, hlock, _, s₃, hput, -, rfl⟩ := h
  have h₂ : Inner s s₂ {ip} 0 := by simpa using h₁.trans_quiet (ilock_spec hlock)
  have hip : 0 < (s₂.icache ip).ref := h₂.pos_of_count_lt (by simp)
  exact (h₂.trans (iunlockput_spec hip hput)).of_counts fun _ => by simp

end Xv6.Fs
