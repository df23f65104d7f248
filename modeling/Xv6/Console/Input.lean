/-
`console.c`'s input buffer and its line editor, `consoleintr`.

`input` is a ring of `INPUT_BUF` characters with three `uint` indices: the
characters from `r` to `w` are committed and wait for `consoleread`, those
from `w` to `e` are the line being edited. `consoleintr` takes one character
at a time: `^U` erases the line, backspace its last character, and any other
character is stored at `e` (a `'\r'` as a `'\n'`), which commits the line when
it is a newline or `^D`, or when the ring is full.

What the editor does is said without the ring by `typed`, on the two lists it
holds: the committed characters not yet read, and the line. Where the indices
are in order and the line holds no newline or `^D` (`Good`), `consoleintr1`
is `typed` on those lists (`edit_consoleintr1`), and it keeps `Good`.
-/
import Xv6.Lib.Ring

set_option autoImplicit false

namespace Xv6.Console

open Ring

/-- `INPUT_BUF`. -/
def INPUT_BUF : Nat := 128

instance : NeZero INPUT_BUF := ⟨by decide⟩

theorem INPUT_BUF_dvd : INPUT_BUF ∣ 2 ^ 32 := ⟨2 ^ 25, by decide⟩

/-- `C(x)`: control-`x`. -/
def C (x : Char) : UInt8 := (x.toNat - '@'.toNat).toUInt8

/-- The console's `input`. -/
structure input where
  buf : Fin INPUT_BUF → UInt8
  r : UInt32
  w : UInt32
  e : UInt32

/-- `^U`'s loop: erase back to the last newline, or to `w`. Each round takes
one character from the line, so it runs at most `e - w` rounds. -/
def killLine (inp : input) : Nat → input
  | 0 => inp
  | n + 1 =>
    if inp.e ≠ inp.w ∧ inp.buf (slot INPUT_BUF (inp.e - 1).toNat) ≠ '\n'.toUInt8 then
      killLine { inp with e := inp.e - 1 } n
    else inp

/-- One character `c` from `getc` through `consoleintr`'s switch. `^P` only
asks for a process listing, which does not touch the buffer. -/
def consoleintr1 (inp : input) (c : UInt8) : input :=
  if c = C 'P' then inp
  else if c = C 'U' then killLine inp (inp.e - inp.w).toNat
  else if c = C 'H' ∨ c = 0x7f then
    if inp.e ≠ inp.w then { inp with e := inp.e - 1 } else inp
  else if c ≠ 0 ∧ inp.e - inp.r < INPUT_BUF.toUInt32 then
    let c := if c = '\r'.toUInt8 then '\n'.toUInt8 else c
    let inp := { inp with buf := Function.update inp.buf (slot INPUT_BUF inp.e.toNat) c
                          e := inp.e + 1 }
    if c = '\n'.toUInt8 ∨ c = C 'D' ∨ inp.e = inp.r + INPUT_BUF.toUInt32 then
      { inp with w := inp.e }
    else inp
  else inp

/-! ## The two lists the ring holds -/

/-- The committed characters `consoleread` has not taken yet. -/
def unread (inp : input) : List UInt8 :=
  window inp.buf inp.r.toNat (inp.w - inp.r).toNat

/-- The line being edited. -/
def line (inp : input) : List UInt8 :=
  window inp.buf inp.w.toNat (inp.e - inp.w).toNat

/-- A character that ends a line: `'\n'` or `^D`. -/
def ends (c : UInt8) : Prop :=
  c = '\n'.toUInt8 ∨ c = C 'D'

instance (c : UInt8) : Decidable (ends c) := inferInstanceAs (Decidable (_ ∨ _))

/-- The indices are in order, within `INPUT_BUF` of each other, and the line
has no character that would have ended it. -/
structure Good (inp : input) : Prop where
  order : (inp.w - inp.r).toNat ≤ (inp.e - inp.r).toNat
  room : (inp.e - inp.r).toNat ≤ INPUT_BUF
  open_line : ∀ c ∈ line inp, ¬ends c

/-- What the editor is for: a character typed, on the committed characters not
yet read and the line; and the characters it commits. -/
def typed (unread line : List UInt8) (c : UInt8) : (List UInt8 × List UInt8) × List UInt8 :=
  if c = C 'P' then ((unread, line), [])
  else if c = C 'U' then ((unread, []), [])
  else if c = C 'H' ∨ c = 0x7f then ((unread, line.dropLast), [])
  else if c ≠ 0 ∧ unread.length + line.length < INPUT_BUF then
    let c := if c = '\r'.toUInt8 then '\n'.toUInt8 else c
    if ends c ∨ unread.length + line.length + 1 = INPUT_BUF then
      ((unread ++ (line ++ [c]), []), line ++ [c])
    else ((unread, line ++ [c]), [])
  else ((unread, line), [])

/-- The characters a step commits: those between the old and the new `w`. -/
def committedBy (inp inp' : input) : List UInt8 :=
  window inp'.buf inp.w.toNat (inp'.w - inp.w).toNat

section Lemmas

variable {inp : input}

/-- The ring from `r` to `e` is the unread characters, then the line. -/
theorem window_r_e (h : (inp.w - inp.r).toNat ≤ (inp.e - inp.r).toNat) :
    window inp.buf inp.r.toNat (inp.e - inp.r).toNat = unread inp ++ line inp := by
  rw [length_split h, window_append]
  unfold unread line
  -- the second run starts in the slot of `w`
  rw [window_mod (congrArg Fin.val (slot_stop INPUT_BUF_dvd inp.r inp.w))]

theorem length_unread_add (h : (inp.w - inp.r).toNat ≤ (inp.e - inp.r).toNat) :
    (unread inp).length + (line inp).length = (inp.e - inp.r).toNat := by
  simp [unread, line, length_split h]

/-- A line that is not empty ends with the character before `e`. -/
theorem line_snoc (hne : inp.w ≠ inp.e) :
    line inp = line { inp with e := inp.e - 1 } ++ [inp.buf (slot INPUT_BUF (inp.e - 1).toNat)] := by
  have hlen := length_pred_stop hne
  unfold line
  dsimp only
  rw [← hlen, window, slot_stop INPUT_BUF_dvd inp.w (inp.e - 1)]

/-- `^U` on a line with no newline erases all of it. -/
theorem killLine_all (h : ∀ c ∈ line inp, ¬ends c) :
    killLine inp (inp.e - inp.w).toNat = { inp with e := inp.w } := by
  generalize hk : (inp.e - inp.w).toNat = k
  induction k generalizing inp with
  | zero =>
    have he : inp.w = inp.e := length_eq_zero.mp hk
    obtain ⟨buf, r, w, e⟩ := inp
    dsimp only at he
    subst he
    rfl
  | succ k ih =>
    have hne : inp.w ≠ inp.e := fun he => by rw [length_eq_zero.mpr he] at hk; cases hk
    -- the last character of the line is no newline: the loop takes it
    have hlen : (inp.e - 1 - inp.w).toNat = k := by
      have := length_pred_stop hne
      omega
    have hline := line_snoc hne
    have hlast : inp.buf (slot INPUT_BUF (inp.e - 1).toNat) ≠ '\n'.toUInt8 := fun hn =>
      h _ (by rw [hline]; simp) (Or.inl hn)
    have hrest : ∀ c ∈ line { inp with e := inp.e - 1 }, ¬ends c := fun c hc =>
      h c (by rw [hline]; exact List.mem_append_left _ hc)
    rw [killLine, if_pos ⟨hne.symm, hlast⟩, ih hrest hlen]

/-- Storing `c` at `e`, with room for it: the unread characters stay and the
line grows by `c`. -/
theorem store_spec (hg : Good inp) (hroom : (inp.e - inp.r).toNat < INPUT_BUF) (c : UInt8) :
    let inp' : input := { inp with buf := Function.update inp.buf (slot INPUT_BUF inp.e.toNat) c
                                   e := inp.e + 1 }
    unread inp' = unread inp ∧ line inp' = line inp ++ [c] ∧
      (inp'.e - inp.r).toNat = (inp.e - inp.r).toNat + 1 := by
  intro inp'
  have hN : INPUT_BUF = 128 := rfl
  have hsplit := length_split hg.order
  have hw : (inp.e + 1 - inp.w).toNat = (inp.e - inp.w).toNat + 1 :=
    length_succ_stop (by have := UInt32.toNat_lt inp.r; omega)
  refine ⟨?_, ?_, length_succ_stop (by omega)⟩
  · -- the slot of `e` is not among the unread ones
    refine window_congr fun i hi => ?_
    change i < (inp.w - inp.r).toNat at hi
    have hne : slot INPUT_BUF (inp.r.toNat + i) ≠ slot INPUT_BUF (inp.r.toNat + (inp.e - inp.r).toNat) :=
      slot_ne (by omega) hroom
    rw [slot_stop INPUT_BUF_dvd inp.r inp.e] at hne
    exact Function.update_of_ne hne c inp.buf
  · unfold line
    show window (Function.update inp.buf (slot INPUT_BUF inp.e.toNat) c) inp.w.toNat
      (inp.e + 1 - inp.w).toNat = _
    rw [hw, ← slot_stop INPUT_BUF_dvd inp.w inp.e]
    exact window_push (by omega) c

/-- Committing: the line joins the unread characters. -/
theorem commit_spec (h : (inp.w - inp.r).toNat ≤ (inp.e - inp.r).toNat) :
    unread { inp with w := inp.e } = unread inp ++ line inp ∧ line { inp with w := inp.e } = [] ∧
      ∀ {u : input}, u.w = inp.w → committedBy u { inp with w := inp.e } = line inp := by
  refine ⟨window_r_e h, by simp [line], fun h₀ => ?_⟩
  simp only [committedBy, line, h₀]

theorem room_iff : inp.e - inp.r < INPUT_BUF.toUInt32 ↔ (inp.e - inp.r).toNat < INPUT_BUF := by
  rw [UInt32.lt_iff_toNat_lt]
  rfl

@[simp] theorem committedBy_self_w (inp : input) {inp' : input} (hw : inp'.w = inp.w) :
    committedBy inp inp' = [] := by
  simp [committedBy, hw]

end Lemmas

/-- `consoleintr1` is the editor `typed` on the lists the ring holds, it keeps
them `Good`, and it leaves `r` alone. -/
theorem edit_consoleintr1 {inp : input} (hg : Good inp) (c : UInt8) :
    ((unread (consoleintr1 inp c), line (consoleintr1 inp c)), committedBy inp (consoleintr1 inp c)) =
      typed (unread inp) (line inp) c ∧ Good (consoleintr1 inp c) ∧ (consoleintr1 inp c).r = inp.r := by
  have hlen := length_unread_add hg.order
  unfold consoleintr1 typed
  by_cases hP : c = C 'P'
  · simp only [if_pos hP]
    exact ⟨by simp, hg, trivial⟩
  rw [if_neg hP, if_neg hP]
  by_cases hU : c = C 'U'
  · -- `^U`: the line goes, up to `w`
    rw [if_pos hU, if_pos hU, killLine_all hg.open_line]
    exact ⟨by simp [unread, line], ⟨le_refl _, hg.order.trans hg.room, by simp [line]⟩, rfl⟩
  rw [if_neg hU, if_neg hU]
  by_cases hB : c = C 'H' ∨ c = 0x7f
  · -- backspace: the line loses its last character, if it has one
    rw [if_pos hB, if_pos hB]
    split
    · rename_i hne
      have hne' : inp.w ≠ inp.e := fun h => hne h.symm
      have hsnoc := line_snoc hne'
      have hpred := length_pred_stop hne'
      have hsplit := length_split hg.order
      have hpr : (inp.e - 1 - inp.r).toNat = (inp.w - inp.r).toNat + (inp.e - 1 - inp.w).toNat := by
        have : (inp.e - 1 - inp.r).toNat + 1 = (inp.e - inp.r).toNat := length_pred_stop (by
          intro he; rw [he] at hsplit; simp at hsplit; omega)
        omega
      refine ⟨by simp [unread, hsnoc], ⟨by dsimp only; omega, by dsimp only; have := hg.room; omega,
        fun x hx => hg.open_line x (by rw [hsnoc]; exact List.mem_append_left _ hx)⟩, rfl⟩
    · rename_i he
      have hnil : line inp = [] := by
        simp only [line, not_not.mp he, UInt32.sub_self]
        rfl
      exact ⟨by simp [hnil], hg, rfl⟩
  rw [if_neg hB, if_neg hB]
  have hiff : (c ≠ 0 ∧ inp.e - inp.r < INPUT_BUF.toUInt32) ↔
      (c ≠ 0 ∧ (unread inp).length + (line inp).length < INPUT_BUF) := by
    rw [room_iff, hlen]
  by_cases hS : c ≠ 0 ∧ inp.e - inp.r < INPUT_BUF.toUInt32
  · -- a character stored at `e`
    rw [if_pos hS, if_pos (hiff.mp hS)]
    have hroom : (inp.e - inp.r).toNat < INPUT_BUF := room_iff.mp hS.2
    obtain ⟨hu, hl, he⟩ := store_spec hg hroom (if c = '\r'.toUInt8 then '\n'.toUInt8 else c)
    generalize (if c = '\r'.toUInt8 then '\n'.toUInt8 else c) = c' at hu hl he ⊢
    dsimp only at hu hl he ⊢
    -- the ring is full exactly when the stored character is its last
    have hfull : inp.e + 1 = inp.r + INPUT_BUF.toUInt32 ↔
        (unread inp).length + (line inp).length + 1 = INPUT_BUF := by
      rw [← length_eq_iff (by decide), he, hlen]
    have hcond : (c' = '\n'.toUInt8 ∨ c' = C 'D' ∨ inp.e + 1 = inp.r + INPUT_BUF.toUInt32) ↔
        (ends c' ∨ (unread inp).length + (line inp).length + 1 = INPUT_BUF) := by
      rw [hfull, ends, or_assoc]
    by_cases hcommit : c' = '\n'.toUInt8 ∨ c' = C 'D' ∨ inp.e + 1 = inp.r + INPUT_BUF.toUInt32
    · rw [if_pos hcommit, if_pos (hcond.mp hcommit)]
      have horder : (inp.w - inp.r).toNat ≤ (inp.e + 1 - inp.r).toNat := by
        rw [he]; exact Nat.le_succ_of_le hg.order
      obtain ⟨hu₂, hl₂, hc₂⟩ := @commit_spec { inp with
        buf := Function.update inp.buf (slot INPUT_BUF inp.e.toNat) c', e := inp.e + 1 } horder
      dsimp only at hu₂ hl₂ hc₂
      refine ⟨?_, ⟨le_refl _, ?_, by rw [hl₂]; simp⟩, rfl⟩
      · rw [hu₂, hl₂, hc₂ (u := inp) rfl, hu, hl]
      · dsimp only
        rw [he]
        omega
    · rw [if_neg hcommit, if_neg (mt hcond.mpr hcommit)]
      have hopen : ¬ends c' := fun h => hcommit (by rcases h with h | h <;> simp [h])
      refine ⟨by rw [hu, hl]; simp, ⟨?_, ?_, ?_⟩, rfl⟩
      · dsimp only
        rw [he]
        exact Nat.le_succ_of_le hg.order
      · dsimp only
        rw [he]
        omega
      · rw [hl]
        intro x hx
        rcases List.mem_append.mp hx with hx | hx
        · exact hg.open_line x hx
        · rw [List.mem_singleton.mp hx]
          exact hopen
  · rw [if_neg hS, if_neg (mt hiff.mpr hS)]
    exact ⟨by simp, hg, rfl⟩

end Xv6.Console
