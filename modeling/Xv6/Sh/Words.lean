/-
What `nulterminate` leaves in the line: the C string at the start of each word of the
tree is the word.

`parsecmd` keeps each word as the two positions where it starts and ends, and
`nulterminate` writes a NUL at each end, so that `exec` and `open` can read the word
from its start as a C string (`cstr`). That this gives back the words of the line rests
on two facts of the tokens: the characters of a word are word characters, NULs
included in none of them, and the character at the end of a word, where another word's
NUL may fall, is not a word character. So no NUL lands inside a word, and each word has
one at its end or ends with the line.
-/
import Xv6.Sh.Accept

set_option autoImplicit false

namespace Xv6.Sh

open cmd

/-! ## Words of the tree, and the C strings of the line -/

/-- The words of a tree: the arguments of its commands and the files of its redirections. -/
def cmd.words : cmd → List (Nat × Nat)
  | execcmd argv => argv
  | redircmd c file efile _ _ => c.words ++ [(file, efile)]
  | pipecmd l r => l.words ++ r.words
  | listcmd l r => l.words ++ r.words
  | backcmd c => c.words

/-- The C string at `p` of the memory `m`: its characters from `p` up to the first NUL. -/
def cstr (m : List Char) (p : Nat) : List Char := (m.drop p).takeWhile (· != NUL)

/-- A NUL written at the end of each of the words `ws`. -/
def setNULs (ws : List (Nat × Nat)) (m : List Char) : List Char :=
  ws.foldl (fun m w => m.set w.2 NUL) m

/-- `nulterminate` writes a NUL at the end of each word of the tree. -/
theorem nulterminate_eq_setNULs (c : cmd) (m : List Char) : nulterminate c m = setNULs c.words m := by
  induction c generalizing m with
  | execcmd argv => rfl
  | redircmd c file efile mode fd ih =>
    rw [nulterminate, ih, cmd.words, setNULs, setNULs, List.foldl_append]
    rfl
  | pipecmd l r ihl ihr | listcmd l r ihl ihr =>
    rw [nulterminate, ihl, ihr, cmd.words, setNULs, setNULs, setNULs, List.foldl_append]
  | backcmd c ih => rw [nulterminate, ih, cmd.words]

@[simp] theorem length_setNULs (ws : List (Nat × Nat)) (m : List Char) : (setNULs ws m).length = m.length := by
  induction ws generalizing m with
  | nil => rfl
  | cons w ws ih => rw [setNULs, List.foldl_cons, ← setNULs, ih, List.length_set]

/-- After the writes, a position holds a NUL if a word ends there, and what it held if not. -/
theorem getElem?_setNULs (ws : List (Nat × Nat)) (m : List Char) (j : Nat) :
    (setNULs ws m)[j]? = if j ∈ ws.map Prod.snd ∧ j < m.length then some NUL else m[j]? := by
  induction ws generalizing m with
  | nil => simp [setNULs]
  | cons w ws ih =>
    rw [setNULs, List.foldl_cons, ← setNULs, ih, List.length_set, List.getElem?_set]
    by_cases hw : w.2 = j
    · by_cases hj : j < m.length <;> simp [hw, hj]
    · have hw' : ¬j = w.2 := Ne.symm hw
      simp only [hw, if_false, List.map_cons, List.mem_cons, hw', false_or]

/-! ## The words of the tokens -/

/-- `(q, e)` is a word of the line: its characters are word characters, and the one after
it is not, unless the line ends there. -/
structure IsWord (buf : List Char) (q e : Nat) : Prop where
  lt : q < e
  le : e ≤ buf.length
  inner : ∀ i, q ≤ i → i < e → isWordChar (deref buf i)
  stop : e < buf.length → isWordChar (deref buf e) = false

/-- The word `lex` has pending at `p`, if any: begun at `q` before `p`, and of word
characters up to `p`. -/
def Pending (buf : List Char) (w : Option Nat) (p : Nat) : Prop :=
  ∀ q, w = some q → q < p ∧ ∀ i, q ≤ i → i < p → isWordChar (deref buf i)

theorem mem_emit {w : Option Nat} {p : Nat} {ts : List Token} {t : Token} :
    t ∈ emit w p ts ↔ (∃ q, w = some q ∧ t = .word q p) ∨ t ∈ ts := by
  cases w <;> simp [emit]

section Lex

variable {buf : List Char}

/-- A pending word that stops at `p`, where the line ends or a character that is not a
word character stands, is a word of the line. -/
theorem Pending.isWord {q p : Nat} (hw : Pending buf (some q) p) (hp : p ≤ buf.length)
    (hstop : p < buf.length → isWordChar (deref buf p) = false) : IsWord buf q p :=
  ⟨(hw q rfl).1, hp, (hw q rfl).2, hstop⟩

/-- Each word `lex` emits is a word of the line, read from where the line is at `p`. -/
theorem lex_isWord (w : Option Nat) (l : List Char) (p : Nat) :
    buf.drop p = l → p ≤ buf.length → Pending buf w p → ∀ q e, .word q e ∈ lex w l p → IsWord buf q e := by
  fun_induction lex w l p with
  | case1 w p =>
    intro hl hp hw q e h
    rcases mem_emit.mp h with ⟨q', rfl, ht⟩ | h
    · cases ht
      -- the line ends at `p`
      have hlen : buf.length ≤ p := List.drop_eq_nil_iff.mp hl
      exact hw.isWord hp (by omega)
    · cases h
  | case2 w l p ih =>
    -- `>>` ends the pending word
    intro hl hp hw q e h
    have hl₂ : buf.drop (p + 2) = l := drop_succ_of_drop (drop_succ_of_drop hl)
    have hp₂ : p + 2 ≤ buf.length := lt_length_of_drop (drop_succ_of_drop hl)
    rcases mem_emit.mp h with ⟨q', rfl, ht⟩ | h
    · cases ht
      exact hw.isWord hp (fun _ => by rw [deref_of_drop hl]; decide)
    · rcases List.mem_cons.mp h with h | h
      · cases h
      · exact ih hl₂ hp₂ (fun _ h => by cases h) q e h
  | case3 w c l p _ hws ih =>
    -- whitespace ends the pending word
    intro hl hp hw q e h
    have hp₁ : p + 1 ≤ buf.length := lt_length_of_drop hl
    rcases mem_emit.mp h with ⟨q', rfl, ht⟩ | h
    · cases ht
      exact hw.isWord hp (fun _ => by rw [deref_of_drop hl]; simp [isWordChar, hws])
    · exact ih (drop_succ_of_drop hl) hp₁ (fun _ h => by cases h) q e h
  | case4 w c l p _ _ hsym ih =>
    -- a symbol ends the pending word, and is a token of its own
    intro hl hp hw q e h
    have hp₁ : p + 1 ≤ buf.length := lt_length_of_drop hl
    rcases mem_emit.mp h with ⟨q', rfl, ht⟩ | h
    · cases ht
      exact hw.isWord hp (fun _ => by rw [deref_of_drop hl]; simp [isWordChar, hsym])
    · rcases List.mem_cons.mp h with h | h
      · exact absurd h.symm (symbolToken_ne_word c q e)
      · exact ih (drop_succ_of_drop hl) hp₁ (fun _ h => by cases h) q e h
  | case5 w c l p _ hws hsym ih =>
    -- a word character: the pending word goes on over it
    intro hl hp hw q e h
    have hp₁ : p + 1 ≤ buf.length := lt_length_of_drop hl
    have hc : isWordChar (deref buf p) := by
      rw [deref_of_drop hl]
      simp [isWordChar, hws, hsym]
    refine ih (drop_succ_of_drop hl) hp₁ (fun q' hq' => ?_) q e h
    cases w with
    | none =>
      obtain rfl : p = q' := Option.some.inj hq'
      refine ⟨Nat.lt_succ_self p, fun i hi hi' => ?_⟩
      obtain rfl : i = p := by omega
      exact hc
    | some q₀ =>
      obtain rfl : q₀ = q' := Option.some.inj hq'
      obtain ⟨hlt, hin⟩ := hw q₀ rfl
      refine ⟨by omega, fun i hi hi' => ?_⟩
      rcases Nat.lt_or_ge i p with hip | hip
      · exact hin i hi hip
      · obtain rfl : i = p := by omega
        exact hc

theorem isWord_of_mem_toks {s q e : Nat} (h : .word q e ∈ toks buf s) (hs : s ≤ buf.length) :
    IsWord buf q e :=
  lex_isWord none (buf.drop s) s rfl hs (fun _ h => by cases h) q e h

end Lex

/-! ## The words of a derivation are words of the line -/

theorem words_wrap (c : cmd) (rs : List Redir) :
    (wrap c rs).words = c.words ++ rs.map fun r => (r.file, r.efile) := by
  induction rs generalizing c with
  | nil => simp
  | cons r rs ih => simp [wrap_cons, ih, cmd.words]

theorem words_iterate_backcmd (k : Nat) (c : cmd) : (backcmd^[k] c).words = c.words := by
  induction k with
  | zero => rfl
  | succ k ih => rw [Function.iterate_succ_apply', cmd.words, ih]

section Derives

variable {ts ts' : List Token}

theorem Redirs.files_mem {rs : List Redir} (h : Redirs ts rs ts') :
    ∀ r ∈ rs, .word r.file r.efile ∈ ts := by
  induction h with
  | nil => simp
  | cons _ h ih =>
    intro r hr
    rcases List.mem_cons.mp hr with rfl | hr
    · exact List.mem_cons_of_mem _ List.mem_cons_self
    · exact List.mem_cons_of_mem _ (List.mem_cons_of_mem _ (ih r hr))

theorem Args.words_mem {ws : List (Nat × Nat)} {rs : List Redir} (h : Args ts ws rs ts') :
    (∀ w ∈ ws, .word w.1 w.2 ∈ ts) ∧ ∀ r ∈ rs, .word r.file r.efile ∈ ts := by
  induction h with
  | nil => simp
  | cons hr ha ih =>
    refine ⟨fun w hw => ?_, fun r hr' => ?_⟩
    · rcases List.mem_cons.mp hw with rfl | hw
      · exact List.mem_cons_self
      · exact List.mem_cons_of_mem _ (hr.suffix.subset (ih.1 w hw))
    · rcases List.mem_append.mp hr' with hr' | hr'
      · exact List.mem_cons_of_mem _ (hr.files_mem r hr')
      · exact List.mem_cons_of_mem _ (hr.suffix.subset (ih.2 r hr'))

/-- Each word of a derivation's tree is a word token of what it derives from. -/
theorem Derives.words_mem {X : Sym} {c : cmd} (h : Derives X ts c ts') :
    ∀ w ∈ c.words, .word w.1 w.2 ∈ ts := by
  induction h with
  | back _ ih => rwa [words_iterate_backcmd]
  | list hp _ ihp ihl =>
    intro w hw
    rw [cmd.words, words_iterate_backcmd, List.mem_append] at hw
    rcases hw with hw | hw
    · exact ihp w hw
    · exact hp.suffix.subset (List.mem_append_right _ (List.mem_cons_of_mem _ (ihl w hw)))
  | pipe _ ih => exact ih
  | pipeTo he _ ihe ihp =>
    intro w hw
    rw [cmd.words, List.mem_append] at hw
    rcases hw with hw | hw
    · exact ihe w hw
    · exact he.suffix.subset (List.mem_cons_of_mem _ (ihp w hw))
  | block hl hr ih =>
    intro w hw
    rw [words_wrap, List.mem_append, List.mem_map] at hw
    rcases hw with hw | ⟨r, hr', rfl⟩
    · exact List.mem_cons_of_mem _ (ih w hw)
    · exact List.mem_cons_of_mem _ (hl.suffix.subset (List.mem_cons_of_mem _ (hr.files_mem r hr')))
  | exec hr ha _ =>
    intro w hw
    rw [words_wrap, cmd.words, List.mem_append, List.mem_map] at hw
    rcases hw with hw | ⟨r, hr', rfl⟩
    · exact hr.suffix.subset ((ha.words_mem).1 w hw)
    · rcases List.mem_append.mp hr' with hr' | hr'
      · exact hr.files_mem r hr'
      · exact hr.suffix.subset ((ha.words_mem).2 r hr')

end Derives

/-! ## The C strings of the words -/

theorem drop_eq_cons_of_getElem? {m : List Char} {i : Nat} {c : Char} (h : m[i]? = some c) :
    m.drop i = c :: m.drop (i + 1) := by
  obtain ⟨hi, rfl⟩ := List.getElem?_eq_some_iff.mp h
  exact List.drop_eq_getElem_cons hi

/-- The C string at `q` is the `e - q` characters of `buf` from `q` on, where `m` holds
them, none of them a NUL, and then a NUL or its end. -/
theorem cstr_eq_take {m buf : List Char} {q e : Nat} (hqe : q ≤ e)
    (hin : ∀ i, q ≤ i → i < e → ∃ c, m[i]? = some c ∧ buf[i]? = some c ∧ c ≠ NUL)
    (hend : m[e]? = none ∨ m[e]? = some NUL) : cstr m q = (buf.drop q).take (e - q) := by
  -- induction on the characters left to read
  induction hd : e - q generalizing q with
  | zero =>
    obtain rfl : q = e := by omega
    rcases hend with hn | hn
    · rw [cstr, List.drop_eq_nil_of_le (List.getElem?_eq_none_iff.mp hn)]
      rfl
    · rw [cstr, drop_eq_cons_of_getElem? hn, List.takeWhile_cons_of_neg (by simp)]
      rfl
  | succ d ih =>
    obtain ⟨c, hm, hb, hc⟩ := hin q le_rfl (by omega)
    have hrest := ih (q := q + 1) (by omega) (fun i hi hi' => hin i (by omega) hi') (by omega)
    rw [cstr, drop_eq_cons_of_getElem? hm, List.takeWhile_cons_of_pos (p := (· != NUL)) (bne_iff_ne.mpr hc), ← cstr, hrest,
      drop_eq_cons_of_getElem? hb, List.take_succ_cons]

variable {buf : List Char}

theorem getElem?_eq_deref {i : Nat} (h : i < buf.length) : buf[i]? = some (deref buf i) := by
  rw [deref, List.getD_eq_getElem?_getD, List.getElem?_eq_getElem h]
  rfl

/-- No word ends inside another: the character after a word is not a word character. -/
theorem IsWord.end_not_inside {q e q' e' : Nat} (hw : IsWord buf q e) (hw' : IsWord buf q' e') :
    ¬(q ≤ e' ∧ e' < e) := by
  rintro ⟨h₁, h₂⟩
  have := hw'.stop (by have := hw.le; omega)
  rw [hw.inner e' h₁ h₂] at this
  cases this

/-- After `parsecmd`, the C string at the start of each word of the tree is that word of the
line: `nulterminate` ends each word with a NUL and puts none inside one. -/
theorem parsecmd_cstr (hnul : NUL ∉ buf) {c : cmd} {buf' : List Char} (h : parsecmd buf = .ok (c, buf')) :
    ∀ w ∈ c.words, cstr buf' w.1 = (buf.drop w.1).take (w.2 - w.1) := by
  obtain ⟨hd, rfl⟩ := parsecmd_sound hnul h
  have hword : ∀ w ∈ c.words, IsWord buf w.1 w.2 :=
    fun w hw => isWord_of_mem_toks (hd.words_mem w hw) (Nat.zero_le _)
  intro w hw
  have hq := hword w hw
  rw [nulterminate_eq_setNULs]
  refine cstr_eq_take hq.lt.le (fun i hi hi' => ⟨deref buf i, ?_, ?_, ?_⟩) ?_
  · -- no word ends at `i`: its character is a word character
    have hlt : i < buf.length := by have := hq.le; omega
    have hno : i ∉ c.words.map Prod.snd := by
      rw [List.mem_map]
      rintro ⟨w', hw', rfl⟩
      exact hq.end_not_inside (hword w' hw') ⟨hi, hi'⟩
    rw [getElem?_setNULs, if_neg (fun h => hno h.1), getElem?_eq_deref hlt]
  · exact getElem?_eq_deref (by have := hq.le; omega)
  · -- the line has no NUL
    have hlt : i < buf.length := by have := hq.le; omega
    intro h
    rw [← h] at hnul
    exact hnul (List.mem_of_getElem? (getElem?_eq_deref hlt))
  · -- a NUL at the word's end, or the end of the line
    rw [getElem?_setNULs]
    rcases Nat.lt_or_ge w.2 buf.length with hlt | hge
    · right
      rw [if_pos ⟨List.mem_map_of_mem hw, hlt⟩]
    · left
      rw [if_neg (fun h => absurd h.2 (by omega)), List.getElem?_eq_none_iff]
      exact hge

theorem parsecmd_cstr_redir :
    NUL ∉ "cat < in".toList ∧
      parsecmd "cat < in".toList = .ok (redircmd (execcmd [(0, 3)]) 6 8 0 0,
        nulterminate (redircmd (execcmd [(0, 3)]) 6 8 0 0) "cat < in".toList) ∧
      ∀ w ∈ (redircmd (execcmd [(0, 3)]) 6 8 0 0).words,
        cstr (nulterminate (redircmd (execcmd [(0, 3)]) 6 8 0 0) "cat < in".toList) w.1 =
          ("cat < in".toList.drop w.1).take (w.2 - w.1) :=
  ⟨by decide, by decide, parsecmd_cstr (by decide) (by decide)⟩

end Xv6.Sh
