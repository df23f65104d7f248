/-
The grammar of `sh.c`'s command lines, and that the parser builds only what the
grammar derives.

    line   ::= pipe {'&'} [';' line]
    pipe   ::= exec ['|' pipe]
    exec   ::= '(' line ')' redirs | redirs {word redirs}
    redirs ::= {('<' | '>' | '>>') word}

over the tokens of `Xv6.Sh.Lex`, with at most `MAXARGS - 1` words in an `exec`.
`Derives X ts c ts'` says that a front of the tokens `ts` is an `X` whose tree is
`c`, and that `ts'` follows it. The tree is the derivation's: `|` and `;` nest to the
right, each `&` wraps what stands before it, and the redirections wrap their
command or block in the order they come, the first innermost.

`sound` shows that each parse function, at any fuel, builds a tree that the grammar
derives from the tokens it reads. The other direction is `Xv6.Sh.Accept`.
-/
import Xv6.Sh.Parse

set_option autoImplicit false

namespace Xv6.Sh

open StateExcept cmd
open Xv6.Fs (O_RDONLY O_WRONLY O_CREATE)

/-! ## The grammar -/

/-- A redirection: the word of its file, and the mode and fd it opens the file with. -/
structure Redir where
  file : Nat
  efile : Nat
  mode : Nat
  fd : Nat
  deriving DecidableEq, Repr

/-- The mode and fd of a redirection's token: `<` reads on fd 0, `>` and `>>` write on
fd 1. -/
def redirOf : Token → Option (Nat × Nat)
  | .lt => some (O_RDONLY, 0)
  | .gt | .gtgt => some (O_WRONLY ||| O_CREATE, 1)
  | _ => none

/-- The command `c` under the redirections `rs`, the first innermost. -/
def wrap (c : cmd) (rs : List Redir) : cmd :=
  rs.foldl (fun c r => redircmd c r.file r.efile r.mode r.fd) c

/-- `redirs ::= {('<' | '>' | '>>') word}`: the redirections `rs` at the front of `ts`,
which leave `ts'`. -/
inductive Redirs : List Token → List Redir → List Token → Prop
  | nil (ts : List Token) : Redirs ts [] ts
  | cons {t : Token} {q e mode fd : Nat} {ts ts' : List Token} {rs : List Redir} :
      redirOf t = some (mode, fd) → Redirs ts rs ts' →
      Redirs (t :: .word q e :: ts) (⟨q, e, mode, fd⟩ :: rs) ts'

/-- `{word redirs}`: the words `ws` of an `exec`, and the redirections `rs` among them. -/
inductive Args : List Token → List (Nat × Nat) → List Redir → List Token → Prop
  | nil (ts : List Token) : Args ts [] [] ts
  | cons {q e : Nat} {ts ts₁ ts' : List Token} {rs rs' : List Redir} {ws : List (Nat × Nat)} :
      Redirs ts rs ts₁ → Args ts₁ ws rs' ts' → Args (.word q e :: ts) ((q, e) :: ws) (rs ++ rs') ts'

/-- The nonterminals of the grammar. -/
inductive Sym where
  | line
  | pipe
  | exec
  deriving DecidableEq, Repr

/-- `Derives X ts c ts'`: the front of `ts` is an `X` with the tree `c`, and leaves `ts'`.
One constructor for each alternative of each rule. -/
inductive Derives : Sym → List Token → cmd → List Token → Prop
  /-- `line ::= pipe {'&'}` -/
  | back {ts ts' : List Token} {c : cmd} {k : Nat} :
      Derives .pipe ts c (List.replicate k .amp ++ ts') → Derives .line ts (backcmd^[k] c) ts'
  /-- `line ::= pipe {'&'} ';' line` -/
  | list {ts ts₁ ts' : List Token} {c c' : cmd} {k : Nat} :
      Derives .pipe ts c (List.replicate k .amp ++ .semi :: ts₁) → Derives .line ts₁ c' ts' →
      Derives .line ts (listcmd (backcmd^[k] c) c') ts'
  /-- `pipe ::= exec` -/
  | pipe {ts ts' : List Token} {c : cmd} : Derives .exec ts c ts' → Derives .pipe ts c ts'
  /-- `pipe ::= exec '|' pipe` -/
  | pipeTo {ts ts₁ ts' : List Token} {c c' : cmd} :
      Derives .exec ts c (.pipe :: ts₁) → Derives .pipe ts₁ c' ts' → Derives .pipe ts (pipecmd c c') ts'
  /-- `exec ::= '(' line ')' redirs` -/
  | block {ts ts₁ ts' : List Token} {c : cmd} {rs : List Redir} :
      Derives .line ts c (.rparen :: ts₁) → Redirs ts₁ rs ts' →
      Derives .exec (.lparen :: ts) (wrap c rs) ts'
  /-- `exec ::= redirs {word redirs}` -/
  | exec {ts ts₁ ts' : List Token} {rs rs' : List Redir} {ws : List (Nat × Nat)} :
      Redirs ts rs ts₁ → Args ts₁ ws rs' ts' → ws.length < MAXARGS →
      Derives .exec ts (wrap (execcmd ws) (rs ++ rs')) ts'

/-! ## Trees and the tokens a derivation leaves -/

@[simp] theorem wrap_nil (c : cmd) : wrap c [] = c := rfl

theorem wrap_cons (c : cmd) (r : Redir) (rs : List Redir) :
    wrap c (r :: rs) = wrap (redircmd c r.file r.efile r.mode r.fd) rs := rfl

theorem wrap_append (c : cmd) (rs rs' : List Redir) : wrap c (rs ++ rs') = wrap (wrap c rs) rs' :=
  List.foldl_append

/-- The words `parseexec` writes through its pointer land in the `execcmd` under the
redirections. -/
theorem withArgv_wrap (c : cmd) (rs : List Redir) (ws : List (Nat × Nat)) :
    withArgv (wrap c rs) ws = wrap (withArgv c ws) rs := by
  induction rs generalizing c with
  | nil => rfl
  | cons r rs ih => rw [wrap_cons, ih, wrap_cons, withArgv]

theorem Redirs.suffix {ts ts' : List Token} {rs : List Redir} (h : Redirs ts rs ts') : ts' <:+ ts := by
  induction h with
  | nil ts => exact List.suffix_refl ts
  | cons _ _ ih => exact ih.trans ((List.suffix_cons _ _).trans (List.suffix_cons _ _))

theorem Args.suffix {ts ts' : List Token} {ws : List (Nat × Nat)} {rs : List Redir}
    (h : Args ts ws rs ts') : ts' <:+ ts := by
  induction h with
  | nil ts => exact List.suffix_refl ts
  | cons hr _ ih => exact ih.trans (hr.suffix.trans (List.suffix_cons _ _))

/-- What a derivation leaves is what follows its front. -/
theorem Derives.suffix {X : Sym} {ts ts' : List Token} {c : cmd} (h : Derives X ts c ts') : ts' <:+ ts := by
  induction h with
  | back _ ih => exact (List.suffix_append _ _).trans ih
  | list _ _ ih₁ ih₂ =>
    exact ih₂.trans ((List.suffix_cons _ _).trans ((List.suffix_append _ _).trans ih₁))
  | pipe _ ih => exact ih
  | pipeTo _ _ ih₁ ih₂ => exact ih₂.trans ((List.suffix_cons _ _).trans ih₁)
  | block _ hr ih => exact hr.suffix.trans ((List.suffix_cons _ _).trans (ih.trans (List.suffix_cons _ _)))
  | exec hr ha _ => exact ha.suffix.trans hr.suffix

/-! ## Soundness of the loops -/

section Sound

variable {buf : List Char}

/-- `parseredirs` builds the redirections of the tokens it reads. -/
theorem parseredirs_sound (hnul : NUL ∉ buf) {n : Nat} {c c' : cmd} {ps ps' : Nat}
    (h : Runs (parseredirs buf n c) ps c' ps') :
    ∃ rs, Redirs (toks buf ps) rs (toks buf ps') ∧ c' = wrap c rs := by
  induction n generalizing c ps with
  | zero => simp [parseredirs] at h
  | succ n ih =>
    simp only [parseredirs, runs_peek_bind hnul (l := ['<', '>']) rfl] at h
    by_cases hb : peeks ['<', '>'] (toks buf ps) = true
    · -- a redirection token, then the word of its file
      simp only [hb, if_true, runs_bind, runs_ite, runs_throw, false_and, exists_false, and_false,
        false_or, ne_eq, not_not] at h
      obtain ⟨⟨tok, q₀, e₀⟩, ps₁, h₁, ⟨ret, q, e⟩, ps₂, h₂, ha, hrest⟩ := h
      have ht₁ := gettoken_toks hnul h₁
      rw [toks_scan_ws] at ht₁
      obtain ⟨t, hts, hpt, htok⟩ := took_of_peeks hb ht₁
      have hfile := took_word (gettoken_toks hnul h₂) ha
      obtain ⟨rs, hrs, rfl⟩ := ih hrest
      dsimp only at htok hfile
      subst htok
      rw [hts, hfile]
      -- `peek` saw `<` or `>`: the tokens `<`, `>` and `>>`
      cases t <;> simp [peeks, Token.lead, strchr] at hpt
      all_goals exact ⟨_, .cons rfl hrs, rfl⟩
    · simp only [hb, Bool.false_eq_true, if_false, runs_pure] at h
      obtain ⟨rfl, rfl⟩ := h
      rw [toks_scan_ws]
      exact ⟨[], .nil _, rfl⟩

/-- `parseline`'s loop wraps a `backcmd` around the command for each `&` it reads. -/
theorem parselineLoop_sound (hnul : NUL ∉ buf) {n : Nat} {c c' : cmd} {ps ps' : Nat}
    (h : Runs (parselineLoop buf n c) ps c' ps') :
    ∃ k, toks buf ps = List.replicate k .amp ++ toks buf ps' ∧ c' = backcmd^[k] c := by
  induction n generalizing c ps with
  | zero => simp [parselineLoop] at h
  | succ n ih =>
    simp only [parselineLoop, runs_peek_bind hnul (l := ['&']) rfl] at h
    by_cases hb : peeks ['&'] (toks buf ps) = true
    · simp only [hb, if_true, runs_bind] at h
      obtain ⟨_, ps₁, h₁, hrest⟩ := h
      obtain ⟨k, hk, rfl⟩ := ih hrest
      refine ⟨k + 1, ?_, rfl⟩
      rw [gettoken_after_peek hnul (by decide) (by decide) hb h₁, hk]
      rfl
    · simp only [hb, Bool.false_eq_true, if_false, runs_pure] at h
      obtain ⟨rfl, rfl⟩ := h
      rw [toks_scan_ws]
      exact ⟨0, rfl, rfl⟩

/-- `parseexec`'s loop reads the words of the command and the redirections among them,
and stops with fewer than `MAXARGS` words. -/
theorem parseexecLoop_sound (hnul : NUL ∉ buf) {n : Nat} {c : cmd} {argv : List (Nat × Nat)}
    {r : cmd × List (Nat × Nat)} {ps ps' : Nat} (hargv : argv.length < MAXARGS)
    (h : Runs (parseexecLoop buf n c argv) ps r ps') :
    ∃ ws rs, Args (toks buf ps) ws rs (toks buf ps') ∧ r = (wrap c rs, argv ++ ws) ∧
      (argv ++ ws).length < MAXARGS := by
  induction n generalizing c argv ps with
  | zero => simp [parseexecLoop] at h
  | succ n ih =>
    simp only [parseexecLoop, runs_peek_bind hnul (l := ['|', ')', '&', ';']) rfl] at h
    by_cases hb : peeks ['|', ')', '&', ';'] (toks buf ps) = true
    · -- the command ends at the symbol `peek` saw
      simp only [hb, if_true, runs_pure] at h
      obtain ⟨rfl, rfl⟩ := h
      rw [toks_scan_ws]
      exact ⟨[], [], .nil _, by simp, by simpa using hargv⟩
    simp only [hb, Bool.false_eq_true, if_false, runs_bind, runs_ite, runs_throw, runs_pure,
      false_and, exists_false, and_false, false_or, ne_eq, not_not, not_le] at h
    obtain ⟨⟨tok, q, e⟩, ps₁, h₁, ⟨hend, rfl, rfl⟩ | ⟨-, ha, hmax, c₁, ps₂, hred, hrest⟩⟩ := h
    · -- the end of the line
      have ht := gettoken_toks hnul h₁
      rw [toks_scan_ws] at ht
      obtain ⟨hts, hts'⟩ := took_NUL ht hend
      rw [hts, hts']
      exact ⟨[], [], .nil _, by simp, by simpa using hargv⟩
    · -- a word, and the redirections after it
      have ht := gettoken_toks hnul h₁
      rw [toks_scan_ws] at ht
      have hword := took_word ht ha
      obtain ⟨rs₁, hrs₁, rfl⟩ := parseredirs_sound hnul hred
      obtain ⟨ws, rs, hargs, rfl, hlen⟩ := ih hmax hrest
      refine ⟨(q, e) :: ws, rs₁ ++ rs, ?_, ?_, by simpa using hlen⟩
      · rw [hword]
        exact .cons hrs₁ hargs
      · rw [wrap_append, List.append_assoc, List.singleton_append]

end Sound

/-! ## Soundness of the parse functions -/

/-- Every run of the parse function `x` reads an `X` from the tokens left and builds
its tree. -/
def Sound (buf : List Char) (X : Sym) (x : ShM cmd) : Prop :=
  ∀ ps c ps', Runs x ps c ps' → Derives X (toks buf ps) c (toks buf ps')

namespace Sound

variable {buf : List Char} {n : Nat}

theorem of_throw {X : Sym} (e : String) : Sound buf X (throw e) :=
  fun _ _ _ h => absurd h (runs_throw _ _ _ _)

theorem parseline_succ (hnul : NUL ∉ buf) (hp : Sound buf .pipe (parsepipe buf n))
    (hl : Sound buf .line (parseline buf n)) : Sound buf .line (parseline buf (n + 1)) := by
  intro ps c ps' h
  simp only [parseline, runs_bind] at h
  obtain ⟨c₁, ps₁, h₁, c₂, ps₂, h₂, b, ps₃, hpeek, h⟩ := h
  obtain ⟨rfl, rfl⟩ := (peek_iff hnul (l := [';']) rfl).mp hpeek
  obtain ⟨k, hk, rfl⟩ := parselineLoop_sound hnul h₂
  have hpipe := hp _ _ _ h₁
  rw [hk] at hpipe
  by_cases hb : peeks [';'] (toks buf ps₂) = true
  · -- `;` and the line after it
    simp only [hb, if_true, runs_bind, runs_pure] at h
    obtain ⟨_, ps₄, h₄, right, ps₅, h₅, rfl, rfl⟩ := h
    rw [gettoken_after_peek hnul (by decide) (by decide) hb h₄] at hpipe
    exact .list hpipe (hl _ _ _ h₅)
  · simp only [hb, Bool.false_eq_true, if_false, runs_pure] at h
    obtain ⟨rfl, rfl⟩ := h
    rw [toks_scan_ws]
    exact .back hpipe

theorem parsepipe_succ (hnul : NUL ∉ buf) (he : Sound buf .exec (parseexec buf n))
    (hp : Sound buf .pipe (parsepipe buf n)) : Sound buf .pipe (parsepipe buf (n + 1)) := by
  intro ps c ps' h
  simp only [parsepipe, runs_bind] at h
  obtain ⟨c₁, ps₁, h₁, b, ps₂, hpeek, h⟩ := h
  obtain ⟨rfl, rfl⟩ := (peek_iff hnul (l := ['|']) rfl).mp hpeek
  have hexec := he _ _ _ h₁
  by_cases hb : peeks ['|'] (toks buf ps₁) = true
  · -- `|` and the pipeline after it
    simp only [hb, if_true, runs_bind, runs_pure] at h
    obtain ⟨_, ps₃, h₃, right, ps₄, h₄, rfl, rfl⟩ := h
    rw [gettoken_after_peek hnul (by decide) (by decide) hb h₃] at hexec
    exact .pipeTo hexec (hp _ _ _ h₄)
  · simp only [hb, Bool.false_eq_true, if_false, runs_pure] at h
    obtain ⟨rfl, rfl⟩ := h
    rw [toks_scan_ws]
    exact .pipe hexec

theorem parseblock_succ (hnul : NUL ∉ buf) (hl : Sound buf .line (parseline buf n)) :
    Sound buf .exec (parseblock buf (n + 1)) := by
  intro ps c ps' h
  simp only [parseblock, runs_peek_bind hnul (l := ['(']) rfl] at h
  by_cases hb : peeks ['('] (toks buf ps) = true
  swap
  · simp [hb, runs_bind] at h
  simp only [hb, Bool.not_true, Bool.false_eq_true, if_false, runs_bind] at h
  obtain ⟨_, ps₁, h₁, c₁, ps₂, h₂, b, ps₃, hpeek, h⟩ := h
  obtain ⟨rfl, rfl⟩ := (peek_iff hnul (l := [')']) rfl).mp hpeek
  by_cases hb' : peeks [')'] (toks buf ps₂) = true
  swap
  · simp [hb', runs_bind] at h
  simp only [hb', Bool.not_true, Bool.false_eq_true, if_false, runs_bind] at h
  obtain ⟨_, ps₄, h₄, h⟩ := h
  obtain ⟨rs, hrs, rfl⟩ := parseredirs_sound hnul h
  have hline := hl _ _ _ h₂
  rw [gettoken_after_peek hnul (by decide) (by decide) hb' h₄] at hline
  rw [gettoken_after_peek hnul (by decide) (by decide) hb h₁]
  exact .block hline hrs

theorem parseexec_succ (hnul : NUL ∉ buf) (hb : Sound buf .exec (parseblock buf n)) :
    Sound buf .exec (parseexec buf (n + 1)) := by
  intro ps c ps' h
  simp only [parseexec, runs_peek_bind hnul (l := ['(']) rfl] at h
  rw [← toks_scan_ws buf ps]
  by_cases hp : peeks ['('] (toks buf ps) = true
  · -- a block
    simp only [hp, if_true] at h
    exact hb _ _ _ h
  · -- the words and redirections of an `execcmd`
    simp only [hp, Bool.false_eq_true, if_false, runs_bind, runs_pure] at h
    obtain ⟨c₁, ps₁, h₁, ⟨c₂, argv⟩, ps₂, h₂, rfl, rfl⟩ := h
    obtain ⟨rs, hrs, rfl⟩ := parseredirs_sound hnul h₁
    obtain ⟨ws, rs', hargs, hr, hlen⟩ := parseexecLoop_sound hnul (by decide) h₂
    cases hr
    rw [List.nil_append] at hlen ⊢
    rw [withArgv_wrap, withArgv_wrap, ← wrap_append]
    exact .exec hrs hargs hlen

end Sound

/-- At any fuel, each parse function builds a tree the grammar derives from the tokens
it reads: fuel only decides whether a run completes. -/
theorem sound {buf : List Char} (hnul : NUL ∉ buf) (n : Nat) :
    Sound buf .line (parseline buf n) ∧ Sound buf .pipe (parsepipe buf n) ∧
      Sound buf .exec (parseblock buf n) ∧ Sound buf .exec (parseexec buf n) := by
  induction n with
  | zero => exact ⟨.of_throw _, .of_throw _, .of_throw _, .of_throw _⟩
  | succ n ih =>
    obtain ⟨hl, hp, hb, he⟩ := ih
    exact ⟨.parseline_succ hnul hp hl, .parsepipe_succ hnul he hp, .parseblock_succ hnul hl,
      .parseexec_succ hnul hb⟩

end Xv6.Sh
