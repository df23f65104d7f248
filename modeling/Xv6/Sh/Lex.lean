/-
The tokenizer of `sh.c`: `gettoken` and `peek` over a command line, and the
tokens they read it as.

A line is the characters before its NUL. The cursor `*ps` is a position in it,
and the line's end `es` is its length, where `*es` reads the NUL (`deref`).
`gettoken` and `peek` are programs of `ShM` over the cursor.

`lex` says what the tokens of a line are, apart from the two functions: words
are the maximal runs of characters outside `whitespace` and `symbols`, each
symbol is a token, and `>>` is one. `toks buf s` is the tokens of what is left
of the line at `s`. Each of `peek` and `gettoken` gets one lemma in those terms
(`peek_iff`, `gettoken_toks`): the parser's proofs use them and never unfold the
scanning.
-/
import Xv6.Lib.StateExcept
import Mathlib.Data.List.TakeWhile

set_option autoImplicit false

namespace Xv6.Sh

open StateExcept

/-! ## Characters -/

/-- The NUL that ends a line. -/
def NUL : Char := '\x00'

/-- `whitespace[]` of `sh.c`: `" \t\r\n\v"`. -/
def whitespace : List Char := [' ', '\t', '\r', '\n', '\x0b']

/-- `symbols[]` of `sh.c`. -/
def symbols : List Char := ['<', '|', '>', '&', ';', '(', ')']

/-- Whether `ulib.c`'s `strchr(s, c)` finds `c`. It stops at the NUL of `s`, so it
never finds the NUL itself, which none of these lists holds. -/
def strchr (s : List Char) (c : Char) : Bool := s.contains c

/-- The characters of a word: neither whitespace nor a symbol. -/
def isWordChar (c : Char) : Bool := !strchr whitespace c && !strchr symbols c

/-- `*s` on a line: past its last character stands the NUL. -/
def deref (buf : List Char) (s : Nat) : Char := buf.getD s NUL

/-- `while(s < es && p(*s)) s++`: the first position from `s` on that is the end of
the line or fails `p`. -/
def scan (p : Char → Bool) (buf : List Char) (s : Nat) : Nat :=
  s + ((buf.drop s).takeWhile p).length

/-- Programs over the cursor `*ps` that stop with the message of a `panic`. -/
abbrev ShM := StateT Nat (Except String)

section Scanner

variable (buf : List Char)

/-- `gettoken(ps, es, &q, &eq)`: the token at the cursor, as the code `gettoken`
returns (the NUL at the end of the line, the symbol itself, `'+'` for `>>`, `'a'`
for a word), with `*q` and `*eq`, where it starts and ends. The cursor is left
past the whitespace that follows it. -/
def gettoken : ShM (Char × Nat × Nat) := do
  let s := scan (strchr whitespace) buf (← get)
  let (ret, e) : Char × Nat := match deref buf s with
    | '\x00' => (NUL, s)
    | '|' | '(' | ')' | ';' | '&' | '<' => (deref buf s, s + 1)
    | '>' => if deref buf (s + 1) = '>' then ('+', s + 2) else ('>', s + 1)
    | _ => ('a', scan isWordChar buf s)
  set (scan (strchr whitespace) buf e)
  return (ret, s, e)

/-- `peek(ps, es, toks)`: past the whitespace at the cursor, whether the next
character is one of `toks`, never the NUL. The cursor is left there. -/
def peek (toks : List Char) : ShM Bool := do
  let s := scan (strchr whitespace) buf (← get)
  set s
  return deref buf s != NUL && strchr toks (deref buf s)

end Scanner

/-! ## Tokens -/

/-- A token of a command line. A word keeps where it starts and ends in the line. -/
inductive Token where
  | word (q eq : Nat)
  | lt
  | gt
  | gtgt
  | pipe
  | amp
  | semi
  | lparen
  | rparen
  deriving DecidableEq, Repr

namespace Token

/-- The value `gettoken` returns for the token. -/
def code : Token → Char
  | word _ _ => 'a'
  | lt => '<'
  | gt => '>'
  | gtgt => '+'
  | pipe => '|'
  | amp => '&'
  | semi => ';'
  | lparen => '('
  | rparen => ')'

/-- The character a symbol token starts with, the one `peek` looks at. -/
def lead : Token → Option Char
  | word _ _ => none
  | lt => some '<'
  | gt | gtgt => some '>'
  | pipe => some '|'
  | amp => some '&'
  | semi => some ';'
  | lparen => some '('
  | rparen => some ')'

theorem code_ne_NUL (t : Token) : t.code ≠ NUL := by
  cases t <;> simp only [code] <;> decide

/-- `gettoken` returns `'a'` for words and only for them. -/
theorem code_eq_a {t : Token} : t.code = 'a' ↔ ∃ q e, t = word q e := by
  cases t <;> simp [code]

end Token

/-- The token of a character of `symbols`. -/
def symbolToken : Char → Token
  | '<' => .lt
  | '|' => .pipe
  | '>' => .gt
  | '&' => .amp
  | ';' => .semi
  | '(' => .lparen
  | _ => .rparen

/-- The word begun at `q` and still pending at `p`, if any, ahead of `ts`. -/
def emit : Option Nat → Nat → List Token → List Token
  | none, _, ts => ts
  | some q, p, ts => .word q p :: ts

/-- The tokens of `l`, which stands at position `p` of the line, with the word begun
at `q` still being read if `w = some q`. Whitespace ends a word and is dropped, a
symbol ends a word and is a token of its own, `>>` is one token, and any other
character begins or continues a word. -/
def lex : Option Nat → List Char → Nat → List Token
  | w, [], p => emit w p []
  | w, '>' :: '>' :: l, p => emit w p (.gtgt :: lex none l (p + 2))
  | w, c :: l, p =>
    if strchr whitespace c then emit w p (lex none l (p + 1))
    else if strchr symbols c then emit w p (symbolToken c :: lex none l (p + 1))
    else lex (some (w.getD p)) l (p + 1)

/-- The tokens of what is left of the line at `s`. -/
def toks (buf : List Char) (s : Nat) : List Token := lex none (buf.drop s) s

/-- What `peek(ps, es, l)` returns when `ts` are the tokens left. -/
def peeks (l : List Char) : List Token → Bool
  | t :: _ => t.lead.any (strchr l)
  | [] => false

/-! ## The lexer, a character at a time -/

section Lex

variable {w : Option Nat} {c : Char} {l : List Char} {p : Nat}

theorem ne_gt_of_ws (hc : strchr whitespace c) : c ≠ '>' := by
  rintro rfl
  exact absurd hc (by decide)

theorem ne_gt_of_word (hc : isWordChar c) : c ≠ '>' := by
  rintro rfl
  exact absurd hc (by decide)

theorem lex_ws (hc : strchr whitespace c) : lex w (c :: l) p = emit w p (lex none l (p + 1)) := by
  have hgt := ne_gt_of_ws hc
  rw [lex.eq_3 _ _ _ _ (fun _ h _ => absurd h hgt), if_pos hc]

theorem lex_word (hc : isWordChar c) : lex w (c :: l) p = lex (some (w.getD p)) l (p + 1) := by
  have hgt := ne_gt_of_word hc
  simp only [isWordChar, Bool.and_eq_true, Bool.not_eq_true'] at hc
  rw [lex.eq_3 _ _ _ _ (fun _ h _ => absurd h hgt), if_neg (by simp [hc.1]), if_neg (by simp [hc.2])]

theorem not_ws_of_sym (hc : strchr symbols c) : ¬strchr whitespace c := by
  simp only [strchr, symbols, List.contains_eq_mem, List.mem_cons, List.not_mem_nil, or_false,
    decide_eq_true_eq] at hc
  rcases hc with rfl | rfl | rfl | rfl | rfl | rfl | rfl <;> decide

theorem lex_sym (hc : strchr symbols c) (hgt : c ≠ '>') :
    lex w (c :: l) p = emit w p (symbolToken c :: lex none l (p + 1)) := by
  rw [lex.eq_3 _ _ _ _ (fun _ h _ => absurd h hgt), if_neg (not_ws_of_sym hc), if_pos hc]

theorem lex_gtgt : lex w ('>' :: '>' :: l) p = emit w p (.gtgt :: lex none l (p + 2)) := by
  rw [lex.eq_2]

theorem lex_gt (hl : l.head? ≠ some '>') : lex w ('>' :: l) p = emit w p (.gt :: lex none l (p + 1)) := by
  rw [lex.eq_3 _ _ _ _ (fun _ _ h => hl (by rw [h]; rfl))]
  rfl

/-- A character that cannot be in a word ends the pending word before anything
else happens. -/
theorem lex_not_word (hc : ¬isWordChar c) : lex w (c :: l) p = emit w p (lex none (c :: l) p) := by
  by_cases hws : strchr whitespace c
  · rw [lex_ws hws, lex_ws hws]
    rfl
  have hsym : strchr symbols c := by
    simpa [isWordChar, hws] using hc
  by_cases hgt : c = '>'
  · subst hgt
    by_cases hl : l.head? = some '>'
    · obtain ⟨l', rfl⟩ : ∃ l', l = '>' :: l' := by
        cases l with
        | nil => cases hl
        | cons d l' =>
          simp only [List.head?_cons, Option.some.injEq] at hl
          exact ⟨l', by rw [hl]⟩
      rw [lex_gtgt, lex_gtgt]
      rfl
    · rw [lex_gt hl, lex_gt hl]
      rfl
  · rw [lex_sym hsym hgt, lex_sym hsym hgt]
    rfl

/-- A run of word characters continues the pending word. -/
theorem lex_some_run {q : Nat} {u : List Char} (hu : ∀ c ∈ u, isWordChar c) :
    lex (some q) (u ++ l) p = lex (some q) l (p + u.length) := by
  induction u generalizing p with
  | nil => rfl
  | cons c u ih =>
    rw [List.cons_append, lex_word (hu c List.mem_cons_self), Option.getD_some,
      ih (fun d hd => hu d (List.mem_cons_of_mem c hd)), List.length_cons]
    congr 1
    omega

/-- Whitespace between tokens is dropped. -/
theorem lex_ws_run {u : List Char} (hu : ∀ c ∈ u, strchr whitespace c) :
    lex none (u ++ l) p = lex none l (p + u.length) := by
  induction u generalizing p with
  | nil => rfl
  | cons c u ih =>
    rw [List.cons_append, lex_ws (hu c List.mem_cons_self), emit,
      ih (fun d hd => hu d (List.mem_cons_of_mem c hd)), List.length_cons]
    congr 1
    omega

/-- The pending word ends where the word characters do. -/
theorem lex_some_stop {q : Nat} (hl : ∀ c ∈ l.head?, ¬isWordChar c) :
    lex (some q) l p = .word q p :: lex none l p := by
  match l, hl with
  | [], _ => rfl
  | c :: l, hl => rw [lex_not_word (hl c rfl)]; rfl

/-- A symbol other than `>` is its own token, and `gettoken` returns it as is. -/
theorem symbolToken_of_sym (hc : strchr symbols c) (hgt : c ≠ '>') :
    (symbolToken c).code = c ∧ (symbolToken c).lead = some c := by
  simp only [strchr, symbols, List.contains_eq_mem, List.mem_cons, List.not_mem_nil, or_false,
    decide_eq_true_eq] at hc
  rcases hc with rfl | rfl | rfl | rfl | rfl | rfl | rfl
  all_goals first | exact absurd rfl hgt | exact ⟨rfl, rfl⟩

@[simp] theorem length_emit (w : Option Nat) (p : Nat) (ts : List Token) :
    (emit w p ts).length = ts.length + w.toList.length := by
  cases w <;> simp [emit]

theorem emit_eq_nil {ts : List Token} : emit w p ts = [] ↔ w = none ∧ ts = [] := by
  cases w <;> simp [emit]

/-- Each token takes at least one character of its own; a pending word took its
characters before. -/
theorem length_lex_le (w : Option Nat) (l : List Char) (p : Nat) :
    (lex w l p).length ≤ l.length + w.toList.length := by
  fun_induction lex w l p with
  | case1 => simp
  | case2 _ l _ ih | case3 _ _ l _ _ _ ih | case4 _ _ l _ _ _ _ ih =>
    -- a token, after the pending word if any
    simp only [length_emit, List.length_cons, Option.toList_none, List.length_nil] at ih ⊢
    omega
  | case5 _ _ l _ _ _ _ ih =>
    -- the character joins the pending word
    simp only [List.length_cons, Option.toList_some, List.length_nil] at ih ⊢
    omega

/-- A pending word is a token, however the line goes on. -/
theorem lex_ne_nil_of_isSome (hw : w.isSome) : lex w l p ≠ [] := by
  fun_induction lex w l p with
  | case1 | case3 =>
    rw [Ne, emit_eq_nil]
    exact fun h => by simp [h.1] at hw
  | case2 | case4 => simp [emit_eq_nil]
  | case5 _ _ _ _ _ _ _ ih => exact ih rfl

/-- A line without tokens is all whitespace. -/
theorem ws_of_lex_nil (h : lex w l p = []) : ∀ d ∈ l, strchr whitespace d := by
  fun_induction lex w l p with
  | case1 => simp
  | case2 | case4 => simp [emit_eq_nil] at h
  | case3 _ c _ _ _ hc ih =>
    rw [emit_eq_nil] at h
    intro d hd
    rcases List.mem_cons.mp hd with rfl | hd
    · exact hc
    · exact ih h.2 d hd
  | case5 => exact absurd h (lex_ne_nil_of_isSome rfl)

end Lex

/-! ## Positions of the line -/

section Line

variable {buf : List Char} {s : Nat} {c : Char} {r : List Char}

theorem deref_of_drop (h : buf.drop s = c :: r) : deref buf s = c := by
  rw [deref, List.getD_eq_getElem?_getD, ← Nat.add_zero s, ← List.getElem?_drop, h]
  rfl

theorem deref_of_drop_nil (h : buf.drop s = []) : deref buf s = NUL := by
  rw [deref, List.getD_eq_getElem?_getD, ← Nat.add_zero s, ← List.getElem?_drop, h]
  rfl

theorem drop_succ_of_drop (h : buf.drop s = c :: r) : buf.drop (s + 1) = r := by
  rw [← List.drop_drop, h]
  rfl

theorem lt_length_of_drop (h : buf.drop s = c :: r) : s < buf.length := by
  have := congrArg List.length h
  simp only [List.length_drop, List.length_cons] at this
  omega

/-- Inside the line, `*s` is not the NUL. -/
theorem ne_NUL_of_drop (hnul : NUL ∉ buf) (h : buf.drop s = c :: r) : c ≠ NUL := by
  rintro rfl
  exact hnul (List.mem_of_mem_drop (h ▸ List.mem_cons_self))

theorem drop_scan (f : Char → Bool) (buf : List Char) (s : Nat) :
    buf.drop (scan f buf s) = (buf.drop s).dropWhile f := by
  calc buf.drop (scan f buf s) = (buf.drop s).drop ((buf.drop s).takeWhile f).length := by
        rw [scan, List.drop_drop]
    _ = ((buf.drop s).takeWhile f ++ (buf.drop s).dropWhile f).drop
          ((buf.drop s).takeWhile f).length := by rw [List.takeWhile_append_dropWhile]
    _ = (buf.drop s).dropWhile f := List.drop_left

/-- `scan f` stops at the end of the line or at a character that fails `f`. -/
theorem scan_stop (f : Char → Bool) (h : buf.drop (scan f buf s) = c :: r) : f c = false := by
  rw [drop_scan] at h
  have hne : (buf.drop s).dropWhile f ≠ [] := by rw [h]; exact List.cons_ne_nil c r
  have := List.head_dropWhile_not f hne
  simp only [h, List.head_cons] at this
  exact this

theorem toks_of_drop_nil (h : buf.drop s = []) : toks buf s = [] := by
  rw [toks, h]
  rfl

theorem length_toks_le (buf : List Char) (s : Nat) : (toks buf s).length ≤ buf.length := by
  have h := length_lex_le none (buf.drop s) s
  simp only [List.length_drop, Option.toList_none, List.length_nil] at h
  exact h.trans (by omega)

theorem scan_le (f : Char → Bool) (hs : s ≤ buf.length) : scan f buf s ≤ buf.length := by
  have h := (List.takeWhile_prefix f (l := buf.drop s)).length_le
  rw [List.length_drop] at h
  rw [scan]
  omega

/-- Where no token is left, `scan` over the whitespace reaches the end of the line. -/
theorem scan_ws_of_toks_nil (h : toks buf s = []) (hs : s ≤ buf.length) :
    scan (strchr whitespace) buf s = buf.length := by
  rw [scan, List.takeWhile_eq_self_iff.mpr (ws_of_lex_nil h), List.length_drop]
  omega

/-- `gettoken` and `peek` skip whitespace, which has no tokens. -/
theorem toks_scan_ws (buf : List Char) (s : Nat) :
    toks buf (scan (strchr whitespace) buf s) = toks buf s := by
  have hu : ∀ c ∈ (buf.drop s).takeWhile (strchr whitespace), strchr whitespace c :=
    fun _ hc => List.mem_takeWhile_imp hc
  rw [toks, toks, drop_scan, scan, ← lex_ws_run hu, List.takeWhile_append_dropWhile]

/-- A word character starts a word that runs to where `scan isWordChar` stops. -/
theorem toks_word_at (h : buf.drop s = c :: r) (hc : isWordChar c) :
    toks buf s = .word s (scan isWordChar buf s) :: toks buf (scan isWordChar buf s) := by
  have hu : ∀ c ∈ r.takeWhile isWordChar, isWordChar c := fun _ hc => List.mem_takeWhile_imp hc
  have hstop : ∀ d ∈ (r.dropWhile isWordChar).head?, ¬isWordChar d := by
    intro d hd
    have hne : r.dropWhile isWordChar ≠ [] := fun he => by simp [he] at hd
    have := List.head_dropWhile_not isWordChar hne
    rw [List.head?_eq_some_head hne, Option.mem_some_iff] at hd
    rw [← hd, this]
    decide
  have hscan : scan isWordChar buf s = s + 1 + (r.takeWhile isWordChar).length := by
    rw [scan, h, List.takeWhile_cons_of_pos hc, List.length_cons]
    omega
  have hdrop : buf.drop (scan isWordChar buf s) = r.dropWhile isWordChar := by
    rw [drop_scan, h, List.dropWhile_cons_of_pos hc]
  have hrun : lex (some s) r (s + 1) = .word s (s + 1 + (r.takeWhile isWordChar).length) ::
      lex none (r.dropWhile isWordChar) (s + 1 + (r.takeWhile isWordChar).length) := by
    rw [← lex_some_stop hstop, ← lex_some_run hu, List.takeWhile_append_dropWhile]
  rw [toks, toks, hdrop, h, lex_word hc, Option.getD_none, hrun, hscan]

theorem toks_sym_at (h : buf.drop s = c :: r) (hc : strchr symbols c) (hgt : c ≠ '>') :
    toks buf s = symbolToken c :: toks buf (s + 1) := by
  rw [toks, toks, h, lex_sym hc hgt, drop_succ_of_drop h]
  rfl

theorem toks_gtgt_at (h : buf.drop s = '>' :: '>' :: r) : toks buf s = .gtgt :: toks buf (s + 2) := by
  have h₂ : buf.drop (s + 2) = r := by
    rw [show s + 2 = s + 1 + 1 by rfl, drop_succ_of_drop (drop_succ_of_drop h)]
  rw [toks, toks, h, lex_gtgt, h₂]
  rfl

theorem toks_gt_at (h : buf.drop s = '>' :: r) (hr : r.head? ≠ some '>') :
    toks buf s = .gt :: toks buf (s + 1) := by
  rw [toks, toks, h, lex_gt hr, drop_succ_of_drop h]
  rfl

/-- A `>` is the token `>>` if another `>` follows it, and `>` if not. -/
theorem toks_gt_or (h : buf.drop s = '>' :: r) :
    (deref buf (s + 1) = '>' ∧ toks buf s = .gtgt :: toks buf (s + 2)) ∨
      (deref buf (s + 1) ≠ '>' ∧ toks buf s = .gt :: toks buf (s + 1)) := by
  have h₁ := drop_succ_of_drop h
  rcases r with _ | ⟨d, r⟩
  · exact .inr ⟨by rw [deref_of_drop_nil h₁]; decide, toks_gt_at h (by simp)⟩
  by_cases hd : d = '>'
  · subst hd
    exact .inl ⟨deref_of_drop h₁, toks_gtgt_at h⟩
  · exact .inr ⟨by rw [deref_of_drop h₁]; exact hd, toks_gt_at h (by simpa using hd)⟩

end Line

/-! ## What `gettoken` and `peek` do to the tokens left -/

/-- What a run of `gettoken` that returned `r` did to the tokens left, `ts` before it
and `ts'` after. At the end of the line it returns the NUL and nothing is left;
otherwise it returns the code of the first token, with a word's bounds, and takes
that token off. -/
def Took : List Token → Char × Nat × Nat → List Token → Prop
  | [], r, ts' => r.1 = NUL ∧ ts' = []
  | t :: ts, r, ts' => r.1 = t.code ∧ ts' = ts ∧ ∀ q e, t = .word q e → r.2 = (q, e)

/-- A run of `gettoken` that returned `'a'` took a word, and returned its bounds. -/
theorem took_word {ts ts' : List Token} {r : Char × Nat × Nat} (h : Took ts r ts') (ha : r.1 = 'a') :
    ts = .word r.2.1 r.2.2 :: ts' := by
  cases ts with
  | nil => exact absurd (h.1.symm.trans ha) (by decide)
  | cons t ts =>
    obtain ⟨hr, rfl, hw⟩ := h
    obtain ⟨q, e, rfl⟩ := Token.code_eq_a.mp (hr.symm.trans ha)
    rw [hw q e rfl]

/-- A run of `gettoken` that returned the NUL was at the end of the line. -/
theorem took_NUL {ts ts' : List Token} {r : Char × Nat × Nat} (h : Took ts r ts') (hr : r.1 = NUL) :
    ts = [] ∧ ts' = [] := by
  cases ts with
  | nil => exact ⟨rfl, h.2⟩
  | cons t ts => exact absurd (h.1.symm.trans hr) t.code_ne_NUL

/-- `gettoken` takes at most one token. -/
theorem took_length_le {ts ts' : List Token} {r : Char × Nat × Nat} (h : Took ts r ts') :
    ts'.length ≤ ts.length := by
  cases ts with
  | nil => rw [h.2]
  | cons t ts =>
    rw [h.2.1, List.length_cons]
    omega

/-- A run of `gettoken` after `peek` saw one of `l` took that symbol. -/
theorem took_of_peeks {l : List Char} {ts ts' : List Token} {r : Char × Nat × Nat}
    (hp : peeks l ts = true) (h : Took ts r ts') : ∃ t, ts = t :: ts' ∧ peeks l [t] = true ∧ r.1 = t.code := by
  cases ts with
  | nil => exact absurd hp (by simp [peeks])
  | cons t ts =>
    obtain ⟨hr, rfl, -⟩ := h
    exact ⟨t, rfl, hp, hr⟩

section Scanner

variable {buf : List Char}

/-- Before the end of the line, `*s` is a character of it. -/
theorem drop_of_deref_ne {s : Nat} (h : deref buf s ≠ NUL) : buf.drop s = deref buf s :: buf.drop (s + 1) := by
  rcases hd : buf.drop s with _ | ⟨c, r⟩
  · exact absurd (deref_of_drop_nil hd) h
  · rw [deref_of_drop hd, drop_succ_of_drop hd]

theorem lt_of_deref_ne {s : Nat} (h : deref buf s ≠ NUL) : s < buf.length := by
  have hd := drop_of_deref_ne h
  by_contra hs
  rw [List.drop_eq_nil_of_le (by omega)] at hd
  cases hd

/-- A run that read the token `t`, which ends at `e`. -/
theorem took_of_toks {t : Token} {s e : Nat} (ht : toks buf s = t :: toks buf e)
    (hw : ∀ q e', t = .word q e' → q = s ∧ e' = e) :
    Took (toks buf s) (t.code, s, e) (toks buf (scan (strchr whitespace) buf e)) := by
  rw [ht, toks_scan_ws]
  refine ⟨rfl, rfl, fun q e' h => ?_⟩
  obtain ⟨rfl, rfl⟩ := hw q e' h
  rfl

theorem symbolToken_ne_word (c : Char) (q e : Nat) : symbolToken c ≠ .word q e := by
  unfold symbolToken
  split <;> exact fun h => Token.noConfusion h

theorem ne_NUL_of_sym {c : Char} (hc : strchr symbols c) : c ≠ NUL := by
  rintro rfl
  exact absurd hc (by decide)

/-- The cases of `gettoken`'s switch for the symbols it returns as they are. -/
theorem took_sym {s : Nat} {c : Char} (hd : deref buf s = c) (hc : strchr symbols c) (hgt : c ≠ '>') :
    Took (toks buf s) (c, s, s + 1) (toks buf (scan (strchr whitespace) buf (s + 1))) := by
  have hdrop : buf.drop s = c :: buf.drop (s + 1) := hd ▸ drop_of_deref_ne (hd ▸ ne_NUL_of_sym hc)
  have h := took_of_toks (toks_sym_at hdrop hc hgt) (fun q e h => absurd h (symbolToken_ne_word c q e))
  rwa [(symbolToken_of_sym hc hgt).1] at h

/-- `gettoken` reads the first of the tokens left, or the NUL where none is left. -/
theorem gettoken_toks (hnul : NUL ∉ buf) {ps ps' : Nat} {r : Char × Nat × Nat}
    (h : Runs (gettoken buf) ps r ps') : Took (toks buf ps) r (toks buf ps') := by
  simp only [gettoken, runs_bind, runs_get, runs_set, runs_pure] at h
  obtain ⟨_, _, ⟨rfl, rfl⟩, _, _, rfl, rfl, rfl⟩ := h
  rw [← toks_scan_ws buf ps]
  generalize hs : scan (strchr whitespace) buf ps = s
  -- one case for each label of the switch
  split
  case h_1 _ heq =>
    have hd : buf.drop s = [] := by
      rcases hd : buf.drop s with _ | ⟨c, r⟩
      · rfl
      · exact absurd ((deref_of_drop hd).symm.trans heq) (ne_NUL_of_drop hnul hd)
    rw [toks_scan_ws, toks_of_drop_nil hd]
    exact ⟨rfl, rfl⟩
  case h_2 _ heq | h_3 _ heq | h_4 _ heq | h_5 _ heq | h_6 _ heq | h_7 _ heq =>
    dsimp only
    rw [heq]
    exact took_sym heq (by decide) (by decide)
  case h_8 _ heq =>
    have hd : buf.drop s = '>' :: buf.drop (s + 1) := heq ▸ drop_of_deref_ne (by rw [heq]; decide)
    rcases toks_gt_or hd with ⟨hgt, ht⟩ | ⟨hgt, ht⟩
    · rw [if_pos hgt]
      exact took_of_toks ht (fun _ _ h => Token.noConfusion h)
    · rw [if_neg hgt]
      exact took_of_toks ht (fun _ _ h => Token.noConfusion h)
  case h_9 _ h0 h1 h2 h3 h4 h5 h6 h7 =>
    -- every other character begins a word
    have hd := drop_of_deref_ne h0
    have hws : strchr whitespace (deref buf s) = false := scan_stop (s := ps) _ (by rw [hs]; exact hd)
    have hsym : strchr symbols (deref buf s) = false := by
      simp only [strchr, symbols, List.contains_eq_mem, List.mem_cons, List.not_mem_nil, or_false,
        decide_eq_false_iff_not]
      rintro (h | h | h | h | h | h | h) <;> contradiction
    have hw : isWordChar (deref buf s) := by simp [isWordChar, hws, hsym]
    exact took_of_toks (toks_word_at hd hw) (fun _ _ h => by cases h; exact ⟨rfl, rfl⟩)

/-- What `peek` sees: the first token left, if it is a symbol. -/
theorem peeks_at (hnul : NUL ∉ buf) {l : List Char} (hl : l.all (strchr symbols) = true) (ps : Nat) :
    peeks l (toks buf (scan (strchr whitespace) buf ps)) =
      (deref buf (scan (strchr whitespace) buf ps) != NUL &&
        strchr l (deref buf (scan (strchr whitespace) buf ps))) := by
  generalize hs : scan (strchr whitespace) buf ps = s
  rcases hd : buf.drop s with _ | ⟨c, r⟩
  · rw [toks_of_drop_nil hd, deref_of_drop_nil hd]
    rfl
  have hws : strchr whitespace c = false := scan_stop (s := ps) _ (by rw [hs]; exact hd)
  rw [deref_of_drop hd, bne_iff_ne.mpr (ne_NUL_of_drop hnul hd), Bool.true_and]
  by_cases hw : isWordChar c
  · -- a word: `peek` looks for symbols only
    rw [toks_word_at hd hw]
    have : strchr l c = false := by
      by_contra hc
      have hsym := List.all_eq_true.mp hl c (List.contains_iff_mem.mp (Bool.not_eq_false _ ▸ hc))
      simp [isWordChar, hsym] at hw
    rw [this]
    rfl
  have hsym : strchr symbols c := by simpa [isWordChar, hws] using hw
  by_cases hgt : c = '>'
  · subst hgt
    rcases toks_gt_or hd with ⟨-, ht⟩ | ⟨-, ht⟩ <;> rw [ht] <;> rfl
  · rw [toks_sym_at hd hsym hgt, peeks, (symbolToken_of_sym hsym hgt).2]
    rfl

/-- `peek` skips the whitespace and looks at the first token left. -/
theorem peek_iff (hnul : NUL ∉ buf) {l : List Char} (hl : l.all (strchr symbols) = true) {ps ps' : Nat}
    {b : Bool} :
    Runs (peek buf l) ps b ps' ↔ b = peeks l (toks buf ps) ∧ ps' = scan (strchr whitespace) buf ps := by
  rw [← toks_scan_ws buf ps, peeks_at hnul hl]
  simp only [peek, runs_bind, runs_get, runs_set, runs_pure]
  constructor
  · rintro ⟨_, _, ⟨rfl, rfl⟩, _, _, rfl, rfl, rfl⟩
    exact ⟨rfl, rfl⟩
  · rintro ⟨rfl, rfl⟩
    exact ⟨_, _, ⟨rfl, rfl⟩, (), _, rfl, rfl, rfl⟩

/-- A `peek` in front of the rest of a program: the rest runs on what `peek` saw,
from past the whitespace. -/
theorem runs_peek_bind (hnul : NUL ∉ buf) {l : List Char} (hl : l.all (strchr symbols) = true) {α : Type}
    {f : Bool → ShM α} {ps ps' : Nat} {a : α} :
    Runs (peek buf l >>= f) ps a ps' ↔
      Runs (f (peeks l (toks buf ps))) (scan (strchr whitespace) buf ps) a ps' := by
  rw [runs_bind]
  constructor
  · rintro ⟨b, t, hp, hf⟩
    obtain ⟨rfl, rfl⟩ := (peek_iff hnul hl).mp hp
    exact hf
  · intro hf
    exact ⟨_, _, (peek_iff hnul hl).mpr ⟨rfl, rfl⟩, hf⟩

/-- A `peek` never stops the program: an error comes from what follows it. -/
theorem fails_peek_bind (hnul : NUL ∉ buf) {l : List Char} (hl : l.all (strchr symbols) = true) {α : Type}
    {f : Bool → ShM α} {ps : Nat} {e : String} :
    Fails (peek buf l >>= f) ps e ↔ Fails (f (peeks l (toks buf ps))) (scan (strchr whitespace) buf ps) e := by
  have hp : Runs (peek buf l) ps (peeks l (toks buf ps)) (scan (strchr whitespace) buf ps) :=
    (peek_iff hnul hl).mpr ⟨rfl, rfl⟩
  rw [Fails, run_bind_of_runs hp]
  rfl

/-- `peek` for one symbol other than `>` sees its token and no other. -/
theorem peeks_single {c : Char} {t : Token} (hc : strchr symbols c) (hgt : c ≠ '>') :
    peeks [c] [t] = true ↔ t = symbolToken c := by
  simp only [strchr, symbols, List.contains_eq_mem, List.mem_cons, List.not_mem_nil, or_false,
    decide_eq_true_eq] at hc
  rcases hc with rfl | rfl | rfl | rfl | rfl | rfl | rfl
  all_goals first
    | exact absurd rfl hgt
    | cases t <;> simp [peeks, Token.lead, strchr, symbolToken]

/-- `gettoken` after a `peek` that saw the symbol `c` takes its token. -/
theorem gettoken_after_peek (hnul : NUL ∉ buf) {c : Char} (hc : strchr symbols c) (hgt : c ≠ '>')
    {ps ps' : Nat} {r : Char × Nat × Nat} (hb : peeks [c] (toks buf ps) = true)
    (h : Runs (gettoken buf) (scan (strchr whitespace) buf ps) r ps') :
    toks buf ps = symbolToken c :: toks buf ps' := by
  have htook := gettoken_toks hnul h
  rw [toks_scan_ws] at htook
  obtain ⟨t, hts, hpt, -⟩ := took_of_peeks hb htook
  rw [hts, (peeks_single hc hgt).mp hpt]

theorem gettoken_runs (buf : List Char) (ps : Nat) : ∃ r ps', Runs (gettoken buf) ps r ps' :=
  ⟨_, _, rfl⟩

@[simp] theorem gettoken_not_fails (ps : Nat) (e : String) : ¬Fails (gettoken buf) ps e := by
  obtain ⟨r, ps', h⟩ := gettoken_runs buf ps
  exact h.not_fails e

/-- `gettoken` never moves the cursor past the end of the line: each case of its
switch ends the token at a character of the line, or at its end. -/
theorem gettoken_le : Preserves (· ≤ buf.length) (gettoken buf) := by
  intro ps r ps' h hps
  simp only [gettoken, runs_bind, runs_get, runs_set, runs_pure] at h
  obtain ⟨_, _, ⟨rfl, rfl⟩, _, _, rfl, rfl, rfl⟩ := h
  have hs := scan_le (strchr whitespace) hps
  apply scan_le
  generalize scan (strchr whitespace) buf ps = s at hs ⊢
  split
  case h_1 => exact hs
  case h_2 _ heq | h_3 _ heq | h_4 _ heq | h_5 _ heq | h_6 _ heq | h_7 _ heq =>
    exact lt_of_deref_ne (by rw [heq]; decide)
  case h_8 _ heq =>
    split
    case isTrue hgt => exact lt_of_deref_ne (by rw [hgt]; decide)
    case isFalse => exact lt_of_deref_ne (by rw [heq]; decide)
  case h_9 => exact scan_le _ hs

theorem peek_le (l : List Char) : Preserves (· ≤ buf.length) (peek buf l) := by
  intro ps b ps' h hps
  simp only [peek, runs_bind, runs_get, runs_set, runs_pure] at h
  obtain ⟨_, _, ⟨rfl, rfl⟩, _, _, rfl, rfl, rfl⟩ := h
  exact scan_le _ hps

/-- `gettoken` on a token left: it returns the token's code and takes it off. -/
theorem gettoken_cons (hnul : NUL ∉ buf) {ps : Nat} {t : Token} {ts : List Token}
    (h : toks buf ps = t :: ts) :
    ∃ q e ps', Runs (gettoken buf) ps (t.code, q, e) ps' ∧ toks buf ps' = ts ∧
      ∀ q' e', t = .word q' e' → q = q' ∧ e = e' := by
  obtain ⟨⟨ret, q, e⟩, ps', hr⟩ := gettoken_runs buf ps
  have htook := gettoken_toks hnul hr
  rw [h] at htook
  obtain ⟨hret, hts, hw⟩ := htook
  refine ⟨q, e, ps', hret ▸ hr, hts, fun q' e' ht => ?_⟩
  cases hw q' e' ht
  exact ⟨rfl, rfl⟩

/-- `gettoken` at the end of the line returns the NUL. -/
theorem gettoken_nil (hnul : NUL ∉ buf) {ps : Nat} (h : toks buf ps = []) :
    ∃ q e ps', Runs (gettoken buf) ps (NUL, q, e) ps' ∧ toks buf ps' = [] := by
  obtain ⟨⟨ret, q, e⟩, ps', hr⟩ := gettoken_runs buf ps
  have htook := gettoken_toks hnul hr
  rw [h] at htook
  obtain ⟨hret, hts⟩ := htook
  exact ⟨q, e, ps', hret ▸ hr, hts⟩

end Scanner

end Xv6.Sh
