/-
That `parsecmd` accepts exactly the lines the grammar of `Xv6.Sh.Grammar` derives, and
that the fuel it gives the parse functions never runs out.

Completeness is the converse of `sound`: where a derivation of the tokens at the cursor
is followed by what may follow its nonterminal (`Sym.follow`, the grammar's FOLLOW
sets), the parse function builds the derivation's tree and leaves the cursor after it.
The grammar is LL(1): the `peek` before each choice sees the token that decides it, and
the FOLLOW condition is what stops each loop where the derivation stops.

Each call of a parse function takes a unit of fuel. Between two calls on the same tokens
there are at most three more (`parseline`, `parsepipe`, `parseexec`, `parseblock`) before
`(` is read, so four units for each token left and four more suffice (`Sym.fuel`); a line
has no more tokens than characters, and `parsecmd` gives four units for each. With that
much, a run of a parse function that stops with an error stops with one of the source's
panics (`adequate`), never for want of fuel.
-/
import Xv6.Sh.Grammar

set_option autoImplicit false

namespace Xv6.Sh

open StateExcept cmd

/-! ## The cursor stays in the line -/

section Cursor

variable {buf : List Char}

/-- The parse functions move the cursor only through `peek` and `gettoken`, so it never
passes the end of the line; the run of each is taken apart by the `Preserves` rules of
its program. -/
theorem parseredirs_le (n : Nat) (c : cmd) : Preserves (· ≤ buf.length) (parseredirs buf n c) := by
  induction n generalizing c with
  | zero => exact .of_throw _
  | succ n ih =>
    rw [parseredirs]
    refine .bind (peek_le _) fun _ => .ite (.bind gettoken_le fun r₁ => ?_) (.of_pure _)
    obtain ⟨_, _, _⟩ := r₁
    refine .bind gettoken_le fun r₂ => ?_
    obtain ⟨_, _, _⟩ := r₂
    exact .ite (.bind (.of_throw _) fun _ => ih _) (ih _)

theorem parselineLoop_le (n : Nat) (c : cmd) : Preserves (· ≤ buf.length) (parselineLoop buf n c) := by
  induction n generalizing c with
  | zero => exact .of_throw _
  | succ n ih =>
    rw [parselineLoop]
    exact .bind (peek_le _) fun _ => .ite (.bind gettoken_le fun _ => ih _) (.of_pure _)

theorem parseexecLoop_le (n : Nat) (c : cmd) (argv : List (Nat × Nat)) :
    Preserves (· ≤ buf.length) (parseexecLoop buf n c argv) := by
  induction n generalizing c argv with
  | zero => exact .of_throw _
  | succ n ih =>
    rw [parseexecLoop]
    refine .bind (peek_le _) fun _ => .ite (.of_pure _) (.bind gettoken_le fun r => ?_)
    obtain ⟨_, _, _⟩ := r
    -- a word, the check on `argv`, then the redirections after it
    refine .ite (.of_pure _) (.ite (.bind (.of_throw _) fun _ => ?_) ?_) <;>
    exact .ite (.bind (.of_throw _) fun _ => .bind (parseredirs_le _ _) fun _ => ih _ _)
      (.bind (parseredirs_le _ _) fun _ => ih _ _)

theorem cursor_le (n : Nat) :
    Preserves (· ≤ buf.length) (parseline buf n) ∧ Preserves (· ≤ buf.length) (parsepipe buf n) ∧
      Preserves (· ≤ buf.length) (parseblock buf n) ∧ Preserves (· ≤ buf.length) (parseexec buf n) := by
  induction n with
  | zero => exact ⟨.of_throw _, .of_throw _, .of_throw _, .of_throw _⟩
  | succ n ih =>
    obtain ⟨hl, hp, hb, he⟩ := ih
    refine ⟨?_, ?_, ?_, ?_⟩
    · rw [parseline]
      exact .bind hp fun _ => .bind (parselineLoop_le _ _) fun _ => .bind (peek_le _) fun _ =>
        .ite (.bind gettoken_le fun _ => .bind hl fun _ => .of_pure _) (.of_pure _)
    · rw [parsepipe]
      exact .bind he fun _ => .bind (peek_le _) fun _ =>
        .ite (.bind gettoken_le fun _ => .bind hp fun _ => .of_pure _) (.of_pure _)
    · rw [parseblock]
      -- the block after the check for `(`, then after the check for `)`
      refine .bind (peek_le _) fun _ => .ite (.bind (.of_throw _) fun _ => ?_) ?_ <;>
      refine .bind gettoken_le fun _ => .bind hl fun _ => .bind (peek_le _) fun _ =>
        .ite (.bind (.of_throw _) fun _ => ?_) ?_ <;>
      exact .bind gettoken_le fun _ => parseredirs_le _ _
    · rw [parseexec]
      refine .bind (peek_le _) fun _ =>
        .ite hb (.bind (parseredirs_le _ _) fun _ => .bind (parseexecLoop_le _ _ _) fun r => ?_)
      obtain ⟨_, _⟩ := r
      exact .of_pure _

end Cursor

/-! ## What may follow each nonterminal -/

section Follow

/-- The symbols that may follow each nonterminal, apart from the end of the line: its
FOLLOW set. A line ends a block, a pipeline ends a part of a line, and a command ends a
part of a pipeline. -/
def Sym.follow : Sym → List Char
  | .line => [')']
  | .pipe => [')', '&', ';']
  | .exec => ['|', ')', '&', ';']

/-- `ts` is the end of the line, or starts with one of the symbols `l`. -/
def Ends (l : List Char) (ts : List Token) : Prop := ts = [] ∨ peeks l ts = true

theorem peeks_false_of_peeks {l l' : List Char} {ts : List Token} (h : peeks l ts = true)
    (hd : l.all (fun c => !(l'.contains c)) = true) : peeks l' ts = false := by
  match ts, h with
  | t :: _, h =>
    simp only [peeks, Option.any_eq_true, strchr, List.contains_eq_mem, decide_eq_true_eq] at h
    obtain ⟨c, hc, hl⟩ := h
    simpa [peeks, hc, strchr] using List.all_eq_true.mp hd c hl

theorem Ends.peeks_false {l l' : List Char} {ts : List Token} (h : Ends l ts)
    (hd : l.all (fun c => !(l'.contains c)) = true) : peeks l' ts = false := by
  rcases h with rfl | h
  · rfl
  · exact peeks_false_of_peeks h hd

theorem Ends.mono {l l' : List Char} {ts : List Token} (h : Ends l ts) (hl : l.all l'.contains = true) :
    Ends l' ts := by
  rcases h with rfl | h
  · exact .inl rfl
  · right
    match ts, h with
    | t :: _, h =>
      simp only [peeks, Option.any_eq_true, strchr, List.contains_eq_mem, decide_eq_true_eq] at h ⊢
      obtain ⟨c, hc, hm⟩ := h
      exact ⟨c, hc, List.contains_iff_mem.mp (List.all_eq_true.mp hl c hm)⟩

/-- `&`s before what may follow a nonterminal that `&` may follow. -/
theorem Ends.amps {l : List Char} {ts : List Token} (h : Ends l ts) (ha : '&' ∈ l) (k : Nat) :
    Ends l (List.replicate k .amp ++ ts) := by
  cases k with
  | zero => exact h
  | succ k =>
    right
    rw [List.replicate_succ, List.cons_append]
    simpa [peeks, Token.lead, strchr] using ha

/-- A command of words and redirections does not start with `(`: where it is followed by
what may follow it, `peek` in `parseexec` sees no block. -/
theorem exec_not_lparen {ts ts₁ ts' : List Token} {rs rs' : List Redir} {ws : List (Nat × Nat)}
    (hr : Redirs ts rs ts₁) (ha : Args ts₁ ws rs' ts') (hend : Ends Sym.exec.follow ts') :
    peeks ['('] ts = false := by
  match ts, hr with
  | [], _ => rfl
  | .lparen :: tl, .nil _ =>
    -- no redirection and no word: the `(` is what follows the command
    rcases ha with _ | _
    exact hend.peeks_false rfl
  | .lparen :: _, .cons h _ => simp [redirOf] at h
  | .word _ _ :: _, _ | .lt :: _, _ | .gt :: _, _ | .gtgt :: _, _ | .pipe :: _, _ | .amp :: _, _
  | .semi :: _, _ | .rparen :: _, _ => rfl

theorem peeks_of_redirOf {t : Token} {m : Nat × Nat} (ts : List Token) (h : redirOf t = some m) :
    peeks ['<', '>'] (t :: ts) = true := by
  cases t <;> first | rfl | simp [redirOf] at h

/-- The words of an `exec` start with a word, or there are none. -/
theorem Args.head {ts ts' : List Token} {ws : List (Nat × Nat)} {rs : List Redir}
    (h : Args ts ws rs ts') : ts = ts' ∨ ∃ q e tl, ts = .word q e :: tl := by
  cases h with
  | nil => exact .inl rfl
  | cons => exact .inr ⟨_, _, _, rfl⟩

theorem Args.not_redir {ts ts' : List Token} {ws : List (Nat × Nat)} {rs : List Redir}
    (h : Args ts ws rs ts') (hend : Ends ['|', ')', '&', ';'] ts') : peeks ['<', '>'] ts = false := by
  rcases h.head with rfl | ⟨q, e, tl, rfl⟩
  · exact hend.peeks_false rfl
  · rfl

end Follow

/-! ## The loops read what the grammar derives -/

section Loops

variable {buf : List Char}

/-- `parseredirs` reads every redirection of a derivation, and stops after the last. -/
theorem parseredirs_complete (hnul : NUL ∉ buf) {ts ts' : List Token} {rs : List Redir}
    (h : Redirs ts rs ts') (hend : peeks ['<', '>'] ts' = false) {n ps : Nat} {c : cmd}
    (hts : toks buf ps = ts) (hn : ts.length < n) :
    ∃ ps', Runs (parseredirs buf n c) ps (wrap c rs) ps' ∧ toks buf ps' = ts' := by
  induction h generalizing n ps c with
  | nil ts =>
    obtain ⟨n, rfl⟩ : ∃ m, n = m + 1 := ⟨n - 1, by omega⟩
    refine ⟨_, ?_, by rw [toks_scan_ws, hts]⟩
    rw [parseredirs, runs_peek_bind hnul (l := ['<', '>']) rfl, hts, hend]
    simp
  | @cons t q e mode fd ts ts' rs hr _ ih =>
    have hts₀ : toks buf (scan (strchr whitespace) buf ps) = t :: .word q e :: ts := by
      rw [toks_scan_ws, hts]
    obtain ⟨q₁, e₁, ps₁, h₁, hts₁, -⟩ := gettoken_cons hnul hts₀
    obtain ⟨q₂, e₂, ps₂, h₂, hts₂, hw⟩ := gettoken_cons hnul hts₁
    obtain ⟨hq, he⟩ := hw q e rfl
    rw [hq, he] at h₂
    obtain ⟨n, rfl⟩ : ∃ m, n = m + 1 := ⟨n - 1, by simp at hn; omega⟩
    obtain ⟨ps', h', hts'⟩ := ih hend hts₂ (n := n) (c := redircmd c q e mode fd) (by simp at hn; omega)
    refine ⟨ps', ?_, hts'⟩
    rw [parseredirs, runs_peek_bind hnul (l := ['<', '>']) rfl, hts, peeks_of_redirOf _ hr]
    simp only [if_true, runs_bind]
    refine ⟨_, _, h₁, _, _, h₂, ?_⟩
    cases t <;> simp only [redirOf, reduceCtorEq, Option.some.injEq, Prod.mk.injEq] at hr
    all_goals
      obtain ⟨rfl, rfl⟩ := hr
      exact h'

/-- `parseline`'s loop reads each `&`, and stops at what follows them. -/
theorem parselineLoop_complete (hnul : NUL ∉ buf) {ts' : List Token} (hend : peeks ['&'] ts' = false)
    (k : Nat) {n ps : Nat} {c : cmd} (hts : toks buf ps = List.replicate k .amp ++ ts') (hn : k < n) :
    ∃ ps', Runs (parselineLoop buf n c) ps (backcmd^[k] c) ps' ∧ toks buf ps' = ts' := by
  obtain ⟨n, rfl⟩ : ∃ m, n = m + 1 := ⟨n - 1, by omega⟩
  induction k generalizing n ps c with
  | zero =>
    rw [List.replicate_zero, List.nil_append] at hts
    refine ⟨_, ?_, by rw [toks_scan_ws, hts]⟩
    rw [parselineLoop, runs_peek_bind hnul (l := ['&']) rfl, hts, hend]
    simp
  | succ k ih =>
    have hts₀ : toks buf (scan (strchr whitespace) buf ps) = .amp :: (List.replicate k .amp ++ ts') := by
      rw [toks_scan_ws, hts]
      rfl
    obtain ⟨q, e, ps₁, h₁, hts₁, -⟩ := gettoken_cons hnul hts₀
    obtain ⟨n, rfl⟩ : ∃ m, n = m + 1 := ⟨n - 1, by omega⟩
    obtain ⟨ps', h', hts'⟩ := ih (n := n) (c := backcmd c) hts₁ (by omega)
    have hb : peeks ['&'] (toks buf ps) = true := by
      rw [hts]
      rfl
    refine ⟨ps', ?_, hts'⟩
    rw [parselineLoop, runs_peek_bind hnul (l := ['&']) rfl, hb]
    simp only [if_true, runs_bind]
    exact ⟨_, _, h₁, h'⟩

/-- `parseexec`'s loop reads the words and redirections of a derivation, and stops at what
follows the command. -/
theorem parseexecLoop_complete (hnul : NUL ∉ buf) {ts ts' : List Token} {ws : List (Nat × Nat)}
    {rs : List Redir} (h : Args ts ws rs ts') (hend : Ends ['|', ')', '&', ';'] ts') {n ps : Nat}
    {c : cmd} (argv : List (Nat × Nat)) (hts : toks buf ps = ts) (hargv : (argv ++ ws).length < MAXARGS)
    (hn : ts.length < n) :
    ∃ ps', Runs (parseexecLoop buf n c argv) ps (wrap c rs, argv ++ ws) ps' ∧ toks buf ps' = ts' := by
  obtain ⟨n, rfl⟩ : ∃ m, n = m + 1 := ⟨n - 1, by omega⟩
  induction h generalizing n ps c argv with
  | nil ts =>
    rcases hend with rfl | hb
    · -- at the end of the line `gettoken` returns the NUL
      have hts₀ : toks buf (scan (strchr whitespace) buf ps) = [] := by rw [toks_scan_ws, hts]
      obtain ⟨q, e, ps', h₁, hts'⟩ := gettoken_nil hnul hts₀
      refine ⟨ps', ?_, hts'⟩
      rw [parseexecLoop, runs_peek_bind hnul (l := ['|', ')', '&', ';']) rfl, hts]
      simp only [peeks, Bool.false_eq_true, if_false, runs_bind]
      refine ⟨_, _, h₁, ?_⟩
      simp
    · -- the command ends at a symbol
      refine ⟨_, ?_, by rw [toks_scan_ws, hts]⟩
      rw [parseexecLoop, runs_peek_bind hnul (l := ['|', ')', '&', ';']) rfl, hts, hb]
      simp
  | @cons q e ts ts₁ ts' rs rs' ws hr ha ih =>
    have hts₀ : toks buf (scan (strchr whitespace) buf ps) = .word q e :: ts := by rw [toks_scan_ws, hts]
    obtain ⟨q₁, e₁, ps₁, h₁, hts₁, hw⟩ := gettoken_cons hnul hts₀
    obtain ⟨hq, he⟩ := hw q e rfl
    rw [hq, he] at h₁
    obtain ⟨n, rfl⟩ : ∃ m, n = m + 1 := ⟨n - 1, by simp at hn; omega⟩
    have hlen := hr.suffix.length_le
    simp only [List.length_cons] at hn
    obtain ⟨ps₂, h₂, hts₂⟩ := parseredirs_complete hnul hr (ha.not_redir hend) hts₁ (n := n + 1) (c := c)
      (by omega)
    obtain ⟨ps', h', hts'⟩ := @ih hend ps₂ (wrap c rs) (argv ++ [(q, e)]) hts₂ (by simpa using hargv) n
      (by omega)
    refine ⟨ps', ?_, hts'⟩
    have hb : peeks ['|', ')', '&', ';'] (toks buf ps) = false := by
      rw [hts]
      rfl
    rw [parseexecLoop, runs_peek_bind hnul (l := ['|', ')', '&', ';']) rfl, hb]
    simp only [Bool.false_eq_true, if_false, runs_bind]
    refine ⟨_, _, h₁, ?_⟩
    -- a word: neither the NUL nor a syntax error, and room for it in `argv`
    have hmax : ¬MAXARGS ≤ (argv ++ [(q, e)]).length := by
      simp only [List.length_append, List.length_cons, List.length_nil] at hargv ⊢
      omega
    have hres : (wrap c (rs ++ rs'), argv ++ (q, e) :: ws) = (wrap (wrap c rs) rs', argv ++ [(q, e)] ++ ws) := by
      rw [wrap_append, List.append_assoc, List.singleton_append]
    rw [if_neg (Token.code_ne_NUL (.word q e)), if_neg (not_not.mpr rfl : ¬(Token.word q e).code ≠ 'a'), if_neg hmax, hres]
    exact (runs_bind _ _ _ _ _).mpr ⟨_, _, h₂, h'⟩

end Loops

/-! ## Completeness -/

/-- The parse function of each nonterminal. -/
def Sym.parse (buf : List Char) : Sym → Nat → ShM cmd
  | .line => parseline buf
  | .pipe => parsepipe buf
  | .exec => parseexec buf

/-- The fuel the parse function of a nonterminal needs where `m` tokens are left: the
calls from `parseline` down to `parseblock` take four units before `(` is read. -/
def Sym.fuel : Sym → Nat → Nat
  | .line, m => 4 * m + 4
  | .pipe, m => 4 * m + 3
  | .exec, m => 4 * m + 2

/-- The parse function of `X`, with fuel enough for the tokens `ts` at the cursor, builds
`c` and leaves `ts'`. -/
def Accepts (buf : List Char) (X : Sym) (ts : List Token) (c : cmd) (ts' : List Token) : Prop :=
  ∀ n ps, toks buf ps = ts → X.fuel ts.length ≤ n →
    ∃ ps', Runs (X.parse buf n) ps c ps' ∧ toks buf ps' = ts'

section Complete

variable {buf : List Char}

namespace Accepts

variable {ts ts₁ ts' : List Token} {c c' : cmd}

theorem back (hnul : NUL ∉ buf) {k : Nat} (hp : Derives .pipe ts c (List.replicate k .amp ++ ts'))
    (ihp : Accepts buf .pipe ts c (List.replicate k .amp ++ ts')) (hend : Ends [')'] ts') :
    Accepts buf .line ts (backcmd^[k] c) ts' := by
  intro n ps hts hn
  have hlen := hp.suffix.length_le
  simp only [Sym.fuel, List.length_append, List.length_replicate] at hn hlen
  obtain ⟨n, rfl⟩ : ∃ m, n = m + 1 := ⟨n - 1, by omega⟩
  obtain ⟨ps₁, h₁, hts₁⟩ := ihp n ps hts (by simp only [Sym.fuel]; omega)
  obtain ⟨ps₂, h₂, hts₂⟩ := parselineLoop_complete hnul (hend.peeks_false rfl) k hts₁ (n := n)
    (c := c) (by omega)
  refine ⟨_, ?_, by rw [toks_scan_ws, hts₂]⟩
  simp only [Sym.parse, parseline, runs_bind]
  refine ⟨_, _, h₁, _, _, h₂, _, _, (peek_iff hnul rfl).mpr ⟨rfl, rfl⟩, ?_⟩
  rw [hts₂, hend.peeks_false rfl]
  simp

theorem list (hnul : NUL ∉ buf) {k : Nat} (hp : Derives .pipe ts c (List.replicate k .amp ++ .semi :: ts₁))
    (ihp : Accepts buf .pipe ts c (List.replicate k .amp ++ .semi :: ts₁))
    (ihl : Accepts buf .line ts₁ c' ts') :
    Accepts buf .line ts (listcmd (backcmd^[k] c) c') ts' := by
  intro n ps hts hn
  have hlen := hp.suffix.length_le
  simp only [Sym.fuel, List.length_append, List.length_replicate, List.length_cons] at hn hlen
  obtain ⟨n, rfl⟩ : ∃ m, n = m + 1 := ⟨n - 1, by omega⟩
  obtain ⟨ps₁, h₁, hts₁⟩ := ihp n ps hts (by simp only [Sym.fuel]; omega)
  obtain ⟨ps₂, h₂, hts₂⟩ := parselineLoop_complete hnul (rfl : peeks ['&'] (.semi :: ts₁) = false) k hts₁
    (n := n) (c := c) (by omega)
  have hts₂' : toks buf (scan (strchr whitespace) buf ps₂) = .semi :: ts₁ := by rw [toks_scan_ws, hts₂]
  obtain ⟨q, e, ps₃, h₃, hts₃, -⟩ := gettoken_cons hnul hts₂'
  obtain ⟨ps', h', hts'⟩ := ihl n ps₃ hts₃ (by simp only [Sym.fuel]; omega)
  refine ⟨ps', ?_, hts'⟩
  have hb : peeks [';'] (toks buf ps₂) = true := by rw [hts₂]; rfl
  simp only [Sym.parse, parseline, runs_bind]
  refine ⟨_, _, h₁, _, _, h₂, _, _, (peek_iff hnul rfl).mpr ⟨rfl, rfl⟩, ?_⟩
  simp only [hb, if_true, runs_bind, runs_pure]
  exact ⟨_, _, h₃, _, _, h', rfl, rfl⟩

theorem pipe (hnul : NUL ∉ buf) (ihe : Accepts buf .exec ts c ts') (hend : Ends Sym.pipe.follow ts') :
    Accepts buf .pipe ts c ts' := by
  intro n ps hts hn
  simp only [Sym.fuel] at hn
  obtain ⟨n, rfl⟩ : ∃ m, n = m + 1 := ⟨n - 1, by omega⟩
  obtain ⟨ps₁, h₁, hts₁⟩ := ihe n ps hts (by simp only [Sym.fuel]; omega)
  refine ⟨_, ?_, by rw [toks_scan_ws, hts₁]⟩
  simp only [Sym.parse, parsepipe, runs_bind]
  refine ⟨_, _, h₁, _, _, (peek_iff hnul rfl).mpr ⟨rfl, rfl⟩, ?_⟩
  rw [hts₁, hend.peeks_false rfl]
  simp

theorem pipeTo (hnul : NUL ∉ buf) (he : Derives .exec ts c (.pipe :: ts₁))
    (ihe : Accepts buf .exec ts c (.pipe :: ts₁)) (ihp : Accepts buf .pipe ts₁ c' ts') :
    Accepts buf .pipe ts (pipecmd c c') ts' := by
  intro n ps hts hn
  have hlen := he.suffix.length_le
  simp only [Sym.fuel, List.length_cons] at hn hlen
  obtain ⟨n, rfl⟩ : ∃ m, n = m + 1 := ⟨n - 1, by omega⟩
  obtain ⟨ps₁, h₁, hts₁⟩ := ihe n ps hts (by simp only [Sym.fuel]; omega)
  have hts₁' : toks buf (scan (strchr whitespace) buf ps₁) = .pipe :: ts₁ := by rw [toks_scan_ws, hts₁]
  obtain ⟨q, e, ps₂, h₂, hts₂, -⟩ := gettoken_cons hnul hts₁'
  obtain ⟨ps', h', hts'⟩ := ihp n ps₂ hts₂ (by simp only [Sym.fuel]; omega)
  refine ⟨ps', ?_, hts'⟩
  have hb : peeks ['|'] (toks buf ps₁) = true := by rw [hts₁]; rfl
  simp only [Sym.parse, parsepipe, runs_bind]
  refine ⟨_, _, h₁, _, _, (peek_iff hnul rfl).mpr ⟨rfl, rfl⟩, ?_⟩
  simp only [hb, if_true, runs_bind, runs_pure]
  exact ⟨_, _, h₂, _, _, h', rfl, rfl⟩

theorem block (hnul : NUL ∉ buf) {rs : List Redir} (hl : Derives .line ts c (.rparen :: ts₁))
    (ihl : Accepts buf .line ts c (.rparen :: ts₁)) (hr : Redirs ts₁ rs ts')
    (hend : Ends Sym.exec.follow ts') : Accepts buf .exec (.lparen :: ts) (wrap c rs) ts' := by
  intro n ps hts hn
  have hlen := hl.suffix.length_le
  simp only [Sym.fuel, List.length_cons] at hn hlen
  obtain ⟨n, rfl⟩ : ∃ m, n = m + 2 := ⟨n - 2, by omega⟩
  have hts₀ : toks buf (scan (strchr whitespace) buf (scan (strchr whitespace) buf ps)) = .lparen :: ts := by
    rw [toks_scan_ws, toks_scan_ws, hts]
  obtain ⟨q, e, ps₁, h₁, hts₁, -⟩ := gettoken_cons hnul hts₀
  obtain ⟨ps₂, h₂, hts₂⟩ := ihl n ps₁ hts₁ (by simp only [Sym.fuel]; omega)
  have hts₂' : toks buf (scan (strchr whitespace) buf ps₂) = .rparen :: ts₁ := by rw [toks_scan_ws, hts₂]
  obtain ⟨q', e', ps₃, h₃, hts₃, -⟩ := gettoken_cons hnul hts₂'
  obtain ⟨ps', h', hts'⟩ := parseredirs_complete hnul hr (hend.peeks_false rfl) hts₃ (n := n)
    (c := c) (by omega)
  refine ⟨ps', ?_, hts'⟩
  have hb : peeks ['('] (toks buf ps) = true := by rw [hts]; rfl
  have hb₀ : peeks ['('] (toks buf (scan (strchr whitespace) buf ps)) = true := by rw [toks_scan_ws]; exact hb
  have hb₂ : peeks [')'] (toks buf ps₂) = true := by rw [hts₂]; rfl
  simp only [Sym.parse, parseexec, runs_peek_bind hnul (l := ['(']) rfl, hb, if_true]
  rw [parseblock, runs_peek_bind hnul (l := ['(']) rfl, hb₀]
  simp only [Bool.not_true, Bool.false_eq_true, if_false, runs_bind]
  refine ⟨_, _, h₁, _, _, h₂, _, _, (peek_iff hnul rfl).mpr ⟨rfl, rfl⟩, ?_⟩
  simp only [hb₂, Bool.not_true, Bool.false_eq_true, if_false, runs_bind]
  exact ⟨_, _, h₃, h'⟩

theorem exec (hnul : NUL ∉ buf) {rs rs' : List Redir} {ws : List (Nat × Nat)} (hr : Redirs ts rs ts₁)
    (ha : Args ts₁ ws rs' ts') (hlen : ws.length < MAXARGS) (hend : Ends Sym.exec.follow ts') :
    Accepts buf .exec ts (wrap (execcmd ws) (rs ++ rs')) ts' := by
  intro n ps hts hn
  have hlen₁ := hr.suffix.length_le
  simp only [Sym.fuel] at hn
  obtain ⟨n, rfl⟩ : ∃ m, n = m + 1 := ⟨n - 1, by omega⟩
  have hts₀ : toks buf (scan (strchr whitespace) buf ps) = ts := by rw [toks_scan_ws, hts]
  obtain ⟨ps₁, h₁, hts₁⟩ := parseredirs_complete hnul hr (ha.not_redir hend) hts₀ (n := n)
    (c := execcmd []) (by omega)
  obtain ⟨ps₂, h₂, hts₂⟩ := parseexecLoop_complete hnul ha hend (n := n) (c := wrap (execcmd []) rs) []
    hts₁ (by simpa using hlen) (by omega)
  refine ⟨ps₂, ?_, hts₂⟩
  have hb : peeks ['('] (toks buf ps) = false := by
    rw [hts]
    exact exec_not_lparen hr ha hend
  simp only [Sym.parse, parseexec, runs_peek_bind hnul (l := ['(']) rfl, hb, Bool.false_eq_true,
    if_false, runs_bind, runs_pure]
  refine ⟨_, _, h₁, _, _, h₂, ?_, rfl⟩
  rw [withArgv_wrap, withArgv_wrap, List.nil_append, ← wrap_append]
  rfl

end Accepts

/-- Where a derivation is followed by what may follow its nonterminal, the parse function
builds the derivation's tree at any fuel enough for the tokens left. -/
theorem complete (hnul : NUL ∉ buf) {X : Sym} {ts ts' : List Token} {c : cmd} (h : Derives X ts c ts')
    (hend : Ends X.follow ts') : Accepts buf X ts c ts' := by
  induction h with
  | back hp ih => exact .back hnul hp (ih ((hend.mono rfl).amps (by decide) _)) hend
  | list hp _ ihp ihl => exact .list hnul hp (ihp (Ends.amps (l := Sym.pipe.follow) (.inr rfl) (by decide) _)) (ihl hend)
  | pipe _ ih => exact .pipe hnul (ih (hend.mono rfl)) hend
  | pipeTo he _ ihe ihp => exact .pipeTo hnul he (ihe (.inr rfl)) (ihp hend)
  | block hl hr ih => exact .block hnul hl (ih (.inr rfl)) hr hend
  | exec hr ha hlen => exact .exec hnul hr ha hlen hend

end Complete

/-! ## The fuel never runs out -/

/-- The messages of the `panic`s a run of the parser may stop with. `parseblock`'s own
panic is not among them: `parseexec` calls it only after `peek` saw `(`. -/
def panics : List String :=
  ["syntax", "missing file for redirection", "syntax - missing )", "too many args"]

/-- Every run of `x` from the cursor `ps` that stops with an error stops with a panic. -/
def Panics {α : Type} (x : ShM α) (ps : Nat) : Prop := ∀ e, Fails x ps e → e ∈ panics

section Fuel

variable {buf : List Char}

@[simp] theorem peek_not_fails (l : List Char) (ps : Nat) (e : String) : ¬Fails (peek buf l) ps e := by
  intro h
  cases h

/-- `gettoken` after a `peek` that saw a symbol takes one token. -/
theorem length_lt_of_peeks (hnul : NUL ∉ buf) {l : List Char} {ps ps' : Nat} {r : Char × Nat × Nat}
    (hb : peeks l (toks buf ps) = true) (h : Runs (gettoken buf) (scan (strchr whitespace) buf ps) r ps') :
    (toks buf ps').length < (toks buf ps).length := by
  have htook := gettoken_toks hnul h
  rw [toks_scan_ws] at htook
  obtain ⟨t, hts, -, -⟩ := took_of_peeks hb htook
  rw [hts, List.length_cons]
  omega

theorem gettoken_length_le (hnul : NUL ∉ buf) {ps ps' : Nat} {r : Char × Nat × Nat}
    (h : Runs (gettoken buf) ps r ps') : (toks buf ps').length ≤ (toks buf ps).length :=
  took_length_le (gettoken_toks hnul h)

theorem parseredirs_panics (hnul : NUL ∉ buf) {n ps : Nat} {c : cmd} (hn : (toks buf ps).length < n) :
    Panics (parseredirs buf n c) ps := by
  induction n generalizing ps c with
  | zero => exact absurd hn (Nat.not_lt_zero _)
  | succ n ih =>
    intro e h
    rw [parseredirs, fails_peek_bind hnul (l := ['<', '>']) rfl] at h
    by_cases hb : peeks ['<', '>'] (toks buf ps) = true
    · simp only [hb, if_true, fails_bind, gettoken_not_fails, false_or] at h
      obtain ⟨r₁, ps₁, h₁, ⟨t, q, eq⟩, ps₂, h₂, h⟩ := h
      have hlen₁ := length_lt_of_peeks hnul hb h₁
      have hlen₂ := gettoken_length_le hnul h₂
      simp only [fails_ite, fails_bind, fails_throw, runs_throw, false_and, exists_false, or_false] at h
      rcases h with ⟨-, rfl⟩ | ⟨-, h⟩
      · simp [panics]
      · exact ih (by omega) e h
    · simp [hb] at h

theorem parselineLoop_not_fails (hnul : NUL ∉ buf) {n ps : Nat} {c : cmd} (hn : (toks buf ps).length < n)
    (e : String) : ¬Fails (parselineLoop buf n c) ps e := by
  induction n generalizing ps c with
  | zero => exact absurd hn (Nat.not_lt_zero _)
  | succ n ih =>
    rw [parselineLoop, fails_peek_bind hnul (l := ['&']) rfl]
    by_cases hb : peeks ['&'] (toks buf ps) = true
    · simp only [hb, if_true, fails_bind, gettoken_not_fails, false_or, not_exists, not_and]
      intro r ps₁ h₁
      exact ih (by have := length_lt_of_peeks hnul hb h₁; omega)
    · simp [hb]

theorem parseexecLoop_panics (hnul : NUL ∉ buf) {n ps : Nat} {c : cmd} {argv : List (Nat × Nat)}
    (hn : (toks buf ps).length < n) : Panics (parseexecLoop buf n c argv) ps := by
  induction n generalizing ps c argv with
  | zero => exact absurd hn (Nat.not_lt_zero _)
  | succ n ih =>
    intro e h
    rw [parseexecLoop, fails_peek_bind hnul (l := ['|', ')', '&', ';']) rfl] at h
    by_cases hb : peeks ['|', ')', '&', ';'] (toks buf ps) = true
    · simp [hb] at h
    simp only [hb, Bool.false_eq_true, if_false, fails_bind, gettoken_not_fails, false_or] at h
    obtain ⟨⟨tok, q, eq⟩, ps₁, h₁, h⟩ := h
    simp only [fails_ite, fails_pure, and_false, fails_bind, fails_throw, runs_throw, false_and,
      exists_false, or_false, false_or, ne_eq, not_not] at h
    obtain ⟨-, ⟨-, rfl⟩ | ⟨ha, ⟨-, rfl⟩ | ⟨-, h | ⟨c₁, ps₂, h₂, h⟩⟩⟩⟩ := h
    · simp [panics]
    · simp [panics]
    -- a word was read: fewer tokens are left for what follows it
    all_goals
      have hlen : (toks buf ps₁).length < (toks buf ps).length := by
        rw [← toks_scan_ws buf ps, took_word (gettoken_toks hnul h₁) ha, List.length_cons]
        omega
    · exact parseredirs_panics hnul (by omega) e h
    · obtain ⟨rs, hrs, -⟩ := parseredirs_sound hnul h₂
      have := hrs.suffix.length_le
      exact ih (by omega) e h

/-- At fuel `n`, no parse function runs out of fuel where `n` is enough for the tokens
left (`parseblock` where `peek` saw its `(`): a run that stops, stops with a panic. -/
structure Adequate (buf : List Char) (n : Nat) : Prop where
  line : ∀ ps, Sym.line.fuel (toks buf ps).length ≤ n → Panics (parseline buf n) ps
  pipe : ∀ ps, Sym.pipe.fuel (toks buf ps).length ≤ n → Panics (parsepipe buf n) ps
  block : ∀ ps, peeks ['('] (toks buf ps) = true → 4 * (toks buf ps).length + 1 ≤ n →
    Panics (parseblock buf n) ps
  exec : ∀ ps, Sym.exec.fuel (toks buf ps).length ≤ n → Panics (parseexec buf n) ps

namespace Adequate

variable {n : Nat}

theorem zero : Adequate buf 0 where
  line _ h := absurd h (by simp [Sym.fuel])
  pipe _ h := absurd h (by simp [Sym.fuel])
  block _ _ h := absurd h (by simp)
  exec _ h := absurd h (by simp [Sym.fuel])

theorem parseline_succ (hnul : NUL ∉ buf) (h : Adequate buf n) (ps : Nat)
    (hn : Sym.line.fuel (toks buf ps).length ≤ n + 1) : Panics (parseline buf (n + 1)) ps := by
  intro e hf
  simp only [Sym.fuel] at hn
  rw [parseline, fails_bind] at hf
  rcases hf with hf | ⟨c₁, ps₁, h₁, hf⟩
  · exact h.pipe ps (by simp only [Sym.fuel]; omega) e hf
  have hlen₁ := ((sound hnul n).2.1 _ _ _ h₁).suffix.length_le
  rw [fails_bind] at hf
  rcases hf with hf | ⟨c₂, ps₂, h₂, hf⟩
  · exact absurd hf (parselineLoop_not_fails hnul (by omega) e)
  obtain ⟨k, hk, -⟩ := parselineLoop_sound hnul h₂
  have hlen₂ : (toks buf ps₂).length ≤ (toks buf ps₁).length := by
    rw [hk, List.length_append]
    omega
  rw [fails_peek_bind hnul (l := [';']) rfl] at hf
  by_cases hb : peeks [';'] (toks buf ps₂) = true
  · -- the line after `;`
    simp only [hb, if_true, fails_bind, gettoken_not_fails, fails_pure, false_or, and_false,
      exists_false, or_false] at hf
    obtain ⟨r, ps₃, h₃, hf⟩ := hf
    have hlen₃ := length_lt_of_peeks hnul hb h₃
    exact h.line ps₃ (by simp only [Sym.fuel]; omega) e hf
  · simp [hb] at hf

theorem parsepipe_succ (hnul : NUL ∉ buf) (h : Adequate buf n) (ps : Nat)
    (hn : Sym.pipe.fuel (toks buf ps).length ≤ n + 1) : Panics (parsepipe buf (n + 1)) ps := by
  intro e hf
  simp only [Sym.fuel] at hn
  rw [parsepipe, fails_bind] at hf
  rcases hf with hf | ⟨c₁, ps₁, h₁, hf⟩
  · exact h.exec ps (by simp only [Sym.fuel]; omega) e hf
  have hlen₁ := ((sound hnul n).2.2.2 _ _ _ h₁).suffix.length_le
  rw [fails_peek_bind hnul (l := ['|']) rfl] at hf
  by_cases hb : peeks ['|'] (toks buf ps₁) = true
  · -- the pipeline after `|`
    simp only [hb, if_true, fails_bind, gettoken_not_fails, fails_pure, false_or, and_false,
      exists_false, or_false] at hf
    obtain ⟨r, ps₂, h₂, hf⟩ := hf
    have hlen₂ := length_lt_of_peeks hnul hb h₂
    exact h.pipe ps₂ (by simp only [Sym.fuel]; omega) e hf
  · simp [hb] at hf

theorem parseblock_succ (hnul : NUL ∉ buf) (h : Adequate buf n) (ps : Nat)
    (hb : peeks ['('] (toks buf ps) = true) (hn : 4 * (toks buf ps).length + 1 ≤ n + 1) :
    Panics (parseblock buf (n + 1)) ps := by
  intro e hf
  rw [parseblock, fails_peek_bind hnul (l := ['(']) rfl, hb] at hf
  simp only [Bool.not_true, Bool.false_eq_true, if_false, fails_bind, gettoken_not_fails,
    false_or] at hf
  obtain ⟨r, ps₁, h₁, hf⟩ := hf
  have hlen₁ := length_lt_of_peeks hnul hb h₁
  rcases hf with hf | ⟨c₁, ps₂, h₂, hf⟩
  · exact h.line ps₁ (by simp only [Sym.fuel]; omega) e hf
  have hlen₂ := ((sound hnul n).1 _ _ _ h₂).suffix.length_le
  simp only [peek_not_fails, false_or] at hf
  obtain ⟨b, ps₃, hpeek, hf⟩ := hf
  obtain ⟨rfl, rfl⟩ := (peek_iff hnul (l := [')']) rfl).mp hpeek
  by_cases hb' : peeks [')'] (toks buf ps₂) = true
  · -- the redirections after `)`
    simp only [hb', Bool.not_true, Bool.false_eq_true, if_false, fails_bind, gettoken_not_fails,
      false_or] at hf
    obtain ⟨r', ps₄, h₄, hf⟩ := hf
    have hlen₄ := length_lt_of_peeks hnul hb' h₄
    exact parseredirs_panics hnul (by omega) e hf
  · -- no `)`
    simp only [hb', Bool.not_false, if_true, fails_bind, fails_throw, runs_throw, false_and,
      exists_false, or_false] at hf
    rw [hf]
    simp [panics]

theorem parseexec_succ (hnul : NUL ∉ buf) (h : Adequate buf n) (ps : Nat)
    (hn : Sym.exec.fuel (toks buf ps).length ≤ n + 1) : Panics (parseexec buf (n + 1)) ps := by
  intro e hf
  simp only [Sym.fuel] at hn
  rw [parseexec, fails_peek_bind hnul (l := ['(']) rfl] at hf
  by_cases hb : peeks ['('] (toks buf ps) = true
  · -- a block
    rw [if_pos hb] at hf
    exact h.block _ (by rwa [toks_scan_ws]) (by rw [toks_scan_ws]; omega) e hf
  · simp only [hb, Bool.false_eq_true, if_false, fails_bind, fails_pure, and_false, exists_false,
      or_false] at hf
    rcases hf with hf | ⟨c₁, ps₁, h₁, hf⟩
    · exact parseredirs_panics hnul (by rw [toks_scan_ws]; omega) e hf
    · obtain ⟨rs, hrs, -⟩ := parseredirs_sound hnul h₁
      have := hrs.suffix.length_le
      rw [toks_scan_ws] at this
      exact parseexecLoop_panics hnul (by omega) e hf

theorem succ (hnul : NUL ∉ buf) (h : Adequate buf n) : Adequate buf (n + 1) where
  line := parseline_succ hnul h
  pipe := parsepipe_succ hnul h
  block := parseblock_succ hnul h
  exec := parseexec_succ hnul h

end Adequate

/-- Every fuel is adequate for the tokens it is enough for. -/
theorem adequate (hnul : NUL ∉ buf) (n : Nat) : Adequate buf n := by
  induction n with
  | zero => exact .zero
  | succ n ih => exact ih.succ hnul

end Fuel

/-! ## `parsecmd` -/

section Parsecmd

variable {buf : List Char}

/-- `parsecmd` after a run of `parseline`: the check for leftovers past the whitespace. -/
theorem parsecmd_of_runs (hnul : NUL ∉ buf) {c : cmd} {ps : Nat}
    (h : Runs (parseline buf (4 * buf.length + 4)) 0 c ps) :
    parsecmd buf = if scan (strchr whitespace) buf ps ≠ buf.length then .error "syntax"
      else .ok (c, nulterminate c buf) := by
  have hp : Runs (peek buf []) ps (peeks [] (toks buf ps)) (scan (strchr whitespace) buf ps) :=
    (peek_iff hnul (by simp)).mpr ⟨rfl, rfl⟩
  unfold Runs at h hp
  rw [parsecmd, h, ok_bind]
  dsimp only
  rw [hp, ok_bind]
  dsimp only
  split <;> rfl

theorem parsecmd_of_fails {e : String} (h : Fails (parseline buf (4 * buf.length + 4)) 0 e) :
    parsecmd buf = .error e := by
  unfold Fails at h
  rw [parsecmd, h]
  rfl

/-- The fuel `parsecmd` gives `parseline` is enough for every line. -/
theorem fuel_parsecmd (buf : List Char) : Sym.line.fuel (toks buf 0).length ≤ 4 * buf.length + 4 := by
  have := length_toks_le buf 0
  simp only [Sym.fuel]
  omega

/-- `parsecmd` stops only with a panic of the source's parser, never for want of fuel. -/
theorem parsecmd_error_mem_panics (hnul : NUL ∉ buf) {e : String} (h : parsecmd buf = .error e) :
    e ∈ panics := by
  rcases hrun : (parseline buf (4 * buf.length + 4)).run 0 with e' | ⟨c, ps⟩
  · rw [parsecmd_of_fails hrun] at h
    cases h
    exact (adequate hnul _).line 0 (fuel_parsecmd buf) e hrun
  · rw [parsecmd_of_runs hnul hrun] at h
    split at h
    · cases h
      simp [panics]
    · cases h

theorem parsecmd_error_missing_file :
    NUL ∉ "ls >".toList ∧ parsecmd "ls >".toList = .error "missing file for redirection" ∧
      "missing file for redirection" ∈ panics :=
  ⟨by decide, by decide, @parsecmd_error_mem_panics "ls >".toList (by decide) _ (by decide)⟩

/-- A line `parsecmd` accepts is derived by the grammar, with the tree it returns. -/
theorem parsecmd_sound (hnul : NUL ∉ buf) {c : cmd} {buf' : List Char} (h : parsecmd buf = .ok (c, buf')) :
    Derives .line (toks buf 0) c [] ∧ buf' = nulterminate c buf := by
  rcases hrun : (parseline buf (4 * buf.length + 4)).run 0 with e | ⟨c₁, ps⟩
  · rw [parsecmd_of_fails hrun] at h
    cases h
  rw [parsecmd_of_runs hnul hrun] at h
  split at h
  · cases h
  next hs =>
    cases h
    -- nothing but whitespace is left after the line
    have hnil : toks buf ps = [] := by
      rw [← toks_scan_ws, not_not.mp hs]
      exact toks_of_drop_nil List.drop_length
    have hd := (sound hnul _).1 _ _ _ hrun
    rw [hnil] at hd
    exact ⟨hd, rfl⟩

/-- `parsecmd` accepts exactly the lines the grammar derives, with the derivation's tree, and
returns the line with the NULs `nulterminate` writes. -/
theorem parsecmd_ok_iff (hnul : NUL ∉ buf) {c : cmd} {buf' : List Char} :
    parsecmd buf = .ok (c, buf') ↔ Derives .line (toks buf 0) c [] ∧ buf' = nulterminate c buf := by
  refine ⟨parsecmd_sound hnul, ?_⟩
  rintro ⟨hd, rfl⟩
  obtain ⟨ps, hrun, hts⟩ := complete hnul hd (.inl rfl) _ 0 rfl (fuel_parsecmd buf)
  have hle : ps ≤ buf.length := (cursor_le _).1 0 c ps hrun (Nat.zero_le _)
  rw [parsecmd_of_runs hnul hrun, if_neg (not_not.mpr (scan_ws_of_toks_nil hts hle))]

theorem parsecmd_ok_iff_pipe :
    NUL ∉ "ls | wc".toList ∧
      (parsecmd "ls | wc".toList = .ok (pipecmd (execcmd [(0, 2)]) (execcmd [(5, 7)]),
          nulterminate (pipecmd (execcmd [(0, 2)]) (execcmd [(5, 7)])) "ls | wc".toList) ↔
        Derives .line (toks "ls | wc".toList 0) (pipecmd (execcmd [(0, 2)]) (execcmd [(5, 7)])) [] ∧
          nulterminate (pipecmd (execcmd [(0, 2)]) (execcmd [(5, 7)])) "ls | wc".toList =
            nulterminate (pipecmd (execcmd [(0, 2)]) (execcmd [(5, 7)])) "ls | wc".toList) :=
  ⟨by decide, parsecmd_ok_iff (by decide)⟩

end Parsecmd

end Xv6.Sh
