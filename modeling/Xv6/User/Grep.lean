/-
`grep.c`: the regular-expression matcher of Kernighan and Pike, and the loop
that gives it lines.

A C string is the list of its characters before the NUL. `matchhere(re, text)`
reads the pattern a piece at a time: `c*` goes to `matchstar`, a `$` that ends
the pattern asks for the end of the text, and any other character matches
itself, `.` any character. `match` tries the pattern at each suffix of the text,
the empty one included, unless a `^` anchors it at the start. `matchhere`
recurses on the pattern; `matchstar`'s loop takes `matchhere` on the rest of
the pattern as an argument, so both recursions are structural.

What a pattern means is a language (`Pattern.lang`): its pieces one after
another, with any text on a side that is not anchored. The backtracking search
decides it (`match_iff`). Past a `^`-less start, `match`'s loop is `matchstar`
with `.` (`matchLoop_eq_matchstar`), which is how the unanchored side becomes
`(atom '.')∗ = ⊤`.

`grep(pattern, fd)` reads into a buffer after the `m` bytes it kept, and splits
the buffer at each newline before the first NUL (`strchr` stops there): each
whole line goes to `match`, and is written with its newline when it matches;
the bytes after the last newline are kept for the next read, and a buffer that
holds no newline at all is dropped (`if(p == buf) m = 0`). What `read` returns
is the environment's: chunks of at most the `sizeof(buf)-m-1` bytes asked for,
the loop ending at the first empty one. The inner loop has the bytes of the
buffer as fuel, since each round moves past a newline.

When every read brings a newline, up to reads at the end that bring none,
`grep` writes exactly the lines of its input that the pattern matches
(`grep_lines`). A read that brings part of a line and no newline, after a
buffer with no newline in it, drops that part: the rest of the line then
comes as a line of its own.
-/
import Xv6.Lib.Lang

set_option autoImplicit false

open Computability

namespace Xv6.User

open Language

/-! ## The matcher -/

/-- The loop of `matchstar(c, re, text)`: `here` is `matchhere(re, ·)`. Each
round tries `re` at `text`, then steps past one more `c` (any character when `c`
is `'.'`) while the text lasts. -/
def matchstarFrom (here : List Char → Bool) (c : Char) : List Char → Bool
  | [] => here []
  | x :: text => here (x :: text) || ((x == c || c == '.') && matchstarFrom here c text)

/-- `matchhere(re, text)`: whether `re` matches at the beginning of `text`. -/
def matchhere : List Char → List Char → Bool
  | [], _ => true
  | c :: '*' :: re, text => matchstarFrom (matchhere re) c text
  | ['$'], text => text.isEmpty
  | c :: re, x :: text => (c == '.' || c == x) && matchhere re text
  | _ :: _, [] => false

/-- `matchstar(c, re, text)`: whether `c*re` matches at the beginning of `text`. -/
def matchstar (c : Char) (re text : List Char) : Bool := matchstarFrom (matchhere re) c text

/-- The loop of `match` past a leading `^`: try `re` at each suffix of `text`,
the empty one last. -/
def matchLoop (re : List Char) : List Char → Bool
  | [] => matchhere re []
  | x :: text => matchhere re (x :: text) || matchLoop re text

/-- `match(re, text)`: whether `re` matches somewhere in `text`. -/
def «match» (re text : List Char) : Bool :=
  match re with
  | '^' :: re => matchhere re text
  | _ => matchLoop re text

/-! ## What a pattern means -/

/-- What one character of a pattern matches: `.` any character, else itself. -/
def atom (c : Char) : Language Char := sym fun x => c = '.' ∨ c = x

/-- A piece of a pattern: a character, starred or not. -/
structure Piece where
  c : Char
  star : Bool
  deriving DecidableEq, Repr

/-- What a piece matches: one character, or with its star any number of them. -/
def Piece.lang (q : Piece) : Language Char := if q.star then (atom q.c)∗ else atom q.c

/-- A pattern of `grep`: `^` anchors it at the start of the line, a `$` that
ends it at the end, and in between each character matches itself, `.` any
character, and `c*` any number of what `c` matches. -/
structure Pattern where
  anchored : Bool
  pieces : List Piece
  dollar : Bool
  deriving DecidableEq, Repr

/-- The pieces one after another. -/
def body (ps : List Piece) : Language Char := (ps.map Piece.lang).prod

/-- What may stand on one side of the match: nothing when anchored, else anything. -/
def edge (anchored : Bool) : Language Char := if anchored then 1 else ⊤

/-- The lines a pattern matches. -/
def Pattern.lang (r : Pattern) : Language Char := edge r.anchored * body r.pieces * edge r.dollar

/-- The pieces of a pattern past its `^`, and whether it ends in `$`. -/
def pieces : List Char → List Piece × Bool
  | [] => ([], false)
  | c :: '*' :: re => (⟨c, true⟩ :: (pieces re).1, (pieces re).2)
  | ['$'] => ([], true)
  | c :: re => (⟨c, false⟩ :: (pieces re).1, (pieces re).2)

/-- A pattern as `grep` reads it. -/
def parse (re : List Char) : Pattern :=
  match re with
  | '^' :: re => ⟨true, (pieces re).1, (pieces re).2⟩
  | re => ⟨false, (pieces re).1, (pieces re).2⟩

@[simp] theorem body_nil : body [] = 1 := rfl

@[simp] theorem body_cons (q : Piece) (ps : List Piece) : body (q :: ps) = q.lang * body ps :=
  List.prod_cons

@[simp] theorem edge_true : edge true = 1 := rfl

@[simp] theorem edge_false : edge false = ⊤ := rfl

theorem atom_dot : (atom '.')∗ = ⊤ := kstar_sym_of_forall fun _ => .inl rfl

/-- `matchstar`'s loop decides a star in front of what `here` decides. -/
theorem matchstarFrom_iff {here : List Char → Bool} {M : Language Char}
    (h : ∀ text, here text = true ↔ text ∈ M) (c : Char) (text : List Char) :
    matchstarFrom here c text = true ↔ text ∈ (atom c)∗ * M := by
  induction text with
  | nil => simp [matchstarFrom, atom, h]
  | cons x text ih =>
    simp only [matchstarFrom, Bool.or_eq_true, Bool.and_eq_true, h, ih, atom,
      cons_mem_kstar_sym_mul, beq_iff_eq]
    grind

theorem matchhere_iff (re text : List Char) :
    matchhere re text = true ↔ text ∈ body (pieces re).1 * edge (pieces re).2 := by
  induction re using pieces.induct generalizing text with
  | case1 => simp [matchhere, pieces]
  | case2 c re ih =>
    simp only [matchhere, pieces, body_cons, Piece.lang, if_true, mul_assoc]
    exact matchstarFrom_iff ih c text
  | case3 => simp [matchhere, pieces, mem_one]
  | case4 c re h₁ h₂ ih =>
    have hp : pieces (c :: re) = (⟨c, false⟩ :: (pieces re).1, (pieces re).2) := by
      rw [pieces.eq_4 c re h₁ h₂]
    rw [hp, body_cons, Piece.lang, if_neg Bool.false_ne_true, mul_assoc]
    cases text with
    | nil => simp [matchhere.eq_5 c re h₁ h₂, atom]
    | cons x text =>
      rw [matchhere.eq_4 c re x text h₁ h₂, atom, cons_mem_sym_mul, ← ih]
      simp

/-- Past its `^`, `match` tries `.*re` at the start: the search is a star. -/
theorem matchLoop_eq_matchstar (re text : List Char) : matchLoop re text = matchstar '.' re text := by
  induction text with
  | nil => rfl
  | cons x text ih => simp [matchLoop, matchstar, matchstarFrom, ih]

/-- `match` decides the language of the pattern it reads. -/
theorem match_iff (re text : List Char) : «match» re text = true ↔ text ∈ (parse re).lang := by
  by_cases h : ∃ r, re = '^' :: r
  · obtain ⟨r, rfl⟩ := h
    simp [«match», parse, Pattern.lang, matchhere_iff]
  · have h' : ∀ r, re = '^' :: r → False := fun r hr => h ⟨r, hr⟩
    rw [«match».eq_2 re text h', parse.eq_2 re h', matchLoop_eq_matchstar, matchstar,
      matchstarFrom_iff (matchhere_iff re) '.' text, atom_dot]
    simp [Pattern.lang, mul_assoc]

example : «match» ['^', 'a', '.', '*', 'c', '$'] ['a', 'b', 'b', 'c'] = true := by decide

/-! ## `grep` -/

/-- `strchr(s, c)` of `ulib.c`: the offset of the first `c` in `s`, which ends at
its first NUL, or at the end of the list. -/
def strchr : List Char → Char → Option Nat
  | [], _ => none
  | x :: s, c => if x = '\x00' then none else if x = c then some 0 else (strchr s c).map (· + 1)

/-- The inner loop of `grep`, with the bytes of `buf` as fuel (each round moves
`p` past a newline): from offset `p`, each line that a newline ends before any
NUL is tested with `match` and, when it matches, written with its newline. It
returns what was written and where `p` stops. -/
def linesLoop (pattern buf : List Char) : Nat → Nat → List Char × Nat
  | 0, p => ([], p)
  | fuel + 1, p =>
    match strchr (buf.drop p) '\n' with
    | none => ([], p)
    | some k =>
      -- `*q = 0` ends the line `match` sees at the newline
      let line := (buf.drop p).take k
      let w := if «match» pattern line then line ++ ['\n'] else []
      let r := linesLoop pattern buf fuel (p + k + 1)
      (w ++ r.1, r.2)

/-- One round of `grep`'s outer loop, once `read` has put `d` after the `m` bytes
kept in `buf`: what it writes, and the bytes it keeps. -/
def round (pattern buf d : List Char) : List Char × List Char :=
  let buf := buf ++ d
  let r := linesLoop pattern buf buf.length 0
  -- `if(p == buf) m = 0`: a buffer that holds no whole line is dropped
  let m := if r.2 = 0 then 0 else buf.length
  (r.1, if 0 < m then (buf.drop r.2).take (m - r.2) else [])

/-- `grep(pattern, fd)` while `read` returns the chunks `ds` in turn: what it
writes to fd 1, and the bytes left in `buf`. The loop stops at the first chunk
that is empty, as at the end of a file. -/
def grep (pattern : List Char) : List (List Char) → List Char → List Char × List Char
  | [], buf => ([], buf)
  | d :: ds, buf =>
    if d = [] then ([], buf) else
      let r := round pattern buf d
      let r' := grep pattern ds r.2
      (r.1 ++ r'.1, r'.2)

/-! ## The lines of a text -/

/-- Put `c`, which is not a newline, in front of the lines. -/
def consLine (c : Char) : List (List Char) × List Char → List (List Char) × List Char
  | ([], r) => ([], c :: r)
  | (l :: ls, r) => ((c :: l) :: ls, r)

/-- The lines of a text that a newline ends, and what follows the last newline. -/
def split : List Char → List (List Char) × List Char
  | [] => ([], [])
  | c :: s => if c = '\n' then ([] :: (split s).1, (split s).2) else consLine c (split s)

/-- Lines back into a text. -/
def join (ls : List (List Char)) (r : List Char) : List Char := ls.flatMap (· ++ ['\n']) ++ r

/-- What `grep` is to write of the lines `ls`: those the pattern matches, each
with its newline. -/
def emit (pattern : List Char) (ls : List (List Char)) : List Char :=
  (ls.filter («match» pattern)).flatMap (· ++ ['\n'])

theorem join_split (s : List Char) : join (split s).1 (split s).2 = s := by
  induction s with
  | nil => rfl
  | cons c s ih =>
    by_cases hc : c = '\n'
    · conv_rhs => rw [← ih, hc]
      simp [split, hc, join]
    · rw [split, if_neg hc]
      rcases h : split s with ⟨_ | ⟨l, ls⟩, r⟩ <;> simp_all [consLine, join]

@[simp] theorem split_nil : split [] = ([], []) := rfl

theorem split_newline {l : List Char} (hl : '\n' ∉ l) (s : List Char) :
    split (l ++ '\n' :: s) = (l :: (split s).1, (split s).2) := by
  induction l with
  | nil => simp [split]
  | cons c l ih =>
    have hc : c ≠ '\n' := fun h => hl (h ▸ List.mem_cons_self)
    rw [List.cons_append, split, if_neg hc, ih (fun h => hl (List.mem_cons_of_mem c h))]
    rfl

theorem split_of_notMem {s : List Char} (h : '\n' ∉ s) : split s = ([], s) := by
  induction s with
  | nil => rfl
  | cons c s ih =>
    have hc : c ≠ '\n' := fun h' => h (h' ▸ List.mem_cons_self)
    rw [split, if_neg hc, ih (fun h' => h (List.mem_cons_of_mem c h'))]
    rfl

/-- No line holds a newline, nor what follows the last. -/
theorem newline_notMem_split (s : List Char) :
    (∀ l ∈ (split s).1, '\n' ∉ l) ∧ '\n' ∉ (split s).2 := by
  induction s with
  | nil => simp
  | cons c s ih =>
    by_cases hc : c = '\n'
    · simpa [split, hc] using ih
    · rw [split, if_neg hc]
      rcases h : split s with ⟨_ | ⟨l, ls⟩, r⟩ <;> rw [h] at ih <;>
        simp_all [consLine, eq_comm]

theorem mem_of_mem_split_snd {s : List Char} {x : Char} (hx : x ∈ (split s).2) : x ∈ s := by
  rw [← join_split s, join]
  exact List.mem_append_right _ hx

theorem split_append (A B : List Char) :
    split (A ++ B) = ((split A).1 ++ (split ((split A).2 ++ B)).1, (split ((split A).2 ++ B)).2) := by
  induction A with
  | nil => simp
  | cons c A ih =>
    by_cases hc : c = '\n'
    · simp [split, hc, ih]
    · rw [List.cons_append, split, split, if_neg hc, if_neg hc, ih]
      rcases h : split A with ⟨_ | ⟨l, ls⟩, r⟩
      · simp [consLine, split, hc]
      · simp [consLine]

theorem strchr_of_notMem {s : List Char} {c : Char} (h : c ∉ s) : strchr s c = none := by
  induction s with
  | nil => rfl
  | cons x s ih =>
    have hx : x ≠ c := fun h' => h (h' ▸ List.mem_cons_self)
    simp [strchr, hx, ih (fun h' => h (List.mem_cons_of_mem x h'))]

theorem strchr_append {l s : List Char} {c : Char} (hl : c ∉ l) (h0 : '\x00' ∉ l) (hc : c ≠ '\x00') :
    strchr (l ++ c :: s) c = some l.length := by
  induction l with
  | nil => simp [strchr, hc]
  | cons x l ih =>
    simp only [List.mem_cons, not_or] at hl h0
    simp [strchr, Ne.symm h0.1, Ne.symm hl.1, ih hl.2 h0.2]

@[simp] theorem emit_nil (pattern : List Char) : emit pattern [] = [] := rfl

theorem emit_cons (pattern l : List Char) (ls : List (List Char)) :
    emit pattern (l :: ls) = (if «match» pattern l then l ++ ['\n'] else []) ++ emit pattern ls := by
  by_cases h : «match» pattern l <;> simp [emit, h]

theorem emit_append (pattern : List Char) (ls ls' : List (List Char)) :
    emit pattern (ls ++ ls') = emit pattern ls ++ emit pattern ls' := by
  simp [emit, List.filter_append]

/-- The inner loop writes the matching lines from `p` on, and stops past the
last newline. -/
theorem linesLoop_spec (pattern : List Char) {buf : List Char} {fuel p : Nat} (hp : p ≤ buf.length)
    (hf : buf.length - p ≤ fuel) (h0 : '\x00' ∉ buf.drop p) :
    linesLoop pattern buf fuel p =
      (emit pattern (split (buf.drop p)).1, buf.length - (split (buf.drop p)).2.length) := by
  induction fuel generalizing p with
  | zero =>
    -- without fuel nothing is left past `p`
    obtain rfl : p = buf.length := by omega
    simp [linesLoop]
  | succ fuel ih =>
    have hj := join_split (buf.drop p)
    have hnl := newline_notMem_split (buf.drop p)
    rcases hsplit : split (buf.drop p) with ⟨_ | ⟨l, ls⟩, r⟩ <;> rw [hsplit] at hj hnl
    · -- no newline is left: the loop stops at `p`
      have hr : r = buf.drop p := by simpa [join] using hj
      rw [linesLoop, strchr_of_notMem (hr ▸ hnl.2), hr, List.length_drop]
      simp only [emit_nil, Prod.mk.injEq, true_and]
      omega
    · -- the first line `l` ends at the first newline
      have hl : '\n' ∉ l := hnl.1 l List.mem_cons_self
      have hs : buf.drop p = l ++ '\n' :: join ls r := by
        rw [← hj]
        simp [join]
      have h0l : '\x00' ∉ l := fun h => h0 (hs ▸ List.mem_append_left _ h)
      have hrest : buf.drop (p + l.length + 1) = join ls r := by
        rw [Nat.add_assoc, ← List.drop_drop, hs]
        simp
      have hlen : p + l.length + 1 ≤ buf.length := by
        have := congrArg List.length hs
        simp only [List.length_drop, List.length_append, List.length_cons] at this
        omega
      have hsplit' : split (join ls r) = (ls, r) := by
        have := split_newline hl (join ls r)
        rw [← hs, hsplit] at this
        simp only [Prod.mk.injEq, List.cons.injEq, true_and] at this
        exact Prod.ext this.1.symm this.2.symm
      have h0' : '\x00' ∉ buf.drop (p + l.length + 1) :=
        fun h => h0 (hs ▸ List.mem_append_right _ (List.mem_cons_of_mem _ (hrest ▸ h)))
      have hstr : strchr (buf.drop p) '\n' = some l.length := by
        rw [hs]
        exact strchr_append hl h0l (by decide)
      have htake : (buf.drop p).take l.length = l := by
        rw [hs]
        simp
      rw [linesLoop, hstr]
      simp only [htake, ih hlen (by omega) h0', hrest, hsplit', emit_cons]

/-- What follows the last newline is where the text ends. -/
theorem drop_split_snd (s : List Char) : s.drop (s.length - (split s).2.length) = (split s).2 := by
  have hj := join_split s
  set r := (split s).2
  rw [← hj, join]
  simp

theorem length_split_snd_lt {s : List Char} (h : '\n' ∈ s) : (split s).2.length < s.length := by
  have hj := join_split s
  rcases hsplit : split s with ⟨_ | ⟨l, ls⟩, r⟩ <;> rw [hsplit] at hj
  · have hr : '\n' ∉ (split s).2 := (newline_notMem_split s).2
    simp only [hsplit, join, List.flatMap_nil, List.nil_append] at hj hr
    exact absurd (hj ▸ h) hr
  · rw [← hj]
    simp only [join, List.flatMap_cons, List.length_append, List.length_flatMap, List.length_cons]
    omega

/-- A round whose buffer holds a newline writes the matching lines of the
buffer and keeps what follows the last newline. -/
theorem round_of_newline (pattern : List Char) {buf d : List Char} (h : '\n' ∈ buf ++ d)
    (h0 : '\x00' ∉ buf ++ d) :
    round pattern buf d = (emit pattern (split (buf ++ d)).1, (split (buf ++ d)).2) := by
  have hlt := length_split_snd_lt h
  have hl := linesLoop_spec pattern (Nat.zero_le (buf ++ d).length) (Nat.le_refl _)
    (by rwa [List.drop_zero])
  simp only [List.drop_zero, Nat.sub_zero] at hl
  have hp : (buf ++ d).length - (split (buf ++ d)).2.length ≠ 0 := by omega
  simp only [round, hl, if_neg hp]
  rw [if_pos (by omega), List.take_of_length_le (by simp), drop_split_snd]

/-- A round whose buffer holds no newline writes nothing and drops the buffer. -/
theorem round_of_notMem (pattern : List Char) {buf d : List Char} (h : '\n' ∉ buf ++ d) :
    round pattern buf d = ([], []) := by
  have hl : linesLoop pattern (buf ++ d) (buf ++ d).length 0 = ([], 0) := by
    cases (buf ++ d).length <;> simp [linesLoop, strchr_of_notMem h]
  simp only [round, hl]
  simp

/-- The loop over reads that do not end it, then over the rest. -/
theorem grep_append (pattern : List Char) {ds₁ : List (List Char)} (ds₂ : List (List Char))
    (hne : ∀ d ∈ ds₁, d ≠ []) (buf : List Char) :
    grep pattern (ds₁ ++ ds₂) buf =
      ((grep pattern ds₁ buf).1 ++ (grep pattern ds₂ (grep pattern ds₁ buf).2).1,
        (grep pattern ds₂ (grep pattern ds₁ buf).2).2) := by
  induction ds₁ generalizing buf with
  | nil => simp [grep]
  | cons d ds₁ ih =>
    have hd : d ≠ [] := hne d List.mem_cons_self
    simp [grep, hd, ih (fun d hd => hne d (List.mem_cons_of_mem _ hd))]

/-- Reads that each bring a newline: `grep` writes the matching lines of what
it read, and keeps what follows the last newline. -/
theorem grep_of_newlines (pattern : List Char) {ds : List (List Char)} {buf : List Char}
    (h : ∀ d ∈ ds, '\n' ∈ d) (hb : '\n' ∉ buf) (h0 : '\x00' ∉ buf ++ ds.flatten) :
    grep pattern ds buf = (emit pattern (split (buf ++ ds.flatten)).1, (split (buf ++ ds.flatten)).2) := by
  induction ds generalizing buf with
  | nil => simp [grep, split_of_notMem hb]
  | cons d ds ih =>
    have hd : '\n' ∈ d := h d List.mem_cons_self
    have h0d : '\x00' ∉ buf ++ d := fun h' => h0 (by simp at h' ⊢; tauto)
    -- the round keeps what follows the last newline, which has no NUL
    have hr0 : '\x00' ∉ (split (buf ++ d)).2 ++ ds.flatten := by
      simp only [List.mem_append, not_or]
      exact ⟨fun h' => h0d (mem_of_mem_split_snd h'), fun h' => h0 (by simp at h' ⊢; tauto)⟩
    have hds := ih (fun d hd => h d (List.mem_cons_of_mem _ hd)) (newline_notMem_split _).2 hr0
    have hne : d ≠ [] := List.ne_nil_of_mem hd
    rw [grep, if_neg hne, round_of_newline pattern (List.mem_append_right _ hd) h0d]
    simp only [hds, List.flatten_cons, ← List.append_assoc, split_append (buf ++ d), emit_append]

/-- Reads that bring no newline: `grep` writes nothing. -/
theorem grep_of_notMem (pattern : List Char) {ds : List (List Char)} {buf : List Char}
    (h : ∀ d ∈ ds, '\n' ∉ d) (hb : '\n' ∉ buf) : (grep pattern ds buf).1 = [] := by
  induction ds generalizing buf with
  | nil => rfl
  | cons d ds ih =>
    have hd : '\n' ∉ buf ++ d := by simp [hb, h d List.mem_cons_self]
    by_cases hne : d = []
    · simp [grep, hne]
    · rw [grep, if_neg hne, round_of_notMem pattern hd]
      simp [ih (fun d hd => h d (List.mem_cons_of_mem _ hd)) (List.not_mem_nil)]

/-- `grep` writes the lines of its input that the pattern matches, each with
its newline, when no NUL is read and every read brings a newline until the
reads that bring none, after the last line. -/
theorem grep_lines (pattern : List Char) (ds₁ ds₂ : List (List Char)) (h₁ : ∀ d ∈ ds₁, '\n' ∈ d)
    (h₂ : ∀ d ∈ ds₂, '\n' ∉ d) (h0 : '\x00' ∉ (ds₁ ++ ds₂).flatten) :
    (grep pattern (ds₁ ++ ds₂) []).1 = emit pattern (split (ds₁ ++ ds₂).flatten).1 := by
  have h0₁ : '\x00' ∉ [] ++ ds₁.flatten := by
    rw [List.nil_append]
    exact fun h => h0 (by rw [List.flatten_append]; exact List.mem_append_left _ h)
  have hne : ∀ d ∈ ds₁, d ≠ [] := fun d hd => List.ne_nil_of_mem (h₁ d hd)
  -- after the first reads, `grep` keeps what follows the last newline
  have hr : '\n' ∉ (split ds₁.flatten).2 := (newline_notMem_split _).2
  have hrest : split ((split ds₁.flatten).2 ++ ds₂.flatten) = ([], _) :=
    split_of_notMem (by simp [hr]; exact fun d hd => h₂ d hd)
  rw [grep_append pattern ds₂ hne, grep_of_newlines pattern h₁ List.not_mem_nil h0₁,
    List.nil_append, grep_of_notMem pattern h₂ hr, List.flatten_append, split_append, hrest]
  simp

theorem grep_lines_three_reads :
    (∀ d ∈ [['a', '\n', 'b'], ['b', '\n']], '\n' ∈ d) ∧ (∀ d ∈ [['c']], '\n' ∉ d) ∧
      '\x00' ∉ ([['a', '\n', 'b'], ['b', '\n']] ++ [['c']]).flatten ∧
      (grep ['b'] ([['a', '\n', 'b'], ['b', '\n']] ++ [['c']]) []).1 =
        emit ['b'] (split ([['a', '\n', 'b'], ['b', '\n']] ++ [['c']]).flatten).1 :=
  ⟨by simp, by simp, by simp, grep_lines _ _ _ (by simp) (by simp) (by simp)⟩

-- A first read that ends inside a line, with no newline, loses its part of the
-- line: `grep` writes nothing, where the line `ab` matches.
example : (grep ['a', 'b'] [['a'], ['b', '\n']] []).1 = [] ∧
    emit ['a', 'b'] (split ['a', 'b', '\n']).1 = ['a', 'b', '\n'] := by decide

end Xv6.User
