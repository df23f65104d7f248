/-
`consoleread`, and the console as one reader's successive calls interleaved
with the characters `consoleintr` takes.

A call of `consoleread` for `n` bytes takes committed characters from `r` one
round at a time, and sleeps while there are none. It stops after a newline,
after `n` bytes, or at a `^D`, which it does not return; a `^D` that ends a call
with bytes is put back, for the next call to return 0. A killed reader that
finds nothing to read returns -1, and the bytes its call took are lost.

The system keeps, beside the console, what the characters committed and what
each call asked for and returned. What a call is owed is said on the committed
stream alone by `takeRead`: the bytes up to and with a newline, at most as many
as it asked for, or up to a `^D`, which only a call with no bytes consumes.
Every state the system reaches keeps the indices in order
(`(w - r) ≤ (e - r) ≤ INPUT_BUF` as 32-bit differences), and, as long as the
reader is not killed, the calls that returned are the successive reads
`readAll` of the committed stream, and what they leave is the bytes of the call
in progress and the unread characters (`read_stream`).
-/
import Xv6.Console.Input
import Xv6.Lib.Reach

set_option autoImplicit false

namespace Xv6.Console

open Ring TransitionSystem

/-- A `consoleread` call in progress: `n` bytes still wanted of `target`, and
those copied to `dst` so far. -/
structure reading where
  target : Nat
  n : Nat
  got : List UInt8

/-- How a round of the loop ends: another round, or the call returns `r`. -/
inductive Outcome where
  | more
  | ret (r : Int)

/-- One round of `consoleread`'s loop, by a reader whose `killed` flag is
`killed`: `none` while it sleeps. The caller asked for `n` bytes; the source's
`int n` is checked non-negative by `sys_read` first. -/
def readRound (inp : input) (killed : Bool) (rd : reading) : Option (input × reading × Outcome) :=
  if rd.n = 0 then some (inp, rd, .ret (rd.target - rd.n))
  else if inp.r = inp.w then
    if killed then some (inp, rd, .ret (-1)) else none
  else
    let c := inp.buf (slot INPUT_BUF inp.r.toNat)
    let inp' := { inp with r := inp.r + 1 }
    if c = C 'D' then
      -- `^D`: put back when the call has bytes, so that the next one returns 0
      if rd.n < rd.target then some ({ inp' with r := inp'.r - 1 }, rd, .ret (rd.target - rd.n))
      else some (inp', rd, .ret (rd.target - rd.n))
    else
      let rd' := { rd with n := rd.n - 1, got := rd.got ++ [c] }
      if c = '\n'.toUInt8 then some (inp', rd', .ret (rd'.target - rd'.n))
      else some (inp', rd', .more)

/-! ## The console -/

/-- The console with one reading process, and what went through it: every
character committed, and each call's target, return value and the bytes it took
(those of a call that returned -1 are lost to the reader). -/
structure Sys where
  inp : input
  call : Option reading
  killed : Bool
  committed : List UInt8
  reads : List (Nat × Int × List UInt8)

/-- A character typed, a call, a round of the call in progress, or `kill`. -/
inductive Event where
  | intr (c : UInt8)
  | read (n : Nat)
  | round
  | kill

/-- The end of a round: the call goes on, or returns. -/
def finish (s : Sys) (inp : input) (rd : reading) : Outcome → Sys
  | .more => { s with inp := inp, call := some rd }
  | .ret r => { s with inp := inp, call := none, reads := s.reads ++ [(rd.target, r, rd.got)] }

/-- One step; `none` when it cannot be taken. -/
def step (s : Sys) : Event → Option Sys
  | .intr c => some { s with inp := consoleintr1 s.inp c
                             committed := s.committed ++ committedBy s.inp (consoleintr1 s.inp c) }
  | .read n => if s.call.isNone then some { s with call := some ⟨n, n, []⟩ } else none
  | .round =>
    match s.call with
    | none => none
    | some rd => (readRound s.inp s.killed rd).map fun x => finish s x.1 x.2.1 x.2.2
  | .kill => some { s with killed := true }

/-- The console at boot: empty, nobody reading. -/
def init (buf : Fin INPUT_BUF → UInt8) : Sys :=
  ⟨⟨buf, 0, 0, 0⟩, none, false, [], []⟩

/-- The states from boot. -/
def ConsoleReachable (s : Sys) : Prop :=
  Reachable (fun s => ∃ buf, s = init buf) (fun s t => ∃ e, step s e = some t) s

/-! ## What the reader sees -/

/-- The committed characters without their `^D`s: what the reader is owed. -/
def stripD (l : List UInt8) : List UInt8 :=
  l.filter fun c => c != C 'D'

@[simp] theorem stripD_append (l l' : List UInt8) : stripD (l ++ l') = stripD l ++ stripD l' :=
  List.filter_append _ _

@[simp] theorem stripD_nil : stripD [] = [] := rfl

theorem stripD_cons_D (l : List UInt8) : stripD (C 'D' :: l) = stripD l := by
  simp [stripD]

theorem stripD_cons_of_ne {c : UInt8} (hc : c ≠ C 'D') (l : List UInt8) :
    stripD (c :: l) = c :: stripD l := by
  simp [stripD, hc]

/-! ## What the reader is owed

Said on the committed stream, without the ring: a call takes bytes from the
front of the stream up to and with a newline, at most as many as it asked for,
and stops before a `^D`. Only a call with no bytes consumes the `^D`; one with
bytes leaves it, so that the next call returns 0. -/

/-- What a call that still wants `n` bytes takes from the stream `l`, and what
it leaves; `started` says whether it has bytes already. `none` when the stream
runs out first: the call sleeps until more is committed. -/
def takeRead : Nat → Bool → List UInt8 → Option (List UInt8 × List UInt8)
  | 0, _, l => some ([], l)
  | _ + 1, _, [] => none
  | n + 1, started, c :: l =>
    if c = C 'D' then some ([], if started then c :: l else l)
    else if c = '\n'.toUInt8 then some ([c], l)
    else (takeRead n true l).map fun r => (c :: r.1, r.2)

/-- Successive calls for `ts` bytes each, on the stream `l`: the bytes each is
owed, and what they leave. -/
def readAll : List Nat → List UInt8 → Option (List (List UInt8) × List UInt8)
  | [], l => some ([], l)
  | t :: ts, l => (takeRead t false l).bind fun r => (readAll ts r.2).map fun q => (r.1 :: q.1, q.2)

/-- A call reads only the front of the stream: what is committed later stays
behind what it leaves. -/
theorem takeRead_append {n : Nat} {started : Bool} {l x r : List UInt8}
    (h : takeRead n started l = some (x, r)) (t : List UInt8) :
    takeRead n started (l ++ t) = some (x, r ++ t) := by
  induction n generalizing started l x r with
  | zero =>
    simp only [takeRead, Option.some.injEq, Prod.mk.injEq] at h
    obtain ⟨rfl, rfl⟩ := h
    rfl
  | succ n ih =>
    cases l with
    | nil => cases h
    | cons c l =>
      simp only [takeRead, List.cons_append] at h ⊢
      by_cases hD : c = C 'D'
      · -- a `^D` ends the call, and stays when the call has bytes
        simp only [if_pos hD, Option.some.injEq, Prod.mk.injEq] at h ⊢
        obtain ⟨rfl, rfl⟩ := h
        cases started <;> simp
      by_cases hn : c = '\n'.toUInt8
      · simp only [if_neg hD, if_pos hn, Option.some.injEq, Prod.mk.injEq] at h ⊢
        obtain ⟨rfl, rfl⟩ := h
        exact ⟨rfl, rfl⟩
      · simp only [if_neg hD, if_neg hn] at h ⊢
        obtain ⟨⟨y, r'⟩, hq, hqe⟩ := Option.map_eq_some_iff.mp h
        obtain ⟨rfl, rfl⟩ := Prod.mk.inj hqe
        rw [ih hq]
        rfl

/-- The bytes a call has taken, none of which ends it, are the front of what it
is owed, and it goes on as a call that has bytes. -/
theorem takeRead_got {got : List UInt8} (hD : C 'D' ∉ got) (hnl : '\n'.toUInt8 ∉ got) (n : Nat)
    (started : Bool) (l : List UInt8) :
    takeRead (got.length + n) started (got ++ l) =
      (takeRead n (started || !got.isEmpty) l).map fun r => (got ++ r.1, r.2) := by
  induction got generalizing started with
  | nil => simp
  | cons c got ih =>
    have hcD : c ≠ C 'D' := fun h => hD (h ▸ List.mem_cons_self)
    have hcn : c ≠ '\n'.toUInt8 := fun h => hnl (h ▸ List.mem_cons_self)
    rw [List.length_cons, Nat.add_right_comm, List.cons_append, takeRead, if_neg hcD, if_neg hcn,
      ih (fun h => hD (List.mem_cons_of_mem c h)) (fun h => hnl (List.mem_cons_of_mem c h)),
      Option.map_map]
    simp [Function.comp_def]

/-- A run of calls that got through: the first call's bytes, then the others'
on what it left. -/
theorem readAll_cons_eq_some {t : Nat} {ts : List Nat} {l r : List UInt8} {bs : List (List UInt8)} :
    readAll (t :: ts) l = some (bs, r) ↔
      ∃ x m q, takeRead t false l = some (x, m) ∧ readAll ts m = some (q, r) ∧ bs = x :: q := by
  simp only [readAll, Option.bind_eq_some_iff, Option.map_eq_some_iff, Prod.exists, Prod.mk.injEq]
  constructor
  · rintro ⟨x, m, hx, q, r', hq, rfl, rfl⟩
    exact ⟨x, m, q, hx, hq, rfl⟩
  · rintro ⟨x, m, q, hx, hq, rfl⟩
    exact ⟨x, m, hx, q, r, hq, rfl, rfl⟩

theorem readAll_append {ts : List Nat} {l r : List UInt8} {bs : List (List UInt8)}
    (h : readAll ts l = some (bs, r)) (t : List UInt8) : readAll ts (l ++ t) = some (bs, r ++ t) := by
  induction ts generalizing l bs r with
  | nil =>
    simp only [readAll, Option.some.injEq, Prod.mk.injEq] at h
    obtain ⟨rfl, rfl⟩ := h
    rfl
  | cons t' ts ih =>
    obtain ⟨x, m, q, hx, hq, rfl⟩ := readAll_cons_eq_some.mp h
    exact readAll_cons_eq_some.mpr ⟨x, m ++ t, q, takeRead_append hx t, ih hq, rfl⟩

/-- One more call, on what the earlier ones left. -/
theorem readAll_snoc {ts : List Nat} {l m m' b : List UInt8} {bs : List (List UInt8)}
    (h : readAll ts l = some (bs, m)) {t : Nat} (ht : takeRead t false m = some (b, m')) :
    readAll (ts ++ [t]) l = some (bs ++ [b], m') := by
  induction ts generalizing l bs with
  | nil =>
    simp only [readAll, Option.some.injEq, Prod.mk.injEq] at h
    obtain ⟨rfl, rfl⟩ := h
    simp [readAll, ht]
  | cons t' ts ih =>
    obtain ⟨x, m₀, q, hx, hq, rfl⟩ := readAll_cons_eq_some.mp h
    exact readAll_cons_eq_some.mpr ⟨x, m₀, q ++ [b], hx, ih hq, rfl⟩

/-! ## The invariant -/

/-- A call in progress: its bytes and those still wanted add up to its target,
and none of its bytes ends a line. -/
def CallOk (rd : reading) : Prop :=
  rd.got.length + rd.n = rd.target ∧ C 'D' ∉ rd.got ∧ '\n'.toUInt8 ∉ rd.got

/-- A call that returned: it returned the number of its bytes, none of them a
`^D`, and a newline only as the last. -/
def ReadOk (p : Int × List UInt8) : Prop :=
  p.1 = p.2.length ∧ C 'D' ∉ p.2 ∧ '\n'.toUInt8 ∉ p.2.dropLast

/-- The bytes of the call in progress. -/
def pending : Option reading → List UInt8
  | some rd => rd.got
  | none => []

/-- The targets of the calls that returned. -/
def targets (s : Sys) : List Nat :=
  s.reads.map Prod.fst

/-- The bytes of each call that returned. -/
def returned (s : Sys) : List (List UInt8) :=
  s.reads.map fun p => p.2.2

structure Inv (s : Sys) : Prop where
  good : Good s.inp
  call : ∀ rd, s.call = some rd → CallOk rd
  reads : ∀ p ∈ s.reads, ReadOk p.2 ∨ (p.2.1 = -1 ∧ s.killed = true)
  stream : stripD s.committed = (returned s).flatten ++ pending s.call ++ stripD (unread s.inp)
  owed : s.killed = false →
    readAll (targets s) s.committed = some (returned s, pending s.call ++ unread s.inp)

/-- The front committed character, when there is one. -/
theorem unread_pop {inp : input} (hg : Good inp) (hne : inp.r ≠ inp.w) :
    unread inp = inp.buf (slot INPUT_BUF inp.r.toNat) :: unread { inp with r := inp.r + 1 } ∧
      Good { inp with r := inp.r + 1 } := by
  have hlen := length_succ_start hne
  have hmod := toNat_succ_mod INPUT_BUF_dvd inp.r
  have hsplit := length_split hg.order
  have hre : inp.r ≠ inp.e := by
    intro he
    have h0 : (inp.e - inp.r).toNat = 0 := length_eq_zero.mpr he
    exact hne (length_eq_zero.mp (by have := hg.order; omega))
  have hlen' := length_succ_start hre
  refine ⟨?_, ⟨?_, ?_, hg.open_line⟩⟩
  · unfold unread
    dsimp only
    rw [← hlen, window_pop, window_mod hmod.symm]
  · dsimp only; have := hg.order; omega
  · dsimp only; have := hg.room; omega

/-- The editor commits what it adds to the unread characters. -/
theorem typed_unread (u l : List UInt8) (c : UInt8) : (typed u l c).1.1 = u ++ (typed u l c).2 := by
  simp only [typed]
  split_ifs <;> simp

/-- A round moves bytes from the unread characters to the call, in order, and
keeps the call and the returned bytes well formed. -/
theorem readRound_spec {inp inp' : input} {killed : Bool} {rd rd' : reading} {o : Outcome}
    (hg : Good inp) (hc : CallOk rd) (h : readRound inp killed rd = some (inp', rd', o)) :
    Good inp' ∧ rd.got ++ stripD (unread inp) = rd'.got ++ stripD (unread inp') ∧
      (o = .more → CallOk rd') ∧ (∀ r, o = .ret r → r ≠ -1 → ReadOk (r, rd'.got)) ∧
      (o = .ret (-1) → killed = true) := by
  obtain ⟨hlen, hD, hnl⟩ := hc
  unfold readRound at h
  split at h
  · -- nothing more wanted
    rename_i hn
    obtain ⟨rfl, rfl, rfl⟩ := Option.some.inj h
    refine ⟨hg, rfl, (fun h => by cases h), fun r hr _ => ?_, fun hr => ?_⟩
    · obtain rfl := Outcome.ret.inj hr
      exact ⟨by dsimp only; omega, hD, fun hm => hnl ((List.dropLast_sublist _).subset hm)⟩
    · have := Outcome.ret.inj hr
      omega
  split at h
  · -- nothing committed: a killed reader gives up
    split at h
    · obtain ⟨rfl, rfl, rfl⟩ := Option.some.inj h
      exact ⟨hg, rfl, (fun h => by cases h), fun r hr hne => absurd (Outcome.ret.inj hr).symm hne, fun _ => by assumption⟩
    · cases h
  rename_i hn hne
  obtain ⟨hpop, hg'⟩ := unread_pop hg hne
  dsimp only at h
  split at h
  · rename_i hcD
    split at h
    · -- `^D` after some bytes: put back
      obtain ⟨rfl, rfl, rfl⟩ := Option.some.inj h
      have hr : inp.r + 1 - 1 = inp.r := by simp
      refine ⟨by simpa [hr] using hg, by simp [hr], (fun h => by cases h), fun r hr' _ => ?_, fun hr' => ?_⟩
      · obtain rfl := Outcome.ret.inj hr'
        exact ⟨by dsimp only; omega, hD, fun hm => hnl ((List.dropLast_sublist _).subset hm)⟩
      · have := Outcome.ret.inj hr'
        omega
    · -- `^D` first: the call returns 0, and the `^D` is gone
      obtain ⟨rfl, rfl, rfl⟩ := Option.some.inj h
      have hnil : rd.got = [] := by
        rw [← List.length_eq_zero_iff]; omega
      refine ⟨hg', by rw [hpop, hcD, stripD_cons_D], (fun h => by cases h), fun r hr' _ => ?_, fun hr' => ?_⟩
      · obtain rfl := Outcome.ret.inj hr'
        exact ⟨by simp only [hnil, List.length_nil]; omega, hD,
          fun hm => hnl ((List.dropLast_sublist _).subset hm)⟩
      · have := Outcome.ret.inj hr'
        omega
  · rename_i hcD
    have hstream : rd.got ++ stripD (unread inp) = (rd.got ++ [inp.buf (slot INPUT_BUF inp.r.toNat)]) ++
        stripD (unread { inp with r := inp.r + 1 }) := by
      rw [hpop, stripD_cons_of_ne hcD, List.append_assoc, List.singleton_append]
    split at h
    · -- a newline ends the call
      rename_i hcn
      obtain ⟨rfl, rfl, rfl⟩ := Option.some.inj h
      refine ⟨hg', hstream, (fun h => by cases h), fun r hr' _ => ?_, fun hr' => ?_⟩
      · obtain rfl := Outcome.ret.inj hr'
        exact ⟨by simp only [List.length_append, List.length_singleton]; omega,
          by simp [hD, Ne.symm hcD], by simpa using hnl⟩
      · have := Outcome.ret.inj hr'
        omega
    · -- another byte: the call goes on
      rename_i hcn
      obtain ⟨rfl, rfl, rfl⟩ := Option.some.inj h
      refine ⟨hg', hstream, fun _ => ⟨by simp only [List.length_append, List.length_singleton]; omega,
        by simp [hD, Ne.symm hcD], by simp [hnl, Ne.symm hcn]⟩, ?_, ?_⟩
      · intro _ hr
        cases hr
      · intro hr
        cases hr

/-- A round of a reader that is not killed takes what `takeRead` says: a round
that goes on moves one byte to the call, and a round that returns ends the call
with what it is owed. -/
theorem readRound_owed {inp inp' : input} {rd rd' : reading} {o : Outcome} (hg : Good inp)
    (hc : CallOk rd) (h : readRound inp false rd = some (inp', rd', o)) :
    rd'.target = rd.target ∧ (o = .more → rd.got ++ unread inp = rd'.got ++ unread inp') ∧
      (∀ r, o = .ret r → takeRead rd.target false (rd.got ++ unread inp) = some (rd'.got, unread inp')) := by
  obtain ⟨hlen, hD, hnl⟩ := hc
  -- what the call has taken is the front of what it is owed
  have hgot : ∀ l, takeRead rd.target false (rd.got ++ l) =
      (takeRead rd.n (!rd.got.isEmpty) l).map fun r => (rd.got ++ r.1, r.2) := fun l => by
    rw [← hlen, takeRead_got hD hnl, Bool.false_or]
  unfold readRound at h
  split at h
  · -- nothing more wanted
    rename_i hn
    obtain ⟨rfl, rfl, rfl⟩ := Option.some.inj h
    refine ⟨rfl, (fun h => by cases h), fun _ _ => ?_⟩
    rw [hgot, hn]
    simp [takeRead]
  split at h
  · cases h
  rename_i hn hne
  obtain ⟨hpop, -⟩ := unread_pop hg hne
  obtain ⟨m, hm⟩ : ∃ m, rd.n = m + 1 := Nat.exists_eq_succ_of_ne_zero hn
  have hstep : takeRead rd.target false (rd.got ++ unread inp) =
      (takeRead (m + 1) (!rd.got.isEmpty) (inp.buf (slot INPUT_BUF inp.r.toNat) ::
        unread { inp with r := inp.r + 1 })).map fun r => (rd.got ++ r.1, r.2) := by
    rw [hgot, hm, ← hpop]
  dsimp only at h
  split at h
  · rename_i hcD
    -- the call has bytes exactly when it wants fewer than its target
    have hstarted : (!rd.got.isEmpty) = decide (rd.n < rd.target) := by
      cases hg' : rd.got with
      | nil => simp [hg'] at hlen ⊢; omega
      | cons c cs => simp [hg'] at hlen ⊢; omega
    split at h
    · -- `^D` after some bytes: put back
      rename_i hlt
      obtain ⟨rfl, rfl, rfl⟩ := Option.some.inj h
      have hr : inp.r + 1 - 1 = inp.r := by simp
      refine ⟨rfl, (fun h => by cases h), fun _ _ => ?_⟩
      rw [hstep, takeRead, if_pos hcD, hstarted, decide_eq_true hlt, if_pos rfl, ← hpop]
      simp [hr]
    · -- `^D` first: the call returns 0, and the `^D` is gone
      rename_i hlt
      obtain ⟨rfl, rfl, rfl⟩ := Option.some.inj h
      refine ⟨rfl, (fun h => by cases h), fun _ _ => ?_⟩
      rw [hstep, takeRead, if_pos hcD, hstarted, decide_eq_false hlt]
      simp
  · rename_i hcD
    split at h
    · -- a newline ends the call
      rename_i hcn
      obtain ⟨rfl, rfl, rfl⟩ := Option.some.inj h
      refine ⟨rfl, (fun h => by cases h), fun _ _ => ?_⟩
      rw [hstep, takeRead, if_neg hcD, if_pos hcn]
      simp
    · -- another byte: the call goes on
      obtain ⟨rfl, rfl, rfl⟩ := Option.some.inj h
      refine ⟨rfl, fun _ => by rw [hpop]; simp, fun _ hr => by cases hr⟩

/-! ## Every state the console reaches -/

theorem inv_init (buf : Fin INPUT_BUF → UInt8) : Inv (init buf) where
  good := ⟨le_refl _, by simp [init, INPUT_BUF], by simp [line, init]⟩
  call := nofun
  reads := nofun
  stream := by simp [init, unread, pending, returned]
  owed _ := by simp [init, unread, pending, returned, targets, readAll]

/-- Typing a character: what the editor commits joins both the committed stream
and the unread characters. -/
theorem inv_intr {s : Sys} (hs : Inv s) (c : UInt8) :
    Inv { s with inp := consoleintr1 s.inp c
                 committed := s.committed ++ committedBy s.inp (consoleintr1 s.inp c) } := by
  obtain ⟨hedit, hgood, -⟩ := edit_consoleintr1 hs.good c
  have hu : unread (consoleintr1 s.inp c) = unread s.inp ++ committedBy s.inp (consoleintr1 s.inp c) := by
    have h₁ := congrArg (fun x => x.1.1) hedit
    have h₂ := congrArg Prod.snd hedit
    dsimp only at h₁ h₂
    rw [h₁, h₂, typed_unread]
  refine ⟨hgood, hs.call, hs.reads, ?_, fun hk => ?_⟩
  · dsimp only
    rw [hu, stripD_append, stripD_append, hs.stream]
    simp only [returned, List.append_assoc]
  · -- the committed characters join the stream behind what the calls left
    have := readAll_append (hs.owed hk) (committedBy s.inp (consoleintr1 s.inp c))
    simpa only [targets, returned, hu, List.append_assoc] using this

/-- A round of the call in progress: the bytes it took move from the unread
characters to the call, and from the call to its entry in the log when it
returns. -/
theorem inv_round {s : Sys} (hs : Inv s) {rd : reading} (hcall : s.call = some rd)
    {inp' : input} {rd' : reading} {o : Outcome} (h : readRound s.inp s.killed rd = some (inp', rd', o)) :
    Inv (finish s inp' rd' o) := by
  obtain ⟨hg', hstream, hmore, hret, hkill⟩ := readRound_spec hs.good (hs.call rd hcall) h
  have hs' := hs.stream
  rw [hcall] at hs'
  simp only [pending] at hs'
  -- a reader that is not killed takes what it is owed
  have howed : s.killed = false → rd'.target = rd.target ∧
      (o = .more → rd.got ++ unread s.inp = rd'.got ++ unread inp') ∧
      (∀ r, o = .ret r → takeRead rd.target false (rd.got ++ unread s.inp) = some (rd'.got, unread inp')) :=
    fun hk => readRound_owed hs.good (hs.call rd hcall) (hk ▸ h)
  have hq : s.killed = false → readAll (targets s) s.committed = some (returned s, rd.got ++ unread s.inp) :=
    fun hk => by simpa [hcall, pending] using hs.owed hk
  cases o with
  | more =>
    refine ⟨hg', fun rd'' h'' => ?_, hs.reads, ?_, fun hk => ?_⟩
    · cases h''
      exact hmore rfl
    · simp only [finish, pending, returned, hs', List.append_assoc, hstream]
    · rw [(howed hk).2.1 rfl] at hq
      exact hq hk
  | ret r =>
    refine ⟨hg', nofun, fun p hp => ?_, ?_, fun hk => ?_⟩
    · rcases List.mem_append.mp hp with hp | hp
      · exact hs.reads p hp
      · rw [List.mem_singleton.mp hp]
        -- a call returns -1 only to a killed reader
        by_cases hr : r = -1
        · exact Or.inr ⟨hr, hkill (hr ▸ rfl)⟩
        · exact Or.inl (hret r rfl hr)
    · simp only [finish, pending, returned, hs', List.append_assoc, hstream, List.map_append,
        List.map_cons, List.map_nil, List.flatten_append, List.flatten_cons, List.flatten_nil,
        List.append_nil]
    · obtain ⟨ht, -, hr⟩ := howed hk
      have := readAll_snoc (hq hk) (hr r rfl)
      simpa [finish, targets, returned, pending, ht] using this

theorem inv_step {s t : Sys} {e : Event} (hs : Inv s) (h : step s e = some t) : Inv t := by
  cases e with
  | intr c =>
    cases h
    exact inv_intr hs c
  | read n =>
    simp only [step] at h
    split_ifs at h with hnone
    -- a new call, with no bytes yet
    cases h
    have hnil : s.call = none := Option.isNone_iff_eq_none.mp hnone
    refine ⟨hs.good, fun rd hrd => ?_, hs.reads, ?_, fun hk => ?_⟩
    · cases hrd
      exact ⟨by simp, nofun, nofun⟩
    · have := hs.stream
      rw [hnil] at this
      simpa [pending, returned] using this
    · have := hs.owed hk
      rw [hnil] at this
      simpa [pending, returned, targets] using this
  | round =>
    simp only [step] at h
    split at h
    · cases h
    · rename_i rd hcall
      obtain ⟨x, hx, rfl⟩ := Option.map_eq_some_iff.mp h
      exact inv_round hs hcall hx
  | kill =>
    cases h
    -- a killed reader is owed nothing more
    exact ⟨hs.good, hs.call, fun p hp => (hs.reads p hp).imp_right fun h => ⟨h.1, rfl⟩, hs.stream,
      nofun⟩

theorem inv_reachable {s : Sys} (hs : ConsoleReachable s) : Inv s := by
  refine invariant ?_ (fun s t _ hi ⟨e, he⟩ => inv_step hi he) hs
  rintro _ ⟨buf, rfl⟩
  exact inv_init buf

theorem ConsoleReachable.of_run (buf : Fin INPUT_BUF → UInt8) (es : List Event) {t : Sys}
    (h : runLabels step (init buf) es = some t) : ConsoleReachable t :=
  Reachable.of_run (fun _ e _ he => ⟨e, he⟩) es (Reachable.init ⟨buf, rfl⟩) h

end Xv6.Console
