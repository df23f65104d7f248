/-
`mpinit`: the walk over the entries of the MP configuration table.

The table is given by its bytes from the header on (`conf`), as the firmware
left them. `mpconfig` accepts it when it starts with "PCMP", has version 1 or 4,
and its first `length` bytes sum to 0 modulo 256. `mpinit` then reads the
entries from the end of the 44-byte header up to `length`; each entry's type
byte says how long it is.

The loop has no increment clause: each case of the `switch` moves `p` and
`continue`s. The `default` case sets `ismp = 0` and `break`s, which leaves the
`switch` and not the `for`: `p` stays on the same byte, the next round reads it
again, and the loop never ends. So a table that passes `mpconfig` and has an
entry of unknown type keeps `mpinit` in its loop forever, and the panic "Didn't
find a suitable machine", which needs the loop to end with `ismp = 0`, is never
reached (`mpinit_hangs`).

On a table whose entries all have known types the loop ends after one round per
entry (`mpinit_returns`), and `ncpu` and `cpus` then hold the APIC ids of the
first `NCPU` processor entries in table order (`mpinit_cpus`). `entryAt` and
`procIds` read the table's format on its own terms: where each entry starts,
each after the one before by the size its type gives, and the processor
entries' APIC ids.
-/
import Mathlib.Logic.Function.Basic
import Xv6.Lib.Loop

set_option autoImplicit false

namespace Xv6.Mp

/-- `NCPU`: the slots of `cpus`. -/
def NCPU : Nat := 8

/-! ## The table -/

def MPPROC : UInt8 := 0x00
def MPBUS : UInt8 := 0x01
def MPIOAPIC : UInt8 := 0x02
def MPIOINTR : UInt8 := 0x03
def MPLINTR : UInt8 := 0x04

/-- `sizeof(struct mpconf)`. -/
def mpconfSize : Nat := 44

/-- `sizeof(struct mpproc)`. -/
def mpprocSize : Nat := 20

/-- `sizeof(struct mpioapic)`. -/
def mpioapicSize : Nat := 8

/-- `conf->length`: the `ushort` at offset 4, little-endian. -/
def confLength (conf : Nat → UInt8) : Nat := (conf 4).toNat + 256 * (conf 5).toNat

/-- `conf->version`, at offset 6. -/
def confVersion (conf : Nat → UInt8) : UInt8 := conf 6

/-- `sum`: the `int` sum of `len` bytes, returned as a `uchar`. -/
def sum (addr : Nat → UInt8) (len : Nat) : UInt8 :=
  UInt8.ofNat ((List.range len).foldl (fun s i => s + (addr i).toNat) 0)

/-- `mpconfig`'s checks of the table it found: signature, version and checksum. -/
def mpconfig (conf : Nat → UInt8) : Bool :=
  (List.range 4).map conf == ['P', 'C', 'M', 'P'].map Char.toUInt8 &&
    (confVersion conf == 1 || confVersion conf == 4) && sum conf (confLength conf) == 0

/-- The types the loop's `switch` has a case for. -/
def Known (t : UInt8) : Prop :=
  t = MPPROC ∨ t = MPIOAPIC ∨ t = MPBUS ∨ t = MPIOINTR ∨ t = MPLINTR

instance (t : UInt8) : Decidable (Known t) := inferInstanceAs (Decidable (_ ∨ _))

/-- How far the case for type `t` moves `p`. -/
def entrySize (t : UInt8) : Nat :=
  if t = MPPROC then mpprocSize else if t = MPIOAPIC then mpioapicSize else 8

/-- Where the `i`-th entry from offset `p` starts. -/
def entryAt (conf : Nat → UInt8) : Nat → Nat → Nat
  | 0, p => p
  | i + 1, p => entryAt conf i (p + entrySize (conf p))

/-- The APIC ids of the processor entries among the `n` entries from `p`, in
table order: each at its entry's second byte. -/
def procIds (conf : Nat → UInt8) : Nat → Nat → List UInt8
  | 0, _ => []
  | n + 1, p =>
    (if conf p = MPPROC then [conf (p + 1)] else []) ++ procIds conf n (p + entrySize (conf p))

/-! ## The loop -/

/-- The globals `ncpu` and `cpus[i].apicid`. -/
structure CpuTable where
  ncpu : Nat
  apicid : Fin NCPU → UInt8

/-- A processor's APIC id in the next slot of `cpus`, while there is one. -/
def CpuTable.add (c : CpuTable) (a : UInt8) : CpuTable :=
  if h : c.ncpu < NCPU then ⟨c.ncpu + 1, Function.update c.apicid ⟨c.ncpu, h⟩ a⟩ else c

/-- What the loop reads and writes: its cursor `p`, an offset from `conf`; its
flag `ismp`; `cpus` and `ioapicid`. -/
structure MpState where
  p : Nat
  ismp : Bool
  cpus : CpuTable
  ioapicid : UInt8

/-- One round of the loop: the `switch` on the type byte at `p`. -/
def mpinitStep (conf : Nat → UInt8) (st : MpState) : MpState :=
  if conf st.p = MPPROC then
    { st with cpus := st.cpus.add (conf (st.p + 1)), p := st.p + mpprocSize }
  else if conf st.p = MPIOAPIC then
    { st with ioapicid := conf (st.p + 1), p := st.p + mpioapicSize }
  else if conf st.p = MPBUS ∨ conf st.p = MPIOINTR ∨ conf st.p = MPLINTR then
    { st with p := st.p + 8 }
  else
    -- `default`: its `break` leaves the `switch` only, and `p` stays
    { st with ismp := false }

/-- The `for` loop, while `p < e`, for at most `fuel` rounds. -/
def mpinitLoop (conf : Nat → UInt8) (e fuel : Nat) (st : MpState) : Option MpState :=
  FuelLoop.run (fun st : MpState => st.p < e) (mpinitStep conf) fuel st

/-- Before the loop: `p` just past the header, `ismp = 1`, and the globals zero. -/
def mpinitStart : MpState := ⟨mpconfSize, true, ⟨0, fun _ => 0⟩, 0⟩

/-- `mpinit` with `fuel` rounds of its loop: `none` if the loop is still running
after them, else its panic or the state it leaves. -/
def mpinit (fuel : Nat) (conf : Nat → UInt8) : Option (Except String MpState) :=
  if mpconfig conf = false then some (.error "Expect to run on an SMP")
  else (mpinitLoop conf (confLength conf) fuel mpinitStart).map fun st =>
    if st.ismp = false then .error "Didn't find a suitable machine" else .ok st

/-! ## One round -/

section Step

variable {conf : Nat → UInt8} {st : MpState}

/-- An unknown type leaves the state but for `ismp`. -/
theorem mpinitStep_of_unknown (h : ¬Known (conf st.p)) :
    mpinitStep conf st = { st with ismp := false } := by
  simp only [Known, not_or] at h
  obtain ⟨h0, h2, h1, h3, h4⟩ := h
  simp [mpinitStep, h0, h1, h2, h3, h4]

/-- A known type moves `p` by its entry's size, keeps `ismp`, and records a
processor entry's APIC id. -/
theorem mpinitStep_of_known (h : Known (conf st.p)) :
    (mpinitStep conf st).p = st.p + entrySize (conf st.p) ∧ (mpinitStep conf st).ismp = st.ismp ∧
      (mpinitStep conf st).cpus =
        if conf st.p = MPPROC then st.cpus.add (conf (st.p + 1)) else st.cpus := by
  rcases h with h | h | h | h | h <;>
    simp [mpinitStep, entrySize, h, MPPROC, MPIOAPIC, MPBUS, MPIOINTR, MPLINTR]

/-- Past an unknown type the loop stands still. -/
theorem p_iterate_of_unknown (h : ¬Known (conf st.p)) (j : Nat) :
    ((mpinitStep conf)^[j] st).p = st.p := by
  induction j generalizing st with
  | zero => rfl
  | succ j ih =>
    rw [Function.iterate_succ_apply, mpinitStep_of_unknown h]
    exact ih h

/-- `n` rounds over entries of known types: `p` at the `n`-th entry, `ismp`
kept, and the processor entries recorded in order. -/
theorem iterate_of_known {n : Nat} (h : ∀ m < n, Known (conf ((mpinitStep conf)^[m] st).p)) :
    ((mpinitStep conf)^[n] st).p = entryAt conf n st.p ∧ ((mpinitStep conf)^[n] st).ismp = st.ismp ∧
      ((mpinitStep conf)^[n] st).cpus = (procIds conf n st.p).foldl CpuTable.add st.cpus := by
  induction n generalizing st with
  | zero => exact ⟨rfl, rfl, rfl⟩
  | succ n ih =>
    have h0 : Known (conf st.p) := h 0 (Nat.succ_pos n)
    obtain ⟨hp, hismp, hcpus⟩ := mpinitStep_of_known h0
    have hnext : ∀ m < n, Known (conf ((mpinitStep conf)^[m] (mpinitStep conf st)).p) :=
      fun m hm => h (m + 1) (by omega)
    obtain ⟨ihp, ihismp, ihcpus⟩ := ih hnext
    rw [Function.iterate_succ_apply]
    refine ⟨by rw [ihp, hp]; rfl, by rw [ihismp, hismp], ?_⟩
    rw [ihcpus, hcpus, hp, procIds, List.foldl_append]
    split <;> rfl

/-- Entries of known types from `p` on are read in order, round by round. -/
theorem known_iterate_of_entries {n : Nat} (h : ∀ i < n, Known (conf (entryAt conf i st.p))) :
    ∀ m < n, Known (conf ((mpinitStep conf)^[m] st).p) := by
  induction n generalizing st with
  | zero => exact fun m hm => absurd hm (Nat.not_lt_zero m)
  | succ n ih =>
    have h0 : Known (conf st.p) := h 0 (Nat.succ_pos n)
    -- the next entry starts where the round leaves `p`
    have hnext : ∀ i < n, Known (conf (entryAt conf i (mpinitStep conf st).p)) := by
      intro i hi
      rw [(mpinitStep_of_known h0).1]
      exact h (i + 1) (by omega)
    intro m hm
    cases m with
    | zero => exact h0
    | succ m =>
      rw [Function.iterate_succ_apply]
      exact ih hnext m (by omega)

end Step

/-! ## The table of processors -/

/-- Filling `cpus` from `c` on: the slots it had stay, the next ones take the
ids in order, as long as there are slots. -/
theorem foldl_add (ids : List UInt8) (c : CpuTable) (hc : c.ncpu ≤ NCPU) :
    (ids.foldl CpuTable.add c).ncpu = min NCPU (c.ncpu + ids.length) ∧
      ∀ i : Fin NCPU, (i : Nat) < (ids.foldl CpuTable.add c).ncpu →
        ((i : Nat) < c.ncpu ∧ (ids.foldl CpuTable.add c).apicid i = c.apicid i) ∨
          (c.ncpu ≤ i ∧ ids[(i : Nat) - c.ncpu]? = some ((ids.foldl CpuTable.add c).apicid i)) := by
  induction ids generalizing c with
  | nil =>
    refine ⟨by simp; omega, fun i hi => Or.inl ⟨hi, rfl⟩⟩
  | cons a ids ih =>
    rw [List.foldl_cons]
    by_cases hlt : c.ncpu < NCPU
    · -- a free slot: `a` goes to slot `ncpu`
      have hn1 : (c.add a).ncpu = c.ncpu + 1 := by simp [CpuTable.add, hlt]
      have hap : (c.add a).apicid = Function.update c.apicid ⟨c.ncpu, hlt⟩ a := by
        simp [CpuTable.add, hlt]
      obtain ⟨hn, hslots⟩ := ih (c.add a) (by rw [hn1]; exact hlt)
      refine ⟨by rw [hn, hn1, List.length_cons]; omega, fun i hi => ?_⟩
      rcases hslots i hi with ⟨hi', he⟩ | ⟨hi', he⟩
      · rw [hn1] at hi'
        rw [he, hap]
        by_cases hic : (i : Nat) = c.ncpu
        · have hieq : i = ⟨c.ncpu, hlt⟩ := Fin.ext hic
          refine Or.inr ⟨by omega, ?_⟩
          rw [hieq, Function.update_self]
          simp
        · have hine : i ≠ ⟨c.ncpu, hlt⟩ := fun e => hic (by rw [e])
          exact Or.inl ⟨by omega, Function.update_of_ne hine _ _⟩
      · rw [hn1] at hi' he
        refine Or.inr ⟨by omega, ?_⟩
        have hidx : (i : Nat) - c.ncpu = ((i : Nat) - (c.ncpu + 1)) + 1 := by omega
        rw [hidx, List.getElem?_cons_succ]
        exact he
    · -- `cpus` is full: the rest are skipped
      have hsame : ∀ b, c.add b = c := fun b => by simp [CpuTable.add, hlt]
      have hskip : ∀ l : List UInt8, l.foldl CpuTable.add c = c := by
        intro l
        induction l with
        | nil => rfl
        | cons b l ihl => rw [List.foldl_cons, hsame b, ihl]
      rw [hsame a, hskip]
      exact ⟨by simp only [List.length_cons]; omega, fun i hi => Or.inl ⟨hi, rfl⟩⟩

/-- From the empty table: `ncpu` is the number of ids up to `NCPU`, and slot `i`
holds the `i`-th id. -/
theorem foldl_add_empty (ids : List UInt8) :
    (ids.foldl CpuTable.add ⟨0, fun _ => 0⟩).ncpu = min NCPU ids.length ∧
      ∀ i : Fin NCPU, (i : Nat) < (ids.foldl CpuTable.add ⟨0, fun _ => 0⟩).ncpu →
        ids[(i : Nat)]? = some ((ids.foldl CpuTable.add ⟨0, fun _ => 0⟩).apicid i) := by
  obtain ⟨hn, hslots⟩ := foldl_add ids ⟨0, fun _ => 0⟩ (Nat.zero_le _)
  refine ⟨by simpa using hn, fun i hi => ?_⟩
  rcases hslots i hi with ⟨hi', -⟩ | ⟨-, he⟩
  · exact absurd hi' (Nat.not_lt_zero _)
  · simpa using he

/-! ## The whole walk -/

section Walk

variable {conf : Nat → UInt8}

/-- A loop that ends has read only entries of known types: after an unknown one
it stands still below the end. -/
theorem known_of_loop {e fuel : Nat} {st st' : MpState} (h : mpinitLoop conf e fuel st = some st') :
    ∃ n ≤ fuel, st' = (mpinitStep conf)^[n] st ∧ ¬st'.p < e ∧
      ∀ m < n, ((mpinitStep conf)^[m] st).p < e ∧ Known (conf ((mpinitStep conf)^[m] st).p) := by
  obtain ⟨n, hn, rfl, hend, hrun⟩ := FuelLoop.run_eq_some h
  refine ⟨n, hn, rfl, hend, fun m hm => ⟨hrun m hm, ?_⟩⟩
  by_contra hunk
  apply hend
  -- the `n`-th state is where the unknown entry left the loop standing
  have hsplit : (mpinitStep conf)^[n] st = (mpinitStep conf)^[n - m] ((mpinitStep conf)^[m] st) := by
    rw [← Function.iterate_add_apply, Nat.sub_add_cancel (Nat.le_of_lt hm)]
  rw [hsplit, p_iterate_of_unknown hunk]
  exact hrun m hm

/-- A loop that ends keeps `ismp` set: the only case that clears it never lets
the loop end. -/
theorem ismp_of_loop {e fuel : Nat} {st' : MpState}
    (h : mpinitLoop conf e fuel mpinitStart = some st') : st'.ismp = true := by
  obtain ⟨n, -, rfl, -, hrun⟩ := known_of_loop h
  exact (iterate_of_known fun m hm => (hrun m hm).2).2.1

/-- A table whose walk reaches an entry of unknown type before the end keeps the
loop running at every fuel. -/
theorem loop_hangs {e n : Nat} (hrun : ∀ m ≤ n, ((mpinitStep conf)^[m] mpinitStart).p < e)
    (hunk : ¬Known (conf ((mpinitStep conf)^[n] mpinitStart).p)) (fuel : Nat) :
    mpinitLoop conf e fuel mpinitStart = none := by
  unfold mpinitLoop
  rw [FuelLoop.run_eq_none_iff]
  intro m _
  by_cases hm : m ≤ n
  · exact hrun m hm
  · -- past the unknown entry `p` stays where it was
    have hsplit : (mpinitStep conf)^[m] mpinitStart =
        (mpinitStep conf)^[m - n] ((mpinitStep conf)^[n] mpinitStart) := by
      rw [← Function.iterate_add_apply, Nat.sub_add_cancel (by omega)]
    show ((mpinitStep conf)^[m] mpinitStart).p < e
    rw [hsplit, p_iterate_of_unknown hunk]
    exact hrun n (Nat.le_refl n)

theorem mpinit_hangs (conf : Nat → UInt8) (hconf : mpconfig conf = true) :
    (∀ fuel, mpinit fuel conf ≠ some (.error "Didn't find a suitable machine")) ∧
      ∀ n, (∀ m ≤ n, ((mpinitStep conf)^[m] mpinitStart).p < confLength conf) →
        ¬Known (conf ((mpinitStep conf)^[n] mpinitStart).p) → ∀ fuel, mpinit fuel conf = none := by
  have hcfg : (mpconfig conf = false) = False := by simp [hconf]
  refine ⟨fun fuel h => ?_, fun n hrun hunk fuel => ?_⟩
  · -- the loop ended, so `ismp` is still set
    simp only [mpinit, hcfg, if_false, Option.map_eq_some_iff] at h
    obtain ⟨st, hloop, hst⟩ := h
    rw [ismp_of_loop hloop] at hst
    simp at hst
  · simp only [mpinit, hcfg, if_false, loop_hangs hrun hunk fuel, Option.map_none]

/-- A table that passes `mpconfig` with one entry, of type 5: `mpinit` never
returns. -/
theorem mpinit_hangs_type_five :
    mpconfig (fun i => ([80, 67, 77, 80, 45, 0, 1, 157] ++ List.replicate 36 0 ++ [5] : List UInt8).getD i 0) = true ∧
      ∀ fuel, mpinit fuel
        (fun i => ([80, 67, 77, 80, 45, 0, 1, 157] ++ List.replicate 36 0 ++ [5] : List UInt8).getD i 0) = none :=
  ⟨by decide, (mpinit_hangs _ (by decide)).2 0
    (fun m hm => by rw [Nat.le_zero.mp hm]; decide) (by decide)⟩

/-- `mpinit` returns only on a table of `k` entries of known types that reach
the end, with `cpus` holding the first `NCPU` processor entries' APIC ids. -/
theorem mpinit_cpus {fuel : Nat} {st : MpState} (h : mpinit fuel conf = some (.ok st)) :
    mpconfig conf = true ∧ ∃ k ≤ fuel,
      (∀ i < k, entryAt conf i mpconfSize < confLength conf ∧ Known (conf (entryAt conf i mpconfSize))) ∧
      confLength conf ≤ entryAt conf k mpconfSize ∧
      st.cpus.ncpu = min NCPU (procIds conf k mpconfSize).length ∧
      ∀ i : Fin NCPU, (i : Nat) < st.cpus.ncpu →
        (procIds conf k mpconfSize)[(i : Nat)]? = some (st.cpus.apicid i) := by
  cases hconf : mpconfig conf with
  | false => simp [mpinit, hconf] at h
  | true =>
    have hcfg : (mpconfig conf = false) = False := by simp [hconf]
    simp only [mpinit, hcfg, if_false, Option.map_eq_some_iff] at h
    obtain ⟨st', hloop, hst⟩ := h
    rw [ismp_of_loop hloop] at hst
    simp only [Bool.true_eq_false, if_false, Except.ok.injEq] at hst
    subst hst
    obtain ⟨k, hk, rfl, hend, hrun⟩ := known_of_loop hloop
    -- the first `i` rounds are over entries of known types
    have hat : ∀ i ≤ k, ((mpinitStep conf)^[i] mpinitStart).p = entryAt conf i mpconfSize :=
      fun i hi => (iterate_of_known fun m hm => (hrun m (by omega)).2).1
    obtain ⟨-, -, hcpus⟩ := iterate_of_known fun m hm => (hrun m hm).2
    obtain ⟨hn, hslots⟩ := foldl_add_empty (procIds conf k mpconfSize)
    refine ⟨rfl, k, hk, fun i hi => ?_, ?_, ?_, ?_⟩
    · rw [← hat i (Nat.le_of_lt hi)]
      exact hrun i hi
    · rw [← hat k (Nat.le_refl k)]
      exact Nat.le_of_not_lt hend
    · rw [hcpus]
      exact hn
    · rw [hcpus]
      exact hslots

/-- On a table of `k` entries of known types that reach the end, `mpinit`
returns after `k` rounds. -/
theorem mpinit_returns {k fuel : Nat} (hconf : mpconfig conf = true)
    (hents : ∀ i < k, entryAt conf i mpconfSize < confLength conf ∧ Known (conf (entryAt conf i mpconfSize)))
    (hend : confLength conf ≤ entryAt conf k mpconfSize) (hk : k ≤ fuel) :
    mpinit fuel conf = some (.ok ((mpinitStep conf)^[k] mpinitStart)) := by
  have hknown : ∀ m < k, Known (conf ((mpinitStep conf)^[m] mpinitStart).p) :=
    known_iterate_of_entries fun i hi => (hents i hi).2
  -- round `m` reads entry `m`
  have hat : ∀ m ≤ k, ((mpinitStep conf)^[m] mpinitStart).p = entryAt conf m mpconfSize :=
    fun m hm => (iterate_of_known fun j hj => hknown j (by omega)).1
  have hloop : mpinitLoop conf (confLength conf) fuel mpinitStart =
      some ((mpinitStep conf)^[k] mpinitStart) := by
    refine FuelLoop.run_eq_some_of (fun m hm => ?_) ?_ hk
    · show ((mpinitStep conf)^[m] mpinitStart).p < confLength conf
      rw [hat m (Nat.le_of_lt hm)]
      exact (hents m hm).1
    · show ¬((mpinitStep conf)^[k] mpinitStart).p < confLength conf
      rw [hat k (Nat.le_refl k)]
      omega
  have hismp : ((mpinitStep conf)^[k] mpinitStart).ismp = true := (iterate_of_known hknown).2.1
  simp [mpinit, hconf, hloop, hismp]

end Walk

end Xv6.Mp
