/-
Why `bget` never runs out of buffers.

`bget` cannot take a buffer that is referenced or dirty. A dirty buffer
holds a logged block (`CacheOk.dirty`). A referenced one is held by some
operation, and holds a block that operation asked for (`HoldOk`). So every
taken buffer holds a block of `claimed`: one of the header, or one an
operation asked for and has not logged. There is one buffer per block, so
there are no more taken buffers than claimed blocks.

The log's admission arithmetic counts those blocks. `begin_op` admits an
operation only while the header and `MAXOPBLOCKS` for each admitted operation
fit in `LOGSIZE`. An operation's unlogged blocks are no more than what it still
reserves there. With `NBUF = LOGSIZE`, an operation that asks for one more
block within its budget finds a buffer of that block, or a free one
(`Inv.bget_room`). The commit runs with no operation left, and its reads find
buffers too (`Inv.step_commit`). So no `bget` of the system panics
(`bget_never_runs_out`).
-/
import Xv6.Bio.Inv

set_option autoImplicit false

namespace Xv6.Bio

open TransitionSystem
open Xv6.Log (Disk HeaderBlock LOGSIZE MAXOPBLOCKS read_head)

variable {α ι : Type}

/-! ## The claimed blocks -/

/-- The blocks an operation has asked `bget` for and not yet logged. -/
def unlogged : Option opstate → Finset Nat
  | some o => o.touched.toFinset \ o.written.toFinset
  | none => ∅

/-- The blocks of the header, and those the running operations have asked for
and not logged. -/
def claimed [Fintype ι] (lh : List Nat) (op : ι → Option opstate) : Finset Nat :=
  lh.toFinset ∪ Finset.univ.biUnion fun j => unlogged (op j)

/-- An operation within its budget has no more unlogged blocks than it still
reserves in the log. -/
theorem card_unlogged_le {o : opstate} (ho : OpOk o) (hb : o.touched.length ≤ MAXOPBLOCKS) :
    (unlogged (some o)).card ≤ Log.reservation (some o.written) := by
  have hsub : o.written.toFinset ⊆ o.touched.toFinset := fun b hw => by
    rw [List.mem_toFinset] at hw ⊢
    exact ho.written_touched b hw
  rw [unlogged, Finset.card_sdiff_of_subset hsub, List.toFinset_card_of_nodup ho.touched,
    List.toFinset_card_of_nodup ho.written, Log.reservation_some]
  omega

/-- Asking for one more block only adds to the unlogged ones. -/
theorem unlogged_absorb (o : opstate) (b : Nat) :
    unlogged (some o) ⊆ unlogged (some { o with touched := Log.absorb o.touched b }) := by
  refine Finset.sdiff_subset_sdiff (fun x hx => ?_) (Finset.Subset.refl _)
  rw [List.mem_toFinset] at hx ⊢
  exact Log.mem_absorb.mpr (.inl hx)

section Count

variable [Fintype ι]

/-- The claimed blocks are no more than the header and the reservations of the
running operations. -/
theorem card_claimed_le {lh : List Nat} {op : ι → Option opstate}
    (hops : ∀ j o, op j = some o → OpOk o ∧ o.touched.length ≤ MAXOPBLOCKS) :
    (claimed lh op).card ≤ lh.length + ∑ j, Log.reservation ((op j).map opstate.written) := by
  have hj : ∀ j, (unlogged (op j)).card ≤ Log.reservation ((op j).map opstate.written) := by
    intro j
    cases hop : op j with
    | none => simp [unlogged]
    | some o => exact card_unlogged_le (hops j o hop).1 (hops j o hop).2
  calc (claimed lh op).card
      ≤ lh.toFinset.card + (Finset.univ.biUnion fun j => unlogged (op j)).card :=
        Finset.card_union_le _ _
    _ ≤ lh.length + ∑ j, (unlogged (op j)).card :=
        Nat.add_le_add (List.toFinset_card_le lh) Finset.card_biUnion_le
    _ ≤ lh.length + ∑ j, Log.reservation ((op j).map opstate.written) :=
        Nat.add_le_add_left (Finset.sum_le_sum fun j _ => hj j) _

theorem claimed_mono {lh : List Nat} {op op' : ι → Option opstate}
    (h : ∀ j, unlogged (op j) ⊆ unlogged (op' j)) : claimed lh op ⊆ claimed lh op' :=
  Finset.union_subset_union (Finset.Subset.refl _) (Finset.biUnion_mono fun j _ => h j)

end Count

/-! ## The budget -/

/-- Each running operation has asked for at most `MAXOPBLOCKS` blocks. -/
def Budget (s : Sys α ι) : Prop :=
  ∀ j o, s.op j = some o → o.touched.length ≤ MAXOPBLOCKS

variable [HeaderBlock α] [DecidableEq ι] [Fintype ι]

omit [Fintype ι] in
/-- A step within the budget keeps it. Only `bget` adds a block, and
`within` admits it. -/
theorem Budget.move {s t : Sys α ι} {e : Event α ι} (hb : Budget s) (h : Move s e t)
    (he : within s e = true) : Budget t := by
  -- every step changes at most the stepping operation's state
  cases h with
  | begin_op hi hl =>
    refine update_forall (fun j o _ hj => hb j o hj) ?_
    rintro o ⟨⟩
    exact Nat.zero_le _
  | @bget i o b k c hi hr hbn hout hk =>
    have hw : b ∈ o.touched ∨ o.touched.length < MAXOPBLOCKS := by simpa [within, hi] using he
    refine update_forall (fun j o _ hj => hb j o hj) ?_
    rintro o' ⟨⟩
    rcases hw with hm | hlt
    · simpa [Log.absorb_of_mem hm] using hb i o hi
    · have := Log.length_absorb_le o.touched b
      dsimp only
      omega
  | lock hi =>
    refine update_forall (fun j o _ hj => hb j o hj) ?_
    rintro o' ⟨⟩
    simpa using hb _ _ hi
  | modify hi =>
    refine update_forall (fun j o _ hj => hb j o hj) ?_
    rintro o' ⟨⟩
    simpa using hb _ _ hi
  | log_write hi =>
    refine update_forall (fun j o _ hj => hb j o hj) ?_
    rintro o' ⟨⟩
    simpa using hb _ _ hi
  | brelse hi =>
    refine update_forall (fun j o _ hj => hb j o hj) ?_
    rintro o' ⟨⟩
    simpa using hb _ _ hi
  | end_op hi =>
    refine update_forall (fun j o _ hj => hb j o hj) ?_
    rintro o' ⟨⟩
  | commit hc h => exact hb

/-- The invariant and the budget hold in every state reached within the
budget. -/
theorem WithinReachable.inv [Inhabited α] {s : Sys α ι} (hs : WithinReachable s) :
    Inv s ∧ Budget s := by
  refine invariant (I := fun s => Inv s ∧ Budget s) ?_ ?_ hs
  · rintro _ ⟨start, d, hd, rfl⟩
    refine ⟨inv_init hd, fun j o hj => ?_⟩
    simp [init] at hj
  · rintro a b - ⟨ha, hba⟩ ⟨e, hw, he⟩
    have hm := Move.of_step he
    exact ⟨ha.move hm, hba.move hm hw⟩

/-! ## Room for one more block -/

section Room

variable {s : Sys α ι}

omit [DecidableEq ι] in
/-- A referenced buffer is held by some operation. -/
theorem Inv.held_of_refcnt (hs : Inv s) {k : Fin NBUF}
    (hk : (s.cache.buf k).refcnt ≠ 0) : ∃ j o, s.op j = some o ∧ ∃ h ∈ o.holds, h.buf = k := by
  rw [hs.refcnt k] at hk
  obtain ⟨j, -, hj⟩ := Finset.exists_ne_zero_of_sum_ne_zero hk
  cases hop : s.op j with
  | none =>
    rw [hop, holding_none] at hj
    exact absurd rfl hj
  | some o =>
    rw [hop, holding] at hj
    obtain ⟨h, hm, hbuf⟩ := List.countP_pos_iff.mp (Nat.pos_of_ne_zero hj)
    exact ⟨j, o, hop, h, hm, by simpa using hbuf⟩

omit [DecidableEq ι] in
/-- A taken buffer is on the device and holds a claimed block. A dirty one
holds a logged block. A referenced one holds a block its holder asked for, and
that block is logged, or the holder has not written it. -/
theorem Inv.claimed_of_taken (hs : Inv s) {k : Fin NBUF} (hk : ¬s.cache.free k) :
    (s.cache.buf k).dev = ROOTDEV ∧ (s.cache.buf k).blockno ∈ claimed s.log.lh s.op := by
  by_cases hd : (s.cache.buf k).dirty = true
  · obtain ⟨hdev, -, hlh⟩ := hs.cache.dirty k hd
    exact ⟨hdev, Finset.mem_union_left _ (List.mem_toFinset.mpr hlh)⟩
  · have hr : (s.cache.buf k).refcnt ≠ 0 := fun hz => hk ⟨hz, by simpa using hd⟩
    obtain ⟨j, o, hop, h, hm, rfl⟩ := hs.held_of_refcnt hr
    have hok := hs.holds j o hop h hm
    refine ⟨hok.dev, ?_⟩
    rw [hok.blockno]
    by_cases hlh : h.blockno ∈ s.log.lh
    · exact Finset.mem_union_left _ (List.mem_toFinset.mpr hlh)
    · -- the holder's written blocks are logged, so this one is not among them
      have hw : h.blockno ∉ o.written := fun hw =>
        hlh ((hs.log.written j o.written (by simp [hop])).2 _ hw)
      refine Finset.mem_union_right _ (Finset.mem_biUnion.mpr ⟨j, Finset.mem_univ _, ?_⟩)
      rw [hop, unlogged, Finset.mem_sdiff, List.mem_toFinset, List.mem_toFinset]
      exact ⟨hok.touched, hw⟩

/-- **Room for one more block.** When an operation within its budget asks for
block `b`, the cache has a buffer of `b` or a free one. -/
theorem Inv.bget_room (hs : Inv s) (hb : Budget s) {i : ι} {o : opstate} {b : Nat}
    (hi : s.op i = some o) (hw : b ∈ o.touched ∨ o.touched.length < MAXOPBLOCKS) :
    (∃ k, (s.cache.buf k).dev = ROOTDEV ∧ (s.cache.buf k).blockno = b) ∨
      ∃ k, s.cache.free k := by
  by_cases hc : ∃ k, (s.cache.buf k).dev = ROOTDEV ∧ (s.cache.buf k).blockno = b
  · exact .inl hc
  right
  -- count the claimed blocks as if `b` were already asked for: they then
  -- include `b` and still fit in the log
  let op' := Function.update s.op i (some { o with touched := Log.absorb o.touched b })
  have hop := hs.ops i o hi
  have hops : ∀ j x, op' j = some x → OpOk x ∧ x.touched.length ≤ MAXOPBLOCKS := by
    refine update_forall (fun j x _ hj => ⟨hs.ops j x hj, hb j x hj⟩) ?_
    rintro x ⟨⟩
    refine ⟨⟨hop.blocknos, Log.nodup_absorb hop.touched b, hop.written,
      fun x hx => Log.mem_absorb.mpr (.inl (hop.written_touched x hx))⟩, ?_⟩
    rcases hw with hm | hlt
    · simpa [Log.absorb_of_mem hm] using hb i o hi
    · have := Log.length_absorb_le o.touched b
      dsimp only
      omega
  have hwritten : ∀ j, (op' j).map opstate.written = (s.op j).map opstate.written := by
    intro j
    by_cases hji : j = i
    · subst hji
      simp [op', hi]
    · simp [op', Function.update_of_ne hji]
  have hcard : (claimed s.log.lh op').card ≤ LOGSIZE :=
    calc (claimed s.log.lh op').card
        ≤ s.log.lh.length + ∑ j, Log.reservation ((op' j).map opstate.written) :=
          card_claimed_le hops
      _ = s.log.lh.length + ∑ j, Log.reservation ((s.op j).map opstate.written) := by
          simp only [hwritten]
      _ ≤ LOGSIZE := hs.log.reserve
  have hbmem : b ∈ claimed s.log.lh op' := by
    by_cases hlh : b ∈ s.log.lh
    · exact Finset.mem_union_left _ (List.mem_toFinset.mpr hlh)
    · have hnw : b ∉ o.written := fun hw' =>
        hlh ((hs.log.written i o.written (by simp [hi])).2 _ hw')
      refine Finset.mem_union_right _ (Finset.mem_biUnion.mpr ⟨i, Finset.mem_univ _, ?_⟩)
      simp only [op', Function.update_self, unlogged, Finset.mem_sdiff, List.mem_toFinset]
      exact ⟨Log.mem_absorb.mpr (.inr rfl), hnw⟩
  have hmono : claimed s.log.lh s.op ⊆ claimed s.log.lh op' := by
    refine claimed_mono fun j => ?_
    by_cases hji : j = i
    · subst hji
      simp only [op', Function.update_self, hi]
      exact unlogged_absorb o b
    · simp only [op', Function.update_of_ne hji, Finset.Subset.refl]
  -- `b` has no buffer, so the taken buffers hold the other claimed blocks
  refine exists_free ((claimed s.log.lh op').erase b) ?_ (fun k hk => ?_)
    (fun k j hk hj hkj => ?_)
  · have hpos : 0 < (claimed s.log.lh op').card := Finset.card_pos.mpr ⟨b, hbmem⟩
    have hsize : LOGSIZE = NBUF := rfl
    rw [Finset.card_erase_of_mem hbmem]
    omega
  · obtain ⟨hdev, hmem⟩ := hs.claimed_of_taken hk
    exact Finset.mem_erase.mpr ⟨fun hkb => hc ⟨k, hdev, hkb⟩, hmono hmem⟩
  · exact hs.cache.uniq k j (hs.claimed_of_taken hk).1 (hs.claimed_of_taken hj).1 hkj

end Room

/-- **`bget` never runs out of buffers.** In every state reached by operations
that keep to their budget, each `bget` an operation may make finds a buffer
of its block or a free one. A due commit completes, so every `bread` of
`write_log` and `install_trans` finds a buffer too. No step reaches the
`bget: no buffers` panic. -/
theorem bget_never_runs_out [Inhabited α] {s : Sys α ι} (hs : WithinReachable s) :
    (∀ i o b, s.op i = some o → within s (.bget i b) = true →
      (∃ k, (s.cache.buf k).dev = ROOTDEV ∧ (s.cache.buf k).blockno = b) ∨
        ∃ k, s.cache.free k) ∧
    (s.log.committing = true → ∃ t, step s .commit = some (.ok t)) ∧
    ∀ e, within s e = true → step s e ≠ some (.error "bget: no buffers") := by
  obtain ⟨hinv, hbud⟩ := hs.inv
  have hroom : ∀ i o b, s.op i = some o → within s (.bget i b) = true →
      (∃ k, (s.cache.buf k).dev = ROOTDEV ∧ (s.cache.buf k).blockno = b) ∨
        ∃ k, s.cache.free k := by
    intro i o b hi hw
    exact hinv.bget_room hbud hi (by simpa [within, hi] using hw)
  refine ⟨hroom, fun hc => ?_, fun e he hstep => ?_⟩
  · obtain ⟨c, hstep⟩ := hinv.step_commit hc
    exact ⟨_, hstep⟩
  rcases step_error hstep with ⟨i, b, o, rfl, hi, -, -, -, hget⟩ | ⟨i, b, -, hl⟩ | ⟨i, -, hl⟩ |
    ⟨rfl, hc, -⟩
  · -- the operation's `bget` finds its block's buffer or a free one
    rcases hroom i o b hi he with ⟨k, hk⟩ | ⟨k, hfree⟩
    · rw [bget_of_cached hk fun j hj hjb => hinv.cache.uniq j k hj hk.1 (hjb.trans hk.2.symm)]
        at hget
      cases hget
    · exact bget_ne_error_of_free hfree _ hget
  · -- `log_write` panics with its own messages
    rcases Log.log_write_error hl with h | h <;> exact absurd h (by decide)
  · exact absurd (Log.end_op_error hl) (by decide)
  · -- the commit's reads find buffers
    obtain ⟨c, hstep'⟩ := hinv.step_commit hc
    rw [hstep'] at hstep
    cases hstep

theorem bget_never_runs_out_locked :
    ∃ t : Sys (List Nat) (Fin 1),
      runLabels stepWithin (init 2 fun _ => []) [.begin_op 0, .bget 0 40, .lock 0 40] = some t ∧
        within t (.bget 0 41) = true ∧ step t (.bget 0 41) ≠ some (.error "bget: no buffers") := by
  obtain ⟨t, ht, hw⟩ : ∃ t : Sys (List Nat) (Fin 1),
      runLabels stepWithin (init 2 fun _ => []) [.begin_op 0, .bget 0 40, .lock 0 40] = some t ∧
        within t (.bget 0 41) = true := ⟨_, rfl, rfl⟩
  exact ⟨t, ht, hw, (bget_never_runs_out (WithinReachable.of_run rfl _ ht)).2.2 _ hw⟩

end Xv6.Bio
