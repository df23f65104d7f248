/-
`readi` and `writei` over a well-formed block map, and the round trip.

`readi` reads the file's bytes where its map puts them, and changes nothing
(`readi_spec`). `writei` at an offset inside the file writes `src` over the
content there, growing the file past its end, and keeps the map well formed; it
panics in `balloc` only when fewer blocks are free than it has to allocate
(`writei_spec`). Together: a `readi` after a `writei` returns the old content
overwritten by `src` (`writei_readi`).

The loops are proved by induction on their fuel, from what one round keeps.
-/
import Xv6.Blocks.Content

set_option autoImplicit false

namespace Xv6.Blocks

open ByteMem StateExcept
open Xv6.Fs (BSIZE NDIRECT NINDIRECT MAXFILE T_DEV)

/-! ## A round of the loops -/

/-- The bytes a round moves: from `off` to the end of its block, or fewer. -/
theorem div_add_of_lt {off j : Nat} (hj : j < BSIZE - off % BSIZE) :
    (off + j) / BSIZE = off / BSIZE ∧ (off + j) % BSIZE = off % BSIZE + j := by
  have hpos : 0 < BSIZE := by decide
  have hmod := Nat.mod_lt off hpos
  have hsplit := Nat.div_add_mod off BSIZE
  constructor
  · apply Nat.div_eq_of_lt_le
    · rw [Nat.mul_comm]
      omega
    · rw [Nat.add_mul, Nat.one_mul, Nat.mul_comm]
      omega
  · rw [Nat.add_mod, Nat.mod_eq_of_lt (a := j) (by omega), Nat.mod_eq_of_lt (by omega)]

/-- The block of the bytes `[off, off + m)` of a round. -/
theorem byteAt_round (s : St) {off j : Nat} (hj : j < BSIZE - off % BSIZE) :
    byteAt s (off + j) = s.disk (blockAddr (blockOf s (off / BSIZE)) + off % BSIZE + j) := by
  obtain ⟨hdiv, hmod⟩ := div_add_of_lt hj
  rw [byteAt, hdiv, hmod, Nat.add_assoc]

/-- The file's bytes from `off`: those of a round, read from the block of
`off`, and then the rest. -/
theorem map_byteAt_split (s : St) {off k m : Nat} (hm : m ≤ k) (hm₂ : m ≤ BSIZE - off % BSIZE) :
    (List.range k).map (fun j => byteAt s (off + j)) =
      read s.disk (blockAddr (blockOf s (off / BSIZE)) + off % BSIZE) m ++
        (List.range (k - m)).map fun j => byteAt s (off + m + j) := by
  obtain ⟨r, rfl⟩ : ∃ r, k = m + r := ⟨k - m, by omega⟩
  unfold ByteMem.read
  rw [List.range_add, List.map_append, List.map_map, Nat.add_sub_cancel_left]
  refine congrArg₂ _ ?_ ?_
  · apply List.map_congr_left
    intro j hj
    exact byteAt_round s (lt_of_lt_of_le (List.mem_range.mp hj) hm₂)
  · apply List.map_congr_left
    intro j _
    simp only [Function.comp, Nat.add_assoc]

theorem lt_MAXFILE_of_lt_size {s : St} (hg : Good s) {off : Nat} (h : off < s.ip.size.toNat) :
    off / BSIZE < MAXFILE :=
  Nat.div_lt_of_lt_mul (lt_of_lt_of_le h (by rw [Nat.mul_comm]; exact hg.size_le))

/-! ## `readi` -/

section Readi

variable {s : St}

/-- `readi`'s loop reads the next `n - tot` bytes of the file from `off`. -/
theorem readiLoop_spec (hg : Good s) (n : Nat) : ∀ fuel tot off, n - tot < fuel →
    off + (n - tot) ≤ s.ip.size.toNat →
    Runs (readiLoop n fuel tot off) s ((List.range (n - tot)).map fun j => byteAt s (off + j)) s := by
  intro fuel
  induction fuel with
  | zero =>
    intro tot off hfuel
    omega
  | succ fuel ih =>
    intro tot off hfuel hsize
    by_cases ht : tot < n
    · -- one round: the rest of the block of `off`, or the bytes left
      have hoff : off < s.ip.size.toNat := by omega
      have hblk : blockOf s (off / BSIZE) ≠ 0 :=
        hg.full _ (lt_of_le_of_lt (Nat.div_mul_le_self off BSIZE) hoff)
      have hb := bmap_of_ne_zero (lt_MAXFILE_of_lt_size hg hoff) hblk
      have hmod : off % BSIZE < BSIZE := Nat.mod_lt _ (by decide)
      have hm₁ : min (n - tot) (BSIZE - off % BSIZE) ≤ n - tot := Nat.min_le_left _ _
      have hm₂ : min (n - tot) (BSIZE - off % BSIZE) ≤ BSIZE - off % BSIZE := Nat.min_le_right _ _
      have hm₀ : 0 < min (n - tot) (BSIZE - off % BSIZE) := Nat.lt_min.mpr ⟨by omega, by omega⟩
      have hrest := ih (tot + min (n - tot) (BSIZE - off % BSIZE)) (off + min (n - tot) (BSIZE - off % BSIZE))
        (by omega) (by omega)
      simp only [readiLoop, if_pos ht, runs_bind, runs_get, runs_pure]
      refine ⟨_, s, hb, s, s, ⟨rfl, rfl⟩, _, s, hrest, ?_, rfl⟩
      rw [map_byteAt_split s hm₁ hm₂, Nat.sub_sub]
    · rw [readiLoop, if_neg ht, show n - tot = 0 by omega]
      exact (runs_pure _ _ _ _).mpr ⟨rfl, rfl⟩

/-- A sum that does not wrap. -/
theorem toNat_add_of_not_lt {a b : UInt32} (h : ¬a + b < a) : (a + b).toNat = a.toNat + b.toNat := by
  rw [UInt32.lt_iff_toNat_lt, UInt32.toNat_add] at h
  rw [UInt32.toNat_add]
  have ha := a.toNat_lt
  have hb := b.toNat_lt
  omega

/-- A `uint` below `2^31` is the same number as an `int`. -/
theorem toInt_of_lt {n : UInt32} (h : n.toNat < 2 ^ 31) : toInt n = n.toNat := by
  rw [toInt, ← Int32.toInt_toBitVec, UInt32.toBitVec_toInt32, BitVec.toInt_eq_toNat_of_lt (by
    rw [UInt32.toNat_toBitVec]
    omega)]
  rfl

/-- The bytes `[off, off + m)` of the content. -/
theorem content_drop_take {off m : Nat} (h : off + m ≤ s.ip.size.toNat) :
    ((content s).drop off).take m = (List.range m).map fun j => byteAt s (off + j) := by
  apply List.ext_getElem
  · simp only [content, List.length_take, List.length_drop, List.length_map, List.length_range]
    omega
  · intro j h₁ h₂
    simp [content]

/-- `readi` of a file with a well-formed map: -1 when `off` is past the end or
`off + n` wraps, and otherwise the bytes of the content from `off`, `n` of them
or up to the end; it changes nothing. -/
theorem readi_spec (devsw : Fin NDEV → devsw) (hg : Good s) (off n : UInt32) :
    Runs (readi devsw off n) s
      (if off > s.ip.size ∨ off + n < off then (-1, [])
       else ((min n.toNat (s.ip.size.toNat - off.toNat) : Nat),
         ((content s).drop off.toNat).take (min n.toNat (s.ip.size.toNat - off.toNat)))) s := by
  simp only [readi, runs_bind, runs_get]
  refine ⟨s, s, ⟨rfl, rfl⟩, ?_⟩
  rw [if_neg hg.notdev]
  by_cases hbad : off > s.ip.size ∨ off + n < off
  · rw [if_pos hbad, if_pos hbad]
    exact (runs_pure _ _ _ _).mpr ⟨rfl, rfl⟩
  · rw [if_neg hbad, if_neg hbad]
    obtain ⟨hle, hno⟩ := not_or.mp hbad
    have hsum := toNat_add_of_not_lt hno
    have hoff : off.toNat ≤ s.ip.size.toNat := UInt32.le_iff_toNat_le.mp (UInt32.not_lt.mp hle)
    -- the count the loop runs with: `n`, or what is left of the file
    have hcount : (if off + n > s.ip.size then s.ip.size - off else n).toNat =
        min n.toNat (s.ip.size.toNat - off.toNat) := by
      split_ifs with hgt
      · have := UInt32.lt_iff_toNat_lt.mp hgt
        rw [UInt32.toNat_sub_of_le _ _ (UInt32.not_lt.mp hle)]
        omega
      · have := UInt32.le_iff_toNat_le.mp (UInt32.not_lt.mp hgt)
        omega
    have hsmall : (if off + n > s.ip.size then s.ip.size - off else n).toNat < 2 ^ 31 := by
      have := hg.size_le
      simp only [MAXFILE, NDIRECT, NINDIRECT, BSIZE] at this
      omega
    simp only [runs_bind, runs_pure]
    refine ⟨_, s, readiLoop_spec hg _ _ 0 off.toNat (by omega) (by omega), ?_⟩
    rw [toInt_of_lt hsmall, hcount, Nat.sub_zero, content_drop_take (by omega)]
    exact ⟨rfl, rfl⟩

end Readi

/-! ## Writing into a block of the file -/

section Write

variable {s : St}

theorem within_memmove (d : Mem) (c : UInt32) {o : Nat} (src : List UInt8) (ho : o + src.length ≤ BSIZE) :
    Within d (memmove d (blockAddr c + o) src) (· = c.toNat) :=
  within_range (show c.toNat * BSIZE ≤ blockAddr c + o from Nat.le_add_right _ _)
    (show blockAddr c + o + src.length ≤ c.toNat * BSIZE + BSIZE by rw [blockAddr]; omega)
    fun _ ha => memmove_of_not_mem src ha

/-- `Good` reads the inode's type, number, size and addresses, the superblock,
the bitmap and the map: a state that agrees on them, whose blocks below its size
are all there, is as well formed. -/
theorem Good.resize {s' : St} (hg : Good s) (hsb : s'.sb = s.sb) (htype : s'.ip.type = s.ip.type)
    (hinum : s'.ip.inum = s.ip.inum) (haddrs : s'.ip.addrs = s.ip.addrs)
    (hsize : s'.ip.size.toNat ≤ MAXFILE * BSIZE)
    (hin : ∀ y : UInt32, y.toNat < s.sb.size.toNat → inUse s' y = inUse s y) (hbo : blockOf s' = blockOf s)
    (hfull : ∀ bn, bn * BSIZE < s'.ip.size.toNat → blockOf s bn ≠ 0) : Good s' := by
  have hval : ∀ p : Slot, p.val s' = p.val s := by
    intro p
    cases p with
    | indirect => simp only [Slot.val, ind, haddrs]
    | blk bn => simp only [Slot.val, hbo]
  constructor
  · rw [htype]
    exact hg.notdev
  · exact hsize
  · rw [hsb]
    exact hg.layout
  · rw [hsb, hinum]
    exact hg.iblock
  · intro y hy
    rw [hsb] at hy
    have hys : y < s.sb.size.toNat := lt_of_lt_of_le hy hg.layout
    rw [hin y.toUInt32 (by rw [toNat_toUInt32_of_lt hys]; exact hys)]
    exact hg.meta_used y hy
  · intro p hp
    rw [hval] at hp ⊢
    obtain ⟨h₁, h₂, h₃⟩ := hg.used p hp
    rw [hsb, hin _ h₂]
    exact ⟨h₁, h₂, h₃⟩
  · intro p q hpq hp
    rw [hval, hval] at hpq
    rw [hval] at hp
    exact hg.inj p q hpq hp
  · intro bn hbn
    rw [hbo]
    exact hfull bn hbn

/-- The same, for a state with the same inode. -/
theorem Good.congr {s' : St} (hg : Good s) (hsb : s'.sb = s.sb) (hip : s'.ip = s.ip)
    (hin : ∀ y : UInt32, y.toNat < s.sb.size.toNat → inUse s' y = inUse s y) (hbo : blockOf s' = blockOf s) :
    Good s' :=
  hg.resize hsb (by rw [hip]) (by rw [hip]) (by rw [hip]) (by rw [hip]; exact hg.size_le) hin hbo
    fun bn h => hg.full bn (by rwa [hip] at h)

section Data

variable {bn o : Nat} {src : List UInt8}

/-- The block of a file block is a data block, and not the indirect block. -/
theorem data_block (hg : Good s) (hlt : bn < MAXFILE) (hb : blockOf s bn ≠ 0) :
    dataStart s.sb ≤ (blockOf s bn).toNat ∧ (ind s ≠ 0 → (ind s).toNat ≠ (blockOf s bn).toNat) := by
  refine ⟨(hg.used (.blk ⟨bn, hlt⟩) hb).1, fun hi h => ?_⟩
  have := hg.inj .indirect (.blk ⟨bn, hlt⟩) (UInt32.toNat_inj.mp h) hi
  exact Slot.noConfusion this

theorem blockOf_write (hg : Good s) (hlt : bn < MAXFILE) (hb : blockOf s bn ≠ 0) (ho : o + src.length ≤ BSIZE) :
    blockOf { s with disk := memmove s.disk (blockAddr (blockOf s bn) + o) src } = blockOf s :=
  blockOf_congr rfl fun hi _ hj =>
    (within_memmove s.disk _ src ho).addr hj ((data_block hg hlt hb).2 hi)

theorem inUse_write (hg : Good s) (hlt : bn < MAXFILE) (hb : blockOf s bn ≠ 0) (ho : o + src.length ≤ BSIZE) :
    ∀ y : UInt32, y.toNat < s.sb.size.toNat →
      inUse { s with disk := memmove s.disk (blockAddr (blockOf s bn) + o) src } y = inUse s y :=
  @inUse_of_within s hg.layout { s with disk := memmove s.disk (blockAddr (blockOf s bn) + o) src } _ rfl
    (within_memmove s.disk _ src ho) fun c hc => by rw [hc]; exact (data_block hg hlt hb).1

/-- Writing bytes into a block of the file keeps the map well formed. -/
theorem Good.write (hg : Good s) (hlt : bn < MAXFILE) (hb : blockOf s bn ≠ 0) (ho : o + src.length ≤ BSIZE) :
    Good { s with disk := memmove s.disk (blockAddr (blockOf s bn) + o) src } :=
  hg.congr rfl rfl (inUse_write hg hlt hb ho) (blockOf_write hg hlt hb ho)

theorem free_write (hg : Good s) (hlt : bn < MAXFILE) (hb : blockOf s bn ≠ 0) (ho : o + src.length ≤ BSIZE) :
    free { s with disk := memmove s.disk (blockAddr (blockOf s bn) + o) src } = free s :=
  free_congr rfl (inUse_write hg hlt hb ho)

/-- The file's bytes after writing `src` at offset `o` of its block `bn`. -/
theorem byteAt_write (hg : Good s) (hlt : bn < MAXFILE) (hb : blockOf s bn ≠ 0) (ho : o + src.length ≤ BSIZE)
    (i : Nat) :
    byteAt { s with disk := memmove s.disk (blockAddr (blockOf s bn) + o) src } i =
      if i / BSIZE = bn ∧ o ≤ i % BSIZE ∧ i % BSIZE < o + src.length then src.getD (i % BSIZE - o) 0
      else byteAt s i := by
  have hmod : i % BSIZE < BSIZE := Nat.mod_lt _ (by decide)
  rw [byteAt, blockOf_write hg hlt hb ho]
  by_cases hi : i / BSIZE = bn
  · -- the written block: the bytes of `src` where they went
    subst hi
    by_cases hin : o ≤ i % BSIZE ∧ i % BSIZE < o + src.length
    · rw [if_pos ⟨rfl, hin⟩]
      simp only [memmove]
      rw [if_pos (by rw [blockAddr]; omega)]
      congr 1
      rw [blockAddr]
      omega
    · rw [if_neg fun h => hin h.2, byteAt]
      exact memmove_of_not_mem src (by rw [blockAddr]; omega)
  · -- another block: the map names it apart from block `bn`
    rw [if_neg fun h => hi h.1]
    have hne : (blockOf s (i / BSIZE)).toNat ≠ (blockOf s bn).toNat := by
      intro h
      by_cases hlt' : i / BSIZE < MAXFILE
      · by_cases h0 : blockOf s (i / BSIZE) = 0
        · rw [h0] at h
          exact hb (UInt32.toNat_inj.mp h.symm)
        · have := hg.inj (.blk ⟨_, hlt'⟩) (.blk ⟨bn, hlt⟩) (UInt32.toNat_inj.mp h) h0
          exact hi (congrArg Fin.val (Slot.blk.inj this))
      · rw [blockOf_of_MAXFILE_le s (by omega)] at h
        exact hb (UInt32.toNat_inj.mp h.symm)
    exact (within_memmove s.disk _ src ho).addr hmod hne

end Data

end Write

/-! ## The blocks a write needs -/

/-- The file blocks that the bytes `[lo, hi)` lie in. -/
def fileBlocks (lo hi : Nat) : List Nat :=
  if lo < hi then List.range' (lo / BSIZE) ((hi - 1) / BSIZE + 1 - lo / BSIZE) else []

/-- The blocks that writing the bytes `[lo, hi)` of the file allocates: the file
blocks among them that have none, and the indirect block when one of them is
indirect and there is none. -/
def needed (s : St) (lo hi : Nat) : Nat :=
  ((fileBlocks lo hi).filter fun bn => blockOf s bn = 0).length +
    if ind s = 0 ∧ lo < hi ∧ NDIRECT * BSIZE < hi then 1 else 0

/-- A round of the loops ends at the end of its block, or at `hi`. -/
theorem round_end {lo hi : Nat} (hlo : lo < hi) :
    lo + min (hi - lo) (BSIZE - lo % BSIZE) = hi ∨
      (lo + min (hi - lo) (BSIZE - lo % BSIZE) < hi ∧
        (lo + min (hi - lo) (BSIZE - lo % BSIZE)) / BSIZE = lo / BSIZE + 1) := by
  have hmod : lo % BSIZE < BSIZE := Nat.mod_lt _ (by decide)
  have hsplit := Nat.div_add_mod lo BSIZE
  by_cases h : hi - lo ≤ BSIZE - lo % BSIZE
  · left
    rw [Nat.min_eq_left h]
    omega
  · right
    rw [Nat.min_eq_right (by omega)]
    refine ⟨by omega, ?_⟩
    have hend : lo + (BSIZE - lo % BSIZE) = (lo / BSIZE + 1) * BSIZE := by
      rw [Nat.add_mul, Nat.one_mul, Nat.mul_comm]
      omega
    rw [hend, Nat.mul_div_cancel _ (by decide)]

/-- The first round's block, and the blocks of the rest. -/
theorem fileBlocks_cons {lo hi : Nat} (hlo : lo < hi) :
    fileBlocks lo hi = lo / BSIZE :: fileBlocks (lo + min (hi - lo) (BSIZE - lo % BSIZE)) hi := by
  have hle : lo / BSIZE ≤ (hi - 1) / BSIZE := Nat.div_le_div_right (by omega)
  rw [fileBlocks, if_pos hlo]
  rcases round_end hlo with hlast | ⟨hlt, hnext⟩
  · -- the last round: `hi - 1` is in the block of `lo`
    have hlast' : (hi - 1) / BSIZE = lo / BSIZE := by
      have hj : hi - 1 - lo < BSIZE - lo % BSIZE := by
        have := Nat.min_le_right (hi - lo) (BSIZE - lo % BSIZE)
        omega
      have := (div_add_of_lt hj).1
      rwa [Nat.add_sub_cancel' (by omega)] at this
    rw [fileBlocks, if_neg (by omega), hlast', Nat.add_sub_cancel_left, List.range'_one]
  · rw [fileBlocks, if_pos hlt, hnext, show (hi - 1) / BSIZE + 1 - lo / BSIZE =
      ((hi - 1) / BSIZE + 1 - (lo / BSIZE + 1)) + 1 by omega, List.range'_succ]

/-- The blocks of the later rounds come after the block of the first. -/
theorem lt_of_mem_fileBlocks {lo hi bn : Nat} (hlo : lo < hi)
    (h : bn ∈ fileBlocks (lo + min (hi - lo) (BSIZE - lo % BSIZE)) hi) : lo / BSIZE < bn := by
  rcases round_end hlo with hlast | ⟨hlt, hnext⟩
  · rw [fileBlocks, if_neg (by omega)] at h
    exact absurd h List.not_mem_nil
  · rw [fileBlocks, if_pos hlt, hnext, List.mem_range'_1] at h
    omega

theorem length_filter_fileBlocks (s : St) {lo hi : Nat} (hlo : lo < hi) :
    ((fileBlocks lo hi).filter fun bn => blockOf s bn = 0).length =
      (if blockOf s (lo / BSIZE) = 0 then 1 else 0) +
        ((fileBlocks (lo + min (hi - lo) (BSIZE - lo % BSIZE)) hi).filter fun bn => blockOf s bn = 0).length := by
  rw [fileBlocks_cons hlo, List.filter_cons]
  by_cases hz : blockOf s (lo / BSIZE) = 0
  · simp [hz, Nat.add_comm]
  · simp [hz]

/-- An indirect block of the first round is an indirect block of the write. -/
theorem indirect_lt_of_le {lo hi : Nat} (hlo : lo < hi) (h : NDIRECT ≤ lo / BSIZE) : NDIRECT * BSIZE < hi :=
  lt_of_le_of_lt (le_trans (Nat.mul_le_mul_right BSIZE h) (Nat.div_mul_le_self lo BSIZE)) hlo

/-- The first round's `bmap` needs no more than the whole write. -/
theorem need_le_needed (s : St) {lo hi : Nat} (hlo : lo < hi) : need s (lo / BSIZE) ≤ needed s lo hi := by
  rw [need, needed, length_filter_fileBlocks s hlo]
  have hind : (if ind s = 0 ∧ NDIRECT ≤ lo / BSIZE then 1 else 0) ≤
      (if ind s = 0 ∧ lo < hi ∧ NDIRECT * BSIZE < hi then 1 else 0) := by
    split_ifs with h₁ h₂
    · exact le_refl _
    · exact absurd ⟨h₁.1, hlo, indirect_lt_of_le hlo h₁.2⟩ h₂
    · exact Nat.zero_le _
    · exact le_refl _
  omega

/-- After the first round's `bmap`, the rest of the write needs what is left. -/
theorem needed_bmap {s s₁ : St} {lo hi : Nat} (hlo : lo < hi) (hb : Bmap s s₁ (lo / BSIZE)) :
    needed s₁ (lo + min (hi - lo) (BSIZE - lo % BSIZE)) hi + need s (lo / BSIZE) ≤ needed s lo hi := by
  have hrest : ((fileBlocks (lo + min (hi - lo) (BSIZE - lo % BSIZE)) hi).filter fun bn => blockOf s₁ bn = 0) =
      (fileBlocks (lo + min (hi - lo) (BSIZE - lo % BSIZE)) hi).filter fun bn => blockOf s bn = 0 :=
    List.filter_congr fun bn hbn => by rw [hb.other bn (Nat.ne_of_gt (lt_of_mem_fileBlocks hlo hbn))]
  rw [needed, needed, length_filter_fileBlocks s hlo, hrest, need]
  rcases hb.indirect with hind | ⟨hi0, hbn⟩
  · -- the indirect block stays: `bmap` allocated at most the file block
    have hno : ¬(ind s = 0 ∧ NDIRECT ≤ lo / BSIZE) := fun h =>
      hb.ne_zero (blockOf_of_ind_zero s₁ (hind.trans h.1) h.2)
    rw [hind, if_neg hno]
    have hle : (if ind s = 0 ∧ lo + min (hi - lo) (BSIZE - lo % BSIZE) < hi ∧ NDIRECT * BSIZE < hi then 1 else 0) ≤
        (if ind s = 0 ∧ lo < hi ∧ NDIRECT * BSIZE < hi then 1 else 0) := by
      split_ifs with h₁ h₂
      · exact le_refl _
      · exact absurd ⟨h₁.1, hlo, h₁.2.2⟩ h₂
      · exact Nat.zero_le _
      · exact le_refl _
    omega
  · -- a new indirect block, and the file block in it
    have hz : blockOf s (lo / BSIZE) = 0 := blockOf_of_ind_zero s hi0 hbn
    have hi₁ : ¬ind s₁ = 0 := fun h => hb.ne_zero (blockOf_of_ind_zero s₁ h hbn)
    have e₁ : (if ind s₁ = 0 ∧ lo + min (hi - lo) (BSIZE - lo % BSIZE) < hi ∧ NDIRECT * BSIZE < hi then 1 else 0) = 0 :=
      if_neg fun h => hi₁ h.1
    have e₂ : (if ind s = 0 ∧ NDIRECT ≤ lo / BSIZE then 1 else 0) = 1 := if_pos ⟨hi0, hbn⟩
    have e₃ : (if ind s = 0 ∧ lo < hi ∧ NDIRECT * BSIZE < hi then 1 else 0) = 1 :=
      if_pos ⟨hi0, hlo, indirect_lt_of_le hlo hbn⟩
    have e₄ : (if blockOf s (lo / BSIZE) = 0 then 1 else 0) = 1 := if_pos hz
    omega

/-! ## `writei`'s loop -/

/-- `bmap` keeps the bytes of the file that had their block. -/
theorem Bmap.byteAt {s s₁ : St} {bn i : Nat} (hb : Bmap s s₁ bn) (hlt : i / BSIZE < MAXFILE)
    (h : blockOf s (i / BSIZE) ≠ 0) : byteAt s₁ i = byteAt s i :=
  byteAt_congr (hb.stable _ h) (hb.bytes ⟨_, hlt⟩ h _ (Nat.mod_lt _ (by decide)))

/-- What `writei`'s loop keeps, after `tot` of the `n` bytes of `src` written
from `off₀` into the file of `s₀`: the map is well formed, the blocks of the
bytes written so far are there, each byte of the file so far is the new byte
where the loop wrote one and the old byte elsewhere, and the blocks the rest of
the write needs are free. -/
structure WriteInv (s₀ s : St) (src : List UInt8) (off₀ n tot : Nat) : Prop where
  good : Good s
  ip : { s.ip with addrs := s₀.ip.addrs } = s₀.ip
  sb : s.sb = s₀.sb
  full : ∀ bn, bn * BSIZE < off₀ + tot → blockOf s bn ≠ 0
  bytes : ∀ i, i < max s₀.ip.size.toNat (off₀ + tot) →
    byteAt s i = if off₀ ≤ i ∧ i < off₀ + tot then src.getD (i - off₀) 0 else byteAt s₀ i
  room : needed s (off₀ + tot) (off₀ + n) ≤ free s

section Loop

variable {s₀ s s₁ : St} {src : List UInt8} {off₀ n tot : Nat}

theorem WriteInv.size (hw : WriteInv s₀ s src off₀ n tot) : s.ip.size = s₀.ip.size := by
  rw [← hw.ip]

/-- The bytes of the file so far have their blocks. -/
theorem WriteInv.block (hw : WriteInv s₀ s src off₀ n tot) {i : Nat}
    (hi : i < max s₀.ip.size.toNat (off₀ + tot)) : blockOf s (i / BSIZE) ≠ 0 := by
  have hdiv := Nat.div_mul_le_self i BSIZE
  rcases lt_max_iff.mp hi with h | h
  · exact hw.good.full _ (by rw [hw.size]; omega)
  · exact hw.full _ (by omega)

/-- A file block that starts inside a round is the round's block. -/
theorem eq_of_round {off m bn : Nat} (hm : m ≤ BSIZE - off % BSIZE) (h₁ : off ≤ bn * BSIZE)
    (h₂ : bn * BSIZE < off + m) : bn = off / BSIZE := by
  have hsplit := Nat.div_add_mod off BSIZE
  have hmod := Nat.mod_lt off (show 0 < BSIZE by decide)
  simp only [BSIZE] at hm h₁ h₂ hsplit hmod ⊢
  omega

/-- A byte of the round's block at an offset of the round is a byte of the round. -/
theorem mem_round {off m i : Nat} (h₁ : i / BSIZE = off / BSIZE)
    (h₂ : off % BSIZE ≤ i % BSIZE) (h₃ : i % BSIZE < off % BSIZE + m) : off ≤ i ∧ i < off + m := by
  have hi := Nat.div_add_mod i BSIZE
  have ho := Nat.div_add_mod off BSIZE
  rw [h₁] at hi
  omega

/-- The length of the round at `off` of a loop with `k` bytes to go. -/
def chunk (k off : Nat) : Nat := min k (BSIZE - off % BSIZE)

/-- The state after a round of `writei`'s loop: the bytes of `src` from `tot`
for the round at `off`, written into the block of `off` that `s` maps. -/
def writeRound (s : St) (src : List UInt8) (n tot off : Nat) : St :=
  let bytes := (src.drop tot).take (chunk (n - tot) off)
  { s with disk := memmove s.disk (blockAddr (blockOf s (off / BSIZE)) + off % BSIZE) bytes }

/-- One round of `writei`'s loop: `bmap`, then the round's bytes of `src` into the block. -/
theorem WriteInv.round (hw : WriteInv s₀ s src off₀ n tot) (ht : tot < n) (hlen : n ≤ src.length)
    (hmax : off₀ + n ≤ MAXFILE * BSIZE) (hb : Bmap s s₁ ((off₀ + tot) / BSIZE)) :
    WriteInv s₀ (writeRound s₁ src n tot (off₀ + tot)) src off₀ n (tot + chunk (n - tot) (off₀ + tot)) := by
  have hbn : (off₀ + tot) / BSIZE < MAXFILE := Nat.div_lt_of_lt_mul (by rw [Nat.mul_comm]; omega)
  have hmod : (off₀ + tot) % BSIZE < BSIZE := Nat.mod_lt _ (by decide)
  have hm₁ : chunk (n - tot) (off₀ + tot) ≤ n - tot := Nat.min_le_left _ _
  have hm₂ : chunk (n - tot) (off₀ + tot) ≤ BSIZE - (off₀ + tot) % BSIZE := Nat.min_le_right _ _
  have hlenb : ((src.drop tot).take (chunk (n - tot) (off₀ + tot))).length = chunk (n - tot) (off₀ + tot) := by
    simp only [List.length_take, List.length_drop]
    omega
  have ho : (off₀ + tot) % BSIZE + ((src.drop tot).take (chunk (n - tot) (off₀ + tot))).length ≤ BSIZE := by
    rw [hlenb]
    omega
  have hb0 := hb.ne_zero
  have hview : blockOf (writeRound s₁ src n tot (off₀ + tot)) = blockOf s₁ := blockOf_write hb.good hbn hb0 ho
  refine ⟨hb.good.write hbn hb0 ho, ip_trans hw.ip hb.ip, hb.sb.trans hw.sb, ?_, ?_, ?_⟩
  · -- the blocks written so far, and the round's block
    intro bn' h'
    rw [hview]
    by_cases hlt : bn' * BSIZE < off₀ + tot
    · rw [hb.stable bn' (hw.full bn' hlt)]
      exact hw.full bn' hlt
    · have heq : bn' = (off₀ + tot) / BSIZE := eq_of_round hm₂ (show off₀ + tot ≤ bn' * BSIZE by omega)
        (show bn' * BSIZE < off₀ + tot + chunk (n - tot) (off₀ + tot) by omega)
      rw [heq]
      exact hb0
  · intro i hi
    have hsize := hw.size
    rw [show byteAt (writeRound s₁ src n tot (off₀ + tot)) i = _ from byteAt_write hb.good hbn hb0 ho i, hlenb]
    by_cases hin : off₀ + tot ≤ i ∧ i < off₀ + tot + chunk (n - tot) (off₀ + tot)
    · -- a byte of the round: the byte of `src` it copied
      obtain ⟨hdiv, hmodi⟩ := @div_add_of_lt (off₀ + tot) (i - (off₀ + tot)) (by omega)
      rw [Nat.add_sub_cancel' hin.1] at hdiv hmodi
      rw [if_pos ⟨hdiv, by omega, by omega⟩, if_pos ⟨by omega, by omega⟩, hmodi,
        show (off₀ + tot) % BSIZE + (i - (off₀ + tot)) - (off₀ + tot) % BSIZE = i - (off₀ + tot) by omega,
        List.getD_eq_getElem?_getD, List.getD_eq_getElem?_getD, List.getElem?_take_of_lt (by omega),
        List.getElem?_drop, show tot + (i - (off₀ + tot)) = i - off₀ by omega]
    · -- another byte: as it was before the round
      rw [if_neg fun h => hin (mem_round h.1 h.2.1 h.2.2)]
      have hi' : i < max s₀.ip.size.toNat (off₀ + tot) := by
        rcases lt_max_iff.mp hi with h | h
        · exact lt_max_iff.mpr (.inl h)
        · exact lt_max_iff.mpr (.inr (by omega))
      have hlti : i / BSIZE < MAXFILE := by
        rcases lt_max_iff.mp hi' with h | h
        · exact Nat.div_lt_of_lt_mul (by rw [Nat.mul_comm]; exact lt_of_lt_of_le h (hsize ▸ hw.good.size_le))
        · exact Nat.div_lt_of_lt_mul (by rw [Nat.mul_comm]; omega)
      rw [hb.byteAt hlti (hw.block hi'), hw.bytes i hi']
      by_cases hold : off₀ ≤ i ∧ i < off₀ + tot
      · rw [if_pos hold, if_pos ⟨hold.1, by omega⟩]
      · rw [if_neg hold, if_neg (by omega)]
  · -- the rest of the write needs what the round left
    have hneed := needed_bmap (show off₀ + tot < off₀ + n by omega) hb
    rw [show off₀ + n - (off₀ + tot) = n - tot by omega] at hneed
    have he : needed (writeRound s₁ src n tot (off₀ + tot)) (off₀ + (tot + chunk (n - tot) (off₀ + tot))) (off₀ + n) =
        needed s₁ (off₀ + tot + min (n - tot) (BSIZE - (off₀ + tot) % BSIZE)) (off₀ + n) := by
      rw [needed, needed, hview, ← Nat.add_assoc]
      rfl
    rw [he, show free (writeRound s₁ src n tot (off₀ + tot)) = free s₁ from free_write hb.good hbn hb0 ho]
    have := hw.room
    have := hb.count
    omega

/-- `writei`'s loop writes the rest of the `n` bytes, and ends at `off₀ + n`. -/
theorem writeiLoop_spec (hlen : n ≤ src.length) (hmax : off₀ + n ≤ MAXFILE * BSIZE) :
    ∀ fuel tot s, n - tot < fuel → tot ≤ n → WriteInv s₀ s src off₀ n tot →
      ∃ s', Runs (writeiLoop src n fuel tot (off₀ + tot)) s (off₀ + n) s' ∧ WriteInv s₀ s' src off₀ n n := by
  intro fuel
  induction fuel with
  | zero =>
    intro tot s hfuel
    omega
  | succ fuel ih =>
    intro tot s hfuel htot hw
    by_cases ht : tot < n
    · -- one round, then the rest by induction
      have hbn : (off₀ + tot) / BSIZE < MAXFILE := Nat.div_lt_of_lt_mul (by rw [Nat.mul_comm]; omega)
      obtain ⟨s₁, hrun, hb⟩ := bmap_spec hw.good hbn (le_trans (need_le_needed s (by omega)) hw.room)
      have hm₀ : 0 < chunk (n - tot) (off₀ + tot) :=
        Nat.lt_min.mpr ⟨by omega, by have := Nat.mod_lt (off₀ + tot) (show 0 < BSIZE by decide); omega⟩
      have hm₁ : chunk (n - tot) (off₀ + tot) ≤ n - tot := Nat.min_le_left _ _
      obtain ⟨s', hrest, hw'⟩ := ih (tot + chunk (n - tot) (off₀ + tot)) _ (by omega) (by omega)
        (hw.round ht hlen hmax hb)
      refine ⟨s', ?_, hw'⟩
      simp only [writeiLoop, if_pos ht, runs_bind, runs_modify]
      refine ⟨_, s₁, hrun, (), _, rfl, ?_⟩
      rw [Nat.add_assoc]
      exact hrest
    · -- all `n` bytes written: the loop stops
      have htn : tot = n := by omega
      subst htn
      rw [writeiLoop, if_neg ht]
      exact ⟨s, (runs_pure _ _ _ _).mpr ⟨rfl, rfl⟩, hw⟩

end Loop

/-! ## `iupdate` -/

/-- `iupdate` writes the inode's `dinode`, inside its inode block. -/
theorem iupdate_spec (t : St) : ∃ d, Runs iupdate t () { t with disk := d } ∧
    Within t.disk d (· = (IBLOCK t.ip.inum t.sb).toNat) := by
  refine ⟨_, (runs_modify _ _ _ _).mpr rfl, ?_⟩
  have hk : t.ip.inum.toNat % IPB < 8 := Nat.mod_lt _ (by decide)
  have hlen : ((List.finRange (NDIRECT + 1)).flatMap fun i => bytes32 (t.ip.addrs i)).length = 52 := by
    simp [bytes32, List.length_flatMap, NDIRECT]
  refine within_range (show (IBLOCK t.ip.inum t.sb).toNat * BSIZE ≤ dinodeAddr t.sb t.ip.inum from
      Nat.le_add_right _ _)
    (show dinodeAddr t.sb t.ip.inum + 64 ≤ (IBLOCK t.ip.inum t.sb).toNat * BSIZE + BSIZE by
      simp only [dinodeAddr, blockAddr, IPB, DINODESZ, BSIZE] at hk ⊢
      omega) fun x hx => ?_
  rw [memmove_of_not_mem _ (by rw [hlen]; omega), store32_of_not_mem _ (by omega), store16_of_not_mem _ (by omega),
    store16_of_not_mem _ (by omega), store16_of_not_mem _ (by omega), store16_of_not_mem _ (by omega)]

/-- The inode block lies before the bitmap, and so before every block the map names. -/
theorem iupdate_grow {t : St} (hg : Good t) {v : UInt32} (hv : v.toNat ≤ MAXFILE * BSIZE)
    (hfull : ∀ bn, bn * BSIZE < v.toNat → blockOf t bn ≠ 0) :
    ∃ t', Runs iupdate { t with ip := { t.ip with size := v } } () t' ∧ Good t' ∧ t'.ip.size = v ∧
      ∀ i, i < v.toNat → byteAt t' i = byteAt t i := by
  obtain ⟨d, hrun, hwd⟩ := iupdate_spec { t with ip := { t.ip with size := v } }
  have hwd : Within t.disk d (· = (IBLOCK t.ip.inum t.sb).toNat) := hwd
  have hib := hg.iblock
  have hds : t.sb.bmapstart.toNat < dataStart t.sb := Nat.lt_succ_of_le (Nat.le_add_right _ _)
  have hbo : blockOf { t with ip := { t.ip with size := v }, disk := d } = blockOf t :=
    blockOf_congr rfl fun hi _ hj => hwd.addr hj fun h => by
      have := (hg.used .indirect hi).1
      simp only [Slot.val] at this
      omega
  have hin : ∀ y : UInt32, y.toNat < t.sb.size.toNat →
      inUse { t with ip := { t.ip with size := v }, disk := d } y = inUse t y := by
    intro y hy
    have hby : t.sb.bmapstart.toNat ≤ (BBLOCK y t.sb).toNat := by
      rw [toNat_BBLOCK hg.layout hy]
      exact Nat.le_add_left _ _
    exact @inUse_congr t { t with ip := { t.ip with size := v }, disk := d } rfl y fun _ hj =>
      hwd.addr hj fun h => by omega
  refine ⟨_, hrun, hg.resize rfl rfl rfl rfl hv hin hbo hfull, rfl, fun i hi => ?_⟩
  have hb := hfull _ (lt_of_le_of_lt (Nat.div_mul_le_self i BSIZE) hi)
  have hlt : i / BSIZE < MAXFILE := Nat.div_lt_of_lt_mul (by rw [Nat.mul_comm]; omega)
  have := (hg.used (.blk ⟨_, hlt⟩) hb).1
  exact byteAt_congr (by rw [hbo]) (hwd.addr (Nat.mod_lt _ (by decide)) fun h => by
    simp only [Slot.val] at this h
    omega)

/-! ## `writei` -/

section Writei

variable {s : St}

theorem toNat_lt_of_le_MAXFILE {k : Nat} (h : k ≤ MAXFILE * BSIZE) : k < 2 ^ 31 := by
  simp only [MAXFILE, NDIRECT, NINDIRECT, BSIZE] at h
  omega

/-- `writei` of `n` bytes at an offset inside the file, with the blocks it
needs free: it returns `n`, the file's size becomes `max size (off + n)`, the
map stays well formed, and each byte of the file is the byte of `src` written
there or the old byte. -/
theorem writei_spec (devsw : Fin NDEV → devsw) (hg : Good s) {src : List UInt8} {off n : UInt32}
    (hlen : src.length = n.toNat) (hoff : off ≤ s.ip.size) (hmax : off.toNat + n.toNat ≤ MAXFILE * BSIZE)
    (hfree : needed s off.toNat (off.toNat + n.toNat) ≤ free s) :
    ∃ s', Runs (writei devsw src off n) s (n.toNat : Int) s' ∧ Good s' ∧
      s'.ip.size.toNat = max s.ip.size.toNat (off.toNat + n.toNat) ∧
      ∀ i < s'.ip.size.toNat, byteAt s' i =
        if off.toNat ≤ i ∧ i < off.toNat + n.toNat then src.getD (i - off.toNat) 0 else byteAt s i := by
  have hoffn : off.toNat ≤ s.ip.size.toNat := UInt32.le_iff_toNat_le.mp hoff
  have hsmall := toNat_lt_of_le_MAXFILE hmax
  have hno : ¬off + n < off := by
    rw [UInt32.lt_iff_toNat_lt, UInt32.toNat_add]
    omega
  have hsum : (off + n).toNat = off.toNat + n.toNat := toNat_add_of_not_lt hno
  -- the loop, from the start of the write
  have hinit : WriteInv s s src off.toNat n.toNat 0 :=
    ⟨hg, rfl, rfl, fun bn h => hg.full bn (by omega), fun i _ => by rw [if_neg (by omega)], hfree⟩
  obtain ⟨sL, hloop, hw⟩ := writeiLoop_spec (by omega) hmax (n.toNat + 1) 0 s (by omega) (Nat.zero_le _) hinit
  rw [Nat.add_zero] at hloop
  have hsizeL := hw.size
  have hret : toInt n = n.toNat := toInt_of_lt (by omega)
  -- the checks pass, then the loop, then the size
  have hrun : ∀ s', Runs (if n > 0 ∧ off.toNat + n.toNat > sL.ip.size.toNat then
      (do modify fun s => { s with ip := { s.ip with size := (off.toNat + n.toNat).toUInt32 } }
          iupdate
          pure (toInt n))
      else pure (toInt n)) sL (n.toNat : Int) s' → Runs (writei devsw src off n) s (n.toNat : Int) s' := by
    intro s' h
    simp only [writei, runs_bind, runs_get]
    refine ⟨s, s, ⟨rfl, rfl⟩, ?_⟩
    have hbad : ¬(off > s.ip.size ∨ off + n < off) := by
      rintro (h | h)
      · exact absurd h (UInt32.not_lt.mpr hoff)
      · exact hno h
    rw [if_neg hg.notdev, if_neg hbad, if_neg (show ¬(off + n).toNat > MAXFILE * BSIZE by rw [hsum]; omega)]
    exact runs_bind _ _ _ _ _ |>.mpr
      ⟨_, sL, hloop, runs_bind _ _ _ _ _ |>.mpr ⟨sL, sL, (runs_get _ _ _).mpr ⟨rfl, rfl⟩, h⟩⟩
  by_cases hgrow : n > 0 ∧ off.toNat + n.toNat > sL.ip.size.toNat
  · -- the file grows: its new size, written back by `iupdate`
    have hv : (off.toNat + n.toNat).toUInt32.toNat = off.toNat + n.toNat :=
      UInt32.toNat_ofNat_of_lt' (lt_of_lt_of_le hsmall (by decide))
    obtain ⟨t', hupd, hgood, hsize, hbytes⟩ := iupdate_grow hw.good (v := (off.toNat + n.toNat).toUInt32)
      (by rw [hv]; exact hmax) fun bn h => hw.full bn (by omega)
    have hmax' : max s.ip.size.toNat (off.toNat + n.toNat) = off.toNat + n.toNat := by
      rw [hsizeL] at hgrow
      exact Nat.max_eq_right (by omega)
    refine ⟨t', hrun t' ?_, hgood, by rw [hsize, hv, hmax'], fun i hi => ?_⟩
    · rw [if_pos hgrow]
      simp only [runs_bind, runs_modify, runs_pure]
      exact ⟨(), _, rfl, (), t', hupd, by rw [hret], rfl⟩
    · rw [hsize, hv] at hi
      rw [hbytes i (by rw [hv]; exact hi), hw.bytes i (by rw [hmax']; exact hi)]
  · -- the write ends inside the file: its size stays
    have hmax' : max s.ip.size.toNat (off.toNat + n.toNat) = s.ip.size.toNat := by
      rw [hsizeL] at hgrow
      apply Nat.max_eq_left
      by_cases hn : n > 0
      · exact not_lt.mp fun h => hgrow ⟨hn, h⟩
      · have : n.toNat = 0 := by
          have := UInt32.lt_iff_toNat_lt.not.mp hn
          simp only [UInt32.toNat_zero] at this
          omega
        omega
    refine ⟨sL, hrun sL ?_, hw.good, by rw [hsizeL, hmax'], fun i hi => ?_⟩
    · rw [if_neg hgrow]
      exact (runs_pure _ _ _ _).mpr ⟨by rw [hret], rfl⟩
    · rw [hsizeL] at hi
      exact hw.bytes i (by rw [hmax']; exact hi)

end Writei

/-! ## The round trip -/

/-- `l` with `src` written over it from `off`, growing it where `src` runs past
its end: what a write does to a file's content. -/
def overwrite (l : List UInt8) (off : Nat) (src : List UInt8) : List UInt8 :=
  l.take off ++ src ++ l.drop (off + src.length)

/-- The overwritten list, byte by byte. -/
theorem overwrite_eq {l : List UInt8} {off : Nat} {src : List UInt8} (h : off ≤ l.length) :
    overwrite l off src = (List.range (max l.length (off + src.length))).map fun i =>
      if off ≤ i ∧ i < off + src.length then src.getD (i - off) 0 else l.getD i 0 := by
  have hlen : (l.take off).length = off := List.length_take_of_le h
  apply List.ext_getElem
  · simp only [overwrite, List.length_append, List.length_take, List.length_drop, List.length_map,
      List.length_range]
    omega
  · intro i h₁ h₂
    simp only [List.length_map, List.length_range] at h₂
    rw [List.getElem_map, List.getElem_range]
    by_cases hi₁ : i < off
    · -- before the write
      rw [if_neg (by omega), List.getD_eq_getElem _ _ (by omega)]
      simp only [overwrite]
      rw [List.getElem_append_left (by simp only [List.length_append, hlen]; omega),
        List.getElem_append_left (by rw [hlen]; exact hi₁), List.getElem_take]
    · by_cases hi₂ : i < off + src.length
      · -- a written byte
        rw [if_pos ⟨by omega, hi₂⟩, List.getD_eq_getElem _ _ (by omega)]
        simp only [overwrite]
        rw [List.getElem_append_left (by simp only [List.length_append, hlen]; omega),
          List.getElem_append_right (by rw [hlen]; omega)]
        simp only [hlen]
      · -- after it
        rw [if_neg (by omega), List.getD_eq_getElem _ _ (by omega)]
        simp only [overwrite]
        rw [List.getElem_append_right (by simp only [List.length_append, hlen]; omega), List.getElem_drop]
        congr 1
        simp only [List.length_append, hlen]
        omega

/-- The content after a `writei` at an offset inside the file is the old
content overwritten by `src`. -/
theorem content_of_bytes {s s' : St} {src : List UInt8} {off : Nat} (hoff : off ≤ s.ip.size.toNat)
    (hsize : s'.ip.size.toNat = max s.ip.size.toNat (off + src.length))
    (hbytes : ∀ i < s'.ip.size.toNat, byteAt s' i =
      if off ≤ i ∧ i < off + src.length then src.getD (i - off) 0 else byteAt s i) :
    content s' = overwrite (content s) off src := by
  have hlen : (content s).length = s.ip.size.toNat := by simp [content]
  rw [overwrite_eq (by rw [hlen]; exact hoff), hlen, content, hsize]
  apply List.map_congr_left
  intro i hi
  rw [List.mem_range] at hi
  rw [hbytes i (by rw [hsize]; exact hi)]
  by_cases hin : off ≤ i ∧ i < off + src.length
  · rw [if_pos hin, if_pos hin]
  · -- outside the write, `i` is below the old size
    rw [if_neg hin, if_neg hin, List.getD_eq_getElem _ _ (by rw [hlen]; omega)]
    simp [content]

/-- The round trip: `writei` of the `n` bytes of `src` at an offset inside a
file with a well-formed map, with the blocks it needs free, returns `n` and
makes the size `max size (off + n)`, and the map stays well formed. A `readi`
after it, from any `off'` for any `n'`, returns -1 when `off'` is past the end
or `off' + n'` wraps, and otherwise the bytes from `off'` of the old content
overwritten by `src`: `n'` of them, or up to the end. -/
theorem writei_readi (devsw : Fin NDEV → devsw) {s : St} (hg : Good s) {src : List UInt8} {off n : UInt32}
    (hlen : src.length = n.toNat) (hoff : off ≤ s.ip.size) (hmax : off.toNat + n.toNat ≤ MAXFILE * BSIZE)
    (hfree : needed s off.toNat (off.toNat + n.toNat) ≤ free s) :
    ∃ s', Runs (writei devsw src off n) s (n.toNat : Int) s' ∧ Good s' ∧
      s'.ip.size.toNat = max s.ip.size.toNat (off.toNat + n.toNat) ∧
      ∀ off' n' : UInt32, Runs (readi devsw off' n') s'
        (if off' > s'.ip.size ∨ off' + n' < off' then (-1, [])
         else ((min n'.toNat (s'.ip.size.toNat - off'.toNat) : Nat),
           ((overwrite (content s) off.toNat src).drop off'.toNat).take
             (min n'.toNat (s'.ip.size.toNat - off'.toNat)))) s' := by
  obtain ⟨s', hrun, hgood, hsize, hbytes⟩ := writei_spec devsw hg hlen hoff hmax hfree
  have hcontent : content s' = overwrite (content s) off.toNat src :=
    content_of_bytes (UInt32.le_iff_toNat_le.mp hoff) (by rw [hsize, hlen]) (by rw [hlen]; exact hbytes)
  refine ⟨s', hrun, hgood, hsize, fun off' n' => ?_⟩
  rw [← hcontent]
  exact readi_spec devsw hgood off' n'

/-! ## A fresh file -/

/-- A file with no blocks and size 0, as `ialloc` leaves it, on a disk whose
metadata blocks the bitmap marks, is well formed. -/
theorem Good.of_empty {s : St} (hnd : s.ip.type.toInt ≠ T_DEV) (hl : dataStart s.sb ≤ s.sb.size.toNat)
    (hib : (IBLOCK s.ip.inum s.sb).toNat < s.sb.bmapstart.toNat)
    (hmeta : ∀ y < dataStart s.sb, inUse s y.toUInt32 = true) (haddrs : ∀ i, s.ip.addrs i = 0)
    (hsize : s.ip.size = 0) : Good s := by
  have hind : ind s = 0 := haddrs _
  have hval : ∀ p : Slot, p.val s = 0 := by
    intro p
    cases p with
    | indirect => exact hind
    | blk bn =>
      by_cases hd : bn.val < NDIRECT
      · exact (blockOf_direct s hd).trans (haddrs _)
      · exact blockOf_of_ind_zero s hind (by omega)
  have hsz : s.ip.size.toNat = 0 := by rw [hsize]; rfl
  refine ⟨hnd, by rw [hsz]; exact Nat.zero_le _, hl, hib, hmeta, fun p hp => absurd (hval p) hp,
    fun p _ _ hp => absurd (hval p) hp, fun bn hbn => ?_⟩
  rw [hsz] at hbn
  exact absurd hbn (Nat.not_lt_zero _)

/-- A disk of 16 blocks: the boot block, the superblock, one block of inodes,
one bitmap block that marks blocks 0 to 3, and data blocks from 4. Inode 1 is
an empty file. -/
def emptyFile : St where
  disk := fun a => if a = 3 * BSIZE then 0x0F else 0
  sb := ⟨16, 12, 8, 0, 2, 2, 3⟩
  ip := ⟨1, 2, 0, 0, 1, 0, fun _ => 0⟩

/-- Writing "hi" to the empty file allocates its first block; a `readi` of 10
bytes from 0 then returns 2 and "hi". -/
theorem writei_readi_hi :
    Good emptyFile ∧ needed emptyFile 0 2 ≤ free emptyFile ∧
      ∃ s', Runs (writei (fun _ => ⟨none, none⟩) [104, 105] 0 2) emptyFile 2 s' ∧ s'.ip.size.toNat = 2 ∧
        Runs (readi (fun _ => ⟨none, none⟩) 0 10) s' (2, [104, 105]) s' := by
  have hg : Good emptyFile :=
    Good.of_empty (by decide) (by decide) (by decide) (by decide) (fun _ => rfl) rfl
  have hn : needed emptyFile 0 2 ≤ free emptyFile := by decide
  obtain ⟨s', hrun, -, hsize, hread⟩ := writei_readi (fun _ => ⟨none, none⟩) hg
    (show ([104, 105] : List UInt8).length = (2 : UInt32).toNat from rfl)
    (show (0 : UInt32) ≤ emptyFile.ip.size by decide) (by decide) hn
  have hsize' : s'.ip.size.toNat = 2 := hsize
  refine ⟨hg, hn, s', hrun, hsize', ?_⟩
  have h := hread 0 10
  have hok : ¬((0 : UInt32) > s'.ip.size ∨ (0 : UInt32) + 10 < 0) := by
    rintro (h | h)
    · exact absurd h (UInt32.not_lt.mpr (UInt32.zero_le))
    · exact absurd h (by decide)
  rw [if_neg hok, hsize'] at h
  exact h

end Xv6.Blocks
