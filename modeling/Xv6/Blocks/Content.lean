/-
An inode's content, and what `balloc` and `bmap` do to it.

`blockOf s bn` is the block that `bmap` finds for the file's block `bn` without
allocating, or 0, and `byteAt s i` is the file's byte `i`, read where that block
puts it; `content` is the bytes below `ip->size`. The block map is well formed
(`Good`) when every block it names is a data block that the bitmap marks in
use, no block is named twice, and every block below `ip->size` is there. The
places that hold a block number (`Slot`: the indirect block, and each file
block) make the last two conditions one statement each.

`balloc` takes the first free data block (`balloc_spec`), and `bmap` puts a
fresh block in the one empty place it fills (`bmap_spec`): every other place
keeps its block, every block already in the map keeps its bytes, the map stays
well formed, and the free blocks go down by the number `bmap` allocated.
-/
import Xv6.Blocks.Basic

set_option autoImplicit false

namespace Xv6.Blocks

open ByteMem StateExcept
open Xv6.Fs (BSIZE NDIRECT NINDIRECT MAXFILE T_DEV)

/-! ## The content of an inode -/

/-- The indirect block, `ip->addrs[NDIRECT]`. -/
def ind (s : St) : UInt32 := s.ip.addrs ⟨NDIRECT, Nat.lt_succ_self _⟩

/-- The block of the file's block `bn` as `bmap` finds it, or 0 when there is none. -/
def blockOf (s : St) (bn : Nat) : UInt32 :=
  if h : bn < NDIRECT then s.ip.addrs ⟨bn, Nat.lt_succ_of_lt h⟩
  else if bn - NDIRECT < NINDIRECT ∧ ind s ≠ 0 then load32 s.disk (blockAddr (ind s) + 4 * (bn - NDIRECT))
  else 0

/-- The file's byte `i`. -/
def byteAt (s : St) (i : Nat) : UInt8 := s.disk (blockAddr (blockOf s (i / BSIZE)) + i % BSIZE)

/-- The file's content: its bytes below `ip->size`. -/
def content (s : St) : List UInt8 := (List.range s.ip.size.toNat).map (byteAt s)

/-- The places of the block map: the indirect block, and each file block. -/
inductive Slot where
  | indirect
  | blk (bn : Fin MAXFILE)
  deriving DecidableEq

/-- The block at a place, or 0. -/
def Slot.val (s : St) : Slot → UInt32
  | .indirect => ind s
  | .blk bn => blockOf s bn

/-- The first data block, after the bitmap: the blocks below it are the boot
block, the superblock, the log, the inodes and the bitmap. -/
def dataStart (sb : superblock) : Nat := sb.bmapstart.toNat + sb.size.toNat / BPB + 1

/-- The blocks below `sb.size` that the bitmap marks free. -/
def freeBlocks (s : St) : List Nat := (List.range s.sb.size.toNat).filter fun y => !inUse s y.toUInt32

def free (s : St) : Nat := (freeBlocks s).length

/-- A well-formed block map, on a disk whose layout `sb` describes. -/
structure Good (s : St) : Prop where
  notdev : s.ip.type.toInt ≠ T_DEV
  size_le : s.ip.size.toNat ≤ MAXFILE * BSIZE
  layout : dataStart s.sb ≤ s.sb.size.toNat
  iblock : (IBLOCK s.ip.inum s.sb).toNat < s.sb.bmapstart.toNat
  meta_used : ∀ y < dataStart s.sb, inUse s y.toUInt32 = true
  used : ∀ p : Slot, p.val s ≠ 0 →
    dataStart s.sb ≤ (p.val s).toNat ∧ (p.val s).toNat < s.sb.size.toNat ∧ inUse s (p.val s) = true
  inj : ∀ p q : Slot, p.val s = q.val s → p.val s ≠ 0 → p = q
  full : ∀ bn, bn * BSIZE < s.ip.size.toNat → blockOf s bn ≠ 0

/-! ## Which blocks a write changes -/

/-- `d'` differs from `d` only in the blocks that `W` holds. -/
def Within (d d' : Mem) (W : Nat → Prop) : Prop := ∀ a, ¬W (a / BSIZE) → d' a = d a

section Within

variable {d d' d'' : Mem} {W W' : Nat → Prop}

theorem Within.trans (h : Within d d' W) (h' : Within d' d'' W') : Within d d'' fun c => W c ∨ W' c :=
  fun a ha => by
    rw [not_or] at ha
    rw [h' a ha.2, h a ha.1]

/-- A write to the bytes `[lo, lo + n)`, which lie in block `c`. -/
theorem within_range {lo n c : Nat} (hc : c * BSIZE ≤ lo) (hn : lo + n ≤ c * BSIZE + BSIZE)
    (h : ∀ a, a < lo ∨ lo + n ≤ a → d' a = d a) : Within d d' (· = c) := by
  intro a ha
  apply h
  by_contra hin
  have hlo : c * BSIZE ≤ a := by omega
  have hhi : a < (c + 1) * BSIZE := by rw [Nat.succ_mul]; omega
  exact ha (Nat.div_eq_of_lt_le hlo hhi)

/-- A byte of block `b` outside `W`. -/
theorem Within.addr (h : Within d d' W) {b : UInt32} {j : Nat} (hj : j < BSIZE) (hb : ¬W b.toNat) :
    d' (blockAddr b + j) = d (blockAddr b + j) := by
  apply h
  rwa [blockAddr, Nat.mul_comm, Nat.mul_add_div (by decide), Nat.div_eq_of_lt hj, Nat.add_zero]

theorem within_store32 (d : Mem) (c : UInt32) {k : Nat} (hk : k + 4 ≤ BSIZE) (v : UInt32) :
    Within d (store32 d (blockAddr c + k) v) (· = c.toNat) :=
  within_range (show c.toNat * BSIZE ≤ blockAddr c + k from Nat.le_add_right _ _)
    (show blockAddr c + k + 4 ≤ c.toNat * BSIZE + BSIZE by rw [blockAddr]; omega)
    fun _ ha => store32_of_not_mem v ha

end Within

theorem toNat_toUInt32_of_lt {x : Nat} {y : UInt32} (hx : x < y.toNat) : x.toUInt32.toNat = x :=
  UInt32.toNat_ofNat_of_lt' (lt_trans hx y.toNat_lt)

/-! ## What the views read -/

section Views

variable {s s' : St}

/-- The block map reads the inode's addresses and the indirect block. -/
theorem blockOf_congr (hip : s'.ip.addrs = s.ip.addrs)
    (hd : ind s ≠ 0 → ∀ j < BSIZE, s'.disk (blockAddr (ind s) + j) = s.disk (blockAddr (ind s) + j)) :
    blockOf s' = blockOf s := by
  have hind : ind s' = ind s := by simp only [ind, hip]
  funext bn
  unfold blockOf
  rw [hind, hip]
  split_ifs with h₁ h₂
  · rfl
  · apply load32_congr
    intro i hi
    simp only [NINDIRECT, BSIZE] at h₂
    rw [Nat.add_assoc, hd h₂.2 _ (by simp only [BSIZE]; omega)]
  · rfl

/-- The bitmap's bit for block `y` is a byte of `BBLOCK y`. -/
theorem inUse_congr (hsb : s'.sb = s.sb) {y : UInt32}
    (hd : ∀ j < BSIZE, s'.disk (blockAddr (BBLOCK y s.sb) + j) = s.disk (blockAddr (BBLOCK y s.sb) + j)) :
    inUse s' y = inUse s y := by
  have hj : y.toNat % BPB / 8 < BSIZE := by
    have := Nat.mod_lt y.toNat (show 0 < BPB by decide)
    simp only [BPB, BSIZE] at this ⊢
    omega
  simp only [inUse, Bitmap.test, hsb, hd _ hj]

theorem byteAt_congr {i : Nat} (hb : blockOf s' (i / BSIZE) = blockOf s (i / BSIZE))
    (hd : s'.disk (blockAddr (blockOf s (i / BSIZE)) + i % BSIZE) =
      s.disk (blockAddr (blockOf s (i / BSIZE)) + i % BSIZE)) :
    byteAt s' i = byteAt s i := by
  rw [byteAt, byteAt, hb, hd]

theorem free_congr (hsb : s'.sb = s.sb)
    (h : ∀ y : UInt32, y.toNat < s.sb.size.toNat → inUse s' y = inUse s y) : free s' = free s := by
  rw [free, free, freeBlocks, freeBlocks, hsb]
  congr 1
  apply List.filter_congr
  intro y hy
  rw [h y.toUInt32 (by rw [toNat_toUInt32_of_lt (List.mem_range.mp hy)]; exact List.mem_range.mp hy)]

end Views

/-! ## The bitmap and `balloc` -/

section Balloc

variable {s : St}

/-- The bitmap block of a block below `sb.size`: `BBLOCK` does not wrap. -/
theorem toNat_BBLOCK {sb : superblock} (hl : dataStart sb ≤ sb.size.toNat) {y : UInt32}
    (hy : y.toNat < sb.size.toNat) : (BBLOCK y sb).toNat = y.toNat / BPB + sb.bmapstart.toNat := by
  have hdiv : (y / BPB.toUInt32).toNat = y.toNat / BPB := by
    rw [UInt32.toNat_div]
    rfl
  have hle : y.toNat / BPB ≤ sb.size.toNat / BPB := Nat.div_le_div_right hy.le
  have hsz := sb.size.toNat_lt
  simp only [dataStart] at hl
  rw [BBLOCK, UInt32.toNat_add, hdiv, Nat.mod_eq_of_lt (by omega)]

/-- The bitmap blocks come before the data blocks. -/
theorem BBLOCK_lt_dataStart {sb : superblock} (hl : dataStart sb ≤ sb.size.toNat) {y : UInt32}
    (hy : y.toNat < sb.size.toNat) : (BBLOCK y sb).toNat < dataStart sb := by
  have hle : y.toNat / BPB ≤ sb.size.toNat / BPB := Nat.div_le_div_right hy.le
  rw [toNat_BBLOCK hl hy, dataStart]
  omega

/-- Setting a bit writes one byte of the bitmap block. -/
theorem within_set (d : Mem) (c : UInt32) {i : Nat} (hi : i < BPB) :
    Within d (Bitmap.set d (blockAddr c) i) (· = c.toNat) := by
  have h8 : i / 8 < BSIZE := by
    simp only [BPB, BSIZE] at hi ⊢
    omega
  exact within_range (show c.toNat * BSIZE ≤ blockAddr c + i / 8 from Nat.le_add_right _ _)
    (show blockAddr c + i / 8 + 1 ≤ c.toNat * BSIZE + BSIZE by rw [blockAddr]; omega)
    fun a ha => Bitmap.set_of_ne (by omega)

theorem within_memset (d : Mem) (c : UInt32) : Within d (memset d (blockAddr c) BSIZE 0) (· = c.toNat) :=
  within_range (show c.toNat * BSIZE ≤ blockAddr c from le_refl _)
    (show blockAddr c + BSIZE ≤ c.toNat * BSIZE + BSIZE from le_refl _) fun _ ha => memset_of_not_mem 0 ha

/-- Marking block `x` in use marks nothing else. -/
theorem inUse_set (hl : dataStart s.sb ≤ s.sb.size.toNat) {x y : UInt32} (hx : x.toNat < s.sb.size.toNat)
    (hy : y.toNat < s.sb.size.toNat) :
    inUse { s with disk := Bitmap.set s.disk (blockAddr (BBLOCK x s.sb)) (x.toNat % BPB) } y =
      (y == x || inUse s y) := by
  have hbx := toNat_BBLOCK hl hx
  have hby := toNat_BBLOCK hl hy
  by_cases hb : BBLOCK y s.sb = BBLOCK x s.sb
  · -- one bitmap block: the bits of `x` and `y` are two bits of its bytes
    by_cases hxy : y = x
    · subst hxy
      simp only [inUse, Bitmap.test_set_self, beq_self_eq_true, Bool.true_or]
    · have hne : x.toNat % BPB ≠ y.toNat % BPB := by
        intro h
        have hdiv : y.toNat / BPB = x.toNat / BPB := by
          have := congrArg UInt32.toNat hb
          omega
        apply hxy
        apply UInt32.toNat_inj.mp
        simp only [BPB, BSIZE] at h hdiv
        omega
      simp only [inUse, hb, Bitmap.test_set_of_ne _ _ hne]
      rw [beq_eq_false_iff_ne.mpr hxy, Bool.false_or]
  · -- another bitmap block: its bytes are as they were
    have hw := within_set s.disk (BBLOCK x s.sb) (Nat.mod_lt x.toNat (show 0 < BPB by decide))
    have hxy : (y == x) = false := by
      rw [beq_eq_false_iff_ne]
      rintro rfl
      exact hb rfl
    have hd : ∀ j < BSIZE, Bitmap.set s.disk (blockAddr (BBLOCK x s.sb)) (x.toNat % BPB)
        (blockAddr (BBLOCK y s.sb) + j) = s.disk (blockAddr (BBLOCK y s.sb) + j) :=
      fun j hj => hw.addr hj fun h => hb (UInt32.toNat_inj.mp h)
    rw [@inUse_congr s { s with disk := Bitmap.set s.disk (blockAddr (BBLOCK x s.sb)) (x.toNat % BPB) } rfl y hd,
      hxy, Bool.false_or]

/-- What `balloc` does: the block `x` it returns was a free data block; it is
now marked in use and zeroed, and no other block changed. -/
structure Balloc (s s' : St) (x : UInt32) : Prop where
  ip : s'.ip = s.ip
  sb : s'.sb = s.sb
  start : dataStart s.sb ≤ x.toNat
  lt : x.toNat < s.sb.size.toNat
  was_free : inUse s x = false
  within : Within s.disk s'.disk fun c => c = (BBLOCK x s.sb).toNat ∨ c = x.toNat
  zero : ∀ j < BSIZE, s'.disk (blockAddr x + j) = 0
  bits : ∀ y : UInt32, y.toNat < s.sb.size.toNat → inUse s' y = (y == x || inUse s y)
  count : free s' + 1 = free s

/-- Taking one block off the free list. -/
theorem free_of_inUse {s' : St} {x : Nat} (hsb : s'.sb = s.sb) (hx : x ∈ freeBlocks s)
    (h : ∀ y < s.sb.size.toNat, inUse s' y.toUInt32 = (y == x || inUse s y.toUInt32)) :
    free s' + 1 = free s := by
  have hnd : (freeBlocks s).Nodup := List.nodup_range.filter _
  have hf : freeBlocks s' = (freeBlocks s).filter fun y => y != x := by
    rw [freeBlocks, freeBlocks, hsb, List.filter_filter]
    apply List.filter_congr
    intro y hy
    rw [h y (List.mem_range.mp hy)]
    by_cases hyx : y = x
    · simp [hyx]
    · simp [bne, beq_eq_false_iff_ne.mpr hyx]
  rw [free, free, hf, ← hnd.erase_eq_filter, List.length_erase_of_mem hx]
  have := List.length_pos_of_mem hx
  omega

/-- `balloc` from a disk with a free block. -/
theorem balloc_spec (hg : Good s) (hf : 0 < free s) : ∃ x s', Runs balloc s x s' ∧ Balloc s s' x := by
  obtain ⟨x, hfind⟩ : ∃ x, (List.range s.sb.size.toNat).find? (fun y => !inUse s y.toUInt32) = some x := by
    rcases h : (List.range s.sb.size.toNat).find? (fun y => !inUse s y.toUInt32) with _ | x
    · -- no free block: the free list is empty
      have hnil : freeBlocks s = [] :=
        List.filter_eq_nil_iff.mpr fun y hy => List.find?_eq_none.mp h y hy
      rw [free, hnil] at hf
      exact absurd hf (Nat.lt_irrefl 0)
    · exact ⟨x, h⟩
  have hx : x < s.sb.size.toNat := List.mem_range.mp (List.mem_of_find?_eq_some hfind)
  have hfx : inUse s x.toUInt32 = false := by simpa using List.find?_some hfind
  have hxx : x.toUInt32.toNat = x := toNat_toUInt32_of_lt hx
  have hstart : dataStart s.sb ≤ x := by
    by_contra hlt
    rw [hg.meta_used x (by omega)] at hfx
    exact absurd hfx (by decide)
  let s₁ : St := { s with disk := Bitmap.set s.disk (blockAddr (BBLOCK x.toUInt32 s.sb)) (x % BPB) }
  let s' : St := { s₁ with disk := memset s₁.disk (blockAddr x.toUInt32) BSIZE 0 }
  have hw₁ : Within s.disk s₁.disk (· = (BBLOCK x.toUInt32 s.sb).toNat) :=
    within_set s.disk _ (Nat.mod_lt x (by decide))
  have hw₂ : Within s₁.disk s'.disk (· = x.toUInt32.toNat) := within_memset s₁.disk _
  -- the zeroed block is a data block, after every bitmap block
  have hin : ∀ y : UInt32, y.toNat < s.sb.size.toNat → inUse s' y = (y == x.toUInt32 || inUse s y) := by
    intro y hy
    have hby := BBLOCK_lt_dataStart hg.layout hy
    rw [@inUse_congr s₁ s' rfl y fun j hj => hw₂.addr hj (show ¬(BBLOCK y s.sb).toNat = x.toUInt32.toNat by omega)]
    have h₁ := inUse_set (s := s) hg.layout (x := x.toUInt32) (by omega) hy
    rw [hxx] at h₁
    exact h₁
  refine ⟨x.toUInt32, s', ?_, ⟨rfl, rfl, by omega, by omega, hfx, hw₁.trans hw₂,
    fun j hj => memset_of_mem 0 (by omega), hin, ?_⟩⟩
  · simp [Runs, balloc, bzero, hfind, s', s₁]
    rfl
  · apply @free_of_inUse s s' x rfl (List.mem_filter.mpr ⟨List.mem_range.mpr hx, by simp [hfx]⟩)
    intro y hy
    have hyy : y.toUInt32.toNat = y := toNat_toUInt32_of_lt hy
    rw [hin y.toUInt32 (by omega)]
    congr 1
    by_cases hyx : y = x
    · simp [hyx]
    · have hne : y.toUInt32 ≠ x.toUInt32 := fun h => hyx (by rw [← hyy, ← hxx, h])
      simp [hyx, hne]

end Balloc

/-- The inode's fields other than its addresses, kept from one state to a
later one. -/
theorem ip_trans {a b c : St} (h₁ : { b.ip with addrs := a.ip.addrs } = a.ip)
    (h₂ : { c.ip with addrs := b.ip.addrs } = b.ip) : { c.ip with addrs := a.ip.addrs } = a.ip :=
  calc { c.ip with addrs := a.ip.addrs }
      = { ({ c.ip with addrs := b.ip.addrs } : inode) with addrs := a.ip.addrs } := rfl
    _ = { b.ip with addrs := a.ip.addrs } := by rw [h₂]
    _ = a.ip := h₁

/-! ## Filling an empty place of the map -/

section Fill

variable {s s₁ s' : St} {x : UInt32}

/-- `balloc` leaves the bytes of every block in the map: it writes a bitmap
block and a block that was free. -/
theorem Balloc.bytes (hg : Good s) (hb : Balloc s s₁ x) (p : Slot) (hp : p.val s ≠ 0) {j : Nat}
    (hj : j < BSIZE) : s₁.disk (blockAddr (p.val s) + j) = s.disk (blockAddr (p.val s) + j) := by
  obtain ⟨hstart, -, hused⟩ := hg.used p hp
  have hbx := BBLOCK_lt_dataStart hg.layout hb.lt
  have hne : p.val s ≠ x := by
    rintro rfl
    rw [hb.was_free] at hused
    exact absurd hused (by decide)
  apply hb.within.addr hj
  rintro (h | h)
  · omega
  · exact hne (UInt32.toNat_inj.mp h)

theorem Balloc.blockOf (hg : Good s) (hb : Balloc s s₁ x) : blockOf s₁ = blockOf s :=
  blockOf_congr (by rw [hb.ip]) fun hi _ hj => hb.bytes hg .indirect hi hj

/-- The bitmap after `balloc` marks what it did, and `x`. -/
theorem Balloc.inUse_of_inUse (hb : Balloc s s₁ x) {y : UInt32} (hy : y.toNat < s.sb.size.toNat)
    (h : inUse s y = true) : inUse s₁ y = true := by
  rw [hb.bits y hy, h, Bool.or_true]

theorem Balloc.inUse_self (hb : Balloc s s₁ x) : inUse s₁ x = true := by
  rw [hb.bits x hb.lt, beq_self_eq_true, Bool.true_or]

/-- Putting the block that `balloc` returned in an empty place `p` of the map,
and changing nothing else that `Good` reads, keeps the map well formed. -/
theorem Good.fill (hg : Good s) (hb : Balloc s s₁ x) {p : Slot} (hsb : s'.sb = s.sb)
    (hip : { s'.ip with addrs := s.ip.addrs } = s.ip)
    (hin : ∀ y : UInt32, y.toNat < s.sb.size.toNat → inUse s' y = inUse s₁ y)
    (hp : p.val s = 0) (hp' : p.val s' = x) (hq : ∀ q, q ≠ p → q.val s' = q.val s) : Good s' := by
  have hsize : s'.ip.size = s.ip.size := by rw [← hip]
  have htype : s'.ip.type = s.ip.type := by rw [← hip]
  have hinum : s'.ip.inum = s.ip.inum := by rw [← hip]
  have hused : ∀ y : UInt32, y.toNat < s.sb.size.toNat → inUse s y = true → inUse s' y = true :=
    fun y hy h => by rw [hin y hy, hb.inUse_of_inUse hy h]
  -- a place other than `p` keeps a block that was in use, so not `x`
  have hne : ∀ q, q ≠ p → q.val s ≠ 0 → q.val s ≠ x := by
    intro q _ hq0 hqx
    have := (hg.used q hq0).2.2
    rw [hqx, hb.was_free] at this
    exact absurd this (by decide)
  constructor
  · rw [htype]
    exact hg.notdev
  · rw [hsize]
    exact hg.size_le
  · rw [hsb]
    exact hg.layout
  · rw [hsb, hinum]
    exact hg.iblock
  · intro y hy
    rw [hsb] at hy
    have hys : y < s.sb.size.toNat := lt_of_lt_of_le hy hg.layout
    have := hused y.toUInt32 (by rw [toNat_toUInt32_of_lt hys]; exact hys) (hg.meta_used y hy)
    exact this
  · intro q hq0
    rw [hsb]
    by_cases hqp : q = p
    · subst hqp
      rw [hp']
      exact ⟨hb.start, hb.lt, by rw [hin x hb.lt]; exact hb.inUse_self⟩
    · rw [hq q hqp] at hq0 ⊢
      obtain ⟨h₁, h₂, h₃⟩ := hg.used q hq0
      exact ⟨h₁, h₂, hused _ h₂ h₃⟩
  · intro q r hqr hq0
    by_cases hqp : q = p
    · by_cases hrp : r = p
      · rw [hqp, hrp]
      · -- `r` keeps an old block, which is not `x`
        subst hqp
        rw [hp', hq r hrp] at hqr
        have hx0 : x ≠ 0 := hp' ▸ hq0
        exact absurd hqr.symm (hne r hrp (hqr ▸ hx0))
    · by_cases hrp : r = p
      · subst hrp
        rw [hp', hq q hqp] at hqr
        rw [hq q hqp] at hq0
        exact absurd hqr (hne q hqp hq0)
      · rw [hq q hqp, hq r hrp] at hqr
        rw [hq q hqp] at hq0
        exact hg.inj q r hqr hq0
  · intro bn hbn
    rw [hsize] at hbn
    have hlt : bn < MAXFILE := Nat.lt_of_mul_lt_mul_right (lt_of_lt_of_le hbn hg.size_le)
    have hq := hq (.blk ⟨bn, hlt⟩) (fun h => hg.full bn hbn (by rw [← hp, ← h]; rfl))
    simp only [Slot.val] at hq
    rw [hq]
    exact hg.full bn hbn

end Fill

/-! ## `bmap` -/

section Bmap

variable {s s₁ : St} {x : UInt32}

theorem allocAddr_of_ne_zero {i : Fin (NDIRECT + 1)} (h : s.ip.addrs i ≠ 0) :
    Runs (allocAddr i) s (s.ip.addrs i) s := by
  simp only [allocAddr, runs_bind, runs_get]
  refine ⟨s, s, ⟨rfl, rfl⟩, ?_⟩
  simp [h]

theorem allocAddr_of_zero {i : Fin (NDIRECT + 1)} (h : s.ip.addrs i = 0) (hb : Runs balloc s x s₁) :
    Runs (allocAddr i) s x { s₁ with ip := { s₁.ip with addrs := Function.update s₁.ip.addrs i x } } := by
  simp only [allocAddr, runs_bind, runs_get]
  refine ⟨s, s, ⟨rfl, rfl⟩, ?_⟩
  simp only [h, ne_eq, not_true_eq_false, if_false, runs_bind, runs_modify, runs_pure]
  exact ⟨x, s₁, hb, (), _, rfl, rfl, rfl⟩

theorem allocEntry_of_ne_zero {ind : UInt32} {k : Nat} (h : load32 s.disk (blockAddr ind + 4 * k) ≠ 0) :
    Runs (allocEntry ind k) s (load32 s.disk (blockAddr ind + 4 * k)) s := by
  simp only [allocEntry, runs_bind, runs_get]
  refine ⟨s, s, ⟨rfl, rfl⟩, ?_⟩
  simp [h]

theorem allocEntry_of_zero {ind : UInt32} {k : Nat} (h : load32 s.disk (blockAddr ind + 4 * k) = 0)
    (hb : Runs balloc s x s₁) :
    Runs (allocEntry ind k) s x { s₁ with disk := store32 s₁.disk (blockAddr ind + 4 * k) x } := by
  simp only [allocEntry, runs_bind, runs_get]
  refine ⟨s, s, ⟨rfl, rfl⟩, ?_⟩
  simp only [h, ne_eq, not_true_eq_false, if_false, runs_bind, runs_modify, runs_pure]
  exact ⟨x, s₁, hb, (), _, rfl, rfl, rfl⟩

/-- What filling the empty place `p` with a fresh block does: the map stays
well formed, no other place changes, the file's blocks keep their bytes, and
one block fewer is free. -/
structure Fill (s s' : St) (p : Slot) (x : UInt32) : Prop where
  good : Good s'
  was_zero : p.val s = 0
  val : p.val s' = x
  ne_zero : x ≠ 0
  other : ∀ q, q ≠ p → q.val s' = q.val s
  bytes : ∀ bn : Fin MAXFILE, blockOf s bn ≠ 0 → ∀ j < BSIZE,
    s'.disk (blockAddr (blockOf s bn) + j) = s.disk (blockAddr (blockOf s bn) + j)
  ip : { s'.ip with addrs := s.ip.addrs } = s.ip
  sb : s'.sb = s.sb
  count : free s' + 1 = free s

theorem Balloc.ne_zero (hb : Balloc s s₁ x) : x ≠ 0 := by
  intro h
  have := hb.start
  rw [h, dataStart] at this
  exact absurd this (by simp)

theorem lt_MAXFILE_of_lt_NDIRECT {bn : Nat} (h : bn < NDIRECT) : bn < MAXFILE :=
  Nat.lt_of_lt_of_le h (Nat.le_add_right _ _)

/-- Recording `v` as the direct block `bn` changes that block of the map alone. -/
theorem blockOf_update_direct (t : St) {bn : Nat} (hbn : bn < NDIRECT) (v : UInt32) (bn' : Nat) :
    blockOf { t with ip := { t.ip with addrs := Function.update t.ip.addrs ⟨bn, Nat.lt_succ_of_lt hbn⟩ v } } bn' =
      if bn' = bn then v else blockOf t bn' := by
  have hind : ind { t with ip := { t.ip with addrs := Function.update t.ip.addrs ⟨bn, Nat.lt_succ_of_lt hbn⟩ v } } = ind t := by
    simp only [ind]
    rw [Function.update_of_ne (by simp only [ne_eq, Fin.mk.injEq]; omega)]
  by_cases h : bn' = bn
  · subst h
    simp [blockOf, hbn]
  · rw [if_neg h]
    unfold blockOf
    rw [hind]
    split_ifs with h₁
    · simp only
      rw [Function.update_of_ne (by simp only [ne_eq, Fin.mk.injEq]; omega)]
    · rfl
    · rfl

/-- A direct block: `ip->addrs[bn] = balloc()`. -/
theorem fill_direct (hg : Good s) {bn : Nat} (hbn : bn < NDIRECT) (h0 : s.ip.addrs ⟨bn, Nat.lt_succ_of_lt hbn⟩ = 0)
    (hb : Balloc s s₁ x) :
    Fill s { s₁ with ip := { s₁.ip with addrs := Function.update s₁.ip.addrs ⟨bn, Nat.lt_succ_of_lt hbn⟩ x } }
      (.blk ⟨bn, lt_MAXFILE_of_lt_NDIRECT hbn⟩) x := by
  have hview := blockOf_update_direct s₁ hbn x
  rw [hb.blockOf hg] at hview
  have hip : { ({ s₁ with ip := { s₁.ip with addrs := Function.update s₁.ip.addrs ⟨bn, Nat.lt_succ_of_lt hbn⟩ x } } : St).ip
      with addrs := s.ip.addrs } = s.ip := by
    rw [hb.ip]
  have hp : (Slot.blk ⟨bn, lt_MAXFILE_of_lt_NDIRECT hbn⟩).val s = 0 := by
    simp only [Slot.val, blockOf, hbn, dite_true, h0]
  have hp' : (Slot.blk ⟨bn, lt_MAXFILE_of_lt_NDIRECT hbn⟩).val
      { s₁ with ip := { s₁.ip with addrs := Function.update s₁.ip.addrs ⟨bn, Nat.lt_succ_of_lt hbn⟩ x } } = x := by
    simp only [Slot.val, hview, if_true]
  have hq : ∀ q : Slot, q ≠ .blk ⟨bn, lt_MAXFILE_of_lt_NDIRECT hbn⟩ →
      q.val { s₁ with ip := { s₁.ip with addrs := Function.update s₁.ip.addrs ⟨bn, Nat.lt_succ_of_lt hbn⟩ x } } = q.val s := by
    intro q hq
    cases q with
    | indirect =>
      simp only [Slot.val, ind]
      rw [Function.update_of_ne (by simp only [ne_eq, Fin.mk.injEq]; omega), hb.ip]
    | blk bn' =>
      have hne : bn'.val ≠ bn := fun h => hq (congrArg Slot.blk (Fin.ext h))
      simp only [Slot.val, hview, hne, if_false]
  refine ⟨hg.fill hb hb.sb hip (fun _ _ => rfl) hp hp' hq, hp, hp', hb.ne_zero, hq,
    fun bn' hbn' _ hj => hb.bytes hg (.blk bn') hbn' hj, hip, hb.sb, hb.count⟩

/-- A zeroed block holds zero words. -/
theorem load32_zero {m : Mem} {b : UInt32} {k : Nat} (hk : k + 4 ≤ BSIZE)
    (hz : ∀ j < BSIZE, m (blockAddr b + j) = 0) : load32 m (blockAddr b + k) = 0 := by
  have h : load32 m (blockAddr b + k) = load32 (fun _ => 0) 0 :=
    load32_congr fun i hi => by rw [Nat.add_assoc, hz _ (by omega)]
  rw [h]
  rfl

/-- A zeroed block recorded as the indirect block, where there was none: every
indirect entry reads 0, as before. -/
theorem blockOf_update_indirect (t : St) {v : UInt32} (h0 : ind t = 0)
    (hz : ∀ j < BSIZE, t.disk (blockAddr v + j) = 0) (bn : Nat) :
    blockOf { t with ip := { t.ip with addrs := Function.update t.ip.addrs ⟨NDIRECT, Nat.lt_succ_self _⟩ v } } bn =
      blockOf t bn := by
  have hv : ind { t with ip := { t.ip with addrs := Function.update t.ip.addrs ⟨NDIRECT, Nat.lt_succ_self _⟩ v } } =
      v := by
    simp only [ind, Function.update_self]
  unfold blockOf
  rw [hv, h0]
  by_cases h₁ : bn < NDIRECT
  · rw [dif_pos h₁, dif_pos h₁]
    simp only
    rw [Function.update_of_ne (by simp only [ne_eq, Fin.mk.injEq]; omega)]
  · rw [dif_neg h₁, dif_neg h₁, if_neg (show ¬(bn - NDIRECT < NINDIRECT ∧ (0 : UInt32) ≠ 0) from fun h => h.2 rfl)]
    by_cases h₂ : bn - NDIRECT < NINDIRECT ∧ v ≠ 0
    · -- the new indirect block is zeroed
      have hk : 4 * (bn - NDIRECT) + 4 ≤ BSIZE := by
        have := h₂.1
        simp only [NINDIRECT, BSIZE] at this ⊢
        omega
      rw [if_pos h₂]
      exact load32_zero hk hz
    · rw [if_neg h₂]

/-- The indirect block: `ip->addrs[NDIRECT] = balloc()`. -/
theorem fill_indirect (hg : Good s) (h0 : ind s = 0) (hb : Balloc s s₁ x) :
    Fill s { s₁ with ip := { s₁.ip with addrs := Function.update s₁.ip.addrs ⟨NDIRECT, Nat.lt_succ_self _⟩ x } }
      .indirect x := by
  have h₁ : ind s₁ = 0 := by rw [ind, hb.ip]; exact h0
  have hview := blockOf_update_indirect s₁ h₁ hb.zero
  rw [hb.blockOf hg] at hview
  have hip : { ({ s₁ with ip := { s₁.ip with addrs := Function.update s₁.ip.addrs ⟨NDIRECT, Nat.lt_succ_self _⟩ x } } :
      St).ip with addrs := s.ip.addrs } = s.ip := by
    rw [hb.ip]
  have hp' : Slot.indirect.val
      { s₁ with ip := { s₁.ip with addrs := Function.update s₁.ip.addrs ⟨NDIRECT, Nat.lt_succ_self _⟩ x } } = x := by
    simp only [Slot.val, ind, Function.update_self]
  have hq : ∀ q : Slot, q ≠ .indirect →
      q.val { s₁ with ip := { s₁.ip with addrs := Function.update s₁.ip.addrs ⟨NDIRECT, Nat.lt_succ_self _⟩ x } } =
        q.val s := by
    intro q hq
    cases q with
    | indirect => exact absurd rfl hq
    | blk bn => simp only [Slot.val, hview]
  refine ⟨hg.fill hb hb.sb hip (fun _ _ => rfl) (show Slot.indirect.val s = 0 from h0) hp' hq, h0, hp',
    hb.ne_zero, hq,
    fun bn hbn _ hj => hb.bytes hg (.blk bn) hbn hj, hip, hb.sb, hb.count⟩

/-- Recording `v` in entry `k` of the indirect block changes that block of the map alone. -/
theorem blockOf_store_entry (t : St) (hi : ind t ≠ 0) {k : Nat} (hk : k < NINDIRECT) (v : UInt32) (bn : Nat) :
    blockOf { t with disk := store32 t.disk (blockAddr (ind t) + 4 * k) v } bn =
      if bn = NDIRECT + k then v else blockOf t bn := by
  have hind : ind { t with disk := store32 t.disk (blockAddr (ind t) + 4 * k) v } = ind t := rfl
  unfold blockOf
  rw [hind]
  by_cases h₁ : bn < NDIRECT
  · rw [dif_pos h₁, dif_pos h₁, if_neg (by omega)]
  · rw [dif_neg h₁, dif_neg h₁]
    by_cases h₂ : bn - NDIRECT < NINDIRECT ∧ ind t ≠ 0
    · rw [if_pos h₂, if_pos h₂]
      simp only
      split_ifs with h₃
      · rw [show bn - NDIRECT = k by omega]
        exact load32_store32_self _ _
      · exact load32_store32_of_disjoint _ (by omega)
    · rw [if_neg h₂, if_neg h₂, if_neg (fun h => h₂ ⟨by omega, hi⟩)]

/-- The data blocks lie after the bitmap: a write to them leaves the bitmap. -/
theorem inUse_of_within (hl : dataStart s.sb ≤ s.sb.size.toNat) {s' : St} {W : Nat → Prop}
    (hsb : s'.sb = s.sb) (hw : Within s.disk s'.disk W) (hW : ∀ c, W c → dataStart s.sb ≤ c) :
    ∀ y : UInt32, y.toNat < s.sb.size.toNat → inUse s' y = inUse s y := by
  intro y hy
  have hby := BBLOCK_lt_dataStart hl hy
  exact inUse_congr hsb fun j hj => hw.addr hj fun h => absurd (hW _ h) (by omega)

/-- An indirect entry: `a[bn - NDIRECT] = balloc()`. -/
theorem fill_entry (hg : Good s) (hi : ind s ≠ 0) {bn : Nat} (hbn : NDIRECT ≤ bn) (hlt : bn < MAXFILE)
    (h0 : blockOf s bn = 0) (hb : Balloc s s₁ x) :
    Fill s { s₁ with disk := store32 s₁.disk (blockAddr (ind s) + 4 * (bn - NDIRECT)) x } (.blk ⟨bn, hlt⟩) x := by
  have hk : bn - NDIRECT < NINDIRECT := by
    simp only [MAXFILE] at hlt
    omega
  have hind : ind s₁ = ind s := by rw [ind, hb.ip]; rfl
  have hview := blockOf_store_entry s₁ (hind ▸ hi) hk x
  rw [hb.blockOf hg, Nat.add_sub_cancel' hbn, hind] at hview
  have hk4 : 4 * (bn - NDIRECT) + 4 ≤ BSIZE := by
    simp only [NINDIRECT, BSIZE] at hk ⊢
    omega
  have hw : Within s₁.disk (store32 s₁.disk (blockAddr (ind s) + 4 * (bn - NDIRECT)) x) (· = (ind s).toNat) := by
    exact within_store32 _ _ hk4 x
  obtain ⟨hstart, -⟩ := hg.used .indirect hi
  have hin₁ : ∀ y : UInt32, y.toNat < s₁.sb.size.toNat →
      inUse { s₁ with disk := store32 s₁.disk (blockAddr (ind s) + 4 * (bn - NDIRECT)) x } y = inUse s₁ y :=
    @inUse_of_within s₁ (by rw [hb.sb]; exact hg.layout)
      { s₁ with disk := store32 s₁.disk (blockAddr (ind s) + 4 * (bn - NDIRECT)) x } _ rfl hw
      fun c hc => by rw [hb.sb, hc]; exact hstart
  have hin : ∀ y : UInt32, y.toNat < s.sb.size.toNat →
      inUse { s₁ with disk := store32 s₁.disk (blockAddr (ind s) + 4 * (bn - NDIRECT)) x } y = inUse s₁ y :=
    fun y hy => hin₁ y (by rw [hb.sb]; exact hy)
  have hp' : (Slot.blk ⟨bn, hlt⟩).val
      { s₁ with disk := store32 s₁.disk (blockAddr (ind s) + 4 * (bn - NDIRECT)) x } = x := by
    simp only [Slot.val, hview, if_true]
  have hq : ∀ q : Slot, q ≠ .blk ⟨bn, hlt⟩ →
      q.val { s₁ with disk := store32 s₁.disk (blockAddr (ind s) + 4 * (bn - NDIRECT)) x } = q.val s := by
    intro q hq
    cases q with
    | indirect => exact hind
    | blk bn' =>
      have hne : bn'.val ≠ bn := fun h => hq (congrArg Slot.blk (Fin.ext h))
      simp only [Slot.val, hview, hne, if_false]
  -- the file's blocks are not the indirect block
  have hbytes : ∀ bn' : Fin MAXFILE, blockOf s bn' ≠ 0 → ∀ j < BSIZE,
      store32 s₁.disk (blockAddr (ind s) + 4 * (bn - NDIRECT)) x (blockAddr (blockOf s bn') + j) =
        s.disk (blockAddr (blockOf s bn') + j) := by
    intro bn' hbn' j hj
    have hne : blockOf s bn' ≠ ind s := fun h => by
      have := hg.inj (.blk bn') .indirect h hbn'
      exact Slot.noConfusion this
    rw [hw.addr hj fun h => hne (UInt32.toNat_inj.mp h)]
    exact hb.bytes hg (.blk bn') hbn' hj
  have hp : (Slot.blk ⟨bn, hlt⟩).val s = 0 := h0
  refine ⟨hg.fill hb hb.sb (by rw [hb.ip]) hin hp hp' hq, hp, hp', hb.ne_zero, hq, hbytes,
    by rw [hb.ip], hb.sb, ?_⟩
  rw [@free_congr s₁ { s₁ with disk := store32 s₁.disk (blockAddr (ind s) + 4 * (bn - NDIRECT)) x } rfl hin₁]
  exact hb.count

theorem blockOf_direct (t : St) {bn : Nat} (h : bn < NDIRECT) : blockOf t bn = t.ip.addrs ⟨bn, Nat.lt_succ_of_lt h⟩ := by
  rw [blockOf, dif_pos h]

theorem blockOf_indirect (t : St) (hi : ind t ≠ 0) {bn : Nat} (hbn : NDIRECT ≤ bn) (hlt : bn < MAXFILE) :
    blockOf t bn = load32 t.disk (blockAddr (ind t) + 4 * (bn - NDIRECT)) := by
  have hk : bn - NDIRECT < NINDIRECT := by
    simp only [MAXFILE] at hlt
    omega
  rw [blockOf, dif_neg (by omega), if_pos ⟨hk, hi⟩]

theorem blockOf_of_ind_zero (t : St) (hi : ind t = 0) {bn : Nat} (hbn : NDIRECT ≤ bn) : blockOf t bn = 0 := by
  rw [blockOf, dif_neg (by omega), if_neg fun h => h.2 hi]

theorem blockOf_of_MAXFILE_le (t : St) {bn : Nat} (h : MAXFILE ≤ bn) : blockOf t bn = 0 := by
  have hk : ¬bn - NDIRECT < NINDIRECT := by
    simp only [MAXFILE] at h
    omega
  rw [blockOf, dif_neg (by simp only [MAXFILE] at h; omega), if_neg fun h => hk h.1]

/-- The blocks `bmap bn` allocates: one for the file block when it has none,
and one for the indirect block when the file block is indirect and there is none. -/
def need (s : St) (bn : Nat) : Nat :=
  (if blockOf s bn = 0 then 1 else 0) + (if ind s = 0 ∧ NDIRECT ≤ bn then 1 else 0)

/-- What `bmap bn` leaves: the file block `bn` has a block, the other file
blocks keep theirs, the blocks of the file keep their bytes, the map stays well
formed, and `need s bn` blocks were allocated. -/
structure Bmap (s s' : St) (bn : Nat) : Prop where
  good : Good s'
  ne_zero : blockOf s' bn ≠ 0
  other : ∀ bn', bn' ≠ bn → blockOf s' bn' = blockOf s bn'
  stable : ∀ bn', blockOf s bn' ≠ 0 → blockOf s' bn' = blockOf s bn'
  bytes : ∀ bn' : Fin MAXFILE, blockOf s bn' ≠ 0 → ∀ j < BSIZE,
    s'.disk (blockAddr (blockOf s bn') + j) = s.disk (blockAddr (blockOf s bn') + j)
  ip : { s'.ip with addrs := s.ip.addrs } = s.ip
  sb : s'.sb = s.sb
  count : free s' + need s bn = free s
  indirect : ind s' = ind s ∨ (ind s = 0 ∧ NDIRECT ≤ bn)

/-- A file block that has its block: `bmap` changes nothing. -/
theorem Bmap.refl (hg : Good s) {bn : Nat} (h : blockOf s bn ≠ 0) : Bmap s s bn := by
  have hn : need s bn = 0 := by
    have hi : ¬(ind s = 0 ∧ NDIRECT ≤ bn) := fun hi => h (blockOf_of_ind_zero s hi.1 hi.2)
    rw [need, if_neg h, if_neg hi]
  exact ⟨hg, h, fun _ _ => rfl, fun _ _ => rfl, fun _ _ _ _ => rfl, rfl, rfl, by rw [hn, Nat.add_zero], .inl rfl⟩

/-- One block allocated, for the file block `bn`. -/
theorem Fill.bmap {s' : St} {bn : Nat} {hlt : bn < MAXFILE} (hf : Fill s s' (.blk ⟨bn, hlt⟩) x)
    (hn : need s bn = 1) : Bmap s s' bn := by
  have hother : ∀ bn', bn' ≠ bn → blockOf s' bn' = blockOf s bn' := by
    intro bn' hne
    by_cases hlt' : bn' < MAXFILE
    · exact hf.other (.blk ⟨bn', hlt'⟩) fun h => hne (congrArg Fin.val (Slot.blk.inj h))
    · rw [blockOf_of_MAXFILE_le s' (by omega), blockOf_of_MAXFILE_le s (by omega)]
  have hval : blockOf s' bn = x := hf.val
  have hstable : ∀ bn', blockOf s bn' ≠ 0 → blockOf s' bn' = blockOf s bn' := fun bn' h =>
    hother bn' fun he => h (he ▸ hf.was_zero)
  refine ⟨hf.good, by rw [hval]; exact hf.ne_zero, hother, hstable, hf.bytes, hf.ip, hf.sb,
    by rw [hn]; exact hf.count,
    .inl (hf.other .indirect Slot.noConfusion)⟩

/-- Two blocks allocated: the indirect block, then the file block `bn`. -/
theorem Fill.bmap_two {s₂ s₃ : St} {x₁ x₂ : UInt32} {bn : Nat} {hlt : bn < MAXFILE}
    (hf₁ : Fill s s₂ .indirect x₁) (hf₂ : Fill s₂ s₃ (.blk ⟨bn, hlt⟩) x₂) (hbn : NDIRECT ≤ bn) : Bmap s s₃ bn := by
  have hind : ind s = 0 := hf₁.was_zero
  have h₁ : ∀ bn' : Fin MAXFILE, blockOf s₂ bn' = blockOf s bn' := fun bn' =>
    hf₁.other (.blk bn') Slot.noConfusion
  have hother : ∀ bn', bn' ≠ bn → blockOf s₃ bn' = blockOf s bn' := by
    intro bn' hne
    by_cases hlt' : bn' < MAXFILE
    · rw [← h₁ ⟨bn', hlt'⟩]
      exact hf₂.other (.blk ⟨bn', hlt'⟩) fun h => hne (congrArg Fin.val (Slot.blk.inj h))
    · rw [blockOf_of_MAXFILE_le s₃ (by omega), blockOf_of_MAXFILE_le s (by omega)]
  have hbytes : ∀ bn' : Fin MAXFILE, blockOf s bn' ≠ 0 → ∀ j < BSIZE,
      s₃.disk (blockAddr (blockOf s bn') + j) = s.disk (blockAddr (blockOf s bn') + j) := by
    intro bn' hbn' j hj
    have h₂ := hf₂.bytes bn' (by rw [h₁]; exact hbn') j hj
    rw [h₁] at h₂
    rw [h₂, hf₁.bytes bn' hbn' j hj]
  have hip : { s₃.ip with addrs := s.ip.addrs } = s.ip := ip_trans hf₁.ip hf₂.ip
  have hn : need s bn = 2 := by
    rw [need, if_pos (blockOf_of_ind_zero s hind hbn), if_pos ⟨hind, hbn⟩]
  have hval : blockOf s₃ bn = x₂ := hf₂.val
  have hstable : ∀ bn', blockOf s bn' ≠ 0 → blockOf s₃ bn' = blockOf s bn' := fun bn' h =>
    hother bn' fun he => h (he ▸ blockOf_of_ind_zero s hind hbn)
  refine ⟨hf₂.good, by rw [hval]; exact hf₂.ne_zero, hother, hstable, hbytes, hip, hf₂.sb.trans hf₁.sb, ?_,
    .inr ⟨hind, hbn⟩⟩
  have := hf₁.count
  have := hf₂.count
  omega

/-- `bmap bn` of a file block that has its block: it finds it and changes nothing. -/
theorem bmap_of_ne_zero {bn : Nat} (hlt : bn < MAXFILE) (h : blockOf s bn ≠ 0) :
    Runs (bmap bn) s (blockOf s bn) s := by
  by_cases hd : bn < NDIRECT
  · rw [bmap, dif_pos hd, blockOf_direct s hd]
    rw [blockOf_direct s hd] at h
    exact allocAddr_of_ne_zero h
  · have hbn : NDIRECT ≤ bn := by omega
    have hk : bn - NDIRECT < NINDIRECT := by
      simp only [MAXFILE] at hlt
      omega
    have hi : ind s ≠ 0 := fun hi => h (blockOf_of_ind_zero s hi hbn)
    have hload := blockOf_indirect s hi hbn hlt
    rw [bmap, dif_neg hd, if_pos hk, hload]
    rw [hload] at h
    exact runs_bind _ _ _ _ _ |>.mpr ⟨ind s, s, allocAddr_of_ne_zero hi, allocEntry_of_ne_zero h⟩

/-- `bmap bn` of a file block below `MAXFILE`, with the blocks it needs free. -/
theorem bmap_spec (hg : Good s) {bn : Nat} (hlt : bn < MAXFILE) (hf : need s bn ≤ free s) :
    ∃ s', Runs (bmap bn) s (blockOf s' bn) s' ∧ Bmap s s' bn := by
  by_cases hz : blockOf s bn = 0
  swap
  · exact ⟨s, bmap_of_ne_zero hlt hz, Bmap.refl hg hz⟩
  by_cases hd : bn < NDIRECT
  · -- a direct block
    have h0 : s.ip.addrs ⟨bn, Nat.lt_succ_of_lt hd⟩ = 0 := by rwa [blockOf_direct s hd] at hz
    have hn : need s bn = 1 := by rw [need, if_pos hz, if_neg (by omega)]
    obtain ⟨x, s₁, hr, hb⟩ := balloc_spec hg (by omega)
    have hfill := fill_direct hg hd h0 hb
    refine ⟨_, ?_, hfill.bmap hn⟩
    rw [show blockOf _ bn = x from hfill.val, bmap, dif_pos hd]
    exact allocAddr_of_zero h0 hr
  · -- an indirect block: first the indirect block, then its entry
    have hbn : NDIRECT ≤ bn := by omega
    have hk : bn - NDIRECT < NINDIRECT := by
      simp only [MAXFILE] at hlt
      omega
    have hrun : bmap bn =
        allocAddr ⟨NDIRECT, Nat.lt_succ_self _⟩ >>= fun ind => allocEntry ind (bn - NDIRECT) := by
      rw [bmap, dif_neg hd, if_pos hk]
    rw [hrun]
    by_cases hi : ind s = 0
    · -- no indirect block yet: two blocks
      have hn : need s bn = 2 := by rw [need, if_pos hz, if_pos ⟨hi, hbn⟩]
      obtain ⟨x₁, s₁, hr₁, hb₁⟩ := balloc_spec hg (by omega)
      have hf₁ := fill_indirect hg hi hb₁
      have hi₂ : ind { s₁ with ip := { s₁.ip with addrs := Function.update s₁.ip.addrs ⟨NDIRECT, Nat.lt_succ_self _⟩ x₁ } } = x₁ :=
        hf₁.val
      have hz₂ : blockOf { s₁ with ip := { s₁.ip with addrs := Function.update s₁.ip.addrs ⟨NDIRECT, Nat.lt_succ_self _⟩ x₁ } } bn = 0 :=
        (hf₁.other (.blk ⟨bn, hlt⟩) Slot.noConfusion).trans hz
      obtain ⟨x₂, s₂, hr₂, hb₂⟩ := balloc_spec hf₁.good (by
        have := hf₁.count
        omega)
      have hf₂ := fill_entry hf₁.good (by rw [hi₂]; exact hf₁.ne_zero) hbn hlt hz₂ hb₂
      rw [hi₂] at hf₂
      refine ⟨_, ?_, hf₁.bmap_two hf₂ hbn⟩
      rw [show blockOf _ bn = x₂ from hf₂.val]
      refine runs_bind _ _ _ _ _ |>.mpr ⟨x₁, _, allocAddr_of_zero hi hr₁, allocEntry_of_zero ?_ hr₂⟩
      rw [← hz₂, blockOf_indirect _ (by rw [hi₂]; exact hf₁.ne_zero) hbn hlt, hi₂]
    · -- the indirect block is there: one block, for the entry
      have hn : need s bn = 1 := by rw [need, if_pos hz, if_neg fun h => hi h.1]
      have hload := blockOf_indirect s hi hbn hlt
      obtain ⟨x, s₁, hr, hb⟩ := balloc_spec hg (by omega)
      have hfill := fill_entry hg hi hbn hlt hz hb
      refine ⟨_, ?_, hfill.bmap hn⟩
      rw [show blockOf _ bn = x from hfill.val]
      exact runs_bind _ _ _ _ _ |>.mpr
        ⟨ind s, s, allocAddr_of_ne_zero hi, allocEntry_of_zero (by rw [← hload]; exact hz) hr⟩

end Bmap

end Xv6.Blocks
