/-
`deallocuvm`, page by page.

`deallocuvm(pgdir, oldsz, newsz)` walks the pages from `PGROUNDUP(newsz)` below
`oldsz`. On a page with no page table it jumps to the next directory entry; on
a page whose entry is present it `kfree`s the page and clears the entry.

`mappings` lists what a directory maps over a run of pages: for each page below
`oldsz` whose entry is present, the entry's address and the physical page. The
loop refines the fold of `unmap` over that list, computed from the memory
before the call (`deallocuvmLoop_run`), and that fold is `kfree` and `*pte = 0`
on each mapping in turn (`forM_unmap_run`).

This needs a directory whose pages are apart, which `Freeable` states: the
directory and its page tables are distinct pages of `[0, PHYSTOP)`, a mapped
page is neither of them, and each mapped page is one `kfree` takes (a page
mapped twice is freed twice). Then nothing the loop
writes is read later: `kfree` fills a mapped page, which is no table and not the
directory, and a cleared entry is the entry of a page already passed. Without
it the code panics or corrupts the tables: a present entry that maps page 0
ends in `panic("kfree")` (`deallocuvm_frame_zero`).

Termination needs no such assumption. The loop's fuel is one round per page; a
round moves `a` by at least a page, and below `oldsz <= KERNBASE` neither the
step `a + PGSIZE` nor the jump `PGADDR(PDX(a) + 1, 0, 0)` wraps. So on every
directory `deallocuvm` returns or panics in a function it calls, and never runs
out of fuel (`deallocuvm_raises`).
-/
import Xv6.Vm.Uvm

set_option autoImplicit false

namespace Xv6.Vm

open ByteMem StateExcept

/-! ## Addresses -/

theorem toNat_PGROUNDUP_mod (sz : UInt32) : (PGROUNDUP sz).toNat % 4096 = 0 := by
  rw [PGROUNDUP, show ~~~(PGSIZE - 1) = ~~~(0xFFF : UInt32) by decide, Word32.toNat_and_not_fff]
  exact Nat.mul_mod_left _ _

/-- The page after `a`. -/
theorem toNat_add_PGSIZE {a : UInt32} (h : a.toNat < 2 ^ 31) : (a + PGSIZE).toNat = a.toNat + 4096 := by
  rw [UInt32.toNat_add]
  simp only [PGSIZE, UInt32.reduceToNat]
  omega

/-- The jump over a missing page table: the first page of the next directory
entry. Below `2^31` it does not wrap. -/
theorem toNat_skip {a : UInt32} (h : a.toNat < 2 ^ 31) :
    (PGADDR (PDX a + 1) 0 0 - PGSIZE + PGSIZE).toNat = (a.toNat / 2 ^ 22 + 1) * 2 ^ 22 := by
  rw [UInt32.sub_add_cancel]
  have hd := toNat_PDX a
  simp only [PGADDR, PDXSHIFT, PTXSHIFT, UInt32.zero_shiftLeft, UInt32.or_zero]
  rw [UInt32.toNat_shiftLeft]
  simp only [UInt32.toNat_add, hd]
  simp
  omega

theorem toNat_PTE_ADDR (x : UInt32) : (PTE_ADDR x).toNat = x.toNat / 4096 * 4096 := by
  rw [PTE_ADDR, Word32.toNat_and_not_fff]
  rfl

theorem toNat_PTE_ADDR_mod (x : UInt32) : (PTE_ADDR x).toNat % 4096 = 0 := by
  rw [toNat_PTE_ADDR]
  exact Nat.mul_mod_left _ _

@[simp] theorem V2P_P2V (a : UInt32) : V2P (P2V a) = a := by
  simpa using V2P_P2V_add a 0

/-- A physical address below `2^31` is its kernel address less `KERNBASE`. -/
theorem toNat_P2V {a : UInt32} (h : a.toNat < 2 ^ 31) : (P2V a).toNat = a.toNat + 2 ^ 31 := by
  rw [P2V, UInt32.toNat_add]
  simp only [KERNBASE, UInt32.reduceToNat]
  omega

theorem toNat_V2P {a : UInt32} (h : KERNBASE ≤ a) : (V2P a).toNat = a.toNat - 2 ^ 31 := by
  rw [V2P, UInt32.toNat_sub_of_le _ _ h]
  rfl

theorem toNat_ofNat_of_lt {n : Nat} (h : n < 2 ^ 32) : (UInt32.ofNat n).toNat = n := by
  rw [UInt32.toNat_ofNat']
  exact Nat.mod_eq_of_lt h

/-- Where the entry of `va` is in its page table `t`: the `PTX(va)`th word. -/
theorem toNat_slot {t : UInt32} (ht : t.toNat + 4096 ≤ PHYSTOP.toNat) (va : UInt32) :
    (V2P (P2V t + 4 * PTX va)).toNat = t.toNat + 4 * (va.toNat / 4096 % 1024) := by
  have hx := toNat_PTX va
  simp only [PHYSTOP, UInt32.reduceToNat] at ht
  rw [V2P_P2V_add, UInt32.toNat_add, UInt32.toNat_mul, hx]
  simp only [UInt32.reduceToNat]
  omega

theorem slot_ne_zero {t : UInt32} (ht : t.toNat + 4096 ≤ PHYSTOP.toNat) (va : UInt32) :
    P2V t + 4 * PTX va ≠ 0 := by
  intro h
  have hs := toNat_slot ht va
  rw [h, show (V2P 0).toNat = 2 ^ 31 by decide] at hs
  simp only [PHYSTOP, UInt32.reduceToNat] at ht
  omega

/-! ## What a directory maps -/

/-- The page table of `va`, a physical address, when its directory entry is
present. -/
def tableOf (m : Mem) (pgdir va : UInt32) : Option UInt32 :=
  if pdeOf m pgdir va &&& PTE_P ≠ 0 then some (PTE_ADDR (pdeOf m pgdir va)) else none

theorem pteAddr_eq (m : Mem) (pgdir va : UInt32) :
    pteAddr m pgdir va = (tableOf m pgdir va).map fun t => P2V t + 4 * PTX va := by
  unfold pteAddr tableOf
  split <;> rfl

/-- The mapping of page `va`: the address of its entry and the physical page
the entry maps, when the entry is present. -/
def mapping (m : Mem) (pgdir va : UInt32) : Option (UInt32 × UInt32) :=
  match pteAddr m pgdir va with
  | some p => if load32 m (V2P p).toNat &&& PTE_P ≠ 0 then some (p, PTE_ADDR (load32 m (V2P p).toNat)) else none
  | none => none

/-- The mappings of `k` pages from `a` on, of the pages below `oldsz`, in order. -/
def mappings (m : Mem) (pgdir oldsz : UInt32) (a : Nat) : Nat → List (UInt32 × UInt32)
  | 0 => []
  | k + 1 =>
    (if a < oldsz.toNat then (mapping m pgdir (UInt32.ofNat a)).toList else []) ++
      mappings m pgdir oldsz (a + 4096) k

/-- What `deallocuvm(pgdir, oldsz, newsz)` frees: the mappings of the pages from
`PGROUNDUP(newsz)` below `oldsz`. -/
def freed (m : Mem) (pgdir oldsz newsz : UInt32) : List (UInt32 × UInt32) :=
  mappings m pgdir oldsz (PGROUNDUP newsz).toNat ((oldsz.toNat + 4095) / 4096)

/-- A page's directory entry is the one of its 4 MB region. -/
theorem tableOf_congr {m : Mem} {pgdir va va' : UInt32} (h : PDX va = PDX va') :
    tableOf m pgdir va = tableOf m pgdir va' := by
  unfold tableOf pdeOf
  rw [h]

theorem mapping_of_tableOf {m : Mem} {pgdir va : UInt32} (h : tableOf m pgdir va = none) :
    mapping m pgdir va = none := by
  rw [mapping, pteAddr_eq, h]
  rfl

/-- A mapping is an entry of the page's table, and the page that entry maps. -/
theorem mapping_eq_some {m : Mem} {pgdir va : UInt32} {e : UInt32 × UInt32} (h : mapping m pgdir va = some e) :
    ∃ t, tableOf m pgdir va = some t ∧ e.1 = P2V t + 4 * PTX va ∧
      e.2 = PTE_ADDR (load32 m (V2P (P2V t + 4 * PTX va)).toNat) := by
  rw [mapping, pteAddr_eq] at h
  cases ht : tableOf m pgdir va with
  | none => simp [ht] at h
  | some t =>
    simp only [ht, Option.map_some] at h
    split_ifs at h
    cases h
    exact ⟨t, rfl, rfl, rfl⟩

theorem mappings_add (m : Mem) (pgdir oldsz : UInt32) (a k j : Nat) :
    mappings m pgdir oldsz a (k + j) = mappings m pgdir oldsz a k ++ mappings m pgdir oldsz (a + 4096 * k) j := by
  induction k generalizing a with
  | zero =>
    rw [Nat.zero_add, Nat.mul_zero, Nat.add_zero]
    rfl
  | succ k ih =>
    rw [Nat.add_right_comm, mappings, mappings, ih, List.append_assoc]
    congr 3
    omega

/-- No mappings over pages that have none. -/
theorem mappings_eq_nil {m : Mem} {pgdir oldsz : UInt32} {a : Nat} (j : Nat)
    (h : ∀ i < j, a + 4096 * i < oldsz.toNat → mapping m pgdir (UInt32.ofNat (a + 4096 * i)) = none) :
    mappings m pgdir oldsz a j = [] := by
  induction j generalizing a with
  | zero => rfl
  | succ j ih =>
    have hhead : (if a < oldsz.toNat then (mapping m pgdir (UInt32.ofNat a)).toList else []) = [] := by
      split_ifs with ha
      · have h0 := h 0 (Nat.zero_lt_succ j) (by omega)
        rw [Nat.mul_zero, Nat.add_zero] at h0
        rw [h0]
        rfl
      · rfl
    have hrest : ∀ i < j, a + 4096 + 4096 * i < oldsz.toNat →
        mapping m pgdir (UInt32.ofNat (a + 4096 + 4096 * i)) = none := by
      intro i hi hlt
      have hi' := h (i + 1) (by omega) (by omega)
      rwa [show a + 4096 * (i + 1) = a + 4096 + 4096 * i by omega] at hi'
    rw [mappings, hhead, ih hrest]
    rfl

/-- Past `oldsz` nothing is mapped: any count of pages that reaches `oldsz`
gives the same list. -/
theorem mappings_of_le {m : Mem} {pgdir oldsz : UInt32} {a k k' : Nat} (hk : oldsz.toNat ≤ a + 4096 * k)
    (hk' : k ≤ k') : mappings m pgdir oldsz a k' = mappings m pgdir oldsz a k := by
  obtain ⟨j, rfl⟩ := Nat.exists_eq_add_of_le hk'
  rw [mappings_add, mappings_eq_nil j fun i _ hi => absurd hi (by omega), List.append_nil]

theorem mem_mappings {m : Mem} {pgdir oldsz : UInt32} {a k : Nat} {e : UInt32 × UInt32} :
    e ∈ mappings m pgdir oldsz a k ↔
      ∃ i < k, a + 4096 * i < oldsz.toNat ∧ mapping m pgdir (UInt32.ofNat (a + 4096 * i)) = some e := by
  induction k generalizing a with
  | zero => simp [mappings]
  | succ k ih =>
    rw [mappings, List.mem_append, ih]
    constructor
    · rintro (hhead | ⟨i, hi, hlt, hmap⟩)
      · split_ifs at hhead with ha
        · exact ⟨0, Nat.zero_lt_succ k, ha, by simpa using hhead⟩
        · simp at hhead
      · refine ⟨i + 1, by omega, by omega, ?_⟩
        rwa [show a + 4096 * (i + 1) = a + 4096 + 4096 * i by omega]
    · rintro ⟨i, hi, hlt, hmap⟩
      cases i with
      | zero =>
        left
        rw [if_pos (by simpa using hlt)]
        simpa using hmap
      | succ i =>
        right
        refine ⟨i, by omega, by omega, ?_⟩
        rwa [show a + 4096 + 4096 * i = a + 4096 * (i + 1) by omega]

theorem mappings_succ (m : Mem) (pgdir oldsz : UInt32) (a k : Nat) :
    mappings m pgdir oldsz a (k + 1) = mappings m pgdir oldsz a k ++
      (if a + 4096 * k < oldsz.toNat then (mapping m pgdir (UInt32.ofNat (a + 4096 * k))).toList else []) := by
  rw [mappings_add, mappings, mappings, List.append_nil]

/-- Any count of pages from `PGROUNDUP(newsz)` that reaches `oldsz` gives `freed`. -/
theorem freed_eq_mappings {m : Mem} {pgdir oldsz newsz : UInt32} {k : Nat}
    (hk : oldsz.toNat ≤ (PGROUNDUP newsz).toNat + 4096 * k) :
    freed m pgdir oldsz newsz = mappings m pgdir oldsz (PGROUNDUP newsz).toNat k := by
  have hN : oldsz.toNat ≤ (PGROUNDUP newsz).toNat + 4096 * ((oldsz.toNat + 4095) / 4096) := by omega
  rcases Nat.le_total k ((oldsz.toNat + 4095) / 4096) with h | h
  · exact mappings_of_le hk h
  · exact (mappings_of_le hN h).symm

theorem mem_freed_of_mem_mappings {m : Mem} {pgdir oldsz newsz : UInt32} {k : Nat}
    (hk : k ≤ (oldsz.toNat + 4095) / 4096) {e : UInt32 × UInt32}
    (he : e ∈ mappings m pgdir oldsz (PGROUNDUP newsz).toNat k) : e ∈ freed m pgdir oldsz newsz := by
  obtain ⟨j, hj⟩ := Nat.exists_eq_add_of_le hk
  rw [freed, hj, mappings_add]
  exact List.mem_append_left _ he

/-- The mappings `freed` lists: those of the pages from `PGROUNDUP(newsz)` below
`oldsz`. -/
theorem mem_freed {m : Mem} {pgdir oldsz newsz : UInt32} (hold : oldsz ≤ KERNBASE) {e : UInt32 × UInt32} :
    e ∈ freed m pgdir oldsz newsz ↔
      ∃ va : UInt32, va.toNat % 4096 = 0 ∧ PGROUNDUP newsz ≤ va ∧ va < oldsz ∧ mapping m pgdir va = some e := by
  have hold' : oldsz.toNat ≤ 2 ^ 31 := UInt32.le_iff_toNat_le.mp hold
  have hlo := toNat_PGROUNDUP_mod newsz
  rw [freed, mem_mappings]
  constructor
  · rintro ⟨i, -, hlt, hmap⟩
    have hva := toNat_ofNat_of_lt (n := (PGROUNDUP newsz).toNat + 4096 * i) (by omega)
    refine ⟨_, ?_, ?_, ?_, hmap⟩
    · rw [hva]
      omega
    · rw [UInt32.le_iff_toNat_le, hva]
      omega
    · rw [UInt32.lt_iff_toNat_lt, hva]
      exact hlt
  · rintro ⟨va, hal, hge, hlt, hmap⟩
    have hge' := UInt32.le_iff_toNat_le.mp hge
    have hlt' := UInt32.lt_iff_toNat_lt.mp hlt
    have hva : (PGROUNDUP newsz).toNat + 4096 * ((va.toNat - (PGROUNDUP newsz).toNat) / 4096) = va.toNat := by
      omega
    refine ⟨(va.toNat - (PGROUNDUP newsz).toNat) / 4096, by omega, by omega, ?_⟩
    rwa [hva, UInt32.ofNat_toNat]

theorem tableOf_aligned {m : Mem} {pgdir va t : UInt32} (h : tableOf m pgdir va = some t) :
    t.toNat % 4096 = 0 := by
  unfold tableOf at h
  split_ifs at h
  cases h
  exact toNat_PTE_ADDR_mod _

/-! ## Freeing a mapping -/

/-- The machine after `kfree(P2V(pa))` and `*pte = 0` for the mapping `(pte, pa)`:
the page filled with 1s and pushed on the free list, the entry 0. -/
def unmap (m : Machine) (e : UInt32 × UInt32) : Machine where
  mem := store32 (store32 (ByteMem.memset m.mem e.2.toNat 4096 1) e.2.toNat m.freelist) (V2P e.1).toNat 0
  freelist := P2V e.2
  kend := m.kend

/-- `unmap` of each mapping of a list, in order. -/
def unmapAll (m : Machine) (l : List (UInt32 × UInt32)) : Machine := l.foldl unmap m

@[simp] theorem unmapAll_nil (m : Machine) : unmapAll m [] = m := rfl

theorem unmapAll_append (m : Machine) (l₁ l₂ : List (UInt32 × UInt32)) :
    unmapAll m (l₁ ++ l₂) = unmapAll (unmapAll m l₁) l₂ :=
  List.foldl_append

@[simp] theorem unmapAll_kend (m : Machine) (l : List (UInt32 × UInt32)) : (unmapAll m l).kend = m.kend := by
  induction l generalizing m with
  | nil => rfl
  | cons e l ih => exact ih (unmap m e)

theorem store_run (m : Machine) {p : UInt32} (hp : p ≠ 0) (v : UInt32) :
    (store p v).run m = .ok ((), { m with mem := store32 m.mem (V2P p).toNat v }) := by
  rw [store, if_neg hp]
  rfl

/-- `kfree` of a page it takes. -/
theorem kfree_run (m : Machine) {pa : UInt32} (hpa : pa.toNat % 4096 = 0) (hlt : pa < PHYSTOP)
    (hend : m.kend ≤ P2V pa) :
    (kfree (P2V pa)).run m = .ok ((), { m with
      mem := store32 (ByteMem.memset m.mem pa.toNat 4096 1) pa.toNat m.freelist, freelist := P2V pa }) := by
  have hpa' : pa.toNat < 2 ^ 31 := by
    have := UInt32.lt_iff_toNat_lt.mp hlt
    simp only [PHYSTOP, UInt32.reduceToNat] at this
    omega
  have hv := toNat_P2V hpa'
  have hcheck : ¬((P2V pa).toNat % PGSIZE.toNat ≠ 0 ∨ P2V pa < m.kend ∨ V2P (P2V pa) ≥ PHYSTOP) := by
    refine not_or.mpr ⟨?_, not_or.mpr ⟨UInt32.not_lt.mpr hend, ?_⟩⟩
    · simp only [PGSIZE, UInt32.reduceToNat, hv, not_not]
      omega
    · rw [V2P_P2V]
      exact UInt32.not_le.mpr hlt
  have hne : P2V pa ≠ 0 := fun h => by simp [h] at hv
  unfold kfree
  -- the checks pass
  rw [StateT.run_bind, StateT.run_get, pure_bind]
  dsimp only
  rw [if_neg hcheck, StateT.run_bind]
  -- the junk, then `r->next = kmem.freelist; kmem.freelist = r;`
  unfold memset
  rw [StateT.run_modify, pure_bind, StateT.run_bind, StateT.run_get, pure_bind, StateT.run_bind,
    store_run _ hne, ok_bind, StateT.run_modify, V2P_P2V]
  rfl

/-- `kfree(P2V(pa))` and then `*pte = 0`, for each mapping of a list, is `unmapAll`. -/
theorem forM_unmap_run (m : Machine) (l : List (UInt32 × UInt32))
    (hl : ∀ e ∈ l, e.1 ≠ 0 ∧ e.2.toNat % 4096 = 0 ∧ e.2 < PHYSTOP ∧ m.kend ≤ P2V e.2) :
    (forM l fun (e : UInt32 × UInt32) => do kfree (P2V e.2); store e.1 0).run m = .ok ((), unmapAll m l) := by
  induction l generalizing m with
  | nil => rfl
  | cons e l ih =>
    obtain ⟨h1, hal, hlt, hend⟩ := hl e List.mem_cons_self
    have hrest : ∀ e' ∈ l, e'.1 ≠ 0 ∧ e'.2.toNat % 4096 = 0 ∧ e'.2 < PHYSTOP ∧ (unmap m e).kend ≤ P2V e'.2 :=
      fun e' he' => hl e' (List.mem_cons_of_mem e he')
    rw [List.forM_cons, StateT.run_bind, StateT.run_bind, kfree_run m hal hlt hend, ok_bind,
      store_run _ h1, ok_bind]
    exact ih (unmap m e) hrest

theorem load_run (m : Machine) {p : UInt32} (hp : p ≠ 0) :
    (load p).run m = .ok (load32 m.mem (V2P p).toNat, m) := by
  rw [load, if_neg hp]
  rfl

/-! ## One round of the loop -/

theorem deallocuvmLoop_done {pgdir oldsz a : UInt32} (m : Machine) (fuel : Nat) (ha : ¬a < oldsz) :
    (deallocuvmLoop pgdir oldsz fuel a).run m = .ok ((), m) := by
  cases fuel <;> rw [deallocuvmLoop, if_neg ha] <;> rfl

/-- A page with no page table: on to the next directory entry. -/
theorem deallocuvmLoop_skip {pgdir oldsz a : UInt32} (m : Machine) (fuel : Nat) (ha : a < oldsz)
    (hp : pgdir + 4 * PDX a ≠ 0) (ht : tableOf m.mem pgdir a = none) :
    (deallocuvmLoop pgdir oldsz (fuel + 1) a).run m =
      (deallocuvmLoop pgdir oldsz fuel (PGADDR (PDX a + 1) 0 0 - PGSIZE + PGSIZE)).run m := by
  have hw := walkpgdir_run m hp
  rw [pteAddr_eq, ht, Option.map_none, Option.getD_none] at hw
  rw [deallocuvmLoop, if_pos ha, StateT.run_bind, hw, ok_bind]
  exact congrArg (fun x => StateT.run x m) (if_pos rfl)

/-- A page with a page table: its mapping, if it has one, is freed, and on to
the next page. -/
theorem deallocuvmLoop_page {pgdir oldsz a t : UInt32} (m : Machine) (fuel : Nat) (ha : a < oldsz)
    (hp : pgdir + 4 * PDX a ≠ 0) (ht : tableOf m.mem pgdir a = some t) (hpte : P2V t + 4 * PTX a ≠ 0)
    (hfr : ∀ e ∈ mapping m.mem pgdir a, e.2 ≠ 0 ∧ e.2 < PHYSTOP ∧ m.kend ≤ P2V e.2) :
    (deallocuvmLoop pgdir oldsz (fuel + 1) a).run m =
      (deallocuvmLoop pgdir oldsz fuel (a + PGSIZE)).run (unmapAll m (mapping m.mem pgdir a).toList) := by
  have hw := walkpgdir_run m hp
  rw [pteAddr_eq, ht, Option.map_some, Option.getD_some] at hw
  rw [deallocuvmLoop, if_pos ha, StateT.run_bind, hw, ok_bind]
  dsimp only
  rw [if_neg hpte, StateT.run_bind, load_run m hpte, ok_bind]
  dsimp only
  have hmap : mapping m.mem pgdir a = if load32 m.mem (V2P (P2V t + 4 * PTX a)).toNat &&& PTE_P ≠ 0 then
      some (P2V t + 4 * PTX a, PTE_ADDR (load32 m.mem (V2P (P2V t + 4 * PTX a)).toNat)) else none := by
    rw [mapping, pteAddr_eq, ht]
    rfl
  by_cases he : load32 m.mem (V2P (P2V t + 4 * PTX a)).toNat &&& PTE_P ≠ 0
  · -- a present entry: `kfree` its page, then clear it
    rw [if_pos he] at hmap
    obtain ⟨hpa0, hlt, hend⟩ := hfr _ hmap
    rw [if_pos he, if_neg hpa0, StateT.run_bind, kfree_run m (toNat_PTE_ADDR_mod _) hlt hend, ok_bind,
      StateT.run_bind, store_run _ hpte, ok_bind, hmap]
    rfl
  · rw [if_neg he] at hmap
    rw [if_neg he, hmap]
    rfl

/-! ## What the loop can stop with -/

/-- The panics of the functions `deallocuvm` calls. -/
def deallocuvmPanics : List String := ["null pointer dereference", "kfree"]

theorem load_raises (p : UInt32) : Raises (load p) deallocuvmPanics := by
  unfold load
  split
  · exact Raises.of_throw (by simp [deallocuvmPanics])
  · exact Raises.of_get.bind fun _ => Raises.of_pure _

theorem store_raises (p v : UInt32) : Raises (store p v) deallocuvmPanics := by
  unfold store
  split
  · exact Raises.of_throw (by simp [deallocuvmPanics])
  · exact Raises.of_modify _

theorem kalloc_raises : Raises kalloc deallocuvmPanics := by
  unfold kalloc
  refine Raises.of_get.bind fun _ => ?_
  dsimp only
  split
  · exact (load_raises _).bind fun _ => (Raises.of_modify _).bind fun _ => Raises.of_pure _
  · exact Raises.of_pure _

theorem walkpgdir_raises (pgdir va : UInt32) (alloc : Bool) :
    Raises (walkpgdir pgdir va alloc) deallocuvmPanics := by
  unfold walkpgdir
  refine (load_raises _).bind fun _ => ?_
  split
  · exact Raises.of_pure _
  · split
    · exact Raises.of_pure _
    · refine kalloc_raises.bind fun _ => ?_
      split
      · exact Raises.of_pure _
      · exact (Raises.of_modify _).bind fun _ => (store_raises _ _).bind fun _ => Raises.of_pure _

theorem kfree_raises (v : UInt32) : Raises (kfree v) deallocuvmPanics := by
  unfold kfree
  refine Raises.of_get.bind fun _ => ?_
  dsimp only
  split
  · exact Raises.of_throw (by simp [deallocuvmPanics])
  · exact (Raises.of_modify _).bind fun _ => Raises.of_get.bind fun _ =>
      (store_raises _ _).bind fun _ => Raises.of_modify _

/-- With a round of fuel for each page left below `oldsz <= KERNBASE`, from a
page boundary, the loop stops only at a panic of a function it calls: a round
moves `a` on by a page, or to the next directory entry, and neither wraps. -/
theorem deallocuvmLoop_raises {pgdir oldsz : UInt32} (hold : oldsz ≤ KERNBASE) :
    ∀ fuel (a : UInt32), a.toNat % 4096 = 0 → oldsz.toNat ≤ a.toNat + 4096 * fuel →
      Raises (deallocuvmLoop pgdir oldsz fuel a) deallocuvmPanics := by
  have hold' : oldsz.toNat ≤ 2 ^ 31 := UInt32.le_iff_toNat_le.mp hold
  intro fuel
  induction fuel with
  | zero =>
    intro a _ hfuel
    -- out of fuel only past `oldsz`
    have ha : ¬a < oldsz := UInt32.not_lt.mpr (UInt32.le_iff_toNat_le.mpr (by omega))
    rw [deallocuvmLoop, if_neg ha]
    exact Raises.of_pure _
  | succ fuel ih =>
    intro a hal hfuel
    rw [deallocuvmLoop]
    split
    swap
    · exact Raises.of_pure _
    rename_i ha
    have hlt : a.toNat < 2 ^ 31 := by have := UInt32.lt_iff_toNat_lt.mp ha; omega
    refine (walkpgdir_raises _ _ _).bind fun pte => ?_
    split
    · -- no page table: on to the next directory entry, at least a page on
      have hb := toNat_skip hlt
      exact ih _ (by rw [hb]; omega) (by rw [hb]; omega)
    · have hnext := toNat_add_PGSIZE hlt
      refine (load_raises _).bind fun e => ?_
      have hrest := ih _ (by rw [hnext]; omega) (by rw [hnext]; omega)
      split
      · -- a present entry: `kfree` its page, clear it, and on to the next page
        dsimp only
        split
        · exact Raises.bind (Raises.of_throw (by simp [deallocuvmPanics])) fun _ =>
            (kfree_raises _).bind fun _ => (store_raises _ _).bind fun _ => hrest
        · exact (kfree_raises _).bind fun _ => (store_raises _ _).bind fun _ => hrest
      · exact hrest

/-- `deallocuvm` never runs out of fuel: on every directory, with
`oldsz <= KERNBASE`, it returns or stops at a panic of a function it calls. -/
theorem deallocuvm_raises (pgdir : UInt32) {oldsz : UInt32} (hold : oldsz ≤ KERNBASE) (newsz : UInt32) :
    Raises (deallocuvm pgdir oldsz newsz) deallocuvmPanics := by
  unfold deallocuvm
  split
  · exact Raises.of_pure _
  · refine Raises.bind (deallocuvmLoop_raises hold _ _ (toNat_PGROUNDUP_mod newsz) ?_) fun _ =>
      Raises.of_pure _
    -- a round for each page from `PGROUNDUP(newsz)` below `oldsz`
    rcases UInt32.le_total (PGROUNDUP newsz) oldsz with h | h
    · have := UInt32.le_iff_toNat_le.mp h
      rw [UInt32.toNat_sub_of_le _ _ h]
      simp only [PGSIZE, UInt32.reduceToNat]
      omega
    · have := UInt32.le_iff_toNat_le.mp h
      omega

/-! ## What `unmap` writes -/

/-- Byte `x` is neither in the page nor in the entry that `unmap` of `e` writes. -/
def Outside (e : UInt32 × UInt32) (x : Nat) : Prop :=
  (x < e.2.toNat ∨ e.2.toNat + 4096 ≤ x) ∧ (x < (V2P e.1).toNat ∨ (V2P e.1).toNat + 4 ≤ x)

theorem unmap_mem {e : UInt32 × UInt32} (m : Machine) {x : Nat} (hx : Outside e x) :
    (unmap m e).mem x = m.mem x := by
  obtain ⟨hpage, hent⟩ := hx
  simp only [unmap]
  rw [store32_of_not_mem _ hent, store32_of_not_mem _ (by omega), memset_of_not_mem _ hpage]

theorem unmapAll_mem {l : List (UInt32 × UInt32)} (m : Machine) {x : Nat} (hx : ∀ e ∈ l, Outside e x) :
    (unmapAll m l).mem x = m.mem x := by
  induction l generalizing m with
  | nil => rfl
  | cons e l ih =>
    have hrest : ∀ e' ∈ l, Outside e' x := fun e' he' => hx e' (List.mem_cons_of_mem e he')
    calc (unmapAll m (e :: l)).mem x = (unmapAll (unmap m e) l).mem x := rfl
      _ = (unmap m e).mem x := ih (unmap m e) hrest
      _ = m.mem x := unmap_mem m (hx e List.mem_cons_self)

theorem load32_unmapAll {l : List (UInt32 × UInt32)} (m : Machine) {b : Nat}
    (hb : ∀ e ∈ l, ∀ i < 4, Outside e (b + i)) : load32 (unmapAll m l).mem b = load32 m.mem b :=
  load32_congr fun i hi => unmapAll_mem m fun e he => hb e he i hi

/-! ## Directories that can be freed -/

/-- A page directory that `deallocuvm(pgdir, oldsz, newsz)` can free: the
directory, its page tables and the pages mapped from `PGROUNDUP(newsz)` below
`oldsz` are distinct pages below `PHYSTOP`, and `kfree` takes each mapped page.
`setupkvm`, `allocuvm` and `copyuvm` build such directories from `kalloc`'s
pages. -/
structure Freeable (m : Machine) (pgdir oldsz newsz : UInt32) : Prop where
  /-- The directory is a page below `PHYSTOP`, at its kernel address. -/
  dir : pgdir.toNat % 4096 = 0 ∧ KERNBASE ≤ pgdir ∧ (V2P pgdir).toNat + 4096 ≤ PHYSTOP.toNat
  /-- A page table is a page below `PHYSTOP` other than the directory. -/
  table : ∀ va t, tableOf m.mem pgdir va = some t → t.toNat + 4096 ≤ PHYSTOP.toNat ∧ t ≠ V2P pgdir
  /-- Distinct directory entries have distinct page tables. -/
  table_inj : ∀ va va' t, tableOf m.mem pgdir va = some t → tableOf m.mem pgdir va' = some t → PDX va = PDX va'
  /-- `kfree` takes each page mapped in the range. -/
  frame : ∀ e ∈ freed m.mem pgdir oldsz newsz, e.2 ≠ 0 ∧ e.2 < PHYSTOP ∧ m.kend ≤ P2V e.2
  /-- A page mapped in the range is neither the directory nor a page table. -/
  frame_apart : ∀ e ∈ freed m.mem pgdir oldsz newsz, e.2 ≠ V2P pgdir ∧ ∀ va, tableOf m.mem pgdir va ≠ some e.2

/-- A freed mapping is an entry of some page's table. -/
theorem entry_of_mem_freed {m : Mem} {pgdir oldsz newsz : UInt32} {e : UInt32 × UInt32}
    (he : e ∈ freed m pgdir oldsz newsz) :
    ∃ va t, tableOf m pgdir va = some t ∧ e.1 = P2V t + 4 * PTX va ∧ e.2.toNat % 4096 = 0 := by
  obtain ⟨i, -, -, hmap⟩ := mem_mappings.mp he
  obtain ⟨t, ht, h1, h2⟩ := mapping_eq_some hmap
  exact ⟨_, t, ht, h1, h2 ▸ toNat_PTE_ADDR_mod _⟩

namespace Freeable

variable {m : Machine} {pgdir oldsz newsz : UInt32}

theorem toNat_V2P_dir (hf : Freeable m pgdir oldsz newsz) :
    (V2P pgdir).toNat = pgdir.toNat - 2 ^ 31 ∧ (V2P pgdir).toNat % 4096 = 0 := by
  obtain ⟨hal, hk, -⟩ := hf.dir
  have hk' : 2 ^ 31 ≤ pgdir.toNat := UInt32.le_iff_toNat_le.mp hk
  rw [toNat_V2P hk]
  exact ⟨rfl, by omega⟩

/-- Where the directory entry of `va` is: the `PDX(va)`th word of the directory. -/
theorem toNat_pde (hf : Freeable m pgdir oldsz newsz) (va : UInt32) :
    (V2P (pgdir + 4 * PDX va)).toNat = (V2P pgdir).toNat + 4 * (va.toNat / 2 ^ 22) ∧
      pgdir + 4 * PDX va ≠ 0 := by
  obtain ⟨-, hk, hlt⟩ := hf.dir
  obtain ⟨hv, -⟩ := hf.toNat_V2P_dir
  have hk' : 2 ^ 31 ≤ pgdir.toNat := UInt32.le_iff_toNat_le.mp hk
  have hd := toNat_PDX va
  have hva := va.toNat_lt
  simp only [PHYSTOP, UInt32.reduceToNat] at hlt
  have hsum : (pgdir + 4 * PDX va).toNat = pgdir.toNat + 4 * (va.toNat / 2 ^ 22) := by
    simp only [UInt32.toNat_add, UInt32.toNat_mul, UInt32.reduceToNat, hd]
    omega
  have hge : KERNBASE ≤ pgdir + 4 * PDX va := by
    rw [UInt32.le_iff_toNat_le, hsum]
    simp only [KERNBASE, UInt32.reduceToNat]
    omega
  refine ⟨by rw [toNat_V2P hge, hsum]; omega, fun h => ?_⟩
  rw [h] at hsum
  simp only [UInt32.reduceToNat] at hsum
  omega

/-- `unmap` of a freed mapping leaves every directory entry. -/
theorem outside_pde (hf : Freeable m pgdir oldsz newsz) {e : UInt32 × UInt32}
    (he : e ∈ freed m.mem pgdir oldsz newsz) (va : UInt32) :
    ∀ i < 4, Outside e ((V2P (pgdir + 4 * PDX va)).toNat + i) := by
  intro i hi
  obtain ⟨hpde, -⟩ := hf.toNat_pde va
  obtain ⟨-, hdal⟩ := hf.toNat_V2P_dir
  obtain ⟨va', t, ht, h1, hal⟩ := entry_of_mem_freed he
  obtain ⟨htlt, htne⟩ := hf.table va' t ht
  have htal := tableOf_aligned ht
  have hslot := toNat_slot htlt va'
  rw [← h1] at hslot
  -- the directory is apart from the page and from the table holding the entry
  have hfne : e.2.toNat ≠ (V2P pgdir).toNat := fun h => (hf.frame_apart e he).1 (UInt32.toNat_inj.mp h)
  have htne' : t.toNat ≠ (V2P pgdir).toNat := fun h => htne (UInt32.toNat_inj.mp h)
  have hpdx : va.toNat / 2 ^ 22 < 1024 := by have := va.toNat_lt; omega
  constructor <;> omega

/-- `unmap` of a freed mapping leaves the entry of `va` when it is another one. -/
theorem outside_slot (hf : Freeable m pgdir oldsz newsz) {e : UInt32 × UInt32}
    (he : e ∈ freed m.mem pgdir oldsz newsz) {va t : UInt32} (ht : tableOf m.mem pgdir va = some t)
    (hne : e.1 ≠ P2V t + 4 * PTX va) :
    ∀ i < 4, Outside e ((V2P (P2V t + 4 * PTX va)).toNat + i) := by
  intro i hi
  obtain ⟨va', t', ht', h1, hal⟩ := entry_of_mem_freed he
  have hslot := toNat_slot (hf.table va t ht).1 va
  have hslot' := toNat_slot (hf.table va' t' ht').1 va'
  rw [← h1] at hslot'
  have htal := tableOf_aligned ht
  have htal' := tableOf_aligned ht'
  -- the page is not the table of `va`, and the two entries are distinct words
  have hft : e.2.toNat ≠ t.toNat := fun h => (hf.frame_apart e he).2 va (by rw [ht, UInt32.toNat_inj.mp h])
  have hslne : (V2P e.1).toNat ≠ (V2P (P2V t + 4 * PTX va)).toNat := fun h => by
    rw [UInt32.toNat_inj, V2P, V2P, UInt32.sub_left_inj] at h
    exact hne h
  constructor <;> omega

/-- Freeing mappings of the range leaves every directory entry. -/
theorem pdeOf_unmapAll (hf : Freeable m pgdir oldsz newsz) (m' : Machine) {l : List (UInt32 × UInt32)}
    (hl : ∀ e ∈ l, e ∈ freed m.mem pgdir oldsz newsz) (va : UInt32) :
    pdeOf (unmapAll m' l).mem pgdir va = pdeOf m'.mem pgdir va :=
  load32_unmapAll m' fun e he => hf.outside_pde (hl e he) va

theorem tableOf_unmapAll (hf : Freeable m pgdir oldsz newsz) (m' : Machine) {l : List (UInt32 × UInt32)}
    (hl : ∀ e ∈ l, e ∈ freed m.mem pgdir oldsz newsz) (va : UInt32) :
    tableOf (unmapAll m' l).mem pgdir va = tableOf m'.mem pgdir va := by
  unfold tableOf
  rw [hf.pdeOf_unmapAll m' hl va]

/-- Freeing mappings of the range leaves the entry of `va` when it is none of
theirs. -/
theorem load_slot_unmapAll (hf : Freeable m pgdir oldsz newsz) (m' : Machine) {l : List (UInt32 × UInt32)}
    {va t : UInt32} (ht : tableOf m.mem pgdir va = some t)
    (hl : ∀ e ∈ l, e ∈ freed m.mem pgdir oldsz newsz ∧ e.1 ≠ P2V t + 4 * PTX va) :
    load32 (unmapAll m' l).mem (V2P (P2V t + 4 * PTX va)).toNat =
      load32 m'.mem (V2P (P2V t + 4 * PTX va)).toNat :=
  load32_unmapAll m' fun e he => hf.outside_slot (hl e he).1 ht (hl e he).2

/-- Distinct pages have distinct entries. -/
theorem slot_ne (hf : Freeable m pgdir oldsz newsz) {va va' t t' : UInt32}
    (ht : tableOf m.mem pgdir va = some t) (ht' : tableOf m.mem pgdir va' = some t')
    (hpage : va.toNat / 4096 ≠ va'.toNat / 4096) : P2V t + 4 * PTX va ≠ P2V t' + 4 * PTX va' := by
  intro h
  have hs := toNat_slot (hf.table va t ht).1 va
  have hs' := toNat_slot (hf.table va' t' ht').1 va'
  rw [h] at hs
  have htal := tableOf_aligned ht
  have htal' := tableOf_aligned ht'
  -- the same word of one table: the same directory entry, and the same page of its 4 MB
  have htt : t = t' := UInt32.toNat_inj.mp (by omega)
  have hpdx := hf.table_inj va va' t ht (htt ▸ ht')
  have hd := toNat_PDX va
  have hd' := toNat_PDX va'
  rw [hpdx] at hd
  omega

/-- Freeing mappings of the range, none of them the entry of `va`, leaves the
mapping of `va`. -/
theorem mapping_unmapAll (hf : Freeable m pgdir oldsz newsz) {l : List (UInt32 × UInt32)} {va : UInt32}
    (hl : ∀ e ∈ l, e ∈ freed m.mem pgdir oldsz newsz ∧
      ∀ t, tableOf m.mem pgdir va = some t → e.1 ≠ P2V t + 4 * PTX va) :
    mapping (unmapAll m l).mem pgdir va = mapping m.mem pgdir va := by
  have htab := hf.tableOf_unmapAll m (fun e he => (hl e he).1) va
  cases ht : tableOf m.mem pgdir va with
  | none => rw [mapping_of_tableOf (htab.trans ht), mapping_of_tableOf ht]
  | some t =>
    have hload := hf.load_slot_unmapAll m ht fun e he => ⟨(hl e he).1, (hl e he).2 t ht⟩
    rw [mapping, mapping, pteAddr_eq, pteAddr_eq, htab, ht, Option.map_some]
    dsimp only
    rw [hload]

/-- **The loop.** Started at the `k`th page of the range, on the machine that
has freed the mappings of the pages before it, with a round of fuel for each page
left, the loop frees the rest. The mappings are those of the memory before the
call: nothing the loop writes is read in a later round. -/
theorem deallocuvmLoop_run (hf : Freeable m pgdir oldsz newsz) (hold : oldsz ≤ KERNBASE) :
    ∀ fuel k (a : UInt32), a.toNat = (PGROUNDUP newsz).toNat + 4096 * k →
      oldsz.toNat ≤ a.toNat + 4096 * fuel →
      (deallocuvmLoop pgdir oldsz fuel a).run (unmapAll m (mappings m.mem pgdir oldsz (PGROUNDUP newsz).toNat k)) =
        .ok ((), unmapAll m (freed m.mem pgdir oldsz newsz)) := by
  have hold' : oldsz.toNat ≤ 2 ^ 31 := UInt32.le_iff_toNat_le.mp hold
  have hlo := toNat_PGROUNDUP_mod newsz
  intro fuel
  induction fuel with
  | zero =>
    intro k a hk hfuel
    -- out of fuel only past `oldsz`
    have ha : ¬a < oldsz := UInt32.not_lt.mpr (UInt32.le_iff_toNat_le.mpr (by omega))
    rw [deallocuvmLoop_done _ _ ha, freed_eq_mappings (k := k) (by omega)]
  | succ fuel ih =>
    intro k a hk hfuel
    by_cases ha : a < oldsz
    swap
    · rw [deallocuvmLoop_done _ _ ha, freed_eq_mappings (k := k) (by have := UInt32.le_iff_toNat_le.mp (UInt32.not_lt.mp ha); omega)]
    have ha' : a.toNat < oldsz.toNat := UInt32.lt_iff_toNat_lt.mp ha
    have hlt : a.toNat < 2 ^ 31 := by omega
    have hkN : k + 1 ≤ (oldsz.toNat + 4095) / 4096 := by omega
    -- the mappings freed so far are of the range
    have hL : ∀ e ∈ mappings m.mem pgdir oldsz (PGROUNDUP newsz).toNat k, e ∈ freed m.mem pgdir oldsz newsz :=
      fun e he => mem_freed_of_mem_mappings (by omega) he
    have hp := (hf.toNat_pde a).2
    have htab := hf.tableOf_unmapAll m hL a
    cases ht : tableOf m.mem pgdir a with
    | none =>
      -- no page table: no page up to the next directory entry is mapped
      have hb := toNat_skip hlt
      rw [deallocuvmLoop_skip _ _ ha hp (htab.trans ht)]
      obtain ⟨j, hj⟩ : ∃ j, (PGADDR (PDX a + 1) 0 0 - PGSIZE + PGSIZE).toNat = a.toNat + 4096 * j :=
        ⟨((a.toNat / 2 ^ 22 + 1) * 2 ^ 22 - a.toNat) / 4096, by rw [hb]; omega⟩
      have hsame : ∀ i < j, PDX (UInt32.ofNat (a.toNat + 4096 * i)) = PDX a := by
        intro i hi
        apply UInt32.toNat_inj.mp
        rw [toNat_PDX, toNat_PDX, toNat_ofNat_of_lt (by omega)]
        omega
      have hnil : mappings m.mem pgdir oldsz a.toNat j = [] :=
        mappings_eq_nil j fun i hi _ => mapping_of_tableOf (by rw [tableOf_congr (hsame i hi), ht])
      have hmap : mappings m.mem pgdir oldsz (PGROUNDUP newsz).toNat (k + j) =
          mappings m.mem pgdir oldsz (PGROUNDUP newsz).toNat k := by
        rw [mappings_add, ← hk, hnil, List.append_nil]
      rw [← hmap]
      exact ih (k + j) _ (by omega) (by omega)
    | some t =>
      have htlt := (hf.table a t ht).1
      -- the entries freed so far are those of earlier pages, so not `a`'s
      have hL' : ∀ e ∈ mappings m.mem pgdir oldsz (PGROUNDUP newsz).toNat k, e ∈ freed m.mem pgdir oldsz newsz ∧
          ∀ t', tableOf m.mem pgdir a = some t' → e.1 ≠ P2V t' + 4 * PTX a := by
        intro e he
        refine ⟨hL e he, fun t' ht' => ?_⟩
        obtain ⟨i, hi, -, hmap⟩ := mem_mappings.mp he
        obtain ⟨t'', ht'', h1, -⟩ := mapping_eq_some hmap
        rw [h1]
        exact hf.slot_ne ht'' ht' (by rw [toNat_ofNat_of_lt (by omega)]; omega)
      have hmap := hf.mapping_unmapAll hL'
      have hsucc : mappings m.mem pgdir oldsz (PGROUNDUP newsz).toNat (k + 1) =
          mappings m.mem pgdir oldsz (PGROUNDUP newsz).toNat k ++ (mapping m.mem pgdir a).toList := by
        rw [mappings_succ, ← hk, if_pos ha', UInt32.ofNat_toNat]
      -- the page `a` maps, if any, is one `kfree` takes
      have hfr : ∀ e ∈ mapping (unmapAll m (mappings m.mem pgdir oldsz (PGROUNDUP newsz).toNat k)).mem pgdir a,
          e.2 ≠ 0 ∧ e.2 < PHYSTOP ∧
            (unmapAll m (mappings m.mem pgdir oldsz (PGROUNDUP newsz).toNat k)).kend ≤ P2V e.2 := by
        intro e he
        rw [hmap] at he
        have hmem : e ∈ mappings m.mem pgdir oldsz (PGROUNDUP newsz).toNat (k + 1) := by
          rw [hsucc]
          exact List.mem_append_right _ (Option.mem_toList.mpr he)
        rw [unmapAll_kend]
        exact hf.frame e (mem_freed_of_mem_mappings hkN hmem)
      rw [deallocuvmLoop_page _ _ ha hp (htab.trans ht) (slot_ne_zero htlt a) hfr, hmap, ← unmapAll_append,
        ← hsucc]
      refine ih (k + 1) (a + PGSIZE) ?_ ?_
      · rw [toNat_add_PGSIZE hlt]
        omega
      · rw [toNat_add_PGSIZE hlt]
        omega

/-- Each entry is freed once: the pages of the range have distinct entries. -/
theorem slots_nodup (hf : Freeable m pgdir oldsz newsz) (hold : oldsz ≤ KERNBASE) :
    ((freed m.mem pgdir oldsz newsz).map Prod.fst).Nodup := by
  have hold' : oldsz.toNat ≤ 2 ^ 31 := UInt32.le_iff_toNat_le.mp hold
  suffices h : ∀ k a, ((mappings m.mem pgdir oldsz a k).map Prod.fst).Nodup from h _ _
  intro k
  induction k with
  | zero => intro a; exact List.nodup_nil
  | succ k ih =>
    intro a
    rw [mappings, List.map_append, List.nodup_append]
    refine ⟨?_, ih (a + 4096), ?_⟩
    · split_ifs <;> cases mapping m.mem pgdir (UInt32.ofNat a) <;> simp
    · -- the mapping of page `a` against those of the pages after it
      intro x hx y hy
      obtain ⟨e, he, rfl⟩ := List.mem_map.mp hx
      obtain ⟨e', he', rfl⟩ := List.mem_map.mp hy
      split_ifs at he with ha
      · obtain ⟨t, ht, h1, -⟩ := mapping_eq_some (Option.mem_toList.mp he)
        obtain ⟨i, -, hilt, hmap'⟩ := mem_mappings.mp he'
        obtain ⟨t', ht', h1', -⟩ := mapping_eq_some hmap'
        rw [h1, h1']
        exact hf.slot_ne ht ht' (by rw [toNat_ofNat_of_lt (by omega), toNat_ofNat_of_lt (by omega)]; omega)
      · simp at he

/-- Every freed entry is 0 afterwards: the last write to it is its own `unmap`. -/
theorem cleared (hf : Freeable m pgdir oldsz newsz) (hold : oldsz ≤ KERNBASE) {e : UInt32 × UInt32}
    (he : e ∈ freed m.mem pgdir oldsz newsz) :
    load32 (unmapAll m (freed m.mem pgdir oldsz newsz)).mem (V2P e.1).toNat = 0 := by
  obtain ⟨l₁, l₂, hsplit⟩ := List.append_of_mem he
  have hnd := hf.slots_nodup hold
  rw [hsplit, List.map_append, List.map_cons, List.nodup_append, List.nodup_cons] at hnd
  obtain ⟨va, t, ht, h1, -⟩ := entry_of_mem_freed he
  -- the mappings after `e` are of the range, and none has `e`'s entry
  have hl₂ : ∀ e' ∈ l₂, e' ∈ freed m.mem pgdir oldsz newsz ∧ e'.1 ≠ P2V t + 4 * PTX va := by
    intro e' he'
    refine ⟨by rw [hsplit]; exact List.mem_append_right _ (List.mem_cons_of_mem _ he'), fun heq => ?_⟩
    rw [← h1] at heq
    exact hnd.2.1.1 (heq ▸ List.mem_map_of_mem he')
  rw [hsplit, unmapAll_append]
  show load32 (unmapAll (unmap (unmapAll m l₁) e) l₂).mem (V2P e.1).toNat = 0
  rw [h1, hf.load_slot_unmapAll _ ht hl₂, ← h1]
  exact load32_store32_self _ _

/-- Every entry that is not a freed one is as it was. -/
theorem pteOf_unmapAll (hf : Freeable m pgdir oldsz newsz) {va : UInt32}
    (hva : ∀ e ∈ freed m.mem pgdir oldsz newsz, pteAddr m.mem pgdir va ≠ some e.1) :
    pteOf (unmapAll m (freed m.mem pgdir oldsz newsz)).mem pgdir va = pteOf m.mem pgdir va := by
  have htab := hf.tableOf_unmapAll m (fun e he => he) va
  unfold pteOf
  rw [pteAddr_eq, pteAddr_eq, htab]
  cases ht : tableOf m.mem pgdir va with
  | none => rfl
  | some t =>
    have hne : ∀ e ∈ freed m.mem pgdir oldsz newsz, e ∈ freed m.mem pgdir oldsz newsz ∧ e.1 ≠ P2V t + 4 * PTX va :=
      fun e he => ⟨he, fun h => hva e he (by rw [pteAddr_eq, ht, Option.map_some, h])⟩
    simp only [Option.map_some, hf.load_slot_unmapAll m ht hne]

/-- Each freed mapping is one `kfree(P2V(pa))` and `*pte = 0` take. -/
theorem freeable_entry (hf : Freeable m pgdir oldsz newsz) {e : UInt32 × UInt32}
    (he : e ∈ freed m.mem pgdir oldsz newsz) :
    e.1 ≠ 0 ∧ e.2.toNat % 4096 = 0 ∧ e.2 < PHYSTOP ∧ m.kend ≤ P2V e.2 := by
  obtain ⟨va, t, ht, h1, hal⟩ := entry_of_mem_freed he
  obtain ⟨-, hlt, hend⟩ := hf.frame e he
  exact ⟨h1 ▸ slot_ne_zero (hf.table va t ht).1 va, hal, hlt, hend⟩

/-- `deallocuvm` runs its loop from `PGROUNDUP(newsz)` with enough fuel, and
returns `newsz`. -/
theorem deallocuvm_run (hf : Freeable m pgdir oldsz newsz) (hold : oldsz ≤ KERNBASE) (hlt : newsz < oldsz) :
    (deallocuvm pgdir oldsz newsz).run m = .ok (newsz, unmapAll m (freed m.mem pgdir oldsz newsz)) := by
  have hfuel : oldsz.toNat ≤ (PGROUNDUP newsz).toNat +
      4096 * ((oldsz - PGROUNDUP newsz).toNat / PGSIZE.toNat + 1) := by
    rcases UInt32.le_total (PGROUNDUP newsz) oldsz with h | h
    · rw [UInt32.toNat_sub_of_le _ _ h]
      simp only [PGSIZE, UInt32.reduceToNat]
      omega
    · have := UInt32.le_iff_toNat_le.mp h
      omega
  have hloop := hf.deallocuvmLoop_run hold _ 0 (PGROUNDUP newsz) (by omega) hfuel
  rw [mappings, unmapAll_nil] at hloop
  unfold deallocuvm
  rw [if_neg (UInt32.not_le.mpr hlt), StateT.run_bind, hloop, ok_bind]
  rfl

end Freeable

/-- **`deallocuvm` frees exactly the range.** On a directory that `Freeable`
describes, with `newsz < oldsz <= KERNBASE`: the mappings `freed` lists are
those of the present entries of the pages from `PGROUNDUP(newsz)` below `oldsz`,
each entry once; `deallocuvm` returns `newsz` on the machine that
`kfree(P2V(pa))` and `*pte = 0` for each of them in turn leave; each of their
entries is 0 afterwards, and every directory entry and every other entry is as
it was. -/
theorem deallocuvm_frees (m : Machine) {pgdir oldsz newsz : UInt32} (hold : oldsz ≤ KERNBASE)
    (hlt : newsz < oldsz) (hf : Freeable m pgdir oldsz newsz) :
    (∀ e, e ∈ freed m.mem pgdir oldsz newsz ↔
      ∃ va : UInt32, va.toNat % 4096 = 0 ∧ PGROUNDUP newsz ≤ va ∧ va < oldsz ∧ mapping m.mem pgdir va = some e) ∧
    ((freed m.mem pgdir oldsz newsz).map Prod.fst).Nodup ∧
    (forM (freed m.mem pgdir oldsz newsz) fun (e : UInt32 × UInt32) => do kfree (P2V e.2); store e.1 0).run m =
      .ok ((), unmapAll m (freed m.mem pgdir oldsz newsz)) ∧
    (deallocuvm pgdir oldsz newsz).run m = .ok (newsz, unmapAll m (freed m.mem pgdir oldsz newsz)) ∧
    (∀ e ∈ freed m.mem pgdir oldsz newsz,
      load32 (unmapAll m (freed m.mem pgdir oldsz newsz)).mem (V2P e.1).toNat = 0) ∧
    (∀ va, pdeOf (unmapAll m (freed m.mem pgdir oldsz newsz)).mem pgdir va = pdeOf m.mem pgdir va) ∧
    ∀ va, (∀ e ∈ freed m.mem pgdir oldsz newsz, pteAddr m.mem pgdir va ≠ some e.1) →
      pteOf (unmapAll m (freed m.mem pgdir oldsz newsz)).mem pgdir va = pteOf m.mem pgdir va :=
  ⟨fun _ => mem_freed hold, hf.slots_nodup hold,
    forM_unmap_run m _ fun _ he => hf.freeable_entry he, hf.deallocuvm_run hold hlt,
    fun _ he => hf.cleared hold he, hf.pdeOf_unmapAll m fun _ he => he, fun _ hva => hf.pteOf_unmapAll hva⟩

/-- Two pages at 4 MB, past a directory entry with no page table: the directory
at physical `0x300000` has no table for the first 4 MB and the table at
`0x301000` for the next, which maps the pages at `0x400000` and `0x401000` to the
frames `0x302000` and `0x303000`. -/
def twoPages : Machine where
  mem := store32 (store32 (store32 (fun _ => 0) 0x300004 (0x301000 ||| 7)) 0x301000 (0x302000 ||| 7))
    0x301004 (0x303000 ||| 7)
  freelist := 0
  kend := P2V 0x200000

/-- The directory of `twoPages` has one page table, for the second 4 MB. -/
theorem tableOf_twoPages (va : UInt32) :
    tableOf twoPages.mem (P2V 0x300000) va = if va.toNat / 2 ^ 22 = 1 then some 0x301000 else none := by
  have hd := toNat_PDX va
  have hv := va.toNat_lt
  have haddr : (0x300000 + 4 * PDX va).toNat = 0x300000 + 4 * (va.toNat / 2 ^ 22) := by
    simp only [UInt32.toNat_add, UInt32.toNat_mul, UInt32.reduceToNat, hd]
    omega
  -- the table's two entries lie past the directory
  have hpde : pdeOf twoPages.mem (P2V 0x300000) va = if va.toNat / 2 ^ 22 = 1 then 0x301000 ||| 7 else 0 := by
    simp only [pdeOf, V2P_P2V_add, haddr, twoPages]
    rw [load32_store32_of_disjoint _ (by omega), load32_store32_of_disjoint _ (by omega)]
    split_ifs with h1
    · rw [h1]
      exact load32_store32_self _ _
    · rw [load32_store32_of_disjoint _ (by omega)]
      rfl
  by_cases h1 : va.toNat / 2 ^ 22 = 1
  · rw [tableOf, hpde, if_pos h1, if_pos h1]
    decide
  · rw [tableOf, hpde, if_neg h1, if_neg h1]
    decide

theorem freed_twoPages :
    freed twoPages.mem (P2V 0x300000) 0x402000 0 = [(P2V 0x301000, 0x302000), (P2V 0x301004, 0x303000)] := by
  -- the 1024 pages of the first 4 MB have no page table
  have hnil : mappings twoPages.mem (P2V 0x300000) 0x402000 0 1024 = [] := by
    refine mappings_eq_nil 1024 fun i hi _ => mapping_of_tableOf ?_
    rw [tableOf_twoPages, if_neg]
    rw [toNat_ofNat_of_lt (by omega)]
    omega
  have h0 : (PGROUNDUP (0 : UInt32)).toNat = 0 := by decide
  rw [freed, h0, show ((0x402000 : UInt32).toNat + 4095) / 4096 = 1024 + 2 from rfl, mappings_add, hnil,
    List.nil_append]
  decide

/-- `twoPages`'s directory, its table and its two pages are four pages. -/
theorem freeable_twoPages : Freeable twoPages (P2V 0x300000) 0x402000 0 := by
  refine ⟨by decide, ?_, ?_, ?_, ?_⟩
  · intro va t ht
    rw [tableOf_twoPages] at ht
    split_ifs at ht
    cases ht
    decide
  · intro va va' t ht ht'
    rw [tableOf_twoPages] at ht ht'
    split_ifs at ht ht' with h h'
    apply UInt32.toNat_inj.mp
    rw [toNat_PDX, toNat_PDX, h, h']
  · intro e he
    rw [freed_twoPages, List.mem_cons, List.mem_singleton] at he
    rcases he with rfl | rfl <;> decide
  · intro e he
    rw [freed_twoPages, List.mem_cons, List.mem_singleton] at he
    rcases he with rfl | rfl <;>
    · refine ⟨by decide, fun va => ?_⟩
      rw [tableOf_twoPages]
      split_ifs <;> decide

/-- The process of `twoPages` shrinking to nothing: `deallocuvm(pgdir,
0x402000, 0)` passes the first 4 MB, which has no page table, frees the two
pages of the second in order, clears their entries and returns 0. -/
theorem deallocuvm_frees_two_pages :
    Freeable twoPages (P2V 0x300000) 0x402000 0 ∧
    freed twoPages.mem (P2V 0x300000) 0x402000 0 = [(P2V 0x301000, 0x302000), (P2V 0x301004, 0x303000)] ∧
    (∀ e, e ∈ freed twoPages.mem (P2V 0x300000) 0x402000 0 ↔
      ∃ va : UInt32, va.toNat % 4096 = 0 ∧ PGROUNDUP 0 ≤ va ∧ va < 0x402000 ∧
        mapping twoPages.mem (P2V 0x300000) va = some e) ∧
    ((freed twoPages.mem (P2V 0x300000) 0x402000 0).map Prod.fst).Nodup ∧
    (forM (freed twoPages.mem (P2V 0x300000) 0x402000 0) fun (e : UInt32 × UInt32) => do kfree (P2V e.2); store e.1 0).run twoPages =
      .ok ((), unmapAll twoPages (freed twoPages.mem (P2V 0x300000) 0x402000 0)) ∧
    (deallocuvm (P2V 0x300000) 0x402000 0).run twoPages = .ok (0, unmapAll twoPages (freed twoPages.mem (P2V 0x300000) 0x402000 0)) ∧
    (∀ e ∈ freed twoPages.mem (P2V 0x300000) 0x402000 0, load32 (unmapAll twoPages (freed twoPages.mem (P2V 0x300000) 0x402000 0)).mem (V2P e.1).toNat = 0) ∧
    (∀ va, pdeOf (unmapAll twoPages (freed twoPages.mem (P2V 0x300000) 0x402000 0)).mem (P2V 0x300000) va = pdeOf twoPages.mem (P2V 0x300000) va) ∧
    ∀ va, (∀ e ∈ freed twoPages.mem (P2V 0x300000) 0x402000 0, pteAddr twoPages.mem (P2V 0x300000) va ≠ some e.1) →
      pteOf (unmapAll twoPages (freed twoPages.mem (P2V 0x300000) 0x402000 0)).mem (P2V 0x300000) va = pteOf twoPages.mem (P2V 0x300000) va :=
  ⟨freeable_twoPages, freed_twoPages,
    deallocuvm_frees twoPages (by decide) (by decide) freeable_twoPages⟩

/-- `onePage` with page 0's entry present but mapping page 0 of memory. -/
def frameZero : Machine := { onePage with mem := store32 onePage.mem 0x301000 7 }

/-- Not every directory can be freed: on `frameZero`, `deallocuvm(pgdir, 4096, 0)`
finds page 0's entry present with address 0 and panics. -/
theorem deallocuvm_frame_zero : (deallocuvm onePageProc.pgdir PGSIZE 0).run frameZero = .error "kfree" := by
  rfl

/-- On `frameZero` the panic `deallocuvm` stops with is `kfree`'s, one of those
it may stop with. -/
theorem deallocuvm_raises_frame_zero :
    (deallocuvm onePageProc.pgdir PGSIZE 0).run frameZero = .error "kfree" ∧ "kfree" ∈ deallocuvmPanics :=
  ⟨rfl, deallocuvm_raises onePageProc.pgdir (show PGSIZE ≤ KERNBASE by decide) 0 frameZero "kfree" rfl⟩

end Xv6.Vm
