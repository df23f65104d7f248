/-
`umalloc.c`: the user allocator of Kernighan and Ritchie.

The heap is a run of headers. A block is a header followed by its payload; its
`size` counts headers, its own included. The free blocks form a circular list
through the static `base`, ordered by address except at one wrap point, and
`freep` points into it. `malloc(nbytes)` asks for
`nunits = (nbytes + sizeof(Header) - 1)/sizeof(Header) + 1` headers, walks the
list for a block that large, and hands out the block or the tail of a larger
one; when a lap finds nothing, `morecore` grows the heap with `sbrk` and `free`s
the new block into the list.

Memory is read and written a header at a time: every header the allocator
touches is at an address that is a multiple of `sizeof(Header)` from the break
or from `base`. Pointer arithmetic and comparisons are on 32-bit addresses, as
the compiled code's are. `sbrk` takes an `int`, as the kernel's `sys_sbrk` does:
the heap grows by the bytes asked for while it stays below `top` and `KERNBASE`,
and `morecore`'s `nu * sizeof(Header)` of `2^31` bytes or more is a negative
`int`, for which the kernel shrinks the heap or leaves it.

Whatever the heap, a block `malloc` hands out has exactly `nunits` headers
(`malloc_size`): it holds the bytes asked for as long as `nbytes + 7` does not
wrap (`malloc_usable`). For `nbytes >= 2^32 - 7` it wraps, `nunits` is 1, and a
pointer `malloc` returns addresses a block with no byte after its header
(`malloc_huge_usable`); on a fresh heap `malloc(0xFFFFFFFF)` returns the
address of the break (`malloc_huge_fresh`).
-/
import Xv6.Lib.StateExcept
import Mathlib.Logic.Function.Basic
import Mathlib.Algebra.Group.Nat.Defs

set_option autoImplicit false

namespace Xv6.User

open StateExcept

/-- `union header`: the next block of the free list, and the block's size in
headers. -/
structure Header where
  ptr : UInt32
  size : UInt32
  deriving DecidableEq, Repr

/-- `sizeof(Header)`: a pointer and a `uint`, 4 bytes each (the `Align` member,
a `long`, is 4 bytes too). -/
def HEADER : UInt32 := 8

/-- A process's heap: the header at each address, the address of the static
`base`, `freep` (0 for `NULL`), the program break, and the address up to which
the kernel grows the heap. -/
structure Heap where
  mem : UInt32 → Header
  base : UInt32
  freep : UInt32
  brk : UInt32
  top : UInt32

/-- The allocator's code: a program over the heap. It stops with an error only
where the C loops forever. -/
abbrev HeapM (α : Type) := StateT Heap (Except String) α

/-- `*p`. -/
def load (p : UInt32) : HeapM Header := return (← get).mem p

@[simp] theorem runs_load (p : UInt32) (h h' : Heap) (b : Header) :
    Runs (load p) h b h' ↔ b = h.mem p ∧ h' = h := by
  simp only [load, runs_bind, runs_get, runs_pure]
  constructor
  · rintro ⟨_, _, ⟨rfl, rfl⟩, rfl, rfl⟩
    exact ⟨rfl, rfl⟩
  · rintro ⟨rfl, rfl⟩
    exact ⟨_, _, ⟨rfl, rfl⟩, rfl, rfl⟩

/-- `p->s.ptr = v`. -/
def setPtr (p v : UInt32) : HeapM Unit :=
  modify fun h => { h with mem := Function.update h.mem p { h.mem p with ptr := v } }

/-- `p->s.size = v`. -/
def setSize (p v : UInt32) : HeapM Unit :=
  modify fun h => { h with mem := Function.update h.mem p { h.mem p with size := v } }

/-- `p + k` for a `Header *p`. -/
def offset (p k : UInt32) : UInt32 := p + k * HEADER

/-- `p + 1`, less a header, is `p`. -/
@[simp] theorem offset_one_sub (p : UInt32) : offset p 1 - HEADER = p := by
  simp [offset]

/-- Each loop of the allocator follows the free list a block a round. A heap of
32-bit addresses has fewer headers than this, so the loops run out of rounds
only on a list that `free` and `malloc` did not build. -/
def FUEL : Nat := 2 ^ 32

/-- `KERNBASE`: user memory, the heap with it, lies below it. -/
def KERNBASE : UInt32 := 0x80000000

/-- `sbrk(n)` for the `int` `n`, as `sys_sbrk` serves it with `growproc(n)`: the
old break, or -1 where `growproc` fails. `sz + n` is the C sum of a `uint` and an
`int`. A growth is `allocuvm(sz, sz + n)`: 0 at `KERNBASE` and past `top`, where
the kernel's memory runs out, and `sz` when the sum wraps below it. A shrink is
`deallocuvm(sz, sz + n)`: `sz` when the sum wraps above it. `growproc` reads a
size of 0 back as a failure. -/
def sbrk (n : Int32) : HeapM UInt32 := do
  let h ← get
  let newsz := h.brk + n.toUInt32
  if n > 0 then
    let sz := if newsz ≥ KERNBASE then 0 else if newsz < h.brk then h.brk
      else if h.top < newsz then 0 else newsz
    if sz = 0 then return 0xFFFFFFFF
    set { h with brk := sz }
    return h.brk
  else if n < 0 then
    let sz := if newsz ≥ h.brk then h.brk else newsz
    if sz = 0 then return 0xFFFFFFFF
    set { h with brk := sz }
    return h.brk
  else return h.brk

/-! ## `free` -/

/-- `free`'s search from `p`: the free block after which `bp` belongs, either
the one just below it or, when `bp` lies beyond both ends of the list, the
block at the wrap point. -/
def freeFind (bp : UInt32) : Nat → UInt32 → HeapM UInt32
  | 0, _ => throw "free: loops forever"
  | fuel + 1, p => do
    let q := ((← get).mem p).ptr
    if bp > p ∧ bp < q then return p
    if p ≥ q ∧ (bp > p ∨ bp < q) then return p
    freeFind bp fuel q

/-- `free(ap)`: put the block back after `freeFind`'s block, joining it with the
block above and the block below where they touch. -/
def free (ap : UInt32) : HeapM Unit := do
  let bp := ap - HEADER
  let p ← freeFind bp FUEL (← get).freep
  if offset bp (← load bp).size = (← load p).ptr then
    setSize bp ((← load bp).size + (← load (← load p).ptr).size)
    setPtr bp (← load (← load p).ptr).ptr
  else
    setPtr bp (← load p).ptr
  if offset p (← load p).size = bp then
    setSize p ((← load p).size + (← load bp).size)
    setPtr p (← load bp).ptr
  else
    setPtr p bp
  modify fun h => { h with freep := p }

/-! ## `malloc` -/

/-- `morecore(nu)`: grow the heap by at least 4096 headers and `free` the new
block; `freep`, or 0 when `sbrk` fails. -/
def morecore (nu : UInt32) : HeapM UInt32 := do
  let nu := if nu < 4096 then 4096 else nu
  let p ← sbrk (nu * HEADER).toInt32
  if p = 0xFFFFFFFF then return 0
  setSize p nu
  free (offset p 1)
  return (← get).freep

/-- The headers `malloc(nbytes)` asks for: the bytes, rounded up to headers, and
one for the block's own header. -/
def nunits (nbytes : UInt32) : UInt32 := (nbytes + HEADER - 1) / HEADER + 1

/-- `malloc`'s loop at block `p`, the one after `prevp`: hand out `p` when it
fits exactly, its tail when it is larger; after a lap, `morecore`. -/
def mallocLoop (nunits : UInt32) : Nat → UInt32 → UInt32 → HeapM UInt32
  | 0, _, _ => throw "malloc: loops forever"
  | fuel + 1, prevp, p => do
    let b ← load p
    if b.size ≥ nunits then
      if b.size = nunits then
        setPtr prevp (← load p).ptr
        modify fun h => { h with freep := prevp }
        return offset p 1
      else
        setSize p ((← load p).size - nunits)
        let p := offset p (← load p).size
        setSize p nunits
        modify fun h => { h with freep := prevp }
        return offset p 1
    else if p = (← get).freep then
      let p ← morecore nunits
      if p = 0 then return 0
      mallocLoop nunits fuel p (← load p).ptr
    else
      mallocLoop nunits fuel p (← load p).ptr

/-- `malloc(nbytes)`: on the first call, make `base` the one-block list; then
walk from `freep`. -/
def malloc (nbytes : UInt32) : HeapM UInt32 := do
  let n := nunits nbytes
  if (← get).freep = 0 then
    let b := (← get).base
    setPtr b b
    modify fun h => { h with freep := b }
    setSize b 0
  let prevp := (← get).freep
  mallocLoop n FUEL prevp (← load prevp).ptr

/-! ## The blocks `malloc` hands out -/

/-- The bytes of the block handed out at `r`: its headers after the first. -/
def usable (h : Heap) (r : UInt32) : Nat := ((h.mem (r - HEADER)).size.toNat - 1) * HEADER.toNat

/-- A round of `malloc`'s loop hands out a block whose header, written last,
has the size asked for; or `morecore` fails; or the loop goes on. -/
theorem mallocLoop_round {n : UInt32} {fuel : Nat} {prevp p r : UInt32} {h h' : Heap}
    (hrun : Runs (mallocLoop n (fuel + 1) prevp p) h r h') :
    (h'.mem (r - HEADER)).size = n ∨ r = 0 ∨ ∃ prevp' p' h₁, Runs (mallocLoop n fuel prevp' p') h₁ r h' := by
  simp only [mallocLoop, runs_load, setPtr, setSize, runs_bind, runs_get, runs_pure, runs_ite, runs_modify,
    and_assoc, exists_and_left, exists_eq_left, exists_eq_left', exists_const, ge_iff_le] at hrun
  rcases hrun with ⟨-, ⟨hsz, rfl, rfl⟩ | ⟨-, rfl, rfl⟩⟩ | ⟨-, ⟨-, q, h₁, -, ⟨-, rfl, -⟩ | ⟨-, hrest⟩⟩ | ⟨-, hrest⟩⟩
  · -- `p` fits exactly and is handed out whole: only `prevp`'s link changes
    left
    rw [offset_one_sub]
    dsimp only
    by_cases hp : p = prevp
    · rw [hp, Function.update_self]
      rw [hp] at hsz
      exact hsz
    · rw [Function.update_of_ne hp]
      exact hsz
  · -- the tail of `p` is handed out, with its new header
    left
    rw [offset_one_sub]
    dsimp only
    rw [Function.update_self]
  · exact .inr (.inl rfl)
  · exact .inr (.inr ⟨_, _, _, hrest⟩)
  · exact .inr (.inr ⟨_, _, _, hrest⟩)

/-- Every block `malloc`'s loop hands out has the headers it asked for. -/
theorem mallocLoop_size {n : UInt32} (fuel : Nat) :
    ∀ {prevp p r : UInt32} {h h' : Heap}, Runs (mallocLoop n fuel prevp p) h r h' → r ≠ 0 →
      (h'.mem (r - HEADER)).size = n := by
  induction fuel with
  | zero =>
    intro prevp p r h h' hrun
    simp [mallocLoop] at hrun
  | succ fuel ih =>
    intro prevp p r h h' hrun hr
    rcases mallocLoop_round hrun with hsz | h0 | ⟨_, _, _, hrest⟩
    · exact hsz
    · exact absurd h0 hr
    · exact ih hrest hr

/-- **`malloc`'s blocks.** A block `malloc(nbytes)` hands out has `nunits(nbytes)`
headers, whatever the heap. -/
theorem malloc_size {nbytes r : UInt32} {s s' : Heap} (hrun : Runs (malloc nbytes) s r s') (hr : r ≠ 0) :
    (s'.mem (r - HEADER)).size = nunits nbytes := by
  simp only [malloc, runs_load, setPtr, setSize, runs_bind, runs_get, runs_ite, runs_modify,
    and_assoc, exists_and_left, exists_eq_left, exists_eq_left', exists_const] at hrun
  rcases hrun with ⟨-, hloop⟩ | ⟨-, hloop⟩
  · exact mallocLoop_size _ hloop hr
  · exact mallocLoop_size _ hloop hr

theorem toNat_nunits {nbytes : UInt32} (h : nbytes.toNat ≤ 2 ^ 32 - 8) :
    (nunits nbytes).toNat = (nbytes.toNat + 7) / 8 + 1 := by
  have hsum : (nbytes + HEADER - 1).toNat = nbytes.toNat + 7 := by
    rw [show nbytes + HEADER - 1 = nbytes + 7 by simp only [HEADER]; grind, UInt32.toNat_add]
    simp only [UInt32.reduceToNat]
    omega
  rw [nunits, UInt32.toNat_add, UInt32.toNat_div, hsum]
  simp only [HEADER, UInt32.reduceToNat]
  omega

/-- Past `2^32 - 8`, `nbytes + sizeof(Header) - 1` wraps below 8, and `nunits`
is the header alone. -/
theorem nunits_huge {nbytes : UInt32} (h : 2 ^ 32 - 7 ≤ nbytes.toNat) : nunits nbytes = 1 := by
  have hlt := nbytes.toNat_lt
  have hsum : (nbytes + HEADER - 1).toNat = nbytes.toNat + 7 - 2 ^ 32 := by
    rw [show nbytes + HEADER - 1 = nbytes + 7 by simp only [HEADER]; grind, UInt32.toNat_add]
    simp only [UInt32.reduceToNat]
    omega
  apply UInt32.toNat_inj.mp
  rw [nunits, UInt32.toNat_add, UInt32.toNat_div, hsum]
  simp only [HEADER, UInt32.reduceToNat]
  omega

/-- A block handed out for at most `2^32 - 8` bytes holds them. -/
theorem malloc_usable {nbytes r : UInt32} {s s' : Heap} (hn : nbytes.toNat ≤ 2 ^ 32 - 8)
    (hrun : Runs (malloc nbytes) s r s') (hr : r ≠ 0) : nbytes.toNat ≤ usable s' r := by
  rw [usable, malloc_size hrun hr, toNat_nunits hn]
  simp only [HEADER, UInt32.reduceToNat]
  omega

/-- **A request of `2^32 - 7` bytes or more gets no byte.** `nunits` wraps to 1,
so a pointer `malloc` returns addresses a block that is its header alone. -/
theorem malloc_huge_usable {nbytes r : UInt32} {s s' : Heap} (hn : 2 ^ 32 - 7 ≤ nbytes.toNat)
    (hrun : Runs (malloc nbytes) s r s') (hr : r ≠ 0) : usable s' r = 0 ∧ usable s' r < nbytes.toNat := by
  have h0 : usable s' r = 0 := by
    rw [usable, malloc_size hrun hr, nunits_huge hn]
    rfl
  exact ⟨h0, by omega⟩

/-- A process's heap before its first `malloc`: `base` in the data segment at
`0xC00`, the break at `0x3000`, and room up to `KERNBASE`. -/
def fresh : Heap := ⟨fun _ => ⟨0, 0⟩, 0xC00, 0, 0x3000, 0x80000000⟩

/-- `malloc(0xFFFFFFFF)` on a fresh heap: `morecore` grows the heap by 4096
headers to `0xB000`, and `malloc` hands out the last header of that block, so
the pointer it returns is the break itself. -/
theorem malloc_huge_fresh :
    ∃ s', Runs (malloc 0xFFFFFFFF) fresh 0xB000 s' ∧ s'.brk = 0xB000 ∧
      usable s' 0xB000 = 0 ∧ usable s' 0xB000 < 0xFFFFFFFF :=
  ⟨_, rfl, rfl, @malloc_huge_usable 0xFFFFFFFF 0xB000 fresh _ (by decide) rfl (by decide)⟩

end Xv6.User
