/-
`vm.c`'s page tables and `kalloc.c`'s allocator, over physical memory.

Physical memory is bytes (`ByteMem`). The kernel reaches it at kernel virtual
addresses, `P2V(pa) = pa + KERNBASE`, so every pointer here is a 32-bit kernel
address, and a load or a store goes to `V2P` of it. A page directory and its
page tables are pages of that memory holding 32-bit entries, read and written
as the C code does: `walkpgdir` loads the directory entry, and may take a page
from `kalloc` for a new table. `kalloc` keeps its free list where the C code
does: `kmem.freelist` points at the first free page, and the first word of each
free page points at the next.

Each function is a program of `VmM`: it reads and writes the machine, and stops
with the kernel's panic message where the source calls `panic`. Where the C
code dereferences a null pointer, whose behaviour is undefined, the model stops
with "null pointer dereference".

A C loop is written as a recursion with the number of its rounds as fuel. For
`mappages` and `copyout` the fuel is the exact count. `deallocuvm`'s loop only
moves forward while its index does not wrap past `2^32`, and its fuel bounds the
rounds of every such run; a run that needs more rounds has wrapped, and the C
loop then never ends, which the model reports as the error
"deallocuvm: loops forever".
-/
import Xv6.Lib.ByteMem
import Xv6.Lib.Word32
import Xv6.Lib.StateExcept

set_option autoImplicit false

namespace Xv6.Vm

open ByteMem

/-! ## `mmu.h` and `memlayout.h` -/

/-- `PGSIZE`: bytes mapped by a page. -/
def PGSIZE : UInt32 := 4096

/-- `KERNBASE`: the first kernel virtual address. -/
def KERNBASE : UInt32 := 0x80000000

/-- `PHYSTOP`: the top of physical memory. -/
def PHYSTOP : UInt32 := 0xE000000

/-- The flags of a page-table entry: present, writeable, user. -/
def PTE_P : UInt32 := 0x001
def PTE_W : UInt32 := 0x002
def PTE_U : UInt32 := 0x004

def PTXSHIFT : UInt32 := 12
def PDXSHIFT : UInt32 := 22

/-- `PDX(va)`: the page-directory index. -/
def PDX (va : UInt32) : UInt32 := (va >>> PDXSHIFT) &&& 0x3FF

/-- `PTX(va)`: the page-table index. -/
def PTX (va : UInt32) : UInt32 := (va >>> PTXSHIFT) &&& 0x3FF

/-- `PGADDR(d, t, o)`: the address with these indices and offset. -/
def PGADDR (d t o : UInt32) : UInt32 := d <<< PDXSHIFT ||| t <<< PTXSHIFT ||| o

def PGROUNDUP (sz : UInt32) : UInt32 := (sz + PGSIZE - 1) &&& ~~~(PGSIZE - 1)

def PGROUNDDOWN (a : UInt32) : UInt32 := a &&& ~~~(PGSIZE - 1)

/-- `PTE_ADDR(pte)`: the physical address an entry holds. -/
def PTE_ADDR (pte : UInt32) : UInt32 := pte &&& ~~~0xFFF

def V2P (a : UInt32) : UInt32 := a - KERNBASE

def P2V (a : UInt32) : UInt32 := a + KERNBASE

/-! ## The machine -/

/-- Physical memory, `kmem.freelist`, and the address `end` after the kernel's
image, which `kfree` checks. -/
structure Machine where
  mem : Mem
  freelist : UInt32
  kend : UInt32

/-- The kernel's code: a program over the machine that may panic. -/
abbrev VmM (α : Type) := StateT Machine (Except String) α

/-- `*p`. -/
def load (p : UInt32) : VmM UInt32 := do
  if p = 0 then throw "null pointer dereference"
  return load32 (← get).mem (V2P p).toNat

/-- `*p = v`. -/
def store (p v : UInt32) : VmM Unit := do
  if p = 0 then throw "null pointer dereference"
  modify fun m => { m with mem := store32 m.mem (V2P p).toNat v }

/-- `memset(p, c, n)`. -/
def memset (p : UInt32) (c : UInt8) (n : UInt32) : VmM Unit :=
  modify fun m => { m with mem := ByteMem.memset m.mem (V2P p).toNat n.toNat c }

/-- `memmove(p, src, len)`, with the `len` bytes of `src` given. -/
def memmove (p : UInt32) (src : List UInt8) : VmM Unit :=
  modify fun m => { m with mem := ByteMem.memmove m.mem (V2P p).toNat src }

/-! ## `kalloc.c` -/

/-- `kfree`: fill the page with junk and push it on the free list. -/
def kfree (v : UInt32) : VmM Unit := do
  if v.toNat % PGSIZE.toNat ≠ 0 ∨ v < (← get).kend ∨ V2P v ≥ PHYSTOP then throw "kfree"
  memset v 1 PGSIZE
  -- `r->next = kmem.freelist; kmem.freelist = r;`
  store v (← get).freelist
  modify fun m => { m with freelist := v }

/-- `kalloc`: pop the free list; 0 when it is empty. -/
def kalloc : VmM UInt32 := do
  let r := (← get).freelist
  if r ≠ 0 then
    let next ← load r
    modify fun m => { m with freelist := next }
  return r

/-! ## Page tables -/

/-- `walkpgdir`: the address of the entry for `va`, creating its page table when
`alloc` is set; 0 when there is none. -/
def walkpgdir (pgdir va : UInt32) (alloc : Bool) : VmM UInt32 := do
  let pde := pgdir + 4 * PDX va
  let e ← load pde
  if e &&& PTE_P ≠ 0 then
    return P2V (PTE_ADDR e) + 4 * PTX va
  else
    if !alloc then return 0
    let pgtab ← kalloc
    if pgtab = 0 then return 0
    -- Make sure all those PTE_P bits are zero.
    memset pgtab 0 PGSIZE
    store pde (V2P pgtab ||| PTE_P ||| PTE_W ||| PTE_U)
    return pgtab + 4 * PTX va

/-- `mappages`'s loop, from page `a` (mapped to `pa`) to page `last`. -/
def mappagesLoop (pgdir last perm : UInt32) : Nat → UInt32 → UInt32 → VmM Int
  | 0, _, _ => return 0
  | fuel + 1, a, pa => do
    let pte ← walkpgdir pgdir a true
    if pte = 0 then return -1
    if (← load pte) &&& PTE_P ≠ 0 then throw "remap"
    store pte (pa ||| perm ||| PTE_P)
    if a = last then return 0
    mappagesLoop pgdir last perm fuel (a + PGSIZE) (pa + PGSIZE)

/-- `mappages`: map the pages of `[va, va + size)` to those from `pa`. The loop
makes one round per page from `a` to `last`. -/
def mappages (pgdir va size pa perm : UInt32) : VmM Int :=
  let a := PGROUNDDOWN va
  let last := PGROUNDDOWN (va + size - 1)
  mappagesLoop pgdir last perm ((last - a).toNat / PGSIZE.toNat + 1) a pa

/-- `deallocuvm`'s loop, from page `a` up to `oldsz`. -/
def deallocuvmLoop (pgdir oldsz : UInt32) : Nat → UInt32 → VmM Unit
  | 0, a => if a < oldsz then throw "deallocuvm: loops forever" else pure ()
  | fuel + 1, a => do
    if a < oldsz then
      let pte ← walkpgdir pgdir a false
      if pte = 0 then
        -- no page table: on to the next directory entry
        deallocuvmLoop pgdir oldsz fuel (PGADDR (PDX a + 1) 0 0 - PGSIZE + PGSIZE)
      else
        let e ← load pte
        if e &&& PTE_P ≠ 0 then
          let pa := PTE_ADDR e
          if pa = 0 then throw "kfree"
          kfree (P2V pa)
          store pte 0
        deallocuvmLoop pgdir oldsz fuel (a + PGSIZE)
    else pure ()

/-- `deallocuvm`: free the user pages from `newsz` up to `oldsz`; the new size. -/
def deallocuvm (pgdir oldsz newsz : UInt32) : VmM UInt32 := do
  if newsz ≥ oldsz then return oldsz
  let a := PGROUNDUP newsz
  deallocuvmLoop pgdir oldsz ((oldsz - a).toNat / PGSIZE.toNat + 1) a
  return newsz

/-- `allocuvm`'s loop, from page `a` up to `newsz`. -/
def allocuvmLoop (pgdir oldsz newsz : UInt32) : Nat → UInt32 → VmM UInt32
  | 0, _ => return newsz
  | fuel + 1, a => do
    if a < newsz then
      let mem ← kalloc
      if mem = 0 then
        -- "allocuvm out of memory"
        let _ ← deallocuvm pgdir newsz oldsz
        return 0
      memset mem 0 PGSIZE
      if (← mappages pgdir a PGSIZE (V2P mem) (PTE_W ||| PTE_U)) < 0 then
        -- "allocuvm out of memory (2)"
        let _ ← deallocuvm pgdir newsz oldsz
        kfree mem
        return 0
      allocuvmLoop pgdir oldsz newsz fuel (a + PGSIZE)
    else return newsz

/-- `allocuvm`: grow the user memory from `oldsz` to `newsz`; the new size, or 0. -/
def allocuvm (pgdir oldsz newsz : UInt32) : VmM UInt32 := do
  if newsz ≥ KERNBASE then return 0
  if newsz < oldsz then return oldsz
  let a := PGROUNDUP oldsz
  allocuvmLoop pgdir oldsz newsz ((newsz - a).toNat / PGSIZE.toNat + 1) a

/-! ## User memory -/

/-- `uva2ka`: the kernel address of user page `uva`, or 0 unless it is present
and user-accessible. -/
def uva2ka (pgdir uva : UInt32) : VmM UInt32 := do
  let pte ← walkpgdir pgdir uva false
  let e ← load pte
  if e &&& PTE_P = 0 then return 0
  if e &&& PTE_U = 0 then return 0
  return P2V (PTE_ADDR e)

/-- `copyout`'s loop: one round per page the bytes `buf` reach from `va`. -/
def copyoutLoop (pgdir : UInt32) : Nat → UInt32 → List UInt8 → VmM Int
  | 0, _, _ => return 0
  | fuel + 1, va, buf => do
    if buf.length = 0 then return 0
    let va0 := PGROUNDDOWN va
    let pa0 ← uva2ka pgdir va0
    if pa0 = 0 then return -1
    let n := min (PGSIZE - (va - va0)).toNat buf.length
    memmove (pa0 + (va - va0)) (buf.take n)
    copyoutLoop pgdir fuel (va0 + PGSIZE) (buf.drop n)

/-- `copyout(pgdir, va, p, len)`, with the `len` bytes at `p` given: each round
copies at least one byte. -/
def copyout (pgdir va : UInt32) (p : List UInt8) : VmM Int :=
  copyoutLoop pgdir (p.length + 1) va p

/-! ## `growproc` -/

/-- What `struct proc` holds of the address space. -/
structure proc where
  sz : UInt32
  pgdir : UInt32
  deriving DecidableEq, Repr

/-- `growproc(n)` by `curproc`: its result, and the process after it. `sz + n`
is the C sum of a `uint` and an `int`, taken mod `2^32`. -/
def growproc (curproc : proc) (n : Int32) : VmM (Int × proc) := do
  let sz := curproc.sz
  if n > 0 then
    let sz ← allocuvm curproc.pgdir sz (sz + n.toUInt32)
    if sz = 0 then return (-1, curproc)
    return (0, { curproc with sz := sz })
  else if n < 0 then
    let sz ← deallocuvm curproc.pgdir sz (sz + n.toUInt32)
    if sz = 0 then return (-1, curproc)
    return (0, { curproc with sz := sz })
  else return (0, curproc)

end Xv6.Vm
