import Xv6.Lib.Bytes
import Xv6.Lib.Prog

/-!
# `vm.c` and `kalloc.c`

Page tables and the functions that copy between the kernel and user memory, as programs over physical memory.
Memory is a page of bytes for each physical page number, and the list of free pages; the links of that list
are stored in the free pages as `kfree` does.  Addresses and PTEs are 64-bit numbers, kept as naturals with the
wraps written out.  Locks are left out: each function runs by itself.
-/

namespace Xv6.Vm

open Lib

abbrev PGSIZE : ℕ := 4096
abbrev PTE_V : ℕ := 1
abbrev PTE_R : ℕ := 2
abbrev PTE_W : ℕ := 4
abbrev PTE_X : ℕ := 8
abbrev PTE_U : ℕ := 16
/-- One beyond the highest virtual address. -/
abbrev MAXVA : ℕ := 2 ^ (9 + 9 + 9 + 12 - 1)
abbrev TRAMPOLINE : ℕ := MAXVA - PGSIZE
abbrev TRAPFRAME : ℕ := TRAMPOLINE - PGSIZE
abbrev KERNBASE : ℕ := 0x80000000
abbrev PHYSTOP : ℕ := KERNBASE + 128 * 1024 * 1024

lemma PGSIZE_eq : PGSIZE = 4096 := rfl
lemma MAXVA_eq : MAXVA = 274877906944 := rfl

def PGROUNDUP (sz : ℕ) : ℕ := (sz + (PGSIZE - 1)) % 2 ^ 64 / PGSIZE * PGSIZE

def PGROUNDDOWN (a : ℕ) : ℕ := a / PGSIZE * PGSIZE

/-- The PTE that refers to physical address `pa`, without flags. -/
def PA2PTE (pa : ℕ) : ℕ := pa / 2 ^ 12 * 2 ^ 10 % 2 ^ 64

def PTE2PA (pte : ℕ) : ℕ := pte / 2 ^ 10 * 2 ^ 12 % 2 ^ 64

def PTE_FLAGS (pte : ℕ) : ℕ := pte % 2 ^ 10

/-- The 9 bits of `va` that index a page table of the level. -/
def PX (level va : ℕ) : ℕ := va / 2 ^ (12 + 9 * level) % 2 ^ 9

inductive Panic where
  | walk | vaNotAligned | sizeNotAligned | sizeZero | remap
  | unmapNotAligned | unmapWalk | unmapNotMapped | unmapNotLeaf | kfree
  deriving DecidableEq

/-- A page of physical memory. -/
abbrev Page : Type := Bytes PGSIZE

/-- Physical memory; pages go by their numbers. -/
structure Mem where
  page : ℕ → Page
  /-- `kmem.freelist`. -/
  freelist : List ℕ

abbrev M (α : Type) : Type := Prog Mem Panic α

/-- The bytes of a page, all `c`. -/
def Page.fill (c : UInt8) : Page := fun _ => c

def Mem.setPage (m : Mem) (t : ℕ) (x : Page) : Mem := { m with page := Function.update m.page t x }

/-- The `i`-th word of page `t`. -/
def Mem.word (m : Mem) (t i : ℕ) : ℕ := (m.page t).le (8 * i) 8

/-- `memset` of a page. -/
def memset (pa : ℕ) (c : UInt8) : M Unit := Prog.modify fun m => m.setPage (pa / PGSIZE) (Page.fill c)

/-- `*pte`. -/
def load (pte : ℕ) : M ℕ := do
  let m ← Prog.read
  pure ((m.page (pte / PGSIZE)).le (pte % PGSIZE) 8)

/-- `*pte = v`. -/
def store (pte v : ℕ) : M Unit :=
  Prog.modify fun m => m.setPage (pte / PGSIZE) ((m.page (pte / PGSIZE)).putLe (pte % PGSIZE) 8 v)

/-! ### `kalloc.c` -/

/-- `kalloc`; `none` when there is no page left. -/
def kalloc : M (Option ℕ) := do
  let m ← Prog.read
  match m.freelist with
  | [] => pure none
  | t :: rest => do
    Prog.modify fun m => { m with freelist := rest }
    memset (t * PGSIZE) 5
    pure (some (t * PGSIZE))

/-- `kfree`, for a kernel that ends at address `kend`. -/
def kfree (kend pa : ℕ) : M Unit :=
  if pa % PGSIZE ≠ 0 ∨ pa < kend ∨ PHYSTOP ≤ pa then Prog.stop .kfree
  else do
    memset pa 1
    let m ← Prog.read
    store pa ((m.freelist.head?.getD 0) * PGSIZE)
    Prog.modify fun m => { m with freelist := pa / PGSIZE :: m.freelist }

/-! ### Page tables -/

/-- The loop of `walk`, from the page table of a level down. -/
def walkFrom (va : ℕ) (alloc : Bool) : ℕ → ℕ → M (Option ℕ)
  | 0, pagetable => pure (some (pagetable + 8 * PX 0 va))
  | level + 1, pagetable => do
    let pte := pagetable + 8 * PX (level + 1) va
    let v ← load pte
    if v &&& PTE_V ≠ 0 then walkFrom va alloc level (PTE2PA v)
    else if !alloc then pure none
    else do
      match ← kalloc with
      | none => pure none
      | some mem => do
        memset mem 0
        store pte (PA2PTE mem ||| PTE_V)
        walkFrom va alloc level mem

/-- The address of the PTE of `va`. -/
def walk (pagetable va : ℕ) (alloc : Bool) : M (Option ℕ) :=
  if va ≥ MAXVA then Prog.stop .walk else walkFrom va alloc 2 pagetable

/-- The physical address that `va` is mapped to; 0 if it is not a user page. -/
def walkaddr (pagetable va : ℕ) : M ℕ :=
  if va ≥ MAXVA then pure 0
  else do
    match ← walk pagetable va false with
    | none => pure 0
    | some pte => do
      let v ← load pte
      if v &&& PTE_V = 0 then pure 0
      else if v &&& PTE_U = 0 then pure 0
      else pure (PTE2PA v)

/-- The loop of `mappages`, for the given number of pages; `walk` panics before `a` could wrap. -/
def mapLoop (pagetable perm : ℕ) : ℕ → ℕ → ℕ → M ℤ
  | 0, _, _ => pure 0
  | n + 1, a, pa => do
    match ← walk pagetable a true with
    | none => pure (-1)
    | some pte => do
      let v ← load pte
      if v &&& PTE_V ≠ 0 then Prog.stop .remap
      else do
        store pte (PA2PTE pa ||| perm ||| PTE_V)
        mapLoop pagetable perm n (a + PGSIZE) ((pa + PGSIZE) % 2 ^ 64)

def mappages (pagetable va size pa perm : ℕ) : M ℤ :=
  if va % PGSIZE ≠ 0 then Prog.stop .vaNotAligned
  else if size % PGSIZE ≠ 0 then Prog.stop .sizeNotAligned
  else if size = 0 then Prog.stop .sizeZero
  else mapLoop pagetable perm (size / PGSIZE) va pa

/-- The loop of `uvmunmap`, for the given number of pages. -/
def unmapLoop (kend pagetable : ℕ) (do_free : Bool) : ℕ → ℕ → M Unit
  | 0, _ => pure ()
  | n + 1, a => do
    match ← walk pagetable a false with
    | none => Prog.stop .unmapWalk
    | some pte => do
      let v ← load pte
      if v &&& PTE_V = 0 then Prog.stop .unmapNotMapped
      else if PTE_FLAGS v = PTE_V then Prog.stop .unmapNotLeaf
      else do
        if do_free then kfree kend (PTE2PA v) else pure ()
        store pte 0
        unmapLoop kend pagetable do_free n (a + PGSIZE)

/-- The bound of the loop may wrap. -/
def uvmunmap (kend pagetable va npages : ℕ) (do_free : Bool) : M Unit :=
  if va % PGSIZE ≠ 0 then Prog.stop .unmapNotAligned
  else unmapLoop kend pagetable do_free (((va + npages * PGSIZE) % 2 ^ 64 - va) / PGSIZE) va

/-- An `int` that is converted to `uint64`. -/
def sext32 (v : ℕ) : ℕ := if v % 2 ^ 32 < 2 ^ 31 then v % 2 ^ 32 else v % 2 ^ 32 + (2 ^ 64 - 2 ^ 32)

/-- `uvmdealloc`; the new size. -/
def uvmdealloc (kend pagetable oldsz newsz : ℕ) : M ℕ :=
  if newsz ≥ oldsz then pure oldsz
  else do
    if PGROUNDUP newsz < PGROUNDUP oldsz then
      uvmunmap kend pagetable (PGROUNDUP newsz) (sext32 ((PGROUNDUP oldsz - PGROUNDUP newsz) / PGSIZE)) true
    else pure ()
    pure newsz

/-- The loop of `uvmalloc`, one pass a unit of fuel. -/
def growLoop (kend pagetable oldsz newsz xperm : ℕ) : ℕ → ℕ → M ℕ
  | 0, _ => pure newsz
  | fuel + 1, a =>
    if a < newsz then do
      match ← kalloc with
      | none => do
        let _ ← uvmdealloc kend pagetable a oldsz
        pure 0
      | some mem => do
        memset mem 0
        let r ← mappages pagetable a PGSIZE mem (PTE_R ||| PTE_U ||| xperm)
        if r ≠ 0 then do
          kfree kend mem
          let _ ← uvmdealloc kend pagetable a oldsz
          pure 0
        else growLoop kend pagetable oldsz newsz xperm fuel (a + PGSIZE)
    else pure newsz

/-- `uvmalloc`; the new size, or 0. -/
def uvmalloc (kend pagetable oldsz newsz xperm : ℕ) : M ℕ :=
  if newsz < oldsz then pure oldsz
  else growLoop kend pagetable (PGROUNDUP oldsz) newsz xperm
    ((newsz - PGROUNDUP oldsz + (PGSIZE - 1)) / PGSIZE) (PGROUNDUP oldsz)

/-! ### Copies -/

/-- `memmove` of `n` bytes to physical address `pa`, within a page; `src` are the bytes. -/
def memmoveTo (pa n : ℕ) (src : ℕ → UInt8) : M Unit :=
  Prog.modify fun m => m.setPage (pa / PGSIZE)
    ((m.page (pa / PGSIZE)).put (pa % PGSIZE) n fun k => (src k).toNat)

/-- `memmove` of `n` bytes from physical address `pa`, within a page. -/
def memmoveFrom (pa n : ℕ) : M (List ℕ) := do
  let m ← Prog.read
  pure ((List.range n).map fun k => (m.page (pa / PGSIZE)).get (pa % PGSIZE + k))

/-- The loop of `copyout`; `src` is the kernel's buffer.  Each pass copies at least one byte. -/
def copyoutLoop (pagetable : ℕ) : ℕ → ℕ → (ℕ → UInt8) → ℕ → M ℤ
  | 0, _, _, _ => pure 0
  | fuel + 1, dstva, src, len =>
    if 0 < len then do
      let va0 := PGROUNDDOWN dstva
      if va0 ≥ MAXVA then pure (-1)
      else do
        match ← walk pagetable va0 false with
        | none => pure (-1)
        | some pte => do
          let v ← load pte
          if v &&& PTE_V = 0 ∨ v &&& PTE_U = 0 ∨ v &&& PTE_W = 0 then pure (-1)
          else do
            let n := min (PGSIZE - (dstva - va0)) len
            memmoveTo (PTE2PA v + (dstva - va0)) n src
            copyoutLoop pagetable fuel ((va0 + PGSIZE) % 2 ^ 64) (fun k => src (n + k)) (len - n)
    else pure 0

def copyout (pagetable dstva : ℕ) (src : ℕ → UInt8) (len : ℕ) : M ℤ := copyoutLoop pagetable len dstva src len

/-- The loop of `copyin`: the result and the bytes that were stored in the kernel's buffer. -/
def copyinLoop (pagetable : ℕ) : ℕ → ℕ → ℕ → M (ℤ × List ℕ)
  | 0, _, _ => pure (0, [])
  | fuel + 1, srcva, len =>
    if 0 < len then do
      let va0 := PGROUNDDOWN srcva
      let pa0 ← walkaddr pagetable va0
      if pa0 = 0 then pure (-1, [])
      else do
        let n := min (PGSIZE - (srcva - va0)) len
        let bytes ← memmoveFrom (pa0 + (srcva - va0)) n
        let r ← copyinLoop pagetable fuel ((va0 + PGSIZE) % 2 ^ 64) (len - n)
        pure (r.1, bytes ++ r.2)
    else pure (0, [])

def copyin (pagetable srcva len : ℕ) : M (ℤ × List ℕ) := copyinLoop pagetable len srcva len

/-- The inner loop of `copyinstr` over `n` bytes: those stored, and whether the last of them is the NUL. -/
def strLoop (get : ℕ → ℕ) : ℕ → ℕ → List ℕ × Bool
  | 0, _ => ([], false)
  | n + 1, p =>
    if get p = 0 then ([0], true)
    else
      let r := strLoop get n (p + 1)
      (get p :: r.1, r.2)

/-- The outer loop of `copyinstr`. -/
def copyinstrLoop (pagetable : ℕ) : ℕ → ℕ → ℕ → M (ℤ × List ℕ)
  | 0, _, _ => pure (-1, [])
  | fuel + 1, srcva, max =>
    if 0 < max then do
      let va0 := PGROUNDDOWN srcva
      let pa0 ← walkaddr pagetable va0
      if pa0 = 0 then pure (-1, [])
      else do
        let n := min (PGSIZE - (srcva - va0)) max
        let m ← Prog.read
        let r := strLoop (m.page ((pa0 + (srcva - va0)) / PGSIZE)).get n ((pa0 + (srcva - va0)) % PGSIZE)
        if r.2 then pure (0, r.1)
        else do
          let r' ← copyinstrLoop pagetable fuel ((va0 + PGSIZE) % 2 ^ 64) (max - n)
          pure (r'.1, r.1 ++ r'.2)
    else pure (-1, [])

def copyinstr (pagetable srcva max : ℕ) : M (ℤ × List ℕ) := copyinstrLoop pagetable max srcva max

end Xv6.Vm
