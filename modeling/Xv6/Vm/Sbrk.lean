import Xv6.Vm.Grow

/-!
# `sbrk`

`growproc` adds an `int` to an unsigned size of 64 bits, so that a request to shrink by more than there is asks
`uvmdealloc` for a size close to `2 ^ 64`.
-/

namespace Xv6.Vm

open Lib List

/-- What `growproc` uses of `struct proc`. -/
structure Proc where
  sz : ℕ
  pagetable : ℕ

variable {kend root sz newsz : ℕ} {m : Mem} {ok : Panic → Prop}

/-- The address space of a process of size `sz`: its pages cover the size, are leaves of the table and came from
`kalloc`. -/
structure Owned (kend : ℕ) (m : Mem) (root sz : ℕ) : Prop extends Space kend m root (PGROUNDUP sz / PGSIZE) where
  covers : sz ≤ PGROUNDUP sz
  leaf : ∀ i, i < PGROUNDUP sz / PGSIZE → Leaf (m.pte root (i * PGSIZE))
  kalloced : ∀ i, i < PGROUNDUP sz / PGSIZE → Freeable kend (m.target root (i * PGSIZE))

end Xv6.Vm
