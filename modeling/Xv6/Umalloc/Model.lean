import Xv6.Lib.Run

/-!
# `malloc` and `free`

The allocator of `user/umalloc.c`.  Memory is what the headers in it say, by address in bytes; a pointer
to a `Header` advances by `sizeof(Header)`, which is 16, for each unit.  The loops run on fuel.
-/

namespace Xv6.Umalloc

open Lib Function

/-- The fields of the headers, `freep`, and the memory that `sbrk` has returned: its regions, with
their sizes in units. -/
structure Heap where
  ptr : ℕ → ℕ
  size : ℕ → ℕ
  freep : ℕ
  core : List (ℕ × ℕ)

/-- The units asked of `sbrk` so far. -/
def Heap.total (h : Heap) : ℕ := (h.core.map Prod.snd).sum

/-! ### `free` -/

/-- The search loop of `free`: the block after which `bp` goes. -/
def search (h : Heap) (bp : ℕ) : ℕ → ℕ → Option ℕ
  | 0, _ => none
  | fuel + 1, p =>
    if bp > p ∧ bp < h.ptr p then some p
    else if p ≥ h.ptr p ∧ (bp > p ∨ bp < h.ptr p) then some p
    else search h bp fuel (h.ptr p)

/-- `bp` takes over its right neighbour, or points to it. -/
def joinRight (h : Heap) (bp p : ℕ) : Heap :=
  if bp + 16 * h.size bp = h.ptr p then
    { h with
      size := update h.size bp ((h.size bp + h.size (h.ptr p)) % 2 ^ 32)
      ptr := update h.ptr bp (h.ptr (h.ptr p)) }
  else { h with ptr := update h.ptr bp (h.ptr p) }

/-- `p` takes over `bp`, or points to it. -/
def joinLeft (h : Heap) (bp p : ℕ) : Heap :=
  if p + 16 * h.size p = bp then
    { h with
      size := update h.size p ((h.size p + h.size bp) % 2 ^ 32)
      ptr := update h.ptr p (h.ptr bp) }
  else { h with ptr := update h.ptr p bp }

/-- What `free` does once it has found `p`. -/
def link (h : Heap) (bp p : ℕ) : Heap := { joinLeft (joinRight h bp p) bp p with freep := p }

def free (fuel : ℕ) (h : Heap) (ap : ℕ) : Option Heap :=
  (search h (ap - 16) fuel h.freep).map (link h (ap - 16))

/-! ### `malloc` -/

/-- The units that `morecore` asks for. -/
def coreUnits (nu : ℕ) : ℕ := if nu < 4096 then 4096 else nu

/-- What `sbrk` gets: its parameter is an `int`. -/
def sbrkArg (nu : ℕ) : Int := (BitVec.ofNat 32 (16 * coreUnits nu)).toInt

/-- `morecore`; `ans` is what `sbrk` returns, `none` for -1. -/
def morecore (fuel : ℕ) (h : Heap) (nu : ℕ) (ans : Option ℕ) : Option (Heap × ℕ) :=
  match ans with
  | none => some (h, 0)
  | some hp =>
    (free fuel { h with
      size := update h.size hp (coreUnits nu)
      core := (hp, coreUnits nu) :: h.core } (hp + 16)).map fun h => (h, h.freep)

/-- A block of `nunits` from `p`, whose predecessor is `prevp`. -/
def carve (h : Heap) (nunits prevp p : ℕ) : Heap × ℕ :=
  if h.size p = nunits then
    ({ h with ptr := update h.ptr prevp (h.ptr p), freep := prevp }, p + 16)
  else
    let rest := h.size p - nunits
    ({ h with
      size := update (update h.size p rest) (p + 16 * rest) nunits
      freep := prevp }, p + 16 * rest + 16)

/-- The loop of `malloc`.  `ans` is what the first call of `sbrk` returns; there is no answer to a
second one. -/
def mallocLoop (nunits : ℕ) : ℕ → Heap → Option (Option ℕ) → ℕ → ℕ → Option (Heap × ℕ)
  | 0, _, _, _, _ => none
  | fuel + 1, h, ans, prevp, p =>
    if nunits ≤ h.size p then some (carve h nunits prevp p)
    else if p = h.freep then
      match ans with
      | none => none
      | some a =>
        match morecore fuel h nunits a with
        | none => none
        | some (h', p') => if p' = 0 then some (h', 0) else mallocLoop nunits fuel h' none p' (h'.ptr p')
    else mallocLoop nunits fuel h ans p (h.ptr p)

def nunits (nbytes : ℕ) : ℕ := (nbytes + 16 - 1) / 16 + 1

/-- `base` is the address of the static header. -/
def malloc (base fuel : ℕ) (h : Heap) (nbytes : ℕ) (ans : Option ℕ) : Option (Heap × ℕ) :=
  let h := if h.freep = 0 then
      { h with ptr := update h.ptr base base, size := update h.size base 0, freep := base }
    else h
  mallocLoop (nunits nbytes) fuel h (some ans) h.freep (h.ptr h.freep)

/-! ### Programs that use the heap -/

/-- The heap, and the blocks that the program has: their addresses, and the sizes asked for. -/
structure Sys where
  heap : Heap
  live : List (ℕ × ℕ)

inductive Act where
  /-- `malloc(nbytes)`; should it call `sbrk`, that returns `ans`. -/
  | malloc (nbytes : ℕ) (ans : Option ℕ)
  | free (ap : ℕ)

def step (base fuel : ℕ) (s : Sys) : Act → Option Sys
  | .malloc nbytes ans =>
    (malloc base fuel s.heap nbytes ans).map fun (h, r) =>
      ⟨h, if r = 0 then s.live else (r, nbytes) :: s.live⟩
  | .free ap =>
    match s.live.find? (·.1 = ap) with
    | none => none
    | some x => (free fuel s.heap ap).map fun h => ⟨h, s.live.erase x⟩

/-- No memory yet. -/
def Sys.init : Sys := ⟨⟨fun _ => 0, fun _ => 0, 0, []⟩, []⟩

/-- Requests are small, only blocks of the program are freed, and `sbrk` returns memory above all that
there was before. -/
def Legal (base : ℕ) (s : Sys) : Act → Prop
  | .malloc nbytes ans =>
    16 * nunits nbytes < 2 ^ 31 ∧ ∀ hp ∈ ans, base + 16 ≤ hp ∧ ∀ r ∈ s.heap.core, r.1 + 16 * r.2 ≤ hp
  | .free ap => ∃ x ∈ s.live, x.1 = ap

/-- All the memory that there would be is fewer units than a `uint` can count. -/
def Fits (s : Sys) : Act → Prop
  | .malloc nbytes (some _) => s.heap.total + coreUnits (nunits nbytes) < 2 ^ 32
  | _ => True

instance (base : ℕ) (s : Sys) (a : Act) : Decidable (Legal base s a) := by
  unfold Legal
  split <;> infer_instance

instance (s : Sys) (a : Act) : Decidable (Fits s a) := by
  unfold Fits
  split <;> infer_instance

end Xv6.Umalloc
