import Xv6.Lib.Ring
import Xv6.Lib.Run

/-!
# `virtio_disk.c`: the driver, its callers and the device

The driver's sections under `vdisk_lock`, the interrupt handler and the device are interleaved.  What
the driver writes before `avail->idx` is incremented is one step with the increment: the device looks at
nothing beyond that index, nor the driver at anything beyond `used->idx`.  So is what follows the loop on
`b->disk`, up to the release.  `sleep` releases the lock and goes to sleep in one step.  The callers'
sleep-locks on the buffers are part of the state.
-/

namespace Xv6.Virtio

open Lib Function

/-- `NUM`. -/
abbrev NUM : ℕ := 8

instance : NeZero NUM := ⟨by decide⟩

/-- What a descriptor can point to: nothing, `&disk.ops[i]`, `b->data` or `&disk.info[i].status`. -/
inductive Addr (B : Type) where
  | null
  | ops (i : Fin NUM)
  | data (b : B)
  | status (i : Fin NUM)

/-- `struct virtq_desc`, with the two flags apart. -/
structure Desc (B : Type) where
  addr : Addr B
  len : ℕ
  /-- `VRING_DESC_F_NEXT`. -/
  chained : Bool
  /-- `VRING_DESC_F_WRITE`. -/
  write : Bool
  next : ℕ

def Desc.zero {B : Type} : Desc B := ⟨.null, 0, false, false, 0⟩

/-- `struct virtio_blk_req`. -/
structure Req where
  out : Bool
  sector : ℕ

inductive Panic where
  | freeDesc1 | freeDesc2 | intrStatus
  /-- `b->disk` with `b` the null pointer. -/
  | fault
  deriving DecidableEq

/-- `&disk.free[0]`, or a buffer. -/
inductive Chan (B : Type) where
  | free
  | buf (b : B)
  deriving DecidableEq

/-- `idx`, in `virtio_disk_rw`. -/
abbrev Idx : Type := Fin 3 → Fin NUM

/-- Where a process, or a CPU in an interrupt, stands. -/
inductive Code (B : Type) where
  | idle
  /-- `virtio_disk_rw(b, write)`: acquire the lock. -/
  | rw (b : B) (write : Bool)
  /-- The loop around `alloc3_desc`. -/
  | alloc (b : B) (write : Bool)
  | dozing (b : B) (write : Bool)
  /-- The descriptors are allocated. -/
  | post (b : B) (write : Bool) (idx : Idx)
  /-- The loop on `b->disk`. -/
  | wait (b : B) (idx : Idx)
  | asleep (b : B) (idx : Idx)
  /-- `virtio_disk_intr`: acquire the lock. -/
  | intr
  /-- Its loop. -/
  | iloop

structure State (P B : Type) where
  desc : Fin NUM → Desc B
  avail : Fin NUM → Fin NUM
  availIdx : BitVec 16
  used : Fin NUM → Fin NUM
  /-- `disk.used->idx`. -/
  usedIdx : BitVec 16
  free : Fin NUM → Bool
  /-- `disk.used_idx`. -/
  seenIdx : BitVec 16
  infoB : Fin NUM → Option B
  status : Fin NUM → BitVec 8
  ops : Fin NUM → Req
  /-- `b->disk`. -/
  disk : B → Bool
  lock : Option P
  code : P → Code B
  sleeping : P → Option (Chan B)
  /-- `b->lock`, the sleep-lock of a buffer. -/
  held : B → Option P
  panic : Option Panic
  /-- How far the device has read the avail ring. -/
  fetched : BitVec 16
  /-- The chains that the device works on. -/
  taken : List (Fin NUM)
  /-- Those for which it has written the status. -/
  answered : List (Fin NUM)

/-- After `virtio_disk_init`. -/
def init (P B : Type) : State P B where
  desc _ := .zero
  avail _ := 0
  availIdx := 0
  used _ := 0
  usedIdx := 0
  free _ := true
  seenIdx := 0
  infoB _ := none
  status _ := 0
  ops _ := ⟨false, 0⟩
  disk _ := false
  lock := none
  code _ := .idle
  sleeping _ := none
  held _ := none
  panic := none
  fetched := 0
  taken := []
  answered := []

inductive Act (P B : Type) where
  /-- `acquiresleep(&b->lock)`, `releasesleep(&b->lock)`. -/
  | hold (p : P) (b : B)
  | release (p : P) (b : B)
  | rw (p : P) (b : B) (write : Bool)
  | intr (p : P)
  | go (p : P)
  /-- The device reads the next entry of the avail ring. -/
  | fetch
  /-- It has done the request with head `h`, and writes the status. -/
  | answer (h : Fin NUM)
  /-- It puts `h` in the used ring and increments `used->idx`. -/
  | publish (h : Fin NUM)

inductive Event (P B : Type) where
  | posted (p : P) (b : B) (h : Fin NUM)
  | completed (h : Fin NUM)
  /-- `b->disk = 0` for the entry `h` of the used ring. -/
  | cleared (h : Fin NUM) (b : B)
  | returned (p : P) (b : B) (h : Fin NUM)
  deriving DecidableEq

section

variable {P B : Type} [DecidableEq P] [DecidableEq B] (s : State P B) (p : P)

def State.goto (k : Code B) : State P B := { s with code := update s.code p k }

def State.acquire (k : Code B) : Option (State P B) :=
  if s.lock = none then some ({ s with lock := some p }.goto p k) else none

def State.unlock (k : Code B) : State P B := { s with lock := none }.goto p k

def State.sleep (chan : Chan B) (k : Code B) : State P B :=
  { s with sleeping := update s.sleeping p (some chan) }.unlock p k

def State.wakeup (chan : Chan B) : State P B :=
  { s with sleeping := fun q => if s.sleeping q = some chan then none else s.sleeping q }

/-- The end of `sleep`: acquire the lock again. -/
def State.resume (k : Code B) : Option (State P B) := if s.sleeping p = none then s.acquire p k else none

/-! ### Descriptors -/

def allocDesc : Option (Fin NUM × State P B) :=
  ((List.finRange NUM).find? fun i => s.free i).map fun i => (i, { s with free := update s.free i false })

def freeDesc (i : ℕ) : Except Panic (State P B) :=
  if h : i < NUM then
    if s.free ⟨i, h⟩ then .error .freeDesc2
    else .ok ({ s with
      desc := update s.desc ⟨i, h⟩ .zero
      free := update s.free ⟨i, h⟩ true }.wakeup .free)
  else .error .freeDesc1

/-- `free_chain`: one unit of fuel for each descriptor. -/
def freeChain : ℕ → State P B → ℕ → Except Panic (State P B)
  | 0, s, _ => .ok s
  | fuel + 1, s, i =>
    let d := if h : i < NUM then s.desc ⟨i, h⟩ else .zero
    match freeDesc s i with
    | .error e => .error e
    | .ok s => if d.chained then freeChain fuel s d.next else .ok s

/-- `alloc3_desc`: what it has allocated goes back when there are not three. -/
def alloc3Desc : Except Panic (State P B × Option Idx) :=
  match allocDesc s with
  | none => .ok (s, none)
  | some (a, s₁) =>
    match allocDesc s₁ with
    | none => (freeDesc s₁ a).map fun s => (s, none)
    | some (b, s₂) =>
      match allocDesc s₂ with
      | none =>
        match freeDesc s₂ a with
        | .error e => .error e
        | .ok s => (freeDesc s b).map fun s => (s, none)
      | some (c, s₃) => .ok (s₃, some ![a, b, c])

/-! ### The request -/

/-- The descriptors are filled in, and the chain is published. -/
def publishChain (sector : B → ℕ) (b : B) (write : Bool) (idx : Idx) : State P B :=
  { s with
    ops := update s.ops (idx 0) ⟨write, sector b⟩
    desc := update (update (update s.desc
      (idx 0) ⟨.ops (idx 0), 16, true, false, idx 1⟩)
      (idx 1) ⟨.data b, 1024, true, !write, idx 2⟩)
      (idx 2) ⟨.status (idx 0), 1, false, true, 0⟩
    status := update s.status (idx 0) 0xff
    disk := update s.disk b true
    infoB := update s.infoB (idx 0) (some b)
    avail := update s.avail (Ring.cell NUM s.availIdx) (idx 0)
    availIdx := s.availIdx + 1 }

def State.stop (e : Panic) : State P B := { s with panic := some e }

/-- One step of a process. -/
def go (sector : B → ℕ) : Option (State P B × List (Event P B)) :=
  match s.code p with
  | .idle => none
  | .rw b write => (s.acquire p (.alloc b write)).map (·, [])
  | .alloc b write =>
    match alloc3Desc s with
    | .error e => some (s.stop e, [])
    | .ok (s, none) => some (s.sleep p .free (.dozing b write), [])
    | .ok (s, some idx) => some (s.goto p (.post b write idx), [])
  | .dozing b write => (s.resume p (.alloc b write)).map (·, [])
  | .post b write idx =>
    some ((publishChain s sector b write idx).goto p (.wait b idx), [.posted p b (idx 0)])
  | .wait b idx =>
    if s.disk b then some (s.sleep p (.buf b) (.asleep b idx), [])
    else
      match freeChain NUM { s with infoB := update s.infoB (idx 0) none } (idx 0) with
      | .error e => some (s.stop e, [])
      | .ok s => some (s.unlock p .idle, [.returned p b (idx 0)])
  | .asleep b idx => (s.resume p (.wait b idx)).map (·, [])
  | .intr => (s.acquire p .iloop).map (·, [])
  | .iloop =>
    if s.seenIdx = s.usedIdx then some (s.unlock p .idle, [])
    else
      let id := s.used (Ring.cell NUM s.seenIdx)
      if s.status id ≠ 0 then some (s.stop .intrStatus, [])
      else
        match s.infoB id with
        | none => some (s.stop .fault, [])
        | some b =>
          some ({ s with disk := update s.disk b false, seenIdx := s.seenIdx + 1 }.wakeup (.buf b), [.cleared id b])

/-- The status byte that the third descriptor of a chain points to is set to 0. -/
def State.setStatus (h : Fin NUM) : State P B :=
  let d₁ := s.desc h
  let d₂ := s.desc (Fin.ofNat NUM d₁.next)
  let d₃ := s.desc (Fin.ofNat NUM d₂.next)
  match d₃.addr with
  | .status i => { s with status := update s.status i 0 }
  | _ => s

def fire (sector : B → ℕ) (s : State P B) (a : Act P B) : Option (State P B × List (Event P B)) :=
  if s.panic.isSome then none
  else
    match a with
    | .hold p b => if s.held b = none then some ({ s with held := update s.held b (some p) }, []) else none
    | .release p b =>
      match s.code p with
      | .idle => if s.held b = some p then some ({ s with held := update s.held b none }, []) else none
      | _ => none
    | .rw p b write =>
      match s.code p with
      | .idle => some (s.goto p (.rw b write), [])
      | _ => none
    | .intr p =>
      match s.code p with
      | .idle => some (s.goto p .intr, [])
      | _ => none
    | .go p => go s p sector
    | .fetch =>
      if s.fetched = s.availIdx then none
      else some ({ s with taken := s.taken ++ [s.avail (Ring.cell NUM s.fetched)], fetched := s.fetched + 1 }, [])
    | .answer h =>
      if h ∈ s.taken then
        some ({ s.setStatus h with taken := s.taken.erase h, answered := s.answered ++ [h] }, [])
      else none
    | .publish h =>
      if h ∈ s.answered then
        some ({ s with
          answered := s.answered.erase h
          used := update s.used (Ring.cell NUM s.usedIdx) h
          usedIdx := s.usedIdx + 1 }, [.completed h])
      else none

def step (sector : B → ℕ) (s : State P B) (a : Act P B) : Option (State P B) := (fire sector s a).map Prod.fst

def obs (sector : B → ℕ) (s : State P B) (a : Act P B) : List (Event P B) := (fire sector s a).elim [] Prod.snd

/-- The caller of `virtio_disk_rw` holds the sleep-lock of the buffer. -/
def Held (s : State P B) : Act P B → Prop
  | .rw p b _ => s.held b = some p
  | _ => True

instance (s : State P B) (a : Act P B) : Decidable (Held s a) := by
  unfold Held
  split <;> infer_instance

end

end Xv6.Virtio
