import Xv6.Log.Flat
import Xv6.Log.GroupInv

/-!
# The buffer cache under the log

`bio.c`, used by any number of processes together with the log.  The sections under `bcache.lock`
are single steps; `acquiresleep`, the disk transfer of `bread` and the two halves of `brelse` are
steps of their own, so that other processes run in between.  A process that runs `commit` takes its
calls from the code of `Log.commit`.

Two fields of a buffer are history, which no step of the code reads: `dirty` says that the data was
modified after the last `bwrite` or `log_write`, and `pins` counts `bpin` less `bunpin`.
-/

namespace Xv6.Bio

open Lib Log Function

/-- `struct buf`; the sleep-lock is given by its holder. -/
structure Buf (P : Type) where
  valid : Bool
  dev : ℕ
  blockno : ℕ
  lock : Option P
  refcnt : ℕ
  data : Block
  dirty : Bool
  pins : ℕ

/-- What is left of the call of `bio.c` that a process is in. -/
inductive Micro where
  | idle
  /-- In `bget` for block `b`, before `acquiresleep` of buffer `i`. -/
  | acq (i : Fin NBUF) (b : ℕ)
  /-- In `bread` for block `b`, with buffer `i` locked. -/
  | fill (i : Fin NBUF) (b : ℕ)
  /-- In `brelse`, after `releasesleep` of buffer `i`. -/
  | dec (i : Fin NBUF)
  deriving DecidableEq

/-- The cache, the disk and where the processes are in `bio.c`. -/
structure Cache (P : Type) where
  buf : Fin NBUF → Buf P
  /-- The list through `bcache.head`, most recently used first. -/
  lru : List (Fin NBUF)
  disk : Disk
  /-- The buffers a process has from `bread` and not yet given to `brelse`, the last one first. -/
  stack : P → List (Fin NBUF)
  micro : P → Micro
  /-- `panic("bget: no buffers")`. -/
  noBuffers : Bool

/-- What can be seen of a step: a `bread` of block `b` that returns contents `v`, or a store of `v`
as the contents of block `b`. -/
inductive Ev where
  | ret (b : ℕ) (v : Block)
  | store (b : ℕ) (v : Block)
  deriving DecidableEq

/-- The flat array of blocks: `bread` returns what was stored last. -/
def flatStep (f : Disk) : Ev → Option Disk
  | .ret b v => if f b = v then some f else none
  | .store b v => some (update f b v)

namespace Cache

variable {P : Type} [DecidableEq P]

@[simps -fullyApplied stack micro disk lru]
def setBuf (c : Cache P) (i : Fin NBUF) (x : Buf P) : Cache P :=
  { c with buf := update c.buf i x }

@[simps -fullyApplied buf stack disk lru]
def setMicro (c : Cache P) (p : P) (m : Micro) : Cache P :=
  { c with micro := update c.micro p m }

@[simps -fullyApplied buf micro disk lru]
def setStack (c : Cache P) (p : P) (l : List (Fin NBUF)) : Cache P :=
  { c with stack := update c.stack p l }

/-- The state that `binit` leaves. -/
def binit (d : Disk) : Cache P where
  buf _ := ⟨false, 0, 0, none, 0, Bytes.zero _, false, 0⟩
  lru := (List.finRange NBUF).reverse
  disk := d
  stack _ := []
  micro _ := .idle
  noBuffers := false

/-- The section of `bget` under `bcache.lock`: the buffer it chose. -/
def bget (c : Cache P) (dev b : ℕ) : Option (Fin NBUF × Buf P) :=
  match c.lru.find? fun i => (c.buf i).dev = dev ∧ (c.buf i).blockno = b with
  | some i => some (i, { c.buf i with refcnt := (c.buf i).refcnt + 1 })
  | none =>
    match c.lru.reverse.find? fun i => (c.buf i).refcnt = 0 with
    | some i => some (i, { c.buf i with dev := dev, blockno := b, valid := false, refcnt := 1 })
    | none => none

/-- The call of `bread`, up to `acquiresleep`. -/
def bread (c : Cache P) (p : P) (dev b : ℕ) : Cache P :=
  match c.bget dev b with
  | some (i, x) => (c.setBuf i x).setMicro p (.acq i b)
  | none => { c with noBuffers := true }

/-- Buffer `i` after `if(!b->valid){ virtio_disk_rw(b, 0); b->valid = 1; }`. -/
def filled (c : Cache P) (i : Fin NBUF) : Buf P :=
  if (c.buf i).valid then c.buf i
  else { c.buf i with data := c.disk (c.buf i).blockno, valid := true }

/-- The next step of a process inside a call of `bio.c`. -/
def advance (c : Cache P) (p : P) : Option (Cache P) :=
  match c.micro p with
  | .idle => none
  | .acq i b =>
    if (c.buf i).lock.isNone then
      some ((c.setBuf i { c.buf i with lock := some p }).setMicro p (.fill i b))
    else none
  | .fill i _ => some (((c.setBuf i (c.filled i)).setStack p (i :: c.stack p)).setMicro p .idle)
  | .dec i =>
    let c' := (c.setBuf i { c.buf i with refcnt := (c.buf i).refcnt - 1 }).setMicro p .idle
    some { c' with lru := if (c.buf i).refcnt - 1 = 0 then i :: c.lru.erase i else c.lru }

/-- A store into `b->data`. -/
def store (c : Cache P) (i : Fin NBUF) (v : Block) : Cache P :=
  c.setBuf i { c.buf i with data := v, dirty := true }

def bwrite (c : Cache P) (i : Fin NBUF) : Cache P :=
  { c.setBuf i { c.buf i with dirty := false } with
    disk := update c.disk (c.buf i).blockno (c.buf i).data }

/-- `bpin` as `log_write` calls it. -/
def bpin (c : Cache P) (i : Fin NBUF) : Cache P :=
  c.setBuf i { c.buf i with refcnt := (c.buf i).refcnt + 1, pins := (c.buf i).pins + 1 }

def bunpin (c : Cache P) (i : Fin NBUF) : Cache P :=
  c.setBuf i { c.buf i with refcnt := (c.buf i).refcnt - 1, pins := (c.buf i).pins - 1 }

/-- The call of `brelse` for the buffer at position `k`, up to `releasesleep`. -/
def brelse (c : Cache P) (p : P) (k : ℕ) (i : Fin NBUF) : Cache P :=
  ((c.setBuf i { c.buf i with lock := none }).setStack p ((c.stack p).eraseIdx k)).setMicro p (.dec i)

/-- A call that `commit` makes, when the in-memory header lists `lh`. -/
def exec (c : Cache P) (p : P) (lh : List ℕ) : Cmd → Option (Cache P)
  | .bread b => some (c.bread p ROOTDEV b)
  | .memmove dst src =>
    match (c.stack p)[dst]?, (c.stack p)[src]? with
    | some i, some j => some (c.store i (c.buf j).data)
    | _, _ => none
  | .putHead => (c.stack p)[0]?.map fun i => c.store i (Log.putHead lh (c.buf i).data)
  | .getHead => none
  | .bwrite k => (c.stack p)[k]?.map c.bwrite
  | .bunpin k => (c.stack p)[k]?.map c.bunpin
  | .brelse k => (c.stack p)[k]?.map (c.brelse p k)
  | .clear => some c

/-! ### The flat array -/

/-- A store of `commit` is one for the flat array when it is to the log area; elsewhere `commit`
must not be noticed. -/
def storeEv (c : Cache P) (L : LogArea) (i : Fin NBUF) (v : Block) : List Ev :=
  if L.Mem (c.buf i).blockno then [.store (c.buf i).blockno v] else []

/-- What can be seen of a call that `commit` makes. -/
def cmdEv (c : Cache P) (L : LogArea) (p : P) (lh : List ℕ) : Cmd → List Ev
  | .memmove dst src =>
    match (c.stack p)[dst]?, (c.stack p)[src]? with
    | some i, some j => c.storeEv L i (c.buf j).data
    | _, _ => []
  | .putHead =>
    match (c.stack p)[0]? with
    | some i => c.storeEv L i (Log.putHead lh (c.buf i).data)
    | none => []
  | _ => []

end Cache

/-- The cache and the log. -/
structure Sys (P : Type) where
  grp : Log.Group P
  cache : Cache P

/-- What a process can do next.  The first four are the steps of `begin_op` and `end_op`, `advance`
goes on with a call of `bio.c`, and `commit` makes the next call of `commit`. -/
inductive Act (P : Type) where
  | call (p : P)
  | test (p : P)
  | endOp (p : P)
  | finish (p : P)
  | bread (p : P) (dev b : ℕ)
  | advance (p : P)
  /-- Store `v` into the data of the buffer at position `k`. -/
  | modify (p : P) (k : ℕ) (v : Block)
  | bwrite (p : P) (k : ℕ)
  | logWrite (p : P) (k : ℕ)
  | brelse (p : P) (k : ℕ)
  | commit (p : P)

namespace Sys

variable {P : Type} [DecidableEq P]

/-- A process that is in no call of `bio.c` or `log.c`. -/
def Free (s : Sys P) (p : P) : Prop :=
  s.cache.micro p = .idle ∧ (s.grp.pc p = .outside ∨ s.grp.pc p = .inOp)
  deriving Decidable

/-- A step of the log alone. -/
def group (s : Sys P) (p : P) (a : Log.Act P) : Option (Sys P) :=
  if s.cache.micro p = .idle then (Log.Group.step s.grp a).map fun g => { s with grp := g } else none

/-- A call of a client for the buffer at position `k`. -/
def onBuf (s : Sys P) (p : P) (k : ℕ) (f : Fin NBUF → Option (Sys P)) : Option (Sys P) :=
  if s.Free p then (s.cache.stack p)[k]?.bind f else none

/-- `log_write` for buffer `i`: the log's part, and `bpin` when the block is new in the log. -/
def logWrite (s : Sys P) (p : P) (i : Fin NBUF) : Option (Sys P) :=
  (Log.Group.step s.grp (.write p (s.cache.buf i).blockno)).map fun g =>
    match s.grp.log.logWrite (s.cache.buf i).blockno with
    | .ok (_, new) =>
      let c := if new then s.cache.bpin i else s.cache
      ⟨g, c.setBuf i { c.buf i with dirty := false }⟩
    | .error _ => ⟨g, s.cache⟩

/-- The next call of `commit`. -/
def commit (s : Sys P) (p : P) : Option (Sys P) :=
  match s.grp.pc p with
  | .commit (c :: _) =>
    (Log.Group.step s.grp (.commit p)).bind fun g => (s.cache.exec p s.grp.log.lh c).map fun c' => ⟨g, c'⟩
  | _ => none

def step (s : Sys P) (a : Act P) : Option (Sys P) :=
  if s.cache.noBuffers ∨ s.grp.panicked.isSome then none else
  match a with
  | .call p => s.group p (.call p)
  | .test p => s.group p (.test p)
  | .endOp p => s.group p (.endOp p)
  | .finish p => s.group p (.finish p)
  | .bread p dev b => if s.Free p then some { s with cache := s.cache.bread p dev b } else none
  | .advance p => (s.cache.advance p).map fun c => { s with cache := c }
  | .modify p k v => s.onBuf p k fun i => some { s with cache := s.cache.store i v }
  | .bwrite p k => s.onBuf p k fun i => some { s with cache := s.cache.bwrite i }
  | .logWrite p k => s.onBuf p k fun i => s.logWrite p i
  | .brelse p k => s.onBuf p k fun i => some { s with cache := s.cache.brelse p k i }
  | .commit p => if s.cache.micro p = .idle then s.commit p else none

def observe (s : Sys P) : Act P → List Ev
  | .advance p =>
    match s.cache.micro p with
    | .fill i b => [.ret b (s.cache.filled i).data]
    | _ => []
  | .modify p k v => (s.cache.stack p)[k]?.toList.map fun i => .store (s.cache.buf i).blockno v
  | .commit p =>
    match s.grp.pc p with
    | .commit (c :: _) => s.cache.cmdEv s.grp.log.area p s.grp.log.lh c
    | _ => []
  | _ => []

/-! ### The discipline of the clients -/

/-- The buffer at position `k`, if there is one, satisfies `Q`. -/
def AtBuf (s : Sys P) (p : P) (k : ℕ) (Q : Buf P → Prop) : Prop :=
  ∀ i ∈ (s.cache.stack p)[k]?, Q (s.cache.buf i)

instance (s : Sys P) (p : P) (k : ℕ) (Q : Buf P → Prop) [DecidablePred Q] : Decidable (s.AtBuf p k Q) := by
  unfold AtBuf
  cases (s.cache.stack p)[k]? with
  | none => exact isTrue (by simp)
  | some i => exact decidable_of_iff (Q (s.cache.buf i)) (by simp)

/-- The buffer at position `k` holds a block outside the log area. -/
abbrev Outside (s : Sys P) (p : P) (k : ℕ) : Prop :=
  s.AtBuf p k fun x => ¬ s.grp.log.area.Mem x.blockno

/-- Clients use the one device, store only to blocks outside the log area, call `bwrite` and
`log_write` inside operations, and release no buffer that they modified after its last `bwrite` or
`log_write`. -/
def Disciplined (s : Sys P) : Act P → Prop
  | .bread _ dev _ => dev = ROOTDEV
  | .modify p k _ => s.Outside p k
  | .bwrite p k => s.grp.pc p = .inOp ∧ s.Outside p k
  | .logWrite p k => s.grp.pc p = .inOp ∧ s.Outside p k
  | .brelse p k => s.AtBuf p k fun x => x.dirty = false
  | _ => True

instance (s : Sys P) (a : Act P) : Decidable (s.Disciplined a) := by
  cases a <;> unfold Disciplined <;> infer_instance

end Sys

end Xv6.Bio
