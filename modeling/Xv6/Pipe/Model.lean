import Xv6.Lib.Run
import Xv6.Lib.Ring

/-!
# `pipe.c`: one pipe and any number of processes

The steps are the acquisitions and releases of `pi->lock`, the passes of the loops of `pipewrite` and
`piperead`, and the calls of `sleep` and `wakeup`; `kill` may come between any two of them.  `sleep`
releases the lock and goes to sleep in one step, and `wakeup` wakes all sleepers in one step: the
caller holds `pi->lock`, so nobody goes to sleep on this pipe while it goes through the table.
-/

namespace Xv6.Pipe

open Lib Function

/-- `PIPESIZE`. -/
abbrev PIPESIZE : ℕ := 512

abbrev Byte : Type := BitVec 8

/-- `&pi->nread`, on which readers sleep, and `&pi->nwrite`. -/
inductive Chan where
  | nread | nwrite
  deriving DecidableEq

/-- A call `pipewrite(pi, addr, n)`: `copyin` gives the byte at `addr + i`, or fails. -/
structure Write where
  src : ℕ → Option Byte
  n : ℤ

/-- A call `piperead(pi, addr, n)`: whether `copyout` to `addr + i` succeeds. -/
structure Read where
  n : ℤ
  ok : ℕ → Bool

/-- Where a process stands. -/
inductive Code where
  | idle
  | write (w : Write)
  /-- The loop of `pipewrite`, at `i`. -/
  | wloop (w : Write) (i : ℕ)
  /-- The pipe is full: `wakeup`, then `sleep`. -/
  | wfull (w : Write) (i : ℕ)
  | wsleep (w : Write) (i : ℕ)
  | wasleep (w : Write) (i : ℕ)
  /-- After the loop: `wakeup`. -/
  | wend (w : Write) (i : ℕ)
  /-- Release the lock and return `v`. -/
  | wret (w : Write) (i : ℕ) (v : ℤ)
  | read (r : Read)
  | rloop (r : Read)
  | rsleep (r : Read)
  | rasleep (r : Read)
  /-- The second loop of `piperead`; `got` has been copied out. -/
  | rcopy (r : Read) (got : List Byte)
  | rend (r : Read) (got : List Byte)
  | rret (r : Read) (got : List Byte) (v : ℤ)
  | close (writable : Bool)
  | cset (writable : Bool)
  | cwake (writable : Bool)
  | crel

/-- `struct pipe`, and what its users do. -/
structure State (P : Type) where
  data : Fin PIPESIZE → Byte
  nread : BitVec 32
  nwrite : BitVec 32
  readopen : Bool
  writeopen : Bool
  lock : Option P
  code : P → Code
  /-- The channel on which a process is SLEEPING. -/
  asleep : P → Option Chan
  killed : P → Bool

/-- After `pipealloc`. -/
def init (P : Type) : State P where
  data _ := 0
  nread := 0
  nwrite := 0
  readopen := true
  writeopen := true
  lock := none
  code _ := .idle
  asleep _ := none
  killed _ := false

inductive Act (P : Type) where
  | go (p : P)
  | write (p : P) (w : Write)
  | read (p : P) (r : Read)
  | close (p : P) (writable : Bool)
  | kill (p : P)

section

variable {P : Type} [DecidableEq P] (s : State P) (p : P)

def State.goto (k : Code) : State P := { s with code := update s.code p k }

def State.acquire (k : Code) : Option (State P) := if s.lock = none then some ({ s with lock := some p }.goto p k) else none

def State.release (k : Code) : Option (State P) := if s.lock = some p then some ({ s with lock := none }.goto p k) else none

def State.sleep (chan : Chan) (k : Code) : Option (State P) :=
  { s with asleep := update s.asleep p (some chan) }.release p k

def State.wakeup (chan : Chan) : State P :=
  { s with asleep := fun q => if s.asleep q = some chan then none else s.asleep q }

/-- The end of `sleep`: acquire the lock again. -/
def State.resume (k : Code) : Option (State P) := if s.asleep p = none then s.acquire p k else none

def State.full : Prop := s.nwrite = s.nread + BitVec.ofNat 32 PIPESIZE
  deriving Decidable

/-- `pi->data[pi->nwrite++ % PIPESIZE] = ch`. -/
def State.put (b : Byte) : State P :=
  { s with data := update s.data (Ring.cell PIPESIZE s.nwrite) b, nwrite := s.nwrite + 1 }

/-- `pi->data[pi->nread % PIPESIZE]`. -/
def State.head : Byte := s.data (Ring.cell PIPESIZE s.nread)

/-- One pass of the loop of `pipewrite`. -/
def wloop (w : Write) (i : ℕ) : State P :=
  if (i : ℤ) < w.n then
    if s.readopen = false ∨ s.killed p = true then s.goto p (.wret w i (-1))
    else if s.full then s.goto p (.wfull w i)
    else
      match w.src i with
      | none => s.goto p (.wend w i)
      | some b => (s.put b).goto p (.wloop w (i + 1))
  else s.goto p (.wend w i)

/-- One pass of the first loop of `piperead`. -/
def rloop (r : Read) : State P :=
  if s.nread = s.nwrite ∧ s.writeopen = true then
    if s.killed p = true then s.goto p (.rret r [] (-1)) else s.goto p (.rsleep r)
  else s.goto p (.rcopy r [])

/-- One pass of the second loop of `piperead`. -/
def rcopy (r : Read) (got : List Byte) : State P :=
  if (got.length : ℤ) < r.n ∧ s.nread ≠ s.nwrite then
    if r.ok got.length then { s with nread := s.nread + 1 }.goto p (.rcopy r (got ++ [s.head]))
    else { s with nread := s.nread + 1 }.goto p (.rend r got)
  else s.goto p (.rend r got)

/-- The next step of process `p`. -/
def go : Option (State P) :=
  match s.code p with
  | .idle => none
  | .write w => s.acquire p (.wloop w 0)
  | .wloop w i => some (wloop s p w i)
  | .wfull w i => some ((s.wakeup .nread).goto p (.wsleep w i))
  | .wsleep w i => s.sleep p .nwrite (.wasleep w i)
  | .wasleep w i => s.resume p (.wloop w i)
  | .wend w i => some ((s.wakeup .nread).goto p (.wret w i i))
  | .wret _ _ _ => s.release p .idle
  | .read r => s.acquire p (.rloop r)
  | .rloop r => some (rloop s p r)
  | .rsleep r => s.sleep p .nread (.rasleep r)
  | .rasleep r => s.resume p (.rloop r)
  | .rcopy r got => some (rcopy s p r got)
  | .rend r got => some ((s.wakeup .nwrite).goto p (.rret r got got.length))
  | .rret _ _ _ => s.release p .idle
  | .close writable => s.acquire p (.cset writable)
  | .cset true => some ({ s with writeopen := false }.goto p (.cwake true))
  | .cset false => some ({ s with readopen := false }.goto p (.cwake false))
  | .cwake true => some ((s.wakeup .nread).goto p .crel)
  | .cwake false => some ((s.wakeup .nwrite).goto p .crel)
  | .crel => s.release p .idle

/-- A call, by a process that is in none. -/
def call (k : Code) : Option (State P) :=
  match s.code p with
  | .idle => some (s.goto p k)
  | _ => none

/-- `kill` sets the flag and wakes the process. -/
def kill : State P :=
  { s with killed := update s.killed p true, asleep := update s.asleep p none }

def step : Act P → Option (State P)
  | .go p => go s p
  | .write p w => call s p (.write w)
  | .read p r => call s p (.read r)
  | .close p writable => call s p (.close writable)
  | .kill p => some (kill s p)

end

/-! ### What can be seen of the steps -/

inductive Event (P : Type) where
  /-- A byte is appended to the pipe, or taken from it. -/
  | append (p : P) (b : Byte)
  | take (p : P) (b : Byte)
  /-- `pipewrite` returns `v` with its counter at `i`. -/
  | wret (p : P) (w : Write) (i : ℕ) (v : ℤ)
  /-- `piperead` returns `v` with `got` copied out. -/
  | rret (p : P) (r : Read) (got : List Byte) (v : ℤ)

section

variable {P : Type}

def emit (s : State P) : Act P → List (Event P)
  | .go p =>
    match s.code p with
    | .wloop w i =>
      if (i : ℤ) < w.n ∧ s.readopen = true ∧ s.killed p = false ∧ ¬ s.full then
        (w.src i).toList.map (.append p)
      else []
    | .rcopy r got => if (got.length : ℤ) < r.n ∧ s.nread ≠ s.nwrite then [.take p s.head] else []
    | .wret w i v => [.wret p w i v]
    | .rret r got v => [.rret p r got v]
    | _ => []
  | _ => []

/-- The bytes appended by writes, with who wrote them. -/
def appended (es : List (Event P)) : List (P × Byte) :=
  es.filterMap fun
    | .append p b => some (p, b)
    | _ => none

/-- The bytes taken out of the pipe. -/
def taken (es : List (Event P)) : List Byte :=
  es.filterMap fun
    | .take _ b => some b
    | _ => none

/-- The bytes returned by reads. -/
def returned (es : List (Event P)) : List Byte :=
  es.flatMap fun
    | .rret _ _ got _ => got
    | _ => []

/-- The unread bytes in the ring. -/
def State.ring (s : State P) : List Byte := Ring.contents s.data s.nread s.nwrite

end

end Xv6.Pipe
