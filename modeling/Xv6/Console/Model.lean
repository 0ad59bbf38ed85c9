import Xv6.Lib.Run
import Xv6.Lib.Ring

/-!
# `console.c`: the input side of the console

`consoleintr` holds `cons.lock` from its first line to its last, so that a character is one step, taken
when the lock is free.  A call of `consoleread` takes one step for each pass of its loop and holds the
lock over all of them but for `sleep`, which releases it and goes to sleep in one step.  A break, the
release of the lock and the return are one step.
-/

namespace Xv6.Console

open Lib Function

abbrev INPUT_BUF_SIZE : ℕ := 128

abbrev Byte : Type := BitVec 8

/-- `C('P')`, `C('U')`, `C('H')`, delete, `C('D')`, newline and carriage return. -/
abbrev ctrlP : Byte := 16
abbrev ctrlU : Byte := 21
abbrev ctrlH : Byte := 8
abbrev delete : Byte := 127
abbrev ctrlD : Byte := 4
abbrev newline : Byte := 10
abbrev carriageReturn : Byte := 13

/-- Where a process stands. -/
inductive Code where
  | idle
  /-- `consoleread(n)` has been called. -/
  | start (n : ℤ)
  /-- The loop of `consoleread`; the lock is held. -/
  | loop (target n : ℤ)
  | asleep (target n : ℤ)
  | woken (target n : ℤ)

structure State (P : Type) where
  buf : Fin INPUT_BUF_SIZE → Byte
  r : BitVec 32
  w : BitVec 32
  e : BitVec 32
  /-- The reader that holds `cons.lock`. -/
  lock : Option P
  code : P → Code
  killed : P → Bool

def init {P : Type} : State P := ⟨fun _ => 0, 0, 0, 0, none, fun _ => .idle, fun _ => false⟩

inductive Act (P : Type) where
  /-- A character arrives. -/
  | intr (c : Byte)
  | call (p : P) (n : ℤ)
  | kill (p : P)
  /-- The next step of `p`. -/
  | go (p : P)

/-- What can be seen of a step. -/
inductive Event (P : Type) where
  | input (c : Byte)
  /-- A character is echoed; a character is rubbed out. -/
  | echo (c : Byte)
  | rubout
  /-- `cons.w` moves over these bytes. -/
  | commit (l : List Byte)
  | deliver (p : P) (b : Byte)
  /-- A read takes `^D` out of the buffer and returns `v`. -/
  | eof (p : P) (v : ℤ)
  /-- A read meets `^D`, leaves it in the buffer and returns `v`. -/
  | saved (p : P) (v : ℤ)
  | ret (p : P) (v : ℤ)
  deriving DecidableEq

section

variable {P : Type}

/-- The buffer from `a` to `b`. -/
def State.between (s : State P) (a b : BitVec 32) : List Byte := Ring.contents s.buf a b

/-- The loop of the kill-line character; it runs at most `e - w` times. -/
def killLine (buf : Fin INPUT_BUF_SIZE → Byte) (w : BitVec 32) : ℕ → BitVec 32 → BitVec 32
  | 0, e => e
  | fuel + 1, e =>
    if e ≠ w ∧ buf (Ring.cell _ (e - 1)) ≠ newline then killLine buf w fuel (e - 1) else e

/-- `wakeup(&cons.r)`. -/
def wakeup (code : P → Code) (p : P) : Code :=
  match code p with
  | .asleep target n => .woken target n
  | k => k

/-- Store a character, which has been echoed. -/
def State.put (s : State P) (c : Byte) : State P :=
  { s with buf := update s.buf (Ring.cell _ s.e) c, e := s.e + 1 }

/-- The line is complete. -/
def State.commits (s : State P) (c : Byte) : Prop :=
  c = newline ∨ c = ctrlD ∨ s.e - s.r = BitVec.ofNat 32 INPUT_BUF_SIZE
  deriving Decidable

def normalize (c : Byte) : Byte := if c = carriageReturn then newline else c

def consoleintr (s : State P) (c : Byte) : State P :=
  if c = ctrlP then s
  else if c = ctrlU then { s with e := killLine s.buf s.w (s.e - s.w).toNat s.e }
  else if c = ctrlH ∨ c = delete then if s.e ≠ s.w then { s with e := s.e - 1 } else s
  else if c ≠ 0 ∧ s.e - s.r < BitVec.ofNat 32 INPUT_BUF_SIZE then
    let t := s.put (normalize c)
    if t.commits (normalize c) then { t with w := t.e, code := wakeup t.code } else t
  else s

/-- What `consoleintr` shows. -/
def echoes (s : State P) (c : Byte) : List (Event P) :=
  if c = ctrlP then []
  else if c = ctrlU then List.replicate (s.e - killLine s.buf s.w (s.e - s.w).toNat s.e).toNat .rubout
  else if c = ctrlH ∨ c = delete then if s.e ≠ s.w then [.rubout] else []
  else if c ≠ 0 ∧ s.e - s.r < BitVec.ofNat 32 INPUT_BUF_SIZE then
    let t := s.put (normalize c)
    if t.commits (normalize c) then [.echo (normalize c), .commit (t.between t.w t.e)] else [.echo (normalize c)]
  else []

variable [DecidableEq P]

def State.setCode (s : State P) (p : P) (k : Code) : State P := { s with code := update s.code p k }

/-- Release the lock and return. -/
def State.leave (s : State P) (p : P) : State P := { s.setCode p .idle with lock := none }

def State.next (s : State P) : Byte := s.buf (Ring.cell _ s.r)

def readPass (s : State P) (p : P) (target n : ℤ) : State P × List (Event P) :=
  if n ≤ 0 then (s.leave p, [.ret p (target - n)])
  else if s.r = s.w then
    if s.killed p then (s.leave p, [.ret p (-1)])
    else ({ s.setCode p (.asleep target n) with lock := none }, [])
  else if s.next = ctrlD then
    if n < target then (s.leave p, [.saved p (target - n)])
    else ({ s.leave p with r := s.r + 1 }, [.eof p (target - n)])
  else if s.next = newline then
    ({ s.leave p with r := s.r + 1 }, [.deliver p s.next, .ret p (target - (n - 1))])
  else ({ s.setCode p (.loop target (n - 1)) with r := s.r + 1 }, [.deliver p s.next])

/-- The next step of `p`, and what it shows. -/
def go (s : State P) (p : P) : Option (State P × List (Event P)) :=
  match s.code p with
  | .idle | .asleep _ _ => none
  | .start n => if s.lock = none then some ({ s.setCode p (.loop n n) with lock := some p }, []) else none
  | .woken target n =>
    if s.lock = none then some ({ s.setCode p (.loop target n) with lock := some p }, []) else none
  | .loop target n => some (readPass s p target n)

def act (s : State P) : Act P → Option (State P × List (Event P))
  | .intr c => if s.lock = none then some (consoleintr s c, .input c :: echoes s c) else none
  | .call p n =>
    match s.code p with
    | .idle => some (s.setCode p (.start n), [])
    | _ => none
  | .kill p =>
    some ({ s with
      killed := update s.killed p true
      code := update s.code p (wakeup s.code p) }, [])
  | .go p => go s p

def step (s : State P) (a : Act P) : Option (State P) := (act s a).map Prod.fst

def emit (s : State P) (a : Act P) : List (Event P) := (act s a).elim [] Prod.snd

end

end Xv6.Console
