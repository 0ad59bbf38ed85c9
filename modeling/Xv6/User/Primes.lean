import Xv6.Lib.Run

/-!
# `primes.c`

The chain of processes of `primes`, each at the call that it makes next, over kernel pipes.  A pass under `pi->lock`
of `pipewrite` or `piperead` is one step, and so is every other call; a process that sleeps in one of them makes no
step until it can go on.  A `printf`, with its many calls of `write`, is one step too: only the last process of the
chain prints.  A pipe is open at an end as long as a process has a descriptor for it.  What the calls write to and
read from each pipe is recorded.
-/

namespace Xv6.User.Primes

open Lib

abbrev PIPESIZE : ℕ := 512

abbrev Byte : Type := BitVec 8

/-- `int`. -/
abbrev Int32 : Type := BitVec 32

/-- The bytes of an `int` in memory. -/
def toBytes (v : Int32) : List Byte := (List.range 4).map fun k => BitVec.ofNat 8 (v.toNat / 256 ^ k)

def ofBytes (bytes : List Byte) : Int32 := BitVec.ofNat 32 (bytes.foldr (fun b n => b.toNat + 256 * n) 0)

/-- The call that a process makes next, with its variables: `fd` and `p` are numbers of pipes, `j` bytes of a `write`
have been written. -/
inductive Code where
  | mainPipe
  | mainFork (p : ℕ)
  | mainClose0 (p : ℕ)
  | mainWrite (p : ℕ) (i : Int32) (j : ℕ)
  | mainClose1 (p : ℕ)
  /-- `close(p[1])` and `close(fd)` in a child; there is no `fd` in the child of `main`. -/
  | child (p : ℕ) (fd : Option ℕ)
  | childFd (p fd : ℕ)
  /-- `read(fd, &num, sizeof(num))`. -/
  | first (fd : ℕ)
  | closeFirst (fd : ℕ)
  | print (fd : ℕ) (num : Int32)
  | pipe (fd : ℕ) (num : Int32)
  | fork (fd : ℕ) (num : Int32) (p : ℕ)
  | close0 (fd : ℕ) (num : Int32) (p : ℕ)
  /-- `read(fd, &tmp, sizeof(tmp))`. -/
  | read (fd : ℕ) (num : Int32) (p : ℕ) (tmp : Int32)
  | write (fd : ℕ) (num : Int32) (p : ℕ) (tmp : Int32) (j : ℕ)
  | close1 (fd p : ℕ)
  | closeFd (fd : ℕ)
  | wait
  | exited
  deriving DecidableEq

structure Proc where
  parent : Option ℕ
  code : Code
  /-- The open descriptors: a pipe, and whether it is the write end. -/
  fds : List (ℕ × Bool)

structure Pipe where
  buf : List Byte
  /-- The numbers that have been passed to `write`, and what the calls of `read` have returned. -/
  written : List Int32
  got : List (List Byte)

structure Sys where
  procs : List Proc
  pipes : List Pipe
  /-- The numbers in the lines printed. -/
  out : List Int32

namespace Sys

/-- A process has a descriptor for the end. -/
def isOpen (s : Sys) (k : ℕ) (writable : Bool) : Bool := s.procs.any fun q => q.fds.contains (k, writable)

/-- `pipe(p)` makes pipe `s.pipes.length`. -/
def addPipe (s : Sys) : Sys := { s with pipes := s.pipes ++ [⟨[], [], []⟩] }

def setPipe (s : Sys) (k : ℕ) (pi : Pipe) : Sys := { s with pipes := s.pipes.set k pi }

/-- Process `x`, which is `q`, goes to `code` with the descriptors `fds`. -/
def goto (s : Sys) (x : ℕ) (q : Proc) (code : Code) (fds : List (ℕ × Bool)) : Sys :=
  { s with procs := s.procs.set x { q with code := code, fds := fds } }

def addProc (s : Sys) (q : Proc) : Sys := { s with procs := s.procs ++ [q] }

/-- A pass of `pipewrite`: the bytes written after it, 4 when the call returns.  `none` when the pipe is full. -/
def pipewrite (s : Sys) (k : ℕ) (v : Int32) (j : ℕ) : Option (Sys × ℕ) :=
  match s.pipes[k]? with
  | none => none
  | some pi =>
    if s.isOpen k false = false then some (s, 4)
    else if pi.buf.length = PIPESIZE then none
    else
      let n := min (4 - j) (PIPESIZE - pi.buf.length)
      some (s.setPipe k { pi with
        buf := pi.buf ++ ((toBytes v).drop j).take n
        written := if j = 0 then pi.written ++ [v] else pi.written }, j + n)

/-- `piperead` of 4 bytes into a variable: what it returns, and the variable.  `none` when the pipe is empty and its
write end is open. -/
def piperead (s : Sys) (k : ℕ) (old : Int32) : Option (Sys × List Byte × Int32) :=
  match s.pipes[k]? with
  | none => none
  | some pi =>
    if pi.buf = [] ∧ s.isOpen k true = true then none
    else
      let got := pi.buf.take 4
      some (s.setPipe k { pi with buf := pi.buf.drop 4, got := pi.got ++ [got] }, got,
        ofBytes (got ++ (toBytes old).drop got.length))

/-- A child has exited, or there is none. -/
def waitOk (s : Sys) (x : ℕ) : Bool :=
  (s.procs.any fun q => q.parent = some x && q.code = .exited) || !(s.procs.any fun q => q.parent = some x)

end Sys

/-- The test of the loop of `main`; `N` is the bound. -/
def mainLoop (N : Int32) (p : ℕ) (i : Int32) : Code := if i.sle N then .mainWrite p i 0 else .mainClose1 p

/-- The next call of process `x`, which is `q`; `none` when it sleeps or has exited. -/
def next (N : Int32) (s : Sys) (x : ℕ) (q : Proc) : Option Sys :=
  let n := s.pipes.length
  match q.code with
  | .mainPipe => some (s.addPipe.goto x q (.mainFork n) (q.fds ++ [(n, false), (n, true)]))
  | .mainFork p => some ((s.goto x q (.mainClose0 p) q.fds).addProc ⟨some x, .child p none, q.fds⟩)
  | .mainClose0 p => some (s.goto x q (mainLoop N p 2) (q.fds.erase (p, false)))
  | .mainWrite p i j =>
    (s.pipewrite p i j).map fun (s, j) => s.goto x q (if j < 4 then .mainWrite p i j else mainLoop N p (i + 1)) q.fds
  | .mainClose1 p => some (s.goto x q .wait (q.fds.erase (p, true)))
  | .child p none => some (s.goto x q (.first p) (q.fds.erase (p, true)))
  | .child p (some fd) => some (s.goto x q (.childFd p fd) (q.fds.erase (p, true)))
  | .childFd p fd => some (s.goto x q (.first p) (q.fds.erase (fd, false)))
  | .first fd =>
    (s.piperead fd 0).map fun (s, got, num) => s.goto x q (if got = [] then .closeFirst fd else .print fd num) q.fds
  | .closeFirst _ => some (s.goto x q .exited [])
  | .print fd num => some ({ s with out := s.out ++ [num] }.goto x q (.pipe fd num) q.fds)
  | .pipe fd num => some (s.addPipe.goto x q (.fork fd num n) (q.fds ++ [(n, false), (n, true)]))
  | .fork fd num p => some ((s.goto x q (.close0 fd num p) q.fds).addProc ⟨some x, .child p (some fd), q.fds⟩)
  | .close0 fd num p => some (s.goto x q (.read fd num p 0) (q.fds.erase (p, false)))
  | .read fd num p tmp =>
    (s.piperead fd tmp).map fun (s, got, tmp) =>
      s.goto x q (if got = [] then .close1 fd p
        else if tmp.srem num ≠ 0 then .write fd num p tmp 0 else .read fd num p tmp) q.fds
  | .write fd num p tmp j =>
    (s.pipewrite p tmp j).map fun (s, j) =>
      s.goto x q (if j < 4 then .write fd num p tmp j else .read fd num p tmp) q.fds
  | .close1 fd p => some (s.goto x q (.closeFd fd) (q.fds.erase (p, true)))
  | .closeFd fd => some (s.goto x q .wait (q.fds.erase (fd, false)))
  | .wait => if s.waitOk x then some (s.goto x q .exited []) else none
  | .exited => none

def step (N : Int32) (s : Sys) (x : ℕ) : Option Sys :=
  match s.procs[x]? with
  | some q => next N s x q
  | none => none

def start : Sys := ⟨[⟨none, .mainPipe, []⟩], [], []⟩

end Xv6.User.Primes
