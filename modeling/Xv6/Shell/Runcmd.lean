import Xv6.Shell.Parse
import Xv6.Lib.Run
import Xv6.Param

/-!
# `sh.c`: `runcmd`

The processes that `runcmd` makes of a command tree, each with the calls that it has still to make and its
open descriptors.  They run in any order.  A descriptor refers to what the shell had open, to the file that a
redirection opened, or to an end of the pipe that a node of the tree made; files and pipes are named by the
node, which is sound because no node is run twice.  `open`, `pipe` and `fork` succeed as far as the descriptors
of the process allow; a program runs until it exits.
-/

namespace Xv6.Shell

open Lib Function

/-- The descriptor that a redirection replaces. -/
def Mode.fd : Mode → Fin NOFILE
  | .input => 0
  | .output | .append => 1

/-- A command in the tree: the way to it from the root, the last turn first. -/
abbrev Node : Type := List ℕ

inductive Obj where
  /-- What the shell has open as descriptor `fd`. -/
  | shell (fd : ℕ)
  | file (n : Node)
  | pipe (n : Node) (writable : Bool)
  deriving DecidableEq

abbrev Fds : Type := Fin NOFILE → Option Obj

/-- What the child of a `fork` does before it calls `runcmd`. -/
inductive Side where
  | plain | left | right

/-- The calls of a process. -/
inductive Instr where
  | run (n : Node) (c : Cmd)
  | open (n : Node)
  | close (fd : Fin NOFILE)
  /-- `dup(p[0])` and `dup(p[1])`. -/
  | dupP (writable : Bool)
  | closeP (writable : Bool)
  | fork (side : Side) (n : Node) (c : Cmd)
  | wait
  /-- The program that `exec` has started. -/
  | program
  | exit

structure Proc where
  parent : Option ℕ
  node : Node
  /-- Empty when the process has exited. -/
  code : List Instr
  /-- The array `p` of `runcmd`. -/
  p : Fin NOFILE × Fin NOFILE
  ofile : Fds
  reaped : Bool

/-- A call of `exec`. -/
structure ExecCall where
  node : Node
  argv : List (List Char)
  ofile : Fds

structure Procs where
  procs : List Proc
  /-- The nodes on which `runcmd` has been called, and the calls of `exec`. -/
  done : List Node
  execs : List ExecCall

def fdalloc (ofile : Fds) (x : Obj) : Option (Fin NOFILE × Fds) :=
  ((List.finRange NOFILE).find? fun fd => (ofile fd).isNone).map fun fd => (fd, update ofile fd (some x))

/-- What a child does. -/
def Side.code (n : Node) (c : Cmd) : Side → List Instr
  | .plain => [.run n c]
  | .left => [.close 1, .dupP true, .closeP false, .closeP true, .run n c]
  | .right => [.close 0, .dupP false, .closeP false, .closeP true, .run n c]

/-- What a step of a process makes: the process after it, the child, and what has been run. -/
structure Made where
  proc : Proc
  child : Option Proc
  done : List Node
  execs : List ExecCall

def Proc.quietly (q : Proc) : Made := ⟨q, none, [], []⟩

/-- `runcmd(c)` up to its first call, that call included. -/
def Proc.runcmd (q : Proc) (n : Node) : Cmd → Made
  | .exec argv =>
    if argv = [] then ⟨{ q with node := n, code := [.exit] }, none, [n], []⟩
    else ⟨{ q with node := n, code := [.program] }, none, [n], [⟨n, argv, q.ofile⟩]⟩
  | .redir c r =>
    ⟨{ q with node := n, code := [.open n, .run (0 :: n) c], ofile := update q.ofile r.mode.fd none }, none, [n], []⟩
  | .list left right =>
    ⟨{ q with node := n, code := [.fork .plain (0 :: n) left, .wait, .run (1 :: n) right] }, none, [n], []⟩
  | .pipe left right =>
    match fdalloc q.ofile (.pipe n false) with
    | none => ⟨{ q with node := n, code := [.exit] }, none, [n], []⟩
    | some (fd0, ofile) =>
      match fdalloc ofile (.pipe n true) with
      | none => ⟨{ q with node := n, code := [.exit] }, none, [n], []⟩
      | some (fd1, ofile) =>
        ⟨{ q with
          node := n
          code := [.fork .left (0 :: n) left, .fork .right (1 :: n) right, .closeP false, .closeP true, .wait, .wait, .exit]
          p := (fd0, fd1)
          ofile := ofile }, none, [n], []⟩
  | .back c => ⟨{ q with node := n, code := [.fork .plain (0 :: n) c, .exit] }, none, [n], []⟩

/-- The next call of process `x`; a `wait` that returns. -/
def Proc.next (x : ℕ) (q : Proc) : Option Made :=
  match q.code with
  | [] => none
  | .run n c :: _ => some (q.runcmd n c)
  | .open n :: k =>
    match fdalloc q.ofile (.file n) with
    | some (_, ofile) => some { q with code := k, ofile := ofile }.quietly
    | none => some { q with code := [.exit] }.quietly
  | .close fd :: k => some { q with code := k, ofile := update q.ofile fd none }.quietly
  | .dupP w :: k =>
    match q.ofile (if w then q.p.2 else q.p.1) with
    | none => some { q with code := k }.quietly
    | some x =>
      match fdalloc q.ofile x with
      | some (_, ofile) => some { q with code := k, ofile := ofile }.quietly
      | none => some { q with code := k }.quietly
  | .closeP w :: k =>
    some { q with code := k, ofile := update q.ofile (if w then q.p.2 else q.p.1) none }.quietly
  | .fork side n c :: k =>
    some ⟨{ q with code := k }, some ⟨some x, n, side.code n c, q.p, q.ofile, false⟩, [], []⟩
  | .wait :: k => some { q with code := k }.quietly
  | .program :: _ => some { q with code := [], ofile := fun _ => none }.quietly
  | .exit :: _ => some { q with code := [], ofile := fun _ => none }.quietly

/-- An exited child of process `x` that it has not waited for. -/
def Proc.zombie (x : ℕ) (q : Proc) : Bool := q.parent = some x && q.code.isEmpty && !q.reaped

/-- The process goes on. -/
def Procs.put (s : Procs) (x : ℕ) (m : Made) : Procs :=
  ⟨s.procs.set x m.proc ++ m.child.toList, s.done ++ m.done, s.execs ++ m.execs⟩

def Procs.reap (s : Procs) (y : ℕ) : Procs :=
  { s with procs := s.procs.modify y fun q => { q with reaped := true } }

/-- Process `x` makes its next call.  `wait` takes a child that has exited, returns when there is no child
left, and otherwise sleeps. -/
def step (s : Procs) (x : ℕ) : Option Procs :=
  match s.procs[x]? with
  | none => none
  | some q =>
    match q.code with
    | .wait :: _ =>
      match s.procs.findIdx? (Proc.zombie x) with
      | some y => (q.next x).map fun m => (s.put x m).reap y
      | none =>
        if s.procs.any fun q => q.parent = some x && !q.reaped then none else (q.next x).map (s.put x)
    | _ => (q.next x).map (s.put x)

/-- The descriptors 0, 1 and 2, and no other. -/
def std (i o : Obj) : Fds := fun fd =>
  if fd = 0 then some i else if fd = 1 then some o else if fd = 2 then some (.shell 2) else none

/-- The process that the shell forks for a command line. -/
def start (root : Cmd) : Procs := ⟨[⟨none, [], [.run [] root], (0, 0), std (.shell 0) (.shell 1), false⟩], [], []⟩

/-! ### What the descriptors should be -/

/-- Node `n` of the tree is the command `c`, and its input and output are `i` and `o`. -/
inductive Wired (root : Cmd) : Node → Cmd → Obj → Obj → Prop
  | root : Wired root [] root (.shell 0) (.shell 1)
  | input : Wired root n (.redir c r) i o → r.mode.fd = 0 → Wired root (0 :: n) c (.file n) o
  | output : Wired root n (.redir c r) i o → r.mode.fd = 1 → Wired root (0 :: n) c i (.file n)
  | pipeLeft : Wired root n (.pipe l r) i o → Wired root (0 :: n) l i (.pipe n true)
  | pipeRight : Wired root n (.pipe l r) i o → Wired root (1 :: n) r (.pipe n false) o
  | listLeft : Wired root n (.list l r) i o → Wired root (0 :: n) l i o
  | listRight : Wired root n (.list l r) i o → Wired root (1 :: n) r i o
  | back : Wired root n (.back c) i o → Wired root (0 :: n) c i o

end Xv6.Shell
