import Xv6.Lib.Prog
import Xv6.Lib.Run
import Xv6.Param

/-!
# The table of open files, and pipes

`file.c`, the descriptors of `sysfile.c`, `pipealloc` and `pipeclose`, and what `fork`, `exit` and
`wait` do to open files.  Calls run one after the other.  What happens outside of the table is an
argument of the call: whether a path leads to an inode that can be opened, the page that `kalloc`
returns, whether `copyout` and `uvmcopy` succeed.  The inode of a file is left out.
-/

namespace Xv6.Ftable

open Lib Function

inductive FdType where
  | none | pipe | inode | device
  deriving DecidableEq

/-- `struct file`; `Q` are the pages of memory. -/
structure File (Q : Type) where
  type : FdType
  ref : ℕ
  readable : Bool
  writable : Bool
  pipe : Option Q

/-- `struct pipe`, as far as it is opened and closed. -/
structure Pipe where
  readopen : Bool
  writeopen : Bool

def Pipe.isOpen (pi : Pipe) (writable : Bool) : Bool := if writable then pi.writeopen else pi.readopen

inductive ProcState where
  | unused | used | zombie
  deriving DecidableEq

structure State (P Q : Type) where
  file : Fin NFILE → File Q
  ofile : P → Fin NOFILE → Option (Fin NFILE)
  proc : P → ProcState
  /-- The pages that are pipes. -/
  page : Q → Option Pipe
  /-- How often the page has become a pipe, and how often `pipeclose` was called for each end. -/
  opens : Q → ℕ
  closes : Q → Bool → ℕ

/-- The first process, and no open files. -/
def init {P : Type} (Q : Type) [DecidableEq P] (first : P) : State P Q where
  file _ := ⟨.none, 0, false, false, none⟩
  ofile _ _ := none
  proc p := if p = first then .used else .unused
  page _ := none
  opens _ := 0
  closes _ _ := 0

/-- Why a call does not return; `freedPipe` is a use of a pipe whose page has been freed. -/
inductive Stop where
  | filedup | fileclose | freedPipe
  deriving DecidableEq

abbrev M (P Q : Type) (α : Type) : Type := Prog (State P Q) Stop α

variable {P Q : Type}

def file (f : Fin NFILE) : M P Q (File Q) := do
  let s ← Prog.read
  pure (s.file f)

def State.setFile (s : State P Q) (f : Fin NFILE) (g : File Q → File Q) : State P Q :=
  { s with file := update s.file f (g (s.file f)) }

def setFile (f : Fin NFILE) (g : File Q → File Q) : M P Q Unit := Prog.modify fun s => s.setFile f g

def filealloc : M P Q (Option (Fin NFILE)) := do
  let s ← Prog.read
  match (List.finRange NFILE).find? fun f => (s.file f).ref = 0 with
  | some f => do
    setFile f fun x => { x with ref := 1 }
    pure (some f)
  | none => pure none

def filedup (f : Fin NFILE) : M P Q Unit := do
  let x ← file f
  if x.ref < 1 then Prog.stop .filedup else setFile f fun x => { x with ref := x.ref + 1 }

section

variable [DecidableEq Q]

def Pipe.close (pi : Pipe) (writable : Bool) : Pipe :=
  if writable then { pi with writeopen := false } else { pi with readopen := false }

def State.closeEnd (s : State P Q) (q : Q) (pi : Pipe) (writable : Bool) : State P Q :=
  { s with
    page := update s.page q
      (if (pi.close writable).readopen = false ∧ (pi.close writable).writeopen = false then none else some (pi.close writable))
    closes := update s.closes q (update (s.closes q) writable (s.closes q writable + 1)) }

def pipeclose (pipe : Option Q) (writable : Bool) : M P Q Unit := do
  let s ← Prog.read
  match pipe with
  | none => Prog.stop .freedPipe
  | some q =>
    match s.page q with
    | none => Prog.stop .freedPipe
    | some pi => Prog.modify fun s => s.closeEnd q pi writable

def fileclose (f : Fin NFILE) : M P Q Unit := do
  let ff ← file f
  if ff.ref < 1 then Prog.stop .fileclose
  else if 0 < ff.ref - 1 then setFile f fun x => { x with ref := x.ref - 1 }
  else do
    setFile f fun x => { x with ref := 0, type := .none }
    if ff.type = .pipe then pipeclose ff.pipe ff.writable else pure ()

/-- The stores of `pipealloc` to the new files and the new page. -/
def State.newPipe (s : State P Q) (f0 f1 : Fin NFILE) (q : Q) : State P Q :=
  { (s.setFile f0 fun x => { x with type := .pipe, readable := true, writable := false, pipe := some q }).setFile f1
      fun x => { x with type := .pipe, readable := false, writable := true, pipe := some q } with
    page := update s.page q (some ⟨true, true⟩)
    opens := update s.opens q (s.opens q + 1) }

/-- `pipealloc`; `page` is what `kalloc` returns. -/
def pipealloc (page : Option Q) : M P Q (Option (Fin NFILE × Fin NFILE)) := do
  match ← filealloc with
  | none => pure none
  | some f0 => do
    match ← filealloc with
    | none => do
      fileclose f0
      pure none
    | some f1 =>
      match page with
      | none => do
        fileclose f0
        fileclose f1
        pure none
      | some q => do
        Prog.modify fun s => s.newPipe f0 f1 q
        pure (some (f0, f1))

end

section

variable [DecidableEq P]

def State.setOfile (s : State P Q) (p : P) (fd : Fin NOFILE) (f : Option (Fin NFILE)) : State P Q :=
  { s with ofile := update s.ofile p (update (s.ofile p) fd f) }

def setOfile (p : P) (fd : Fin NOFILE) (f : Option (Fin NFILE)) : M P Q Unit :=
  Prog.modify fun s => s.setOfile p fd f

def setProc (p : P) (x : ProcState) : M P Q Unit :=
  Prog.modify fun s => { s with proc := update s.proc p x }

def fdalloc (p : P) (f : Fin NFILE) : M P Q (Option (Fin NOFILE)) := do
  let s ← Prog.read
  match (List.finRange NOFILE).find? fun fd => s.ofile p fd = none with
  | some fd => do
    setOfile p fd (some f)
    pure (some fd)
  | none => pure none

def argfd (p : P) (fd : ℕ) : M P Q (Option (Fin NOFILE × Fin NFILE)) := do
  let s ← Prog.read
  if h : fd < NOFILE then
    match s.ofile p ⟨fd, h⟩ with
    | some f => pure (some (⟨fd, h⟩, f))
    | none => pure none
  else pure none

/-- What `sys_open` finds: an inode or a device, and the mode. -/
structure Found where
  device : Bool
  readable : Bool
  writable : Bool

def opened (x : Found) (f : File Q) : File Q :=
  { f with type := if x.device then .device else .inode, readable := x.readable, writable := x.writable }

variable [DecidableEq Q]

/-- `sys_open`; `found` is `none` when it fails before it allocates a file. -/
def sysOpen (p : P) (found : Option Found) : M P Q ℤ := do
  match found with
  | none => pure (-1)
  | some x => do
    match ← filealloc with
    | none => pure (-1)
    | some f => do
      match ← fdalloc p f with
      | none => do
        fileclose f
        pure (-1)
      | some fd => do
        setFile f (opened x)
        pure fd.1

/-- `sys_dup`: the descriptor first, then the reference. -/
def sysDup (p : P) (fd : ℕ) : M P Q ℤ := do
  match ← argfd p fd with
  | none => pure (-1)
  | some (_, f) => do
    match ← fdalloc p f with
    | none => pure (-1)
    | some fd => do
      filedup f
      pure fd.1

/-- The error exits of `sys_pipe`. -/
def pipeBad (rf wf : Fin NFILE) : M P Q ℤ := do
  fileclose rf
  fileclose wf
  pure (-1)

/-- `sys_pipe`; `copied` says whether `copyout` succeeds. -/
def sysPipe (p : P) (page : Option Q) (copied : Bool) : M P Q ℤ := do
  match ← pipealloc page with
  | none => pure (-1)
  | some (rf, wf) => do
    match ← fdalloc p rf with
    | none => pipeBad rf wf
    | some fd0 => do
      match ← fdalloc p wf with
      | none => do
        setOfile p fd0 none
        pipeBad rf wf
      | some fd1 =>
        if copied then pure 0
        else do
          setOfile p fd0 none
          setOfile p fd1 none
          pipeBad rf wf

def sysClose (p : P) (fd : ℕ) : M P Q ℤ := do
  match ← argfd p fd with
  | none => pure (-1)
  | some (fd, f) => do
    setOfile p fd none
    fileclose f
    pure 0

/-- `fork` into the slot that `allocproc` finds; `memory` says whether `uvmcopy` succeeds. -/
def fork (p child : P) (memory : Bool) : M P Q ℤ := do
  let s ← Prog.read
  if s.proc child ≠ .unused then pure (-1)
  else do
    setProc child .used
    if memory then do
      Prog.eachM (fun fd => do
        let s ← Prog.read
        match s.ofile p fd with
        | some f => do
          filedup f
          setOfile child fd (some f)
        | none => pure ()) (List.finRange NOFILE)
      pure 1
    else do
      setProc child .unused
      pure (-1)

def exit (p : P) : M P Q ℤ := do
  Prog.eachM (fun fd => do
    let s ← Prog.read
    match s.ofile p fd with
    | some f => do
      fileclose f
      setOfile p fd none
    | none => pure ()) (List.finRange NOFILE)
  setProc p .zombie
  pure 0

/-- `wait` that finds the zombie `child`. -/
def wait (child : P) : M P Q ℤ := do
  let s ← Prog.read
  if s.proc child = .zombie then do
    setProc child .unused
    pure 1
  else pure (-1)

inductive Call (P Q : Type) where
  | open (found : Option Found)
  | dup (fd : ℕ)
  | pipe (page : Option Q) (copied : Bool)
  | close (fd : ℕ)
  | fork (child : P) (memory : Bool)
  /-- `exec`, whether it fails or not, keeps the open files. -/
  | exec
  | exit
  | wait (child : P)

def call (p : P) : Call P Q → M P Q ℤ
  | .open found => sysOpen p found
  | .dup fd => sysDup p fd
  | .pipe page copied => sysPipe p page copied
  | .close fd => sysClose p fd
  | .fork child memory => fork p child memory
  | .exec => pure 0
  | .exit => exit p
  | .wait child => wait child

/-- The call can be made: by a process in use, and `kalloc` returns a page that is free. -/
def Possible (s : State P Q) (p : P) (c : Call P Q) : Prop :=
  s.proc p = .used ∧
    match c with
    | .pipe (some q) _ => (s.page q).isNone = true
    | _ => True

instance (s : State P Q) (p : P) (c : Call P Q) : Decidable (Possible s p c) := by
  unfold Possible
  cases c with
  | pipe page copied => cases page <;> infer_instance
  | _ => infer_instance

/-- A call that returns. -/
def step (s : State P Q) (a : P × Call P Q) : Option (State P Q) :=
  if Possible s a.1 a.2 then
    match call a.1 a.2 s with
    | .ok (_, s') => some s'
    | .error _ => none
  else none

end

end Xv6.Ftable
