import Xv6.Lib.Run
import Xv6.Param

/-!
# The inode table under system calls

`iget`, `idup` and `iput` as far as they count references, and the system calls that hold them.  A call is the list
of what it does to the table, each a section under `itable.lock`; calls of different processes interleave there.
Which inodes a path leads over is an argument of the call, and so is how far it gets: `lookup` is also a call that
gives up after the lookup.  References in local variables are a stack, the last one first.
-/

namespace Xv6.Itable

open Lib Function

/-- An entry of the inode table. -/
abbrev Entry : Type := Fin NINODE

/-- What a call does to the tables. -/
inductive Op where
  | iget (inum : ℕ)
  /-- `idup(myproc()->cwd)`. -/
  | idupCwd
  /-- `iput` of the `k`-th reference. -/
  | iput (k : ℕ)
  /-- `filealloc` and `fdalloc` for the last reference, which is put when they fail. -/
  | openFile
  /-- `iput(p->cwd)` and `p->cwd = ip`. -/
  | setCwd
  | fileclose (fd : Fin NOFILE)
  | filedup (fd : Fin NOFILE)
  | fork (child : Fin NPROC)
  | exit
  deriving DecidableEq

/-- The inodes that `namex` goes through. -/
structure Path where
  absolute : Bool
  inums : List ℕ

/-- `namex`: the next inode is looked up before the last one is put. -/
def Path.namex (path : Path) : List Op :=
  (if path.absolute then .iget ROOTINO else .idupCwd) :: path.inums.flatMap fun inum => [.iget inum, .iput 1]

/-- How `create` ends: the inode becomes an open file, is put at once, or could not be linked. -/
inductive Created where
  | opened | dropped | failed

inductive Call where
  | lookup (path : Path)
  | open (path : Path)
  /-- `sys_open` with `O_CREATE`, `sys_mkdir` and `sys_mknod`. -/
  | create (dir : Path) (inum : ℕ) (result : Created)
  /-- `found` is what `dirlink` finds under the new name. -/
  | link (old dir : Path) (found : Option ℕ)
  | unlink (dir : Path) (inum : ℕ) (removed : Bool)
  | chdir (path : Path)
  | close (fd : Fin NOFILE)
  | dup (fd : Fin NOFILE)
  | fork (child : Fin NPROC)
  | exit

def Call.code : Call → List Op
  | .lookup path => path.namex ++ [.iput 0]
  | .open path => path.namex ++ [.openFile]
  | .create dir inum .opened => dir.namex ++ [.iget inum, .iput 1, .openFile]
  | .create dir inum .dropped => dir.namex ++ [.iget inum, .iput 1, .iput 0]
  | .create dir inum .failed => dir.namex ++ [.iget inum, .iput 0, .iput 0]
  | .link old dir none => old.namex ++ dir.namex ++ [.iput 0, .iput 0]
  | .link old dir (some inum) => old.namex ++ dir.namex ++ [.iget inum, .iput 0, .iput 0, .iput 0]
  | .unlink dir inum true => dir.namex ++ [.iget inum, .iput 1, .iput 0]
  | .unlink dir inum false => dir.namex ++ [.iget inum, .iput 0, .iput 0]
  | .chdir path => path.namex ++ [.setCwd]
  | .close fd => [.fileclose fd]
  | .dup fd => [.filedup fd]
  | .fork child => [.fork child]
  | .exit => (List.finRange NOFILE).map .fileclose ++ [.exit]

structure Proc where
  /-- What is left of the call in progress. -/
  code : List Op
  held : List Entry
  cwd : Entry
  ofile : Fin NOFILE → Option (Fin NFILE)

inductive Slot where
  | unused
  | used (q : Proc)
  | zombie

structure State where
  ref : Entry → ℕ
  inum : Entry → ℕ
  fref : Fin NFILE → ℕ
  /-- The inode of an open file. -/
  fip : Fin NFILE → Option Entry
  proc : Fin NPROC → Slot
  panicked : Bool

/-- The first process in the root directory. -/
def boot : State where
  ref e := if e = 0 then 1 else 0
  inum _ := ROOTINO
  fref _ := 0
  fip _ := none
  proc p := if p = 0 then .used ⟨[], [], 0, fun _ => none⟩ else .unused
  panicked := false

namespace State

def addRef (s : State) (e : Entry) : State := { s with ref := update s.ref e (s.ref e + 1) }

def dropRef (s : State) (e : Entry) : State := { s with ref := update s.ref e (s.ref e - 1) }

def setProc (s : State) (p : Fin NPROC) (x : Slot) : State := { s with proc := update s.proc p x }

def setFile (s : State) (f : Fin NFILE) (ref : ℕ) (ip : Option Entry) : State :=
  { s with fref := update s.fref f ref, fip := update s.fip f ip }

/-- `iget`; `none` is its panic. -/
def iget (s : State) (inum : ℕ) : Option (Entry × State) :=
  match (List.finRange NINODE).find? fun e => 0 < s.ref e ∧ s.inum e = inum with
  | some e => some (e, s.addRef e)
  | none =>
    match (List.finRange NINODE).find? fun e => s.ref e = 0 with
    | some e => some (e, { s with inum := update s.inum e inum, ref := update s.ref e 1 })
    | none => none

def filealloc (s : State) : Option (Fin NFILE) := (List.finRange NFILE).find? fun f => s.fref f = 0

end State

namespace Proc

def fdalloc (q : Proc) : Option (Fin NOFILE) := (List.finRange NOFILE).find? fun fd => (q.ofile fd).isNone

/-- How many descriptors are file `f`. -/
def count (q : Proc) (f : Fin NFILE) : ℕ := (List.finRange NOFILE).countP fun fd => q.ofile fd = some f

end Proc

/-- `filealloc` and `fdalloc` for the inode of entry `e`, which process `p` has no longer among its references. -/
def openFile (s : State) (p : Fin NPROC) (q : Proc) (e : Entry) : State :=
  match s.filealloc, q.fdalloc with
  | some f, some fd => (s.setFile f 1 (some e)).setProc p (.used { q with ofile := update q.ofile fd (some f) })
  | _, _ => (s.dropRef e).setProc p (.used q)

/-- `fileclose`: the last reference to the file leaves one to its inode, which is then put. -/
def fileclose (s : State) (p : Fin NPROC) (q : Proc) (f : Fin NFILE) : State :=
  if 1 < s.fref f then (s.setFile f (s.fref f - 1) (s.fip f)).setProc p (.used q)
  else
    match s.fip f with
    | some e => (s.setFile f 0 none).setProc p (.used { q with held := e :: q.held, code := .iput 0 :: q.code })
    | none => (s.setFile f 0 none).setProc p (.used q)

/-- Process `p` does `op`; `q` is the process with `op` taken off its code. -/
def State.perform (s : State) (p : Fin NPROC) (q : Proc) : Op → Option State
  | .iget inum =>
    match s.iget inum with
    | some (e, s) => some (s.setProc p (.used { q with held := e :: q.held }))
    | none => some { s with panicked := true }
  | .idupCwd => some ((s.addRef q.cwd).setProc p (.used { q with held := q.cwd :: q.held }))
  | .iput k =>
    match q.held[k]? with
    | some e => some ((s.dropRef e).setProc p (.used { q with held := q.held.eraseIdx k }))
    | none => none
  | .openFile =>
    match q.held with
    | e :: held => some (openFile s p { q with held := held } e)
    | [] => none
  | .setCwd =>
    match q.held with
    | e :: held => some ((s.dropRef q.cwd).setProc p (.used { q with held := held, cwd := e }))
    | [] => none
  | .fileclose fd =>
    match q.ofile fd with
    | some f => some (fileclose s p { q with ofile := update q.ofile fd none } f)
    | none => some (s.setProc p (.used q))
  | .filedup fd =>
    match q.ofile fd, q.fdalloc with
    | some f, some fd' =>
      some ((s.setFile f (s.fref f + 1) (s.fip f)).setProc p
        (.used { q with ofile := update q.ofile fd' (some f) }))
    | _, _ => some (s.setProc p (.used q))
  | .fork child =>
    match s.proc child with
    | .unused =>
      some (({ s.addRef q.cwd with fref := fun f => s.fref f + q.count f }.setProc child
        (.used ⟨[], [], q.cwd, q.ofile⟩)).setProc p (.used q))
    | _ => some (s.setProc p (.used q))
  | .exit => if q.held = [] then some ((s.dropRef q.cwd).setProc p .zombie) else none

inductive Act where
  | call (p : Fin NPROC) (c : Call)
  | step (p : Fin NPROC)
  /-- The parent of the zombie `p` waits for it. -/
  | wait (p : Fin NPROC)

/-- A process starts a call or does the next thing of its call; after a panic nothing happens. -/
def step (s : State) (a : Act) : Option State :=
  if s.panicked then none
  else
    match a with
    | .call p c =>
      match s.proc p with
      | .used q => if q.code = [] then some (s.setProc p (.used { q with code := c.code })) else none
      | _ => none
    | .step p =>
      match s.proc p with
      | .used q =>
        match q.code with
        | op :: code => s.perform p { q with code := code } op
        | [] => none
      | _ => none
    | .wait p =>
      match s.proc p with
      | .zombie => some (s.setProc p .unused)
      | _ => none

end Xv6.Itable
