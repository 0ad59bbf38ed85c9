import Xv6.Fs.Model

/-!
# `file.c` and `sysfile.c`

The system calls on files and directories, as calls of a process `p` whose current directory is
`cwd`.  The path of a call is `none` when `argstr` could not fetch it.  The calls that only read
(`read`, `fstat`) or duplicate a descriptor (`dup`) are in `Xv6.Fs.ReadCalls`; pipes are left out.
-/

namespace Xv6.Fs

open Lib Log

abbrev O_RDONLY : ℕ := 0
abbrev O_WRONLY : ℕ := 1
abbrev O_RDWR : ℕ := 2
abbrev O_CREATE : ℕ := 0x200
abbrev O_TRUNC : ℕ := 0x400

/-- The major device number of the console, the only device with a `write` function. -/
abbrev CONSOLE : ℕ := 1

/-- User memory from an address on; `none` where nothing is mapped. -/
abbrev Mem : Type := ℕ → Option UInt8

/-- `fetchstr` into a buffer of `max` bytes, from the `a`-th byte on. -/
def fetchstr (src : Mem) : ℕ → ℕ → Option Name
  | 0, _ => none
  | max + 1, a =>
    match src a with
    | none => none
    | some c => if c = 0 then some [] else (fetchstr src max (a + 1)).map (c.toNat :: ·)

/-- `argstr` for a path; `none` when it fails. -/
def argstr (src : Mem) : Option Name := fetchstr src MAXPATH 0

abbrev dot : Name := [46]
abbrev dotdot : Name := [46, 46]

variable {P : Type} [DecidableEq P]

/-! ### Files -/

def file (f : Fin NFILE) : M P File := do
  let s ← Prog.read
  pure (s.file f)

def setFile (f : Fin NFILE) (g : File → File) : M P Unit :=
  Prog.modify fun s => { s with file := Function.update s.file f (g (s.file f)) }

def filealloc : M P (Option (Fin NFILE)) := do
  let s ← Prog.read
  match (List.finRange NFILE).find? fun f => (s.file f).ref = 0 with
  | some f => do
    setFile f fun x => { x with ref := 1 }
    pure (some f)
  | none => pure none

def setProc (p : P) (g : Proc → Proc) : M P Unit :=
  Prog.modify fun s => { s with proc := Function.update s.proc p (g (s.proc p)) }

def setOfile (p : P) (fd : Fin NOFILE) (f : Option (Fin NFILE)) : M P Unit :=
  setProc p fun q => { q with ofile := Function.update q.ofile fd f }

/-- The first free descriptor of the process, for file `f`. -/
def fdalloc (p : P) (f : Fin NFILE) : M P (Option (Fin NOFILE)) := do
  let s ← Prog.read
  match (List.finRange NOFILE).find? fun fd => (s.proc p).ofile fd = none with
  | some fd => do
    setOfile p fd (some f)
    pure (some fd)
  | none => pure none

def filedup (f : Fin NFILE) : M P Unit := do
  let x ← file f
  if x.ref < 1 then panic .filedup else setFile f fun x => { x with ref := x.ref + 1 }

section

variable (sb : Superblock)

def fileclose (f : Fin NFILE) : M P Unit := do
  let x ← file f
  if x.ref < 1 then panic .fileclose
  else if 0 < x.ref - 1 then setFile f fun x => { x with ref := x.ref - 1 }
  else do
    setFile f fun x => { x with ref := 0, type := .none }
    if x.type = .inode ∨ x.type = .device then iput sb x.ip else pure ()

/-- The loop of `filewrite`, from the `i`-th byte of the user's buffer on; the number of bytes
written.  Each pass is one transaction. -/
def filewriteLoop (f : Fin NFILE) (src : ℕ → Option ℕ) (n : ℕ) : ℕ → ℕ → M P ℕ
  | 0, i => pure i
  | fuel + 1, i =>
    if i < n then do
      let n1 := min (n - i) ((MAXOPBLOCKS - 1 - 1 - 2) / 2 * BSIZE)
      let x ← file f
      ilock sb x.ip
      let r ← writei sb x.ip (fun k => src (i + k)) x.off n1
      if 0 < r then setFile f fun x => { x with off := x.off + r.toNat } else pure ()
      iunlock x.ip
      if r ≠ n1 then pure i else filewriteLoop f src n fuel (i + n1)
    else pure i

def filewrite (f : Fin NFILE) (src : ℕ → Option ℕ) (n : ℤ) : M P ℤ := do
  let x ← file f
  if x.writable = false then pure (-1)
  else
    match x.type with
    | .device => if x.major = CONSOLE then pure (mapped src 0 n.toNat) else pure (-1)
    | .inode => do
      let i ← filewriteLoop sb f src n.toNat n.toNat 0
      pure (if (i : ℤ) = n then n else -1)
    | .none => panic .filewrite

/-! ### Changes of link counts -/

/-- `ip->nlink++; iupdate(ip)`; the field is a 16-bit `short`. -/
def nlinkInc (e : Fin NINODE) : M P Unit := do
  setDinode e fun d => { d with nlink := (d.nlink + 1) % 2 ^ 16 }
  iupdate sb e

/-- `ip->nlink--; iupdate(ip)`. -/
def nlinkDec (e : Fin NINODE) : M P Unit := do
  setDinode e fun d => { d with nlink := (d.nlink + (2 ^ 16 - 1)) % 2 ^ 16 }
  iupdate sb e

/-! ### System calls -/

/-- The entries `.` and `..` of a new directory `ip` below `dp`. -/
def dotEntries (ip dp : Fin NINODE) : M P Bool := do
  let i ← inode ip
  let r ← dirlink sb ip dot i.inum
  if r < 0 then pure false
  else do
    let d ← inode dp
    let r ← dirlink sb ip dotdot d.inum
    pure (decide (0 ≤ r))

/-- The entries that `create` makes for a new inode `ip`; `false` is its `goto fail`. -/
def createEntries (dp : Fin NINODE) (name : Name) (ip : Fin NINODE) (type : ℕ) : M P Bool := do
  let dots ← if type = T_DIR then dotEntries sb ip dp else pure true
  if dots then do
    let i ← inode ip
    let r ← dirlink sb dp name i.inum
    pure (decide (0 ≤ r))
  else pure false

/-- `create` once the new inode `ip` is allocated. -/
def createNew (dp : Fin NINODE) (name : Name) (ip : Fin NINODE) (type major minor : ℕ) :
    M P (Option (Fin NINODE)) := do
  ilock sb ip
  setDinode ip fun d => { d with major := major, minor := minor, nlink := 1 }
  iupdate sb ip
  let ok ← createEntries sb dp name ip type
  if ok then do
    if type = T_DIR then nlinkInc sb dp else pure ()
    iunlockput sb dp
    pure (some ip)
  else do
    setDinode ip fun d => { d with nlink := 0 }
    iupdate sb ip
    iunlockput sb ip
    iunlockput sb dp
    pure none

/-- `create` in the directory `dp`: the inode, locked. -/
def createIn (dp : Fin NINODE) (name : Name) (type major minor : ℕ) : M P (Option (Fin NINODE)) := do
  ilock sb dp
  match ← dirlookup sb dp name with
  | some (ip, _) => do
    iunlockput sb dp
    ilock sb ip
    let i ← inode ip
    if type = T_FILE ∧ (i.d.type = T_FILE ∨ i.d.type = T_DEVICE) then pure (some ip)
    else do
      iunlockput sb ip
      pure none
  | none => do
    match ← ialloc sb type with
    | none => do
      iunlockput sb dp
      pure none
    | some ip => createNew sb dp name ip type major minor

def create (cwd : Fin NINODE) (path : Name) (type major minor : ℕ) : M P (Option (Fin NINODE)) := do
  match ← nameiparent sb cwd path with
  | none => pure none
  | some (dp, name) => createIn sb dp name type major minor

/-- The stores of `sys_open` to a new file for the inode `ip`. -/
def opened (ip : Fin NINODE) (d : Dinode) (omode : ℕ) (x : File) : File :=
  { x with
    type := if d.type = T_DEVICE then .device else .inode
    major := if d.type = T_DEVICE then d.major else x.major
    off := if d.type = T_DEVICE then x.off else 0
    ip := ip
    readable := omode &&& O_WRONLY = 0
    writable := omode &&& O_WRONLY ≠ 0 ∨ omode &&& O_RDWR ≠ 0 }

/-- `sys_open` from the locked inode on. -/
def openInode (p : P) (ip : Fin NINODE) (omode : ℕ) : M P ℤ := do
  let i ← inode ip
  if i.d.type = T_DEVICE ∧ NDEV ≤ i.d.major then do
    iunlockput sb ip
    pure (-1)
  else
    match ← filealloc with
    | none => do
      iunlockput sb ip
      pure (-1)
    | some f =>
      match ← fdalloc p f with
      | none => do
        fileclose sb f
        iunlockput sb ip
        pure (-1)
      | some fd => do
        setFile f (opened ip i.d omode)
        if omode &&& O_TRUNC ≠ 0 ∧ i.d.type = T_FILE then itrunc sb ip else pure ()
        iunlock ip
        pure fd.1

def sysOpen (p : P) (cwd : Fin NINODE) (path : Option Name) (omode : ℕ) : M P ℤ :=
  match path with
  | none => pure (-1)
  | some path =>
    if omode &&& O_CREATE ≠ 0 then do
      match ← create sb cwd path T_FILE 0 0 with
      | none => pure (-1)
      | some ip => openInode sb p ip omode
    else do
      match ← namei sb cwd path with
      | none => pure (-1)
      | some ip => do
        ilock sb ip
        let i ← inode ip
        if i.d.type = T_DIR ∧ omode ≠ O_RDONLY then do
          iunlockput sb ip
          pure (-1)
        else openInode sb p ip omode

def argfd (p : P) (fd : ℕ) : M P (Option (Fin NOFILE × Fin NFILE)) := do
  let s ← Prog.read
  if h : fd < NOFILE then
    match (s.proc p).ofile ⟨fd, h⟩ with
    | some f => pure (some (⟨fd, h⟩, f))
    | none => pure none
  else pure none

/-- `sys_write`; `src` is the user's memory from the address on. -/
def sysWrite (p : P) (fd : ℕ) (src : ℕ → Option ℕ) (n : ℤ) : M P ℤ := do
  match ← argfd p fd with
  | none => pure (-1)
  | some (_, f) => filewrite sb f src n

def sysClose (p : P) (fd : ℕ) : M P ℤ := do
  match ← argfd p fd with
  | none => pure (-1)
  | some (fd, f) => do
    setOfile p fd none
    fileclose sb f
    pure 0

/-- The error exit of `sys_link`. -/
def linkBad (ip : Fin NINODE) : M P ℤ := do
  ilock sb ip
  nlinkDec sb ip
  iunlockput sb ip
  pure (-1)

/-- `sys_link` up to the lookup of the new path: the inode to be linked, its link count raised. -/
def linkOld (cwd : Fin NINODE) (old : Name) : M P (Option (Fin NINODE)) := do
  match ← namei sb cwd old with
  | none => pure none
  | some ip => do
    ilock sb ip
    let i ← inode ip
    if i.d.type = T_DIR then do
      iunlockput sb ip
      pure none
    else do
      nlinkInc sb ip
      iunlock ip
      pure (some ip)

/-- The rest of `sys_link`, from the directory `dp` of the new path on. -/
def linkIn (ip dp : Fin NINODE) (name : Name) : M P ℤ := do
  ilock sb dp
  let i ← inode ip
  let r ← dirlink sb dp name i.inum
  if r < 0 then do
    iunlockput sb dp
    linkBad sb ip
  else do
    iunlockput sb dp
    iput sb ip
    pure 0

def sysLink (cwd : Fin NINODE) (old new : Option Name) : M P ℤ :=
  match old, new with
  | some old, some new => do
    match ← linkOld sb cwd old with
    | none => pure (-1)
    | some ip =>
      match ← nameiparent sb cwd new with
      | none => linkBad sb ip
      | some (dp, name) => linkIn sb ip dp name
  | _, _ => pure (-1)

/-- The entries from the third on are empty. -/
def isdirempty (e : Fin NINODE) : M P Bool := do
  let dp ← inode e
  let r ← Prog.findM (fun k => do
    let de ← readDirent sb e .isdiremptyReadi k
    if deInum de ≠ 0 then pure (some ()) else pure none) (List.range' 2 (direntCount dp.d.size - 2))
  pure r.isNone

/-- The end of `sys_unlink`: clear the entry at `off` of `dp`, which names `ip`, of the given type. -/
def removeEntry (dp ip : Fin NINODE) (off type : ℕ) : M P ℤ := do
  let w ← writei sb dp (fun _ => some 0) off 16
  if w ≠ 16 then panic .unlinkWritei
  else do
    if type = T_DIR then nlinkDec sb dp else pure ()
    iunlockput sb dp
    nlinkDec sb ip
    iunlockput sb ip
    pure 0

/-- `sys_unlink` once the entry at `off` of `dp` is found to name `ip`. -/
def unlinkEntry (dp ip : Fin NINODE) (off : ℕ) : M P ℤ := do
  ilock sb ip
  let i ← inode ip
  -- `nlink` is signed
  if i.d.nlink = 0 ∨ 2 ^ 15 ≤ i.d.nlink then panic .unlinkNlink
  else do
    let removable ← if i.d.type = T_DIR then isdirempty sb ip else pure true
    if !removable then do
      iunlockput sb ip
      iunlockput sb dp
      pure (-1)
    else removeEntry sb dp ip off i.d.type

def sysUnlink (cwd : Fin NINODE) (path : Option Name) : M P ℤ :=
  match path with
  | none => pure (-1)
  | some path => do
    match ← nameiparent sb cwd path with
    | none => pure (-1)
    | some (dp, name) => do
      ilock sb dp
      if name = dot ∨ name = dotdot then do
        iunlockput sb dp
        pure (-1)
      else
        match ← dirlookup sb dp name with
        | none => do
          iunlockput sb dp
          pure (-1)
        | some (ip, off) => unlinkEntry sb dp ip off

/-- `sys_mkdir` and `sys_mknod`. -/
def makeNode (cwd : Fin NINODE) (path : Option Name) (type major minor : ℕ) : M P ℤ :=
  match path with
  | none => pure (-1)
  | some path => do
    match ← create sb cwd path type major minor with
    | none => pure (-1)
    | some ip => do
      iunlockput sb ip
      pure 0

def sysMkdir (cwd : Fin NINODE) (path : Option Name) : M P ℤ := makeNode sb cwd path T_DIR 0 0

/-- The device numbers are cut to a `short`. -/
def sysMknod (cwd : Fin NINODE) (path : Option Name) (major minor : ℕ) : M P ℤ :=
  makeNode sb cwd path T_DEVICE (major % 2 ^ 16) (minor % 2 ^ 16)

def sysChdir (p : P) (cwd : Fin NINODE) (path : Option Name) : M P ℤ :=
  match path with
  | none => pure (-1)
  | some path => do
    match ← namei sb cwd path with
    | none => pure (-1)
    | some ip => do
      ilock sb ip
      let i ← inode ip
      if i.d.type ≠ T_DIR then do
        iunlockput sb ip
        pure (-1)
      else do
        iunlock ip
        iput sb cwd
        setProc p fun q => { q with cwd := some ip }
        pure 0

/-- What `exit` does to files: close them all, and leave the current directory. -/
def sysExit (p : P) (cwd : Fin NINODE) : M P ℤ := do
  Prog.eachM (fun fd => do
    let s ← Prog.read
    match (s.proc p).ofile fd with
    | some f => do
      fileclose sb f
      setOfile p fd none
    | none => pure ()) (List.finRange NOFILE)
  iput sb cwd
  setProc p fun q => { q with cwd := none }
  pure 0

/-- What `fork` does to files, for a `child` that is not in use: it gets the open files and the
current directory. -/
def sysFork (p : P) (cwd : Fin NINODE) (child : P) : M P ℤ := do
  let s ← Prog.read
  match (s.proc child).cwd with
  | some _ => pure (-1)
  | none => do
    Prog.eachM (fun fd => do
      let s ← Prog.read
      match (s.proc p).ofile fd with
      | some f => do
        filedup f
        setOfile child fd (some f)
      | none => pure ()) (List.finRange NOFILE)
    idup cwd
    setProc child fun q => { q with cwd := some cwd }
    pure 1

inductive Call (P : Type) where
  | open (path : Mem) (omode : ℕ)
  | write (fd : ℕ) (src : Mem) (n : ℤ)
  | link (old new : Mem)
  | unlink (path : Mem)
  | mkdir (path : Mem)
  | mknod (path : Mem) (major minor : ℕ)
  | chdir (path : Mem)
  | close (fd : ℕ)
  | fork (child : P)
  | exit

def call (p : P) (cwd : Fin NINODE) : Call P → M P ℤ
  | .open path omode => sysOpen sb p cwd (argstr path) omode
  | .write fd src n => sysWrite sb p fd (fun k => (src k).map UInt8.toNat) n
  | .link old new => sysLink sb cwd (argstr old) (argstr new)
  | .unlink path => sysUnlink sb cwd (argstr path)
  | .mkdir path => sysMkdir sb cwd (argstr path)
  | .mknod path major minor => sysMknod sb cwd (argstr path) major minor
  | .chdir path => sysChdir sb p cwd (argstr path)
  | .close fd => sysClose sb p fd
  | .fork child => sysFork p cwd child
  | .exit => sysExit sb p cwd

/-- The outcome of a call of process `p`; `none` when the process has exited. -/
def invoke (s : State P) (p : P) (c : Call P) : Option (Except Stop (ℤ × State P)) :=
  (s.proc p).cwd.map fun cwd => call sb p cwd c s

/-- A call that returns. -/
def step (s : State P) (a : P × Call P) : Option (State P) :=
  match invoke sb s a.1 a.2 with
  | some (.ok (_, s')) => some s'
  | _ => none

end

end Xv6.Fs
