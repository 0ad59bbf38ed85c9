import Xv6.Fs.Layout
import Xv6.Lib.Prog

/-!
# `fs.c`

The functions of `fs.c`, as programs over the contents of the disk, the inode table, the table of
open files and the processes.  System calls run one after the other, so a sleep-lock is a flag, and
a process that finds it set waits for itself (`Stop.hang`).  `begin_op` and `end_op` do nothing that
could be seen between calls.  There is one device, so the device numbers are left out.
-/

namespace Xv6.Fs

open Lib Log

inductive Panic where
  | freeingFreeBlock | igetNoInodes | ilock | ilockNoType | iunlock | bmapOutOfRange
  | dirlookupNotDir | dirlookupRead | dirlinkRead | isdiremptyReadi | unlinkNlink | unlinkWritei
  | filedup | fileclose | fileread | filewrite | logWriteOutside
  deriving DecidableEq

/-- Why a system call does not return. -/
inductive Stop where
  | panic (p : Panic)
  | hang
  deriving DecidableEq

abbrev T_DIR : ℕ := 1
abbrev T_FILE : ℕ := 2
abbrev T_DEVICE : ℕ := 3

/-- `struct inode`: an entry of the inode table. -/
structure Inode where
  ref : ℕ
  inum : ℕ
  valid : Bool
  locked : Bool
  d : Dinode

inductive FdType where
  | none | inode | device
  deriving DecidableEq

structure File where
  type : FdType
  ref : ℕ
  readable : Bool
  writable : Bool
  ip : Fin NINODE
  off : ℕ
  major : ℕ

/-- The part of `struct proc` that the file system uses. -/
structure Proc where
  cwd : Option (Fin NINODE)
  ofile : Fin NOFILE → Option (Fin NFILE)

structure State (P : Type) where
  disk : Disk
  ino : Fin NINODE → Inode
  file : Fin NFILE → File
  proc : P → Proc

abbrev M (P : Type) (α : Type) : Type := Prog (State P) Stop α

/-- A file name or a path: its bytes, without the terminating zero. -/
abbrev Name : Type := List ℕ

variable {P : Type}

def panic {α : Type} (p : Panic) : M P α := Prog.stop (.panic p)

/-- `bread`. -/
def bread (b : ℕ) : M P Block := do
  let s ← Prog.read
  pure (s.disk b)

/-- Modify the buffer of block `b` and `log_write` it. -/
def bmodify (b : ℕ) (f : Block → Block) : M P Unit :=
  Prog.modify fun s => { s with disk := Function.update s.disk b (f (s.disk b)) }

/-- The entry `e` of the inode table. -/
def inode (e : Fin NINODE) : M P Inode := do
  let s ← Prog.read
  pure (s.ino e)

def State.setIno (s : State P) (e : Fin NINODE) (f : Inode → Inode) : State P :=
  { s with ino := Function.update s.ino e (f (s.ino e)) }

lemma State.setIno_setIno (s : State P) (e : Fin NINODE) (f g : Inode → Inode) :
    (s.setIno e f).setIno e g = s.setIno e fun ip => g (f ip) := by
  simp [State.setIno]

def setInode (e : Fin NINODE) (f : Inode → Inode) : M P Unit := Prog.modify fun s => s.setIno e f

/-- Stores to fields of the inode that live on disk. -/
def setDinode (e : Fin NINODE) (f : Dinode → Dinode) : M P Unit :=
  setInode e fun ip => { ip with d := f ip.d }

section

variable (sb : Superblock)

/-! ### Blocks -/

def bzero (b : ℕ) : M P Unit := bmodify b fun _ => Bytes.zero _

/-- The first clear bit in the `k`-th block of the free map. -/
def ballocScan (k : ℕ) : M P (Option ℕ) := do
  let bp ← bread (sb.BBLOCK (k * BPB))
  match (List.range (min BPB (sb.size - k * BPB))).find? fun bi => !testBit bp bi with
  | some bi => do
    bmodify (sb.BBLOCK (k * BPB)) fun x => orBit x bi
    bzero (k * BPB + bi)
    pure (some (k * BPB + bi))
  | none => pure none

/-- `balloc`; 0 when the disk is full. -/
def balloc : M P ℕ := do
  let r ← Prog.findM (ballocScan sb) (List.range ((sb.size + BPB - 1) / BPB))
  pure (r.getD 0)

def bfree (b : ℕ) : M P Unit := do
  let bp ← bread (sb.BBLOCK b)
  if testBit bp (b % BPB) then bmodify (sb.BBLOCK b) fun x => clearBit x (b % BPB)
  else panic .freeingFreeBlock

/-! ### Inodes -/

def iupdate (e : Fin NINODE) : M P Unit := do
  let ip ← inode e
  Prog.modify fun s => { s with disk := putDinode sb s.disk ip.inum ip.d }

def iget (inum : ℕ) : M P (Fin NINODE) := do
  let s ← Prog.read
  match (List.finRange NINODE).find? fun e => 0 < (s.ino e).ref ∧ (s.ino e).inum = inum with
  | some e => do
    setInode e fun ip => { ip with ref := ip.ref + 1 }
    pure e
  | none =>
    match (List.finRange NINODE).find? fun e => (s.ino e).ref = 0 with
    | some e => do
      setInode e fun ip => { ip with inum := inum, ref := 1, valid := false }
      pure e
    | none => panic .igetNoInodes

/-- `ialloc`; `none` when there is no free inode. -/
def ialloc (type : ℕ) : M P (Option (Fin NINODE)) :=
  Prog.findM (fun inum => do
    let s ← Prog.read
    if (dinode sb s.disk inum).type = 0 then do
      Prog.modify fun s => { s with disk := putDinode sb s.disk inum { Dinode.zero with type := type } }
      let e ← iget inum
      pure (some e)
    else pure none) (List.range' 1 (sb.ninodes - 1))

def idup (e : Fin NINODE) : M P Unit := setInode e fun ip => { ip with ref := ip.ref + 1 }

def ilock (e : Fin NINODE) : M P Unit := do
  let ip ← inode e
  if ip.ref < 1 then panic .ilock
  else if ip.locked then Prog.stop .hang
  else do
    setInode e fun ip => { ip with locked := true }
    if ip.valid then pure ()
    else do
      let s ← Prog.read
      setInode e fun ip => { ip with d := dinode sb s.disk ip.inum, valid := true }
      if (dinode sb s.disk ip.inum).type = 0 then panic .ilockNoType else pure ()

def iunlock (e : Fin NINODE) : M P Unit := do
  let ip ← inode e
  if !ip.locked ∨ ip.ref < 1 then panic .iunlock
  else setInode e fun ip => { ip with locked := false }

def setAddr (e : Fin NINODE) (k a : ℕ) : M P Unit :=
  setDinode e fun d => { d with addrs := Function.update d.addrs k a }

/-- Entry `k` of `ip->addrs`, allocated if it is 0. -/
def mapAddr (e : Fin NINODE) (k : ℕ) : M P ℕ := do
  let ip ← inode e
  if ip.d.addrs k = 0 then do
    let addr ← balloc sb
    if addr = 0 then pure 0
    else do
      setAddr e k addr
      pure addr
  else pure (ip.d.addrs k)

/-- The block of the `bn`-th block of contents; 0 when the disk is full. -/
def bmap (e : Fin NINODE) (bn : ℕ) : M P ℕ :=
  if bn < NDIRECT then mapAddr sb e bn
  else if bn - NDIRECT < NINDIRECT then do
    let addr ← mapAddr sb e NDIRECT
    if addr = 0 then pure 0
    else do
      let bp ← bread addr
      if bp.le (4 * (bn - NDIRECT)) 4 = 0 then do
        let a ← balloc sb
        if a = 0 then pure 0
        else do
          bmodify addr fun x => x.putLe (4 * (bn - NDIRECT)) 4 a
          pure a
      else pure (bp.le (4 * (bn - NDIRECT)) 4)
  else panic .bmapOutOfRange

/-- The first loop of `itrunc`: the direct blocks. -/
def itruncDirect (e : Fin NINODE) : M P Unit :=
  Prog.eachM (fun i => do
    let ip ← inode e
    if ip.d.addrs i ≠ 0 then do
      bfree sb (ip.d.addrs i)
      setAddr e i 0
    else pure ()) (List.range NDIRECT)

/-- The second part of `itrunc`: the indirect block and the blocks it lists. -/
def itruncIndirect (e : Fin NINODE) : M P Unit := do
  let ip ← inode e
  if ip.d.addrs NDIRECT ≠ 0 then do
    let bp ← bread (ip.d.addrs NDIRECT)
    Prog.eachM (fun j => if bp.le (4 * j) 4 ≠ 0 then bfree sb (bp.le (4 * j) 4) else pure ())
      (List.range NINDIRECT)
    bfree sb (ip.d.addrs NDIRECT)
    setAddr e NDIRECT 0
  else pure ()

def itrunc (e : Fin NINODE) : M P Unit := do
  itruncDirect sb e
  itruncIndirect sb e
  setDinode e fun d => { d with size := 0 }
  iupdate sb e

/-- `iput` of the last reference to an inode without links: truncate and free. -/
def iputFree (e : Fin NINODE) : M P Unit := do
  setInode e fun ip => { ip with locked := true }
  itrunc sb e
  setDinode e fun d => { d with type := 0 }
  iupdate sb e
  setInode e fun ip => { ip with valid := false, locked := false }

def iput (e : Fin NINODE) : M P Unit := do
  let ip ← inode e
  if ip.ref = 1 ∧ ip.valid ∧ ip.d.nlink = 0 then
    if ip.locked then Prog.stop .hang else iputFree sb e
  else pure ()
  setInode e fun ip => { ip with ref := ip.ref - 1 }

def iunlockput (e : Fin NINODE) : M P Unit := do
  iunlock e
  iput sb e

/-! ### Contents -/

/-- The loop of `readi` into kernel memory: the bytes read, `n` of them from `off` unless the disk
is full.  One unit of fuel a pass, each of which reads at least one byte. -/
def readLoop (e : Fin NINODE) : ℕ → ℕ → ℕ → M P (List ℕ)
  | 0, _, _ => pure []
  | fuel + 1, off, n =>
    if n = 0 then pure []
    else do
      let addr ← bmap sb e (off / BSIZE)
      if addr = 0 then pure []
      else do
        let bp ← bread addr
        let m := min n (BSIZE - off % BSIZE)
        let rest ← readLoop e fuel (off + m) (n - m)
        pure ((List.range m).map (fun k => bp.get (off % BSIZE + k)) ++ rest)

/-- `readi` with a kernel destination: the bytes it copies. -/
def readi (e : Fin NINODE) (off n : ℕ) : M P (List ℕ) := do
  let ip ← inode e
  if off > ip.d.size ∨ (off + n) % 2 ^ 32 < off then pure []
  else readLoop sb e n off (if off + n > ip.d.size then ip.d.size - off else n)

/-- The number of bytes that `copyin` can copy: it stops at the first that is not mapped. -/
def mapped (src : ℕ → Option ℕ) : ℕ → ℕ → ℕ
  | _, 0 => 0
  | a, m + 1 => if (src a).isSome then mapped src (a + 1) m + 1 else 0

/-- The loop of `writei`: the bytes written and the offset after them.  A copy that fails half way
has changed the buffer. -/
def writeLoop (e : Fin NINODE) (src : ℕ → Option ℕ) (n : ℕ) : ℕ → ℕ → ℕ → M P (ℕ × ℕ)
  | 0, tot, off => pure (tot, off)
  | fuel + 1, tot, off =>
    if tot < n then do
      let addr ← bmap sb e (off / BSIZE)
      if addr = 0 then pure (tot, off)
      else do
        let m := min (n - tot) (BSIZE - off % BSIZE)
        bmodify addr fun x =>
          x.put (off % BSIZE) (mapped src tot m) fun k => (src (tot + k)).getD 0
        if mapped src tot m < m then pure (tot, off)
        else writeLoop e src n fuel (tot + m) (off + m)
    else pure (tot, off)

def writei (e : Fin NINODE) (src : ℕ → Option ℕ) (off n : ℕ) : M P ℤ := do
  let ip ← inode e
  if off > ip.d.size ∨ (off + n) % 2 ^ 32 < off then pure (-1)
  else if off + n > MAXFILE * BSIZE then pure (-1)
  else do
    let r ← writeLoop sb e src n n 0 off
    setDinode e fun d => { d with size := if r.2 > d.size then r.2 else d.size }
    iupdate sb e
    pure r.1

/-! ### Directories -/

/-- `de.inum`. -/
def deInum (de : List ℕ) : ℕ := de.getD 0 0 + 256 * de.getD 1 0

/-- `de.name` as `strncmp` sees it: up to a zero. -/
def deName (de : List ℕ) : Name := ((de.drop 2).take DIRSIZ).takeWhile (· ≠ 0)

/-- The bytes of a `struct dirent`. -/
def dirent (name : Name) (inum : ℕ) (k : ℕ) : Option ℕ :=
  some (if k < 2 then inum / 256 ^ k % 256 else name.getD (k - 2) 0)

/-- The entry at offset `16 * k`; `p` is the panic when it cannot be read. -/
def readDirent (e : Fin NINODE) (p : Panic) (k : ℕ) : M P (List ℕ) := do
  let de ← readi sb e (16 * k) 16
  if de.length = 16 then pure de else panic p

/-- The number of entries of a directory of `size` bytes. -/
def direntCount (size : ℕ) : ℕ := (size + 15) / 16

/-- `dirlookup`: the inode and the offset of the entry. -/
def dirlookup (e : Fin NINODE) (name : Name) : M P (Option (Fin NINODE × ℕ)) := do
  let dp ← inode e
  if dp.d.type ≠ T_DIR then panic .dirlookupNotDir
  else Prog.findM (fun k => do
    let de ← readDirent sb e .dirlookupRead k
    if deInum de = 0 then pure none
    else if name = deName de then do
      let ip ← iget (deInum de)
      pure (some (ip, 16 * k))
    else pure none) (List.range (direntCount dp.d.size))

def dirlink (e : Fin NINODE) (name : Name) (inum : ℕ) : M P ℤ := do
  match ← dirlookup sb e name with
  | some (ip, _) => do
    iput sb ip
    pure (-1)
  | none => do
    let dp ← inode e
    let slot ← Prog.findM (fun k => do
      let de ← readDirent sb e .dirlinkRead k
      if deInum de = 0 then pure (some (16 * k)) else pure none) (List.range (direntCount dp.d.size))
    let w ← writei sb e (dirent name inum) (slot.getD (16 * direntCount dp.d.size)) 16
    if w ≠ 16 then pure (-1) else pure 0

/-! ### Paths -/

/-- `skipelem`: the next element, cut to `DIRSIZ` bytes, and what follows it. -/
def skipelem (path : Name) : Option (Name × Name) :=
  let path := path.dropWhile (· = 47)
  if path = [] then none
  else some ((path.takeWhile (· ≠ 47)).take DIRSIZ, (path.dropWhile (· ≠ 47)).dropWhile (· = 47))

/-- The elements that repeated calls of `skipelem` take from a path. -/
def elements : ℕ → Name → List Name
  | 0, _ => []
  | fuel + 1, path =>
    match skipelem path with
    | some (name, rest) => name :: elements fuel rest
    | none => []

/-- The loop of `namex`; with `parent`, it stops at the last element and returns its name. -/
def walk (parent : Bool) : Fin NINODE → List Name → M P (Option (Fin NINODE × Name))
  | e, [] =>
    if parent then do
      iput sb e
      pure none
    else pure (some (e, []))
  | e, name :: rest => do
    ilock sb e
    let ip ← inode e
    if ip.d.type ≠ T_DIR then do
      iunlockput sb e
      pure none
    else if parent ∧ rest = [] then do
      iunlock e
      pure (some (e, name))
    else
      match ← dirlookup sb e name with
      | none => do
        iunlockput sb e
        pure none
      | some (next, _) => do
        iunlockput sb e
        walk parent next rest

/-- `namex` for a process whose current directory is `cwd`. -/
def namex (cwd : Fin NINODE) (path : Name) (parent : Bool) : M P (Option (Fin NINODE × Name)) := do
  let e ← if path.head? = some 47 then iget ROOTINO else do
    idup cwd
    pure cwd
  walk sb parent e (elements path.length path)

def namei (cwd : Fin NINODE) (path : Name) : M P (Option (Fin NINODE)) := do
  let r ← namex sb cwd path false
  pure (r.map Prod.fst)

def nameiparent (cwd : Fin NINODE) (path : Name) : M P (Option (Fin NINODE × Name)) :=
  namex sb cwd path true

end

end Xv6.Fs
