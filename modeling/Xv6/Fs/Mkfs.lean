import Xv6.Fs.Planted

/-!
# `mkfs.c`

The image that `mkfs` makes of the files it is given, each an argument and what the calls of `read` return;
`none` when an `assert` fails.  The superblock is that of the build; the kernel's model has it as a parameter,
so that block 1 is left zero.  The names in the image are not the arguments: `user/` and a leading `_` are
dropped.
-/

namespace Xv6.Fs

open Lib Log Function

/-- `FSSIZE` blocks and `NINODES` inodes. -/
def mkfsSb : Superblock := ⟨2000, 200, 30, 2, 32, 45⟩

lemma mkfsSb_layout : Layout mkfsSb := by constructor <;> decide

/-- `user/`. -/
def userDir : Name := [117, 115, 101, 114, 47]

/-- The argument without `user/`. -/
def basename (arg : Name) : Name := if arg.take 5 = userDir then arg.drop 5 else arg

/-- A file of the host: the argument that names it and what the calls of `read` return, up to the end of the
file. -/
structure HostFile where
  arg : Name
  reads : List (List ℕ)
  arg_str : ∀ b ∈ arg, 0 < b ∧ b < 256
  reads_pos : ∀ buf ∈ reads, buf ≠ []
  reads_le : ∀ buf ∈ reads, buf.length ≤ BSIZE
  reads_byte : ∀ buf ∈ reads, ∀ b ∈ buf, b < 256

namespace HostFile

/-- The name in the image: without a leading `_`. -/
def shortname (file : HostFile) : Name :=
  if (basename file.arg).head? = some 95 then (basename file.arg).tail else basename file.arg

def contents (file : HostFile) : List ℕ := file.reads.flatten

end HostFile

structure Mkfs where
  disk : Disk
  freeinode : ℕ
  freeblock : ℕ

namespace Mkfs

def start : Mkfs := ⟨fun _ => Bytes.zero _, 1, mkfsSb.nmeta⟩

def winode (m : Mkfs) (inum : ℕ) (din : Dinode) : Mkfs := { m with disk := putDinode mkfsSb m.disk inum din }

def ialloc (m : Mkfs) (type : ℕ) : Mkfs × ℕ :=
  ({ m with freeinode := m.freeinode + 1 }.winode m.freeinode { Dinode.zero with type := type, nlink := 1 }, m.freeinode)

/-- The block of the file block `fbn`, allocated if there is none. -/
def block (m : Mkfs) (din : Dinode) (fbn : ℕ) : Mkfs × Dinode × ℕ :=
  if fbn < NDIRECT then
    if din.addrs fbn = 0 then
      ({ m with freeblock := m.freeblock + 1 }, { din with addrs := update din.addrs fbn m.freeblock }, m.freeblock)
    else (m, din, din.addrs fbn)
  else
    let (m, din) : Mkfs × Dinode :=
      if din.addrs NDIRECT = 0 then
        ({ m with freeblock := m.freeblock + 1 }, { din with addrs := update din.addrs NDIRECT m.freeblock })
      else (m, din)
    let indirect := m.disk (din.addrs NDIRECT)
    if indirect.le (4 * (fbn - NDIRECT)) 4 = 0 then
      ({ m with
        freeblock := m.freeblock + 1
        disk := update m.disk (din.addrs NDIRECT) (indirect.putLe (4 * (fbn - NDIRECT)) 4 m.freeblock) },
        din, m.freeblock)
    else (m, din, indirect.le (4 * (fbn - NDIRECT)) 4)

/-- The loop of `iappend`, of which each pass appends a byte at least. -/
def appendLoop : ℕ → Mkfs → Dinode → ℕ → List ℕ → Option (Mkfs × Dinode × ℕ)
  | 0, m, din, off, _ => some (m, din, off)
  | fuel + 1, m, din, off, p =>
    if p = [] then some (m, din, off)
    else
      let fbn := off / BSIZE
      if fbn < MAXFILE then
        let (m, din, x) := m.block din fbn
        let n1 := min p.length ((fbn + 1) * BSIZE - off)
        let m := { m with
          disk := update m.disk x ((m.disk x).put (off - fbn * BSIZE) n1 fun k => p.getD k 0) }
        appendLoop fuel m din (off + n1) (p.drop n1)
      else none

def iappend (m : Mkfs) (inum : ℕ) (p : List ℕ) : Option Mkfs := do
  let din := dinode mkfsSb m.disk inum
  let (m, din, off) ← appendLoop p.length m din din.size p
  pure (m.winode inum { din with size := off })

/-- A `struct dirent`. -/
def appendDirent (m : Mkfs) (inum target : ℕ) (name : Name) : Option Mkfs :=
  m.iappend inum ((List.range 16).map fun k => (dirent name target k).getD 0)

def addFile (m : Mkfs) (file : HostFile) : Option Mkfs :=
  if 47 ∈ basename file.arg then none
  else if DIRSIZ < file.shortname.length then none
  else do
    let (m, inum) := m.ialloc T_FILE
    let m ← m.appendDirent ROOTINO inum file.shortname
    file.reads.foldlM (fun m buf => m.iappend inum buf) m

/-- The root's size is rounded up to blocks. -/
def fixRoot (m : Mkfs) : Mkfs :=
  let din := dinode mkfsSb m.disk ROOTINO
  m.winode ROOTINO { din with size := (din.size / BSIZE + 1) * BSIZE }

/-- The free map: the first `used` blocks are in use. -/
def balloc (m : Mkfs) (used : ℕ) : Option Mkfs :=
  if used < BPB then
    some { m with disk := update m.disk mkfsSb.bmapstart ((List.range used).foldl orBit (Bytes.zero _)) }
  else none

end Mkfs

def mkfs (files : List HostFile) : Option Disk := do
  let (m, rootino) := Mkfs.start.ialloc T_DIR
  let m ← m.appendDirent rootino rootino dot
  let m ← m.appendDirent rootino rootino dotdot
  let m ← files.foldlM Mkfs.addFile m
  let m := m.fixRoot
  let m ← m.balloc m.freeblock
  pure m.disk

/-- An empty file with the name `_.`. -/
def dotFile : HostFile := ⟨[95, 46], [], by decide, by decide, by decide, by decide⟩

end Xv6.Fs
