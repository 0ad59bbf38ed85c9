import Xv6.Lib.Bytes

/-!
# The constants of the kernel

`param.h` and `fs.h`, as the repository's build (`LAB=util`) sets them.
-/

namespace Xv6

open Lib

/-- Slots of the process table. -/
abbrev NPROC : ℕ := 64
/-- Most blocks any file-system operation writes. -/
abbrev MAXOPBLOCKS : ℕ := 10
/-- Most data blocks in the on-disk log; also the length of `logheader.block`. -/
abbrev LOGSIZE : ℕ := MAXOPBLOCKS * 3
/-- Buffers in the disk block cache. -/
abbrev NBUF : ℕ := MAXOPBLOCKS * 3
/-- The one disk device. -/
abbrev ROOTDEV : ℕ := 1
/-- Bytes in a disk block. -/
abbrev BSIZE : ℕ := 1024

/-- Entries of the inode table. -/
abbrev NINODE : ℕ := 50
/-- Open files of the system. -/
abbrev NFILE : ℕ := 100
/-- Open files of a process. -/
abbrev NOFILE : ℕ := 16
/-- Major device numbers. -/
abbrev NDEV : ℕ := 10
/-- Most bytes of a path, the terminating zero included. -/
abbrev MAXPATH : ℕ := 128
abbrev ROOTINO : ℕ := 1
abbrev NDIRECT : ℕ := 12
abbrev NINDIRECT : ℕ := BSIZE / 4
abbrev MAXFILE : ℕ := NDIRECT + NINDIRECT
/-- Inodes in a block. -/
abbrev IPB : ℕ := BSIZE / 64
/-- Bits of the free map in a block. -/
abbrev BPB : ℕ := BSIZE * 8
abbrev DIRSIZ : ℕ := 14

instance : NeZero NPROC := ⟨by decide⟩
instance : NeZero NINODE := ⟨by decide⟩
instance : NeZero NOFILE := ⟨by decide⟩

lemma MAXOPBLOCKS_eq : MAXOPBLOCKS = 10 := rfl
lemma LOGSIZE_eq : LOGSIZE = 30 := rfl
lemma BSIZE_eq : BSIZE = 1024 := rfl
lemma NDIRECT_eq : NDIRECT = 12 := rfl
lemma NINDIRECT_eq : NINDIRECT = 256 := rfl
lemma MAXFILE_eq : MAXFILE = 268 := rfl
lemma IPB_eq : IPB = 16 := rfl
lemma BPB_eq : BPB = 8192 := rfl
lemma DIRSIZ_eq : DIRSIZ = 14 := rfl

/-- The contents of a disk block. -/
abbrev Block : Type := Bytes BSIZE

/-- A value read as a 32-bit `int`. -/
def toInt32 (v : ℕ) : ℤ := if v % 2 ^ 32 < 2 ^ 31 then (v % 2 ^ 32 : ℕ) else (v % 2 ^ 32 : ℕ) - 2 ^ 32

lemma toInt32_of_lt (h : v < 2 ^ 31) : toInt32 v = v := by
  have hv : v % 2 ^ 32 = v := Nat.mod_eq_of_lt (by omega)
  rw [toInt32, hv, if_pos h]

end Xv6
