import Xv6.Param

/-!
# The redo log: header format and the code of `commit` and `recover_from_log`

`log.c` works on buffers: it reads blocks with `bread`, copies between buffers with `memmove`,
writes buffers to disk with `bwrite` and releases them with `brelse`.  The body of a function of
`log.c` is given here as the list of these calls (`Cmd`).  A call names the buffers it uses by
their position on the stack of buffers the running process has read and not yet released, the
most recent at position 0.  The loops of `write_log` and `install_trans` are unrolled over
`log.lh.block[0..n)`, which no call inside them changes.
-/

namespace Xv6.Log

open Lib

/-- `log.start` and `log.size`: the header block and the `size - 1` log blocks after it. -/
structure LogArea where
  start : ℕ
  size : ℕ
  pos : 0 < size

/-- Block `b` is part of the log area. -/
def LogArea.Mem (L : LogArea) (b : ℕ) : Prop := L.start ≤ b ∧ b < L.start + L.size
  deriving Decidable

/-- The log block of entry `tail`. -/
def LogArea.slot (L : LogArea) (tail : ℕ) : ℕ := L.start + tail + 1

/-- The log area of an image that `mkfs` makes: `LOGSIZE` blocks from block 2 on. -/
def mkfsLog : LogArea := ⟨2, LOGSIZE, by decide⟩

/-! ### `struct logheader` in a block -/

/-- `lh->n`, an `int`. -/
def headN (b : Block) : ℤ := toInt32 (b.le 0 4)

/-- The entries `lh->block[0..n)`. -/
@[irreducible]
def headBlocks (b : Block) : List ℕ :=
  (List.range (headN b).toNat).map fun i => b.le (4 + 4 * i) 4

/-- The entries of `bs` written from index `i` on. -/
def putBlocks (b : Block) (i : ℕ) : List ℕ → Block
  | [] => b
  | x :: bs => putBlocks (b.putLe (4 + 4 * i) 4 x) (i + 1) bs

/-- The stores of `write_head`: the count and the first `n` entries; the rest stays. -/
def putHead (lh : List ℕ) (b : Block) : Block := putBlocks (b.putLe 0 4 lh.length) 0 lh

/-! ### The code -/

/-- The buffer operations that `log.c` is made of. -/
inductive Cmd where
  /-- Read block `b`; its buffer becomes position 0. -/
  | bread (b : ℕ)
  /-- Copy the data of the buffer at position `src` to the one at `dst`. -/
  | memmove (dst src : ℕ)
  /-- Store the in-memory header into the buffer at position 0. -/
  | putHead
  /-- Load the in-memory header from the buffer at position 0. -/
  | getHead
  | bwrite (k : ℕ)
  | bunpin (k : ℕ)
  | brelse (k : ℕ)
  /-- `log.lh.n = 0`. -/
  | clear
  deriving DecidableEq

/-- One iteration of `write_log`: cache block `b` to the log block of `tail`. -/
def writeLogStep (L : LogArea) (b tail : ℕ) : List Cmd :=
  [.bread (L.slot tail), .bread b, .memmove 1 0, .bwrite 1, .brelse 0, .brelse 0]

/-- `write_log`, from entry `tail` on. -/
def writeLog (L : LogArea) (tail : ℕ) : List ℕ → List Cmd
  | [] => []
  | b :: bs => writeLogStep L b tail ++ writeLog L (tail + 1) bs

/-- One iteration of `install_trans`: the log block of `tail` to its home `b`. -/
def installStep (L : LogArea) (recovering : Bool) (b tail : ℕ) : List Cmd :=
  [.bread (L.slot tail), .bread b, .memmove 0 1, .bwrite 0] ++
    (if recovering then [] else [.bunpin 0]) ++ [.brelse 1, .brelse 0]

/-- `install_trans`, from entry `tail` on. -/
def installTrans (L : LogArea) (recovering : Bool) (tail : ℕ) : List ℕ → List Cmd
  | [] => []
  | b :: bs => installStep L recovering b tail ++ installTrans L recovering (tail + 1) bs

def writeHead (L : LogArea) : List Cmd := [.bread L.start, .putHead, .bwrite 0, .brelse 0]

def readHead (L : LogArea) : List Cmd := [.bread L.start, .getHead, .brelse 0]

/-- `commit` when the in-memory header lists the blocks `lh`. -/
def commit (L : LogArea) (lh : List ℕ) : List Cmd :=
  if 0 < lh.length then
    writeLog L 0 lh ++ writeHead L ++ installTrans L false 0 lh ++ [.clear] ++ writeHead L
  else []

/-- `recover_from_log` when the header that `read_head` loads lists the blocks `lh`. -/
def recoverFromLog (L : LogArea) (lh : List ℕ) : List Cmd :=
  readHead L ++ installTrans L true 0 lh ++ [.clear] ++ writeHead L

/-! ### Round trip of the header -/

variable {b : Block} {bs lh : List ℕ}

lemma le_putBlocks_of_lt {i off w : ℕ} (h : off + w ≤ 4 + 4 * i) : (putBlocks b i bs).le off w = b.le off w := by
  induction bs generalizing b i with
  | nil => rfl
  | cons x bs ih =>
    rw [putBlocks, ih (by omega)]
    exact Bytes.le_putLe_of_disjoint b (Or.inl h)

lemma le_putBlocks (hroom : i + bs.length ≤ LOGSIZE) (hbs : ∀ x ∈ bs, x < 2 ^ 32) (hk : k < bs.length) :
    (putBlocks b i bs).le (4 + 4 * (i + k)) 4 = bs[k] := by
  induction bs generalizing b i k with
  | nil => simp at hk
  | cons x bs ih =>
    rw [putBlocks]
    simp only [List.length_cons] at hroom hk
    cases k with
    | zero =>
      rw [le_putBlocks_of_lt (by omega), Nat.add_zero]
      have hx : x < 256 ^ 4 := by
        have := hbs x List.mem_cons_self
        omega
      exact Bytes.le_putLe_of_lt b (by have := LOGSIZE_eq; have := BSIZE_eq; omega) hx
    | succ k =>
      have := ih (b := b.putLe (4 + 4 * i) 4 x) (i := i + 1) (by omega)
        (fun y hy => hbs y (List.mem_cons_of_mem _ hy)) (k := k) (by omega)
      rw [show i + (k + 1) = i + 1 + k by omega, this]
      rfl

lemma headN_putHead (b : Block) (h : lh.length ≤ LOGSIZE) : headN (putHead lh b) = lh.length := by
  have h30 := LOGSIZE_eq
  unfold headN putHead
  rw [le_putBlocks_of_lt (by omega), Bytes.le_putLe_of_lt b (by decide) (by omega), toInt32_of_lt (by omega)]

/-- **The header read back is the header written.** -/
lemma headBlocks_putHead (b : Block) (hroom : lh.length ≤ LOGSIZE) (hlh : ∀ x ∈ lh, x < 2 ^ 32) :
    headBlocks (putHead lh b) = lh := by
  have hN := headN_putHead b hroom
  refine List.ext_getElem (by simp [headBlocks, hN]) fun k h1 h2 => ?_
  have hle := le_putBlocks (b := b.putLe 0 4 lh.length) (i := 0) (by omega) hlh h2
  simp only [headBlocks, List.getElem_map, List.getElem_range]
  rw [Nat.zero_add] at hle
  exact hle

lemma headBlocks_of_headN_eq_zero (h : headN b = 0) : headBlocks b = [] := by simp [headBlocks, h]

end Xv6.Log
