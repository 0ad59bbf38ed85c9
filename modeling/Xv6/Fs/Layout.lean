import Xv6.Log.Flat

/-!
# The disk layout

The superblock, and the three kinds of structured blocks: the free map, the blocks of inodes, and
directory blocks.  The contents of the disk are those that `bread` returns; that the cache and the
log keep them is the subject of `Xv6.Bio`.
-/

namespace Xv6.Fs

open Lib Log Function

/-- `struct superblock`, less the magic number and the count of data blocks, which nothing reads. -/
structure Superblock where
  size : ℕ
  ninodes : ℕ
  nlog : ℕ
  logstart : ℕ
  inodestart : ℕ
  bmapstart : ℕ

namespace Superblock

/-- The block that holds inode `i`. -/
def IBLOCK (sb : Superblock) (i : ℕ) : ℕ := i / IPB + sb.inodestart

def BBLOCK (sb : Superblock) (b : ℕ) : ℕ := b / BPB + sb.bmapstart

/-- The number of metadata blocks: boot block, superblock, log, inodes and free map. -/
def nmeta (sb : Superblock) : ℕ := sb.bmapstart + sb.size / BPB + 1

end Superblock

/-- The regions follow each other as `mkfs` lays them out. -/
structure Layout (sb : Superblock) : Prop where
  logstart : sb.logstart = 2
  inodestart : sb.inodestart = sb.logstart + sb.nlog
  bmapstart : sb.bmapstart = sb.inodestart + (sb.ninodes / IPB + 1)
  data : sb.nmeta ≤ sb.size
  size : sb.size < 2 ^ 31
  ninodes : sb.ninodes ≤ 2 ^ 16

/-! ### The free map -/

/-- `bp->data[bi/8] & (1 << (bi % 8))`. -/
def testBit (x : Block) (bi : ℕ) : Bool := (x.get (bi / 8)).testBit (bi % 8)

/-- `bp->data[bi/8] |= 1 << (bi % 8)`. -/
def orBit (x : Block) (bi : ℕ) : Block := x.putLe (bi / 8) 1 (x.get (bi / 8) ||| 2 ^ (bi % 8))

/-- `bp->data[bi/8] &= ~(1 << (bi % 8))`. -/
def clearBit (x : Block) (bi : ℕ) : Block := x.putLe (bi / 8) 1 ((x.get (bi / 8)).ldiff (2 ^ (bi % 8)))

lemma get_putByte (x : Block) (hk : k < BSIZE) (hv : v < 256) (j : ℕ) :
    (x.putLe k 1 v).get j = if j = k then v else x.get j := by
  rw [Bytes.get_putLe]
  by_cases hj : j = k
  · subst hj
    rw [if_pos ⟨le_rfl, by omega, hk⟩, if_pos rfl]
    simpa using hv
  · rw [if_neg (by omega), if_neg hj]

lemma or_lt (x : Block) (k j : ℕ) : x.get k ||| 2 ^ (j % 8) < 256 :=
  Nat.or_lt_two_pow (n := 8) (x.get_lt k) (Nat.pow_lt_pow_right (by omega) (Nat.mod_lt _ (by omega)))

lemma ldiff_lt (x : Block) (k v : ℕ) : (x.get k).ldiff v < 256 := by
  refine Nat.lt_pow_two_of_testBit (n := 8) _ fun i hi => ?_
  have hi' : 2 ^ 8 ≤ 2 ^ i := Nat.pow_le_pow_right (by decide) hi
  rw [Nat.testBit_ldiff, Nat.testBit_lt_two_pow (lt_of_lt_of_le (x.get_lt k) hi')]
  rfl

lemma bit_pos_inj (h1 : a / 8 = b / 8) (h2 : a % 8 = b % 8) : a = b := by omega

lemma testBit_orBit (x : Block) {bi : ℕ} (h : bi < BPB) (c : ℕ) :
    testBit (orBit x bi) c = (decide (c = bi) || testBit x c) := by
  have hB := BSIZE_eq
  have hP := BPB_eq
  unfold testBit orBit
  rw [get_putByte x (by omega) (or_lt x _ bi)]
  by_cases hbyte : c / 8 = bi / 8
  · rw [if_pos hbyte, Nat.testBit_or, Nat.testBit_two_pow, hbyte, Bool.or_comm]
    congr 1
    rw [decide_eq_decide]
    constructor
    · intro hm
      exact bit_pos_inj hbyte hm.symm
    · rintro rfl
      rfl
  · have : c ≠ bi := by
      rintro rfl
      exact hbyte rfl
    rw [if_neg hbyte]
    simp [this]

lemma testBit_clearBit (x : Block) {bi : ℕ} (h : bi < BPB) (c : ℕ) :
    testBit (clearBit x bi) c = (!decide (c = bi) && testBit x c) := by
  have hB := BSIZE_eq
  have hP := BPB_eq
  unfold testBit clearBit
  rw [get_putByte x (by omega) (ldiff_lt x _ _)]
  by_cases hbyte : c / 8 = bi / 8
  · rw [if_pos hbyte, Nat.testBit_ldiff, Nat.testBit_two_pow, hbyte, Bool.and_comm]
    congr 2
    rw [decide_eq_decide]
    constructor
    · intro hm
      exact bit_pos_inj hbyte hm.symm
    · rintro rfl
      rfl
  · have : c ≠ bi := by
      rintro rfl
      exact hbyte rfl
    rw [if_neg hbyte]
    simp [this]

section

variable (sb : Superblock)

/-- The free-map bit of block `b`. -/
def bit (d : Disk) (b : ℕ) : Bool := testBit (d (sb.BBLOCK b)) (b % BPB)

def setBit (d : Disk) (b : ℕ) : Disk :=
  update d (sb.BBLOCK b) (orBit (d (sb.BBLOCK b)) (b % BPB))

def unsetBit (d : Disk) (b : ℕ) : Disk :=
  update d (sb.BBLOCK b) (clearBit (d (sb.BBLOCK b)) (b % BPB))

lemma bit_update (h : x ≠ sb.BBLOCK b) : bit sb (update d x v) b = bit sb d b := by
  rw [bit, update_of_ne (Ne.symm h), bit]

lemma bit_setBit (d : Disk) (b c : ℕ) : bit sb (setBit sb d b) c = (decide (c = b) || bit sb d c) := by
  unfold setBit
  by_cases hblk : sb.BBLOCK c = sb.BBLOCK b
  · rw [bit, hblk, update_self, testBit_orBit _ (Nat.mod_lt _ (by decide)), ← hblk, bit]
    congr 1
    rw [decide_eq_decide]
    refine ⟨fun hm => ?_, fun e => by rw [e]⟩
    unfold Superblock.BBLOCK at hblk
    rw [← Nat.div_add_mod c BPB, ← Nat.div_add_mod b BPB, hm, show c / BPB = b / BPB by omega]
  · have hne : c ≠ b := fun e => hblk (by rw [e])
    rw [bit_update sb (Ne.symm hblk)]
    simp [hne]

lemma bit_unsetBit (d : Disk) (b c : ℕ) : bit sb (unsetBit sb d b) c = (!decide (c = b) && bit sb d c) := by
  unfold unsetBit
  by_cases hblk : sb.BBLOCK c = sb.BBLOCK b
  · rw [bit, hblk, update_self, testBit_clearBit _ (Nat.mod_lt _ (by decide)), ← hblk, bit]
    congr 2
    rw [decide_eq_decide]
    refine ⟨fun hm => ?_, fun e => by rw [e]⟩
    unfold Superblock.BBLOCK at hblk
    rw [← Nat.div_add_mod c BPB, ← Nat.div_add_mod b BPB, hm, show c / BPB = b / BPB by omega]
  · have hne : c ≠ b := fun e => hblk (by rw [e])
    rw [bit_update sb (Ne.symm hblk)]
    simp [hne]

end

/-! ### Inodes -/

/-- `struct dinode`: the part of an inode that lives on disk.  The fields are kept as the naturals
that their bytes spell; `addrs k` is the entry `k ≤ NDIRECT`. -/
structure Dinode where
  type : ℕ
  major : ℕ
  minor : ℕ
  nlink : ℕ
  size : ℕ
  addrs : ℕ → ℕ

namespace Dinode

/-- The values fit in their fields. -/
structure Small (a : Dinode) : Prop where
  type : a.type < 2 ^ 16
  major : a.major < 2 ^ 16
  minor : a.minor < 2 ^ 16
  nlink : a.nlink < 2 ^ 16
  size : a.size < 2 ^ 32
  addrs : ∀ k, a.addrs k < 2 ^ 32
  unused : ∀ k, NDIRECT < k → a.addrs k = 0

/-- A free inode, zeroed. -/
def zero : Dinode := ⟨0, 0, 0, 0, 0, fun _ => 0⟩

/-- The inode at offset `o` of a block. -/
def decode (x : Block) (o : ℕ) : Dinode where
  type := x.le o 2
  major := x.le (o + 2) 2
  minor := x.le (o + 4) 2
  nlink := x.le (o + 6) 2
  size := x.le (o + 8) 4
  addrs k := if k ≤ NDIRECT then x.le (o + 12 + 4 * k) 4 else 0

/-- The stores of `iupdate`. -/
def encode (x : Block) (o : ℕ) (a : Dinode) : Block :=
  (((((x.putLe o 2 a.type).putLe (o + 2) 2 a.major).putLe (o + 4) 2 a.minor).putLe (o + 6) 2
    a.nlink).putLe (o + 8) 4 a.size).putWords (o + 12) 4 ((List.range (NDIRECT + 1)).map a.addrs)

lemma small_decode (x : Block) (o : ℕ) : (decode x o).Small where
  type := x.le_lt _ 2
  major := x.le_lt _ 2
  minor := x.le_lt _ 2
  nlink := x.le_lt _ 2
  size := x.le_lt _ 4
  addrs k := by
    simp only [decode]
    split
    · exact x.le_lt _ 4
    · omega
  unused k hk := if_neg (by omega)

lemma decode_encode (x : Block) (ho : o + 64 ≤ BSIZE) (ha : a.Small) :
    decode (encode x o a) o = a := by
  have hlen : ((List.range (NDIRECT + 1)).map a.addrs).length = 13 := by simp
  have hword : ∀ off w, off + w ≤ o + 12 →
      (encode x o a).le off w = (((((x.putLe o 2 a.type).putLe (o + 2) 2 a.major).putLe (o + 4) 2
        a.minor).putLe (o + 6) 2 a.nlink).putLe (o + 8) 4 a.size).le off w := by
    intro off w h
    exact Bytes.le_putWords_of_disjoint (Or.inl h)
  have h0 : (encode x o a).le o 2 = a.type := by
    rw [hword o 2 (by omega)]
    iterate 4 rw [Bytes.le_putLe_of_disjoint _ (by omega)]
    exact Bytes.le_putLe_of_lt _ (by omega) ha.type
  have h2 : (encode x o a).le (o + 2) 2 = a.major := by
    rw [hword _ 2 (by omega)]
    iterate 3 rw [Bytes.le_putLe_of_disjoint _ (by omega)]
    exact Bytes.le_putLe_of_lt _ (by omega) ha.major
  have h4 : (encode x o a).le (o + 4) 2 = a.minor := by
    rw [hword _ 2 (by omega)]
    iterate 2 rw [Bytes.le_putLe_of_disjoint _ (by omega)]
    exact Bytes.le_putLe_of_lt _ (by omega) ha.minor
  have h6 : (encode x o a).le (o + 6) 2 = a.nlink := by
    rw [hword _ 2 (by omega), Bytes.le_putLe_of_disjoint _ (by omega)]
    exact Bytes.le_putLe_of_lt _ (by omega) ha.nlink
  have h8 : (encode x o a).le (o + 8) 4 = a.size := by
    rw [hword _ 4 (by omega)]
    exact Bytes.le_putLe_of_lt _ (by omega) ha.size
  have haddrs : (fun k => if k ≤ NDIRECT then (encode x o a).le (o + 12 + 4 * k) 4 else 0) = a.addrs := by
    funext k
    by_cases hk : k ≤ NDIRECT
    · rw [if_pos hk]
      have hk' : k < ((List.range (NDIRECT + 1)).map a.addrs).length := by
        rw [hlen]
        have := NDIRECT_eq
        omega
      have hsmall : ∀ v ∈ (List.range (NDIRECT + 1)).map a.addrs, v < 256 ^ 4 := by
        intro v hv
        obtain ⟨j, -, rfl⟩ := List.mem_map.mp hv
        exact ha.addrs j
      unfold encode
      rw [Bytes.le_putWords (by rw [hlen]; omega) hsmall hk', List.getElem_map, List.getElem_range]
    · rw [if_neg hk]
      exact (ha.unused k (by omega)).symm
  unfold decode
  rw [h0, h2, h4, h6, h8, haddrs]

lemma le_encode_of_disjoint (x : Block) {o off w : ℕ} (a : Dinode)
    (h : off + w ≤ o ∨ o + 64 ≤ off) : (encode x o a).le off w = x.le off w := by
  unfold encode
  have hN := NDIRECT_eq
  rw [Bytes.le_putWords_of_disjoint (by simp only [List.length_map, List.length_range]; omega)]
  iterate 5 rw [Bytes.le_putLe_of_disjoint _ (by omega)]

lemma decode_encode_of_disjoint (x : Block) (a : Dinode) (h : o' + 64 ≤ o ∨ o + 64 ≤ o') :
    decode (encode x o a) o' = decode x o' := by
  unfold decode
  rw [le_encode_of_disjoint x a (by omega), le_encode_of_disjoint x a (by omega),
    le_encode_of_disjoint x a (by omega), le_encode_of_disjoint x a (by omega),
    le_encode_of_disjoint x a (by omega)]
  congr 1
  funext k
  split
  · have := NDIRECT_eq
    rw [le_encode_of_disjoint x a (by omega)]
  · rfl

end Dinode

section

variable (sb : Superblock)

/-- Inode `i` on disk. -/
def dinode (d : Disk) (i : ℕ) : Dinode := Dinode.decode (d (sb.IBLOCK i)) (i % IPB * 64)

def putDinode (d : Disk) (i : ℕ) (a : Dinode) : Disk :=
  update d (sb.IBLOCK i) (Dinode.encode (d (sb.IBLOCK i)) (i % IPB * 64) a)

lemma small_dinode (d : Disk) (i : ℕ) : (dinode sb d i).Small := Dinode.small_decode _ _

lemma dinode_update (h : x ≠ sb.IBLOCK i) :
    dinode sb (update d x v) i = dinode sb d i := by
  rw [dinode, update_of_ne (Ne.symm h), dinode]

lemma dinode_putDinode (d : Disk) (i : ℕ) (ha : a.Small) : dinode sb (putDinode sb d i a) i = a := by
  have hI := IPB_eq
  have hB := BSIZE_eq
  have hmod : i % IPB < IPB := Nat.mod_lt _ (by decide)
  rw [dinode, putDinode, update_self]
  exact Dinode.decode_encode _ (by omega) ha

lemma dinode_putDinode_of_ne (d : Disk) (a : Dinode) (h : j ≠ i) :
    dinode sb (putDinode sb d i a) j = dinode sb d j := by
  have hI := IPB_eq
  by_cases hblk : sb.IBLOCK j = sb.IBLOCK i
  · have hmod : j % IPB ≠ i % IPB := by
      intro hm
      unfold Superblock.IBLOCK at hblk
      refine h ?_
      rw [← Nat.div_add_mod j IPB, ← Nat.div_add_mod i IPB, hm, show j / IPB = i / IPB by omega]
    rw [dinode, putDinode, hblk, update_self, Dinode.decode_encode_of_disjoint _ _ (by omega), ← hblk, dinode]
  · exact dinode_update sb (Ne.symm hblk)

end

end Xv6.Fs
