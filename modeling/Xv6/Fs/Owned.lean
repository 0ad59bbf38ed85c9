import Xv6.Fs.Layout
import Xv6.Lib.Pool

/-!
# The owners of disk blocks

A *slot* is a place that can refer to a data block: entry `n ≤ NDIRECT` of the `addrs` of inode `i`
is slot `(i, n)`, and entry `j` of its indirect block is slot `(i, NDIRECT + 1 + j)`.  `Owned R d`
says that the free map of disk `d` is exact for the slots `R`: every set bit belongs to a metadata
block or to the one slot that refers to the block.
-/

namespace Xv6.Fs

open Lib Log Function

/-- `i` is the number of an inode. -/
abbrev Superblock.Inum (sb : Superblock) (i : ℕ) : Prop := 0 < i ∧ i < sb.ninodes

/-! ### Regions of the disk -/

variable {i b x a n : ℕ} {v : Block} {t : ℕ × ℕ} {D' : ℕ → Dinode}

section

variable {sb : Superblock} (hl : Layout sb)

include hl

lemma Layout.iblock_lt (hi : sb.Inum i) : sb.IBLOCK i < sb.bmapstart := by
  have h := hl.bmapstart
  have hdiv : i / IPB ≤ sb.ninodes / IPB := Nat.div_le_div_right (Nat.le_of_lt hi.2)
  unfold Superblock.IBLOCK
  omega

omit hl in
lemma bblock_lt_nmeta (hb : b < sb.size) : sb.BBLOCK b < sb.nmeta := by
  have hdiv : b / BPB ≤ sb.size / BPB := Nat.div_le_div_right (Nat.le_of_lt hb)
  unfold Superblock.BBLOCK Superblock.nmeta
  omega

omit hl in
lemma bmapstart_le_bblock (sb : Superblock) (b : ℕ) : sb.bmapstart ≤ sb.BBLOCK b := Nat.le_add_left _ _

omit hl in
lemma bmapstart_lt_nmeta (sb : Superblock) : sb.bmapstart < sb.nmeta :=
  Nat.lt_succ_of_le (Nat.le_add_right _ _)

omit hl in
lemma nmeta_pos (sb : Superblock) : 0 < sb.nmeta := Nat.succ_pos _

lemma dinode_data (hi : sb.Inum i) (hx : sb.nmeta ≤ x) : dinode sb (update d x v) i = dinode sb d i := by
  have h1 := hl.iblock_lt hi
  have h2 := bmapstart_lt_nmeta sb
  exact dinode_update sb (by omega)

lemma dinode_bitmap (hi : sb.Inum i) : dinode sb (update d (sb.BBLOCK b) v) i = dinode sb d i := by
  have h1 := hl.iblock_lt hi
  have h2 := bmapstart_le_bblock sb b
  exact dinode_update sb (by omega)

omit hl in
lemma bit_data (hb : b < sb.size) (hx : sb.nmeta ≤ x) : bit sb (update d x v) b = bit sb d b := by
  have h1 := bblock_lt_nmeta hb
  exact bit_update sb (by omega)

lemma bit_putDinode {d : Disk} {a : Dinode} (hi : sb.Inum i) : bit sb (putDinode sb d i a) b = bit sb d b := by
  have h1 := hl.iblock_lt hi
  have h2 := bmapstart_le_bblock sb b
  exact bit_update sb (by omega)

lemma putDinode_data {d : Disk} {a : Dinode} (hi : sb.Inum i) (hx : sb.nmeta ≤ x) : putDinode sb d i a x = d x := by
  have h1 := hl.iblock_lt hi
  have h2 := bmapstart_lt_nmeta sb
  exact update_of_ne (by omega) _ _

end

/-- Two disks that hold the same inodes and data; only their free maps may differ. -/
structure SameData (sb : Superblock) (d d' : Disk) : Prop where
  data : ∀ b, sb.nmeta ≤ b → d' b = d b
  dinode : ∀ i, sb.Inum i → dinode sb d' i = dinode sb d i

namespace SameData

variable {sb : Superblock} {d d' d'' : Disk}

lemma refl (d : Disk) : SameData sb d d := ⟨fun _ _ => rfl, fun _ _ => rfl⟩

lemma trans (h : SameData sb d d') (h' : SameData sb d' d'') : SameData sb d d'' where
  data b hb := (h'.data b hb).trans (h.data b hb)
  dinode i hi := (h'.dinode i hi).trans (h.dinode i hi)

lemma bitmap (hl : Layout sb) (hb : b < sb.size) (v : Block) : SameData sb d (update d (sb.BBLOCK b) v) where
  data x hx := by
    have h1 := bblock_lt_nmeta hb
    exact update_of_ne (by omega) _ _
  dinode i hi := dinode_bitmap hl hi

end SameData

/-! ### Slots -/

/-- The block that slot `t` refers to, 0 if none, when the inodes are those of `D`. -/
def slot (sb : Superblock) (D : ℕ → Dinode) (d : Disk) (t : ℕ × ℕ) : ℕ :=
  if sb.Inum t.1 ∧ (D t.1).type ≠ 0 then
    if t.2 ≤ NDIRECT then (D t.1).addrs t.2
    else if (D t.1).addrs NDIRECT ≠ 0 ∧ t.2 ≤ MAXFILE then
      (d ((D t.1).addrs NDIRECT)).le (4 * (t.2 - NDIRECT - 1)) 4
    else 0
  else 0

/-- The slot of the `n`-th block of the contents of an inode. -/
def dataSlot (n : ℕ) : ℕ := if n < NDIRECT then n else n + 1

def nz (a : ℕ) : Option ℕ := if a = 0 then none else some a

lemma nz_eq_some : nz a = some b ↔ a = b ∧ b ≠ 0 := by
  unfold nz
  split
  · rename_i h
    simp [h]
    omega
  · rename_i h
    constructor
    · rintro e
      cases e
      exact ⟨rfl, h⟩
    · rintro ⟨rfl, -⟩
      rfl

lemma nz_zero : nz 0 = none := rfl

lemma nz_of_ne (h : a ≠ 0) : nz a = some a := if_neg h

lemma nz_update (R : ℕ × ℕ → ℕ) (t : ℕ × ℕ) (b : ℕ) :
    (fun u => nz (update R t b u)) = update (fun u => nz (R u)) t (nz b) := by
  funext u
  by_cases hu : u = t
  · subst hu
    simp
  · simp [update_of_ne hu]

/-- No block is in two slots, and the free map marks those that are in one. -/
structure Marked (sb : Superblock) (R : ℕ × ℕ → ℕ) (d : Disk) : Prop where
  once : ∀ t u, R t ≠ 0 → R u = R t → t = u
  used : ∀ t, R t ≠ 0 → (sb.nmeta ≤ R t ∧ R t < sb.size) ∧ bit sb d (R t) = true
  reserved : ∀ b, b < sb.nmeta → bit sb d b = true

/-- **The free map is exact.** -/
structure Owned (sb : Superblock) (R : ℕ × ℕ → ℕ) (d : Disk) : Prop where
  pool : Pool (fun b => sb.nmeta ≤ b ∧ b < sb.size) (fun b => bit sb d b = false) fun t => nz (R t)
  reserved : ∀ b, b < sb.nmeta → bit sb d b = true

lemma bit_take {sb : Superblock} (hb : sb.nmeta ≤ b) (hx : x < sb.size) (v : Block) :
    bit sb (update (setBit sb d b) b v) x = (decide (x = b) || bit sb d x) := by
  rw [bit_data hx hb, bit_setBit]

namespace Marked

variable {sb : Superblock} {R : ℕ × ℕ → ℕ} {d d' : Disk}

section

variable (h : Marked sb R d)

include h

lemma data (ht : R t ≠ 0) : sb.nmeta ≤ R t ∧ R t < sb.size :=
  (h.used t ht).1

lemma inj (ht : R t ≠ 0) (hu : R u = R t) : t = u := h.once t u ht hu

lemma ne_of_free (hb : Fs.bit sb d b = false) (ht : R t ≠ 0) : R t ≠ b := by
  rintro rfl
  rw [(h.used t ht).2] at hb
  cases hb

lemma congr (hb : ∀ b, b < sb.size → Fs.bit sb d' b = Fs.bit sb d b) (hs : sb.nmeta ≤ sb.size) : Marked sb R d' where
  once := h.once
  used t ht := ⟨h.data ht, by rw [hb _ (h.data ht).2, (h.used t ht).2]⟩
  reserved b hb' := by rw [hb b (by omega), h.reserved b hb']

lemma take (hl : Layout sb) (hb : sb.nmeta ≤ b) (hs : b < sb.size) (hfree : Fs.bit sb d b = false) (t : ℕ × ℕ)
    (v : Block) :
    Marked sb (update R t b) (update (setBit sb d b) b v) where
  once u w hu hw := by
    by_cases hut : u = t
    · subst hut
      rw [update_self] at hw
      by_contra hne
      rw [update_of_ne (Ne.symm hne)] at hw
      exact h.ne_of_free hfree (by rw [hw]; have := nmeta_pos sb; omega) hw
    · rw [update_of_ne hut] at hu hw
      by_cases hwt : w = t
      · subst hwt
        rw [update_self] at hw
        exact absurd hw.symm (h.ne_of_free hfree hu)
      · rw [update_of_ne hwt] at hw
        exact h.inj hu hw
  used u hu := by
    by_cases hut : u = t
    · subst hut
      rw [update_self]
      exact ⟨⟨hb, hs⟩, by rw [bit_take hb hs]; simp⟩
    · rw [update_of_ne hut] at hu ⊢
      exact ⟨h.data hu, by rw [bit_take hb (h.data hu).2, (h.used u hu).2, Bool.or_true]⟩
  reserved x hx := by
    have := hl.data
    rw [bit_take hb (by omega), h.reserved x hx, Bool.or_true]

end

end Marked

namespace Owned

variable {sb : Superblock} {R : ℕ × ℕ → ℕ} {d d' : Disk}

section

variable (h : Owned sb R d)

include h

lemma marked : Marked sb R d where
  once t u ht hu := h.pool.inj t u (R t) (nz_of_ne ht) (by rw [hu, nz_of_ne ht])
  used t ht := by
    have := h.pool.used t (R t) (nz_of_ne ht)
    simpa using this
  reserved := h.reserved

lemma data (ht : R t ≠ 0) : sb.nmeta ≤ R t ∧ R t < sb.size :=
  h.marked.data ht

lemma bit (ht : R t ≠ 0) : bit sb d (R t) = true := (h.marked.used t ht).2

lemma congr (hb : ∀ b, b < sb.size → Fs.bit sb d' b = Fs.bit sb d b) (hs : sb.nmeta ≤ sb.size) : Owned sb R d' where
  pool := h.pool.congr_free fun b hb' => by rw [hb b hb'.2]
  reserved b hb' := by rw [hb b (by omega), h.reserved b hb']

lemma take (hl : Layout sb) (hb : sb.nmeta ≤ b) (hs : b < sb.size) (hfree : Fs.bit sb d b = false) (ht : R t = 0)
    (v : Block) :
    Owned sb (update R t b) (update (setBit sb d b) b v) := by
  refine ⟨?_, (h.marked.take hl hb hs hfree t v).reserved⟩
  rw [nz_update, nz_of_ne (by have := nmeta_pos sb; omega)]
  refine h.pool.take ⟨hb, hs⟩ hfree (by rw [ht, nz_zero]) fun x hx => ?_
  rw [bit_take hb hx.2]
  simp [and_comm]

lemma give (ht : R t ≠ 0) : Owned sb (update R t 0) (unsetBit sb d (R t)) := by
  refine ⟨?_, ?_⟩
  · rw [nz_update, nz_zero]
    refine h.pool.give (nz_of_ne ht) fun x _ => ?_
    rw [bit_unsetBit]
    by_cases hx : x = R t <;> simp [hx]
  · intro x hx
    have hne : x ≠ R t := by
      have := (h.data ht).1
      omega
    rw [bit_unsetBit, h.reserved x hx]
    simp [hne]

end

end Owned

/-! ### How changes of inodes and indirect blocks change the slots -/

section

variable {sb : Superblock} {D : ℕ → Dinode} {d d' : Disk}

lemma slot_direct (hi : sb.Inum i) (ht : (D i).type ≠ 0) (hn : n ≤ NDIRECT) :
    slot sb D d (i, n) = (D i).addrs n := by
  unfold slot
  rw [if_pos ⟨hi, ht⟩, if_pos hn]

lemma slot_indirect (hi : sb.Inum i) (ht : (D i).type ≠ 0) (hn : NDIRECT < n) (hm : n ≤ MAXFILE)
    (ha : (D i).addrs NDIRECT ≠ 0) :
    slot sb D d (i, n) = (d ((D i).addrs NDIRECT)).le (4 * (n - NDIRECT - 1)) 4 := by
  unfold slot
  rw [if_pos ⟨hi, ht⟩, if_neg (by simpa using hn), if_pos ⟨ha, hm⟩]

lemma slot_congr (hD : ∀ i, sb.Inum i → (D' i).type = (D i).type ∧ (D' i).addrs = (D i).addrs)
    (hd : ∀ i, sb.Inum i → (D i).type ≠ 0 → (D i).addrs NDIRECT ≠ 0 →
      d' ((D i).addrs NDIRECT) = d ((D i).addrs NDIRECT)) : slot sb D' d' = slot sb D d := by
  funext t
  unfold slot
  by_cases hi : sb.Inum t.1
  · rw [(hD t.1 hi).1, (hD t.1 hi).2]
    by_cases ha : (D t.1).type ≠ 0 ∧ (D t.1).addrs NDIRECT ≠ 0
    · rw [hd t.1 hi ha.1 ha.2]
    · by_cases htype : (D t.1).type ≠ 0
      · have haddr : (D t.1).addrs NDIRECT = 0 := by
          by_contra hne
          exact ha ⟨htype, hne⟩
        simp [haddr]
      · simp [htype]
  · rw [if_neg fun h => hi h.1, if_neg fun h => hi h.1]

lemma Marked.indirect_data (ho : Marked sb R d) (hR : R = slot sb D d) (hi : sb.Inum i) (ht : (D i).type ≠ 0)
    (ha : (D i).addrs NDIRECT ≠ 0) :
    sb.nmeta ≤ (D i).addrs NDIRECT := by
  have hslot : R (i, NDIRECT) = (D i).addrs NDIRECT := by
    rw [hR]
    exact slot_direct hi ht le_rfl
  rw [← hslot]
  exact (ho.data (by rwa [hslot])).1

lemma slot_data (ho : Marked sb (slot sb D d) d)
    (hD : ∀ i, sb.Inum i → (D' i).type = (D i).type ∧ (D' i).addrs = (D i).addrs)
    (hdata : ∀ b, sb.nmeta ≤ b → d' b = d b) : slot sb D' d' = slot sb D d :=
  slot_congr hD fun _ hi ht ha => hdata _ (ho.indirect_data rfl hi ht ha)

lemma slot_setDirect (hi : sb.Inum i) (ht : (D i).type ≠ 0) (hn : n < NDIRECT) :
    slot sb (update D i { D i with addrs := update (D i).addrs n b }) d =
      update (slot sb D d) (i, n) b := by
  funext t
  obtain ⟨j, m⟩ := t
  by_cases hj : j = i
  · subst hj
    by_cases hm : m = n
    · subst hm
      rw [update_self, slot_direct hi (by simpa using ht) (Nat.le_of_lt hn)]
      simp
    · rw [update_of_ne (by simpa using hm)]
      have hN : NDIRECT ≠ n := Nat.ne_of_gt hn
      unfold slot
      simp [hm, hN]
  · rw [update_of_ne (by simp [hj])]
    unfold slot
    simp [hj]

lemma slot_setIndirect (hi : sb.Inum i) (ht : (D i).type ≠ 0) (h0 : (D i).addrs NDIRECT = 0) (hb : d b = Bytes.zero _)
    :
    slot sb (update D i { D i with addrs := update (D i).addrs NDIRECT b }) d =
      update (slot sb D d) (i, NDIRECT) b := by
  funext t
  obtain ⟨j, m⟩ := t
  by_cases hj : j = i
  · subst hj
    by_cases hm : m = NDIRECT
    · subst hm
      rw [update_self, slot_direct hi (by simpa using ht) le_rfl]
      simp
    · rw [update_of_ne (by simpa using hm)]
      unfold slot
      simp [hm, h0, hb]
  · rw [update_of_ne (by simp [hj])]
    unfold slot
    simp [hj]

lemma Marked.indirect_ne (ho : Marked sb (slot sb D d) d) (hi : sb.Inum i) (ht : (D i).type ≠ 0)
    (ha : (D i).addrs NDIRECT ≠ 0) (hk : sb.Inum k) (htk : (D k).type ≠ 0) (hki : k ≠ i) :
    (D k).addrs NDIRECT ≠ (D i).addrs NDIRECT := by
  intro e
  have hself : slot sb D d (i, NDIRECT) = (D i).addrs NDIRECT := slot_direct hi ht le_rfl
  have hother : slot sb D d (k, NDIRECT) = (D k).addrs NDIRECT := slot_direct hk htk le_rfl
  have := ho.inj (by rwa [hself]) (by rw [hother, hself, e])
  exact hki (Prod.ext_iff.mp this).1.symm

lemma slot_setEntry (hi : sb.Inum i) (ht : (D i).type ≠ 0) (ha : (D i).addrs NDIRECT ≠ 0)
    (hne : ∀ k, sb.Inum k → (D k).type ≠ 0 → k ≠ i → (D k).addrs NDIRECT ≠ (D i).addrs NDIRECT) (hn : NDIRECT < n)
    (hm : n ≤ MAXFILE) (hb : b < 2 ^ 32) :
    slot sb D (update d ((D i).addrs NDIRECT)
      ((d ((D i).addrs NDIRECT)).putLe (4 * (n - NDIRECT - 1)) 4 b)) =
      update (slot sb D d) (i, n) b := by
  have hN := NDIRECT_eq
  have hM := MAXFILE_eq
  have hB := BSIZE_eq
  funext t
  obtain ⟨j, m⟩ := t
  by_cases hj : j = i
  · subst hj
    by_cases hmn : m = n
    · subst hmn
      rw [update_self, slot_indirect hi ht hn hm ha, update_self]
      exact Bytes.le_putLe_of_lt _ (by omega) hb
    · rw [update_of_ne (by simpa using hmn)]
      by_cases hmd : m ≤ NDIRECT
      · rw [slot_direct hi ht hmd, slot_direct hi ht hmd]
      · by_cases hmM : m ≤ MAXFILE
        · rw [slot_indirect hi ht (by omega) hmM ha, slot_indirect hi ht (by omega) hmM ha,
            update_self, Bytes.le_putLe_of_disjoint _ (by omega)]
        · unfold slot
          simp only [hmd, hmM, and_false, if_false]
  · rw [update_of_ne (by simp [hj])]
    unfold slot
    by_cases hk : sb.Inum j ∧ (D j).type ≠ 0
    · rw [update_of_ne (hne j hk.1 hk.2 hj)]
    · rw [if_neg hk, if_neg hk]

end

end Xv6.Fs
