import Xv6.Fs.Mkfs
import Xv6.Fs.FileData

/-!
# The blocks that `mkfs` takes

`mkfs` takes the blocks one after the other and writes the free map at the end.  With the free map that it would write
now its disk is one of the kernel's: to take the next block is what `balloc` does, since blocks that have not been
taken are zero.
-/

namespace Xv6.Fs

open Lib Log Function

/-! ### The free map -/

/-- The free map with the first `used` blocks in use. -/
def usedMap (used : ℕ) : Block := (List.range used).foldl orBit (Bytes.zero _)

lemma usedMap_succ (n : ℕ) : usedMap (n + 1) = orBit (usedMap n) n := by
  unfold usedMap
  rw [List.range_succ, List.foldl_append]
  rfl

lemma testBit_usedMap (hn : n ≤ BPB) (c : ℕ) : testBit (usedMap n) c = decide (c < n) := by
  induction n with
  | zero => simp [testBit, usedMap]
  | succ n ih =>
    rw [usedMap_succ, testBit_orBit _ (by omega), ih (by omega), Bool.eq_iff_iff]
    simp only [Bool.or_eq_true, decide_eq_true_eq]
    omega

namespace Mkfs

/-- The disk with the free map that `balloc` would write now. -/
def image (m : Mkfs) : Disk := update m.disk mkfsSb.bmapstart (usedMap m.freeblock)

/-- What has not been taken is zero. -/
def Fresh (m : Mkfs) : Prop := ∀ b, m.freeblock ≤ b → m.disk b = Bytes.zero _

variable {m : Mkfs} {b x i fbn : ℕ} {D' : ℕ → Dinode} {m' : Mkfs}

lemma image_of_ne (h : b ≠ mkfsSb.bmapstart) : m.image b = m.disk b := update_of_ne h _ _

lemma ne_bmapstart (h : mkfsSb.nmeta ≤ b) : b ≠ mkfsSb.bmapstart := by
  have := bmapstart_lt_nmeta mkfsSb
  omega

lemma image_data (h : mkfsSb.nmeta ≤ b) : m.image b = m.disk b := image_of_ne (ne_bmapstart h)

lemma bblock_eq (h : b < BPB) : mkfsSb.BBLOCK b = mkfsSb.bmapstart := by
  unfold Superblock.BBLOCK
  rw [Nat.div_eq_of_lt h, Nat.zero_add]

lemma bit_image (hm : m.freeblock ≤ BPB) (hb : b < BPB) : bit mkfsSb m.image b = decide (b < m.freeblock) := by
  rw [bit, bblock_eq hb, image, update_self, Nat.mod_eq_of_lt hb, testBit_usedMap hm]

lemma setBit_image (h : m.freeblock < BPB) :
    setBit mkfsSb m.image m.freeblock = { m with freeblock := m.freeblock + 1 }.image := by
  unfold setBit image
  rw [bblock_eq h, update_self, update_idem, Nat.mod_eq_of_lt h, usedMap_succ]

lemma image_store (hx : x ≠ mkfsSb.bmapstart) (v : Block) :
    { m with disk := update m.disk x v }.image = update m.image x v :=
  update_comm hx _ _ _

lemma image_winode (hi : mkfsSb.Inum i) (a : Dinode) : (m.winode i a).image = putDinode mkfsSb m.image i a := by
  have hne : mkfsSb.IBLOCK i ≠ mkfsSb.bmapstart := (mkfsSb_layout.iblock_lt hi).ne
  unfold putDinode
  rw [image_of_ne hne]
  exact image_store hne _

lemma ballocDisk_image (hfresh : m.Fresh) (hmeta : mkfsSb.nmeta ≤ m.freeblock) (hlt : m.freeblock < BPB) :
    ballocDisk mkfsSb m.image m.freeblock = { m with freeblock := m.freeblock + 1 }.image := by
  unfold ballocDisk
  rw [setBit_image hlt, update_eq_self_iff, image_data hmeta]
  exact (hfresh _ le_rfl).symm

end Mkfs

lemma size_le_BPB : mkfsSb.size ≤ BPB := by decide

/-! ### One block -/

/-- The next block has gone to slot `(i, n)`. -/
structure Took (i n : ℕ) (D : ℕ → Dinode) (m : Mkfs) (D' : ℕ → Dinode) (m' : Mkfs) : Prop where
  grow : Grow mkfsSb i D m.image D' m'.image
  slots : slot mkfsSb D' m'.image = update (slot mkfsSb D m.image) (i, n) m.freeblock
  next : m'.freeblock = m.freeblock + 1
  freeinode : m'.freeinode = m.freeinode
  fresh : m'.Fresh
  zero : m'.disk m.freeblock = Bytes.zero _

section

variable {m : Mkfs} {D : ℕ → Dinode} {i n : ℕ} (hm : Marked mkfsSb (slot mkfsSb D m.image) m.image) (hfresh : m.Fresh)
  (hmeta : mkfsSb.nmeta ≤ m.freeblock) (hlt : m.freeblock < mkfsSb.size) (hi : mkfsSb.Inum i) (ht : (D i).type ≠ 0)

include hlt in
lemma Mkfs.free_next : bit mkfsSb m.image m.freeblock = false := by
  have hB := size_le_BPB
  rw [Mkfs.bit_image (by omega) (by omega)]
  simp

include hm hfresh hmeta hlt hi ht

lemma Took.addr (hn : n ≤ NDIRECT) (h0 : (D i).addrs n = 0) :
    Took i n D m (update D i { D i with addrs := update (D i).addrs n m.freeblock })
      { m with freeblock := m.freeblock + 1 } := by
  have hB := size_le_BPB
  have hfree := Mkfs.free_next hlt
  have hdisk := Mkfs.ballocDisk_image hfresh hmeta (by omega)
  refine ⟨?_, ?_, rfl, rfl, fun b hb => hfresh b (Nat.le_of_succ_le hb), hfresh _ le_rfl⟩
  · rw [← hdisk]
    exact Grow.setAddr mkfsSb_layout hm hlt hfree hmeta hi ht hn h0
  · rw [← hdisk]
    have hsame := slot_ballocDisk mkfsSb_layout hm hlt hfree
    rcases Nat.lt_or_eq_of_le hn with hlt' | rfl
    · rw [slot_setDirect hi ht hlt', hsame]
    · rw [slot_setIndirect hi ht h0 (ballocDisk_self _ _), hsame]

lemma Took.entry (ha : (D i).addrs NDIRECT ≠ 0) (hn : NDIRECT < n) (hM : n ≤ MAXFILE)
    (h0 : slot mkfsSb D m.image (i, n) = 0) :
    Took i n D m D { m with
      freeblock := m.freeblock + 1
      disk := update m.disk ((D i).addrs NDIRECT)
        ((m.disk ((D i).addrs NDIRECT)).putLe (4 * (n - NDIRECT - 1)) 4 m.freeblock) } := by
  have hB := size_le_BPB
  have hfree := Mkfs.free_next hlt
  have hself : slot mkfsSb D m.image (i, NDIRECT) = (D i).addrs NDIRECT := slot_direct hi ht le_rfl
  -- the indirect block has been taken before
  obtain ⟨⟨hdata, hsize⟩, hbit⟩ := hm.used (i, NDIRECT) (by rwa [hself])
  rw [hself] at hdata hsize hbit
  have hbefore : (D i).addrs NDIRECT < m.freeblock := by
    rw [Mkfs.bit_image (by omega) (by omega)] at hbit
    exact of_decide_eq_true hbit
  have hdisk : { m with
      freeblock := m.freeblock + 1
      disk := update m.disk ((D i).addrs NDIRECT)
        ((m.disk ((D i).addrs NDIRECT)).putLe (4 * (n - NDIRECT - 1)) 4 m.freeblock) }.image =
      update (ballocDisk mkfsSb m.image m.freeblock) ((D i).addrs NDIRECT)
        ((ballocDisk mkfsSb m.image m.freeblock ((D i).addrs NDIRECT)).putLe (4 * (n - NDIRECT - 1)) 4 m.freeblock) := by
    rw [Mkfs.ballocDisk_image hfresh hmeta (by omega), Mkfs.image_data hdata]
    exact Mkfs.image_store (m := { m with freeblock := m.freeblock + 1 }) (Mkfs.ne_bmapstart hdata) _
  refine ⟨?_, ?_, rfl, rfl, fun b hb => ?_, (update_of_ne hbefore.ne' _ _).trans (hfresh _ le_rfl)⟩
  · rw [hdisk]
    exact Grow.setEntry mkfsSb_layout hm hlt hfree hmeta hi ht ha hn hM h0
  · rw [hdisk]
    exact slot_ballocEntry mkfsSb_layout hm hlt hfree hi ht ha hn hM
  · have hb' : m.freeblock + 1 ≤ b := hb
    exact (update_of_ne (by omega) _ _).trans (hfresh b (by omega))

end

lemma Took.data (h : Took i NDIRECT D m D' m') (n : ℕ) :
    slot mkfsSb D' m'.image (i, dataSlot n) = slot mkfsSb D m.image (i, dataSlot n) := by
  rw [h.slots, update_of_ne]
  intro hc
  exact dataSlot_ne n (Prod.ext_iff.mp hc).2

/-! ### The block of an offset -/

lemma indirect_of_slot {sb : Superblock} (hi : sb.Inum i) (ht : (D i).type ≠ 0) (hfbn : NDIRECT ≤ fbn)
    (h : slot sb D d (i, dataSlot fbn) ≠ 0) : (D i).addrs NDIRECT ≠ 0 := by
  intro ha
  have hslot : dataSlot fbn = fbn + 1 := if_neg (by omega)
  unfold slot at h
  rw [hslot, if_pos ⟨hi, ht⟩, if_neg (by simp only; omega), if_neg fun hc => hc.1 ha] at h
  exact h rfl

/-- How many blocks `iappend` takes to find file block `fbn` of inode `i`. -/
def newBlocks (R : ℕ × ℕ → ℕ) (i fbn : ℕ) : ℕ :=
  (if R (i, dataSlot fbn) = 0 then 1 else 0) + if NDIRECT ≤ fbn ∧ R (i, NDIRECT) = 0 then 1 else 0

/-- File block `fbn` of inode `i` is `x`; at most it and the indirect block have been taken for it. -/
structure Found (i fbn : ℕ) (D : ℕ → Dinode) (m : Mkfs) (x : ℕ) (D' : ℕ → Dinode) (m' : Mkfs) : Prop where
  grow : Grow mkfsSb i D m.image D' m'.image
  block : slot mkfsSb D' m'.image (i, dataSlot fbn) = x
  ne : x ≠ 0
  others : ∀ n, n ≠ fbn → slot mkfsSb D' m'.image (i, dataSlot n) = slot mkfsSb D m.image (i, dataSlot n)
  indirect : fbn < NDIRECT → slot mkfsSb D' m'.image (i, NDIRECT) = slot mkfsSb D m.image (i, NDIRECT)
  count : m'.freeblock = m.freeblock + newBlocks (slot mkfsSb D m.image) i fbn
  freeinode : m'.freeinode = m.freeinode
  fresh : m'.Fresh
  zero : slot mkfsSb D m.image (i, dataSlot fbn) = 0 → m'.disk x = Bytes.zero _

/-- The second half of `block`: the entry of the indirect block. -/
def Mkfs.entry (m : Mkfs) (din : Dinode) (fbn : ℕ) : Mkfs × Dinode × ℕ :=
  let indirect := m.disk (din.addrs NDIRECT)
  if indirect.le (4 * (fbn - NDIRECT)) 4 = 0 then
    ({ m with
      freeblock := m.freeblock + 1
      disk := update m.disk (din.addrs NDIRECT) (indirect.putLe (4 * (fbn - NDIRECT)) 4 m.freeblock) },
      din, m.freeblock)
  else (m, din, indirect.le (4 * (fbn - NDIRECT)) 4)

lemma Mkfs.block_eq_entry {m : Mkfs} {din : Dinode} {fbn : ℕ} (h : ¬ fbn < NDIRECT) :
    m.block din fbn = if din.addrs NDIRECT = 0 then
      { m with freeblock := m.freeblock + 1 }.entry { din with addrs := update din.addrs NDIRECT m.freeblock } fbn
    else m.entry din fbn := by
  unfold Mkfs.block Mkfs.entry
  rw [if_neg h]
  by_cases ha : din.addrs NDIRECT = 0
  · rw [if_pos ha, if_pos ha]
  · rw [if_neg ha, if_neg ha]

section

variable {m : Mkfs} {D : ℕ → Dinode} {i fbn : ℕ} (hm : Marked mkfsSb (slot mkfsSb D m.image) m.image) (hfresh : m.Fresh)
  (hmeta : mkfsSb.nmeta ≤ m.freeblock) (hi : mkfsSb.Inum i) (ht : (D i).type ≠ 0)

include hm hfresh

lemma Found.refl (h0 : slot mkfsSb D m.image (i, dataSlot fbn) ≠ 0)
    (hind : NDIRECT ≤ fbn → slot mkfsSb D m.image (i, NDIRECT) ≠ 0) :
    Found i fbn D m (slot mkfsSb D m.image (i, dataSlot fbn)) D m where
  grow := .refl hm i
  block := rfl
  ne := h0
  others _ _ := rfl
  indirect _ := rfl
  count := by
    unfold newBlocks
    rw [if_neg h0, if_neg fun hc => hind hc.1 hc.2]
    rfl
  freeinode := rfl
  fresh := hfresh
  zero hc := absurd hc h0

include hmeta

omit hm hfresh in
lemma Found.of_took (h : Took i (dataSlot fbn) D m D' m') (h0 : slot mkfsSb D m.image (i, dataSlot fbn) = 0)
    (hind : NDIRECT ≤ fbn → slot mkfsSb D m.image (i, NDIRECT) ≠ 0) : Found i fbn D m m.freeblock D' m' where
  grow := h.grow
  block := by rw [h.slots, update_self]
  ne := by
    have := nmeta_pos mkfsSb
    omega
  others n hn := by
    rw [h.slots, update_of_ne]
    intro hc
    exact hn (dataSlot_inj (Prod.ext_iff.mp hc).2)
  indirect _ := by
    rw [h.slots, update_of_ne]
    intro hc
    exact dataSlot_ne fbn (Prod.ext_iff.mp hc).2.symm
  count := by
    unfold newBlocks
    rw [if_pos h0, if_neg fun hc => hind hc.1 hc.2, h.next]
  freeinode := h.freeinode
  fresh := h.fresh
  zero _ := h.zero

omit hm hfresh in
lemma Found.of_indirect (hfbn : NDIRECT ≤ fbn) (h : Took i NDIRECT D m D1 m1)
    (h0 : slot mkfsSb D m.image (i, NDIRECT) = 0) (hf : Found i fbn D1 m1 x D' m') :
    Found i fbn D m x D' m' where
  grow := h.grow.trans hf.grow
  block := hf.block
  ne := hf.ne
  others n hn := (hf.others n hn).trans (h.data n)
  indirect hc := absurd hc (by omega)
  count := by
    have hpos := nmeta_pos mkfsSb
    have hself : slot mkfsSb D1 m1.image (i, NDIRECT) = m.freeblock := by rw [h.slots, update_self]
    rw [hf.count, h.next]
    have hnot : ¬ (NDIRECT ≤ fbn ∧ m.freeblock = 0) := by omega
    unfold newBlocks
    rw [h.data, hself, if_neg hnot, if_pos (And.intro hfbn h0)]
    omega
  freeinode := hf.freeinode.trans h.freeinode
  fresh := hf.fresh
  zero hc := hf.zero ((h.data fbn).trans hc)

include hi ht

lemma Mkfs.entry_spec (hfbn : NDIRECT ≤ fbn) (hM : fbn < MAXFILE) (ha : (D i).addrs NDIRECT ≠ 0)
    (hfit : m.freeblock + newBlocks (slot mkfsSb D m.image) i fbn ≤ mkfsSb.size) :
    D i = (m.entry (D i) fbn).2.1 ∧ Found i fbn D m (m.entry (D i) fbn).2.2 D (m.entry (D i) fbn).1 := by
  have hslot : dataSlot fbn = fbn + 1 := if_neg (by omega)
  have hself : slot mkfsSb D m.image (i, NDIRECT) = (D i).addrs NDIRECT := slot_direct hi ht le_rfl
  have hdata := (hm.data (t := (i, NDIRECT)) (by rwa [hself])).1
  rw [hself] at hdata
  have hsub : fbn + 1 - NDIRECT - 1 = fbn - NDIRECT := by omega
  have hread : slot mkfsSb D m.image (i, dataSlot fbn) =
      (m.disk ((D i).addrs NDIRECT)).le (4 * (fbn - NDIRECT)) 4 := by
    rw [hslot, slot_indirect hi ht (by omega) (by omega) ha, Mkfs.image_data hdata, hsub]
  have hind : NDIRECT ≤ fbn → slot mkfsSb D m.image (i, NDIRECT) ≠ 0 := fun _ => by rwa [hself]
  unfold Mkfs.entry
  by_cases h0 : (m.disk ((D i).addrs NDIRECT)).le (4 * (fbn - NDIRECT)) 4 = 0
  · have hlt : m.freeblock < mkfsSb.size := by
      unfold newBlocks at hfit
      rw [hread, if_pos h0] at hfit
      omega
    have htook := Took.entry hm hfresh hmeta hlt hi ht ha (n := fbn + 1) (by omega) (by omega)
      (by rw [← hslot, hread, h0])
    rw [hsub, ← hslot] at htook
    rw [if_pos h0]
    exact ⟨rfl, .of_took hmeta htook (by rw [hread, h0]) hind⟩
  · have hfound := Found.refl hm hfresh (by rwa [hread]) hind
    rw [hread] at hfound
    rw [if_neg h0]
    exact ⟨rfl, hfound⟩

/-- **`iappend` finds the block** of an offset, or takes one for it. -/
lemma Mkfs.block_spec (hM : fbn < MAXFILE) (hfit : m.freeblock + newBlocks (slot mkfsSb D m.image) i fbn ≤ mkfsSb.size) :
    ∃ D', D' i = (m.block (D i) fbn).2.1 ∧ Found i fbn D m (m.block (D i) fbn).2.2 D' (m.block (D i) fbn).1 := by
  by_cases hfbn : fbn < NDIRECT
  · have hslot : dataSlot fbn = fbn := if_pos hfbn
    have hread : slot mkfsSb D m.image (i, dataSlot fbn) = (D i).addrs fbn := by
      rw [hslot]
      exact slot_direct hi ht (by omega)
    have hind : NDIRECT ≤ fbn → slot mkfsSb D m.image (i, NDIRECT) ≠ 0 := fun hc => absurd hfbn (by omega)
    unfold Mkfs.block
    rw [if_pos hfbn]
    by_cases h0 : (D i).addrs fbn = 0
    · have hlt : m.freeblock < mkfsSb.size := by
        unfold newBlocks at hfit
        rw [hread, if_pos h0] at hfit
        omega
      have htook := Took.addr hm hfresh hmeta hlt hi ht (n := fbn) (by omega) h0
      rw [if_pos h0]
      have hfound : Found i fbn D m m.freeblock
          (update D i { D i with addrs := update (D i).addrs fbn m.freeblock })
          { m with freeblock := m.freeblock + 1 } :=
        .of_took hmeta (by rwa [hslot]) (by rw [hread, h0]) hind
      exact ⟨_, update_self i _ D, hfound⟩
    · have hfound := Found.refl hm hfresh (by rwa [hread]) hind
      rw [hread] at hfound
      rw [if_neg h0]
      exact ⟨D, rfl, hfound⟩
  · rw [Mkfs.block_eq_entry hfbn]
    have hpos := nmeta_pos mkfsSb
    have hself : slot mkfsSb D m.image (i, NDIRECT) = (D i).addrs NDIRECT := slot_direct hi ht le_rfl
    by_cases ha : (D i).addrs NDIRECT = 0
    · -- the indirect block is taken, and then a block for its entry
      have hzero : slot mkfsSb D m.image (i, NDIRECT) = 0 := hself.trans ha
      have hempty : slot mkfsSb D m.image (i, dataSlot fbn) = 0 := by
        by_contra hne
        exact indirect_of_slot hi ht (by omega) hne ha
      have hroom : m.freeblock + 2 ≤ mkfsSb.size := by
        unfold newBlocks at hfit
        rw [if_pos hempty, if_pos (And.intro (by omega) hzero)] at hfit
        omega
      have htook := Took.addr hm hfresh hmeta (by omega) hi ht le_rfl ha
      rw [if_pos ha]
      generalize hD1 : update D i { D i with addrs := update (D i).addrs NDIRECT m.freeblock } = D1
        at htook
      have hdin : D1 i = { D i with addrs := update (D i).addrs NDIRECT m.freeblock } := by
        rw [← hD1, update_self]
      have hind : (D1 i).addrs NDIRECT = m.freeblock := by
        rw [hdin]
        exact update_self NDIRECT m.freeblock (D i).addrs
      have hnot : ¬ (NDIRECT ≤ fbn ∧ m.freeblock = 0) := by omega
      have hnew : newBlocks (slot mkfsSb D1 { m with freeblock := m.freeblock + 1 }.image) i fbn ≤ 1 := by
        unfold newBlocks
        rw [htook.slots, update_self, if_neg hnot]
        split <;> omega
      obtain ⟨hsame, hfound⟩ := Mkfs.entry_spec htook.grow.marked htook.fresh (by rw [htook.next]; omega) hi
        (by rwa [hdin]) (by omega) hM (by rw [hind]; omega) (by rw [htook.next]; omega)
      rw [hdin] at hsame hfound
      exact ⟨D1, hdin.trans hsame, .of_indirect hmeta (by omega) htook hzero hfound⟩
    · rw [if_neg ha]
      exact ⟨D, Mkfs.entry_spec hm hfresh hmeta hi ht (by omega) hM ha hfit⟩

end

end Xv6.Fs
