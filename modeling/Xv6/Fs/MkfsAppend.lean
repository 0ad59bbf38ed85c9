import Xv6.Fs.MkfsBlocks

/-!
# `iappend`

Each pass of the loop of `iappend` writes to the block of the offset, as a pass of the kernel's `writei` does.
-/

namespace Xv6.Fs

open Lib Log Function List

def blocksFor (size : ℕ) : ℕ := (size + (BSIZE - 1)) / BSIZE + if NDIRECT * BSIZE < size then 1 else 0

lemma blocksFor_mono (h : a ≤ b) : blocksFor a ≤ blocksFor b := by
  have hdiv : (a + (BSIZE - 1)) / BSIZE ≤ (b + (BSIZE - 1)) / BSIZE := Nat.div_le_div_right (by omega)
  unfold blocksFor
  split <;> split <;> omega

variable {i off n1 : ℕ} {m m' : Mkfs} {C C' : ℕ → List ℕ}

lemma blocksFor_add (hbelow : ∀ n, BSIZE * n < off → R (i, dataSlot n) ≠ 0)
    (htight : ∀ n, off ≤ BSIZE * n → R (i, dataSlot n) = 0) (hind : NDIRECT * BSIZE < off → R (i, NDIRECT) ≠ 0)
    (hind0 : off ≤ NDIRECT * BSIZE → R (i, NDIRECT) = 0) (hpos : 0 < n1) (hroom : off % BSIZE + n1 ≤ BSIZE) :
    blocksFor off + newBlocks R i (off / BSIZE) = blocksFor (off + n1) := by
  have hB : BSIZE = 1024 := rfl
  have hN : NDIRECT * BSIZE = 12288 := rfl
  have hD : NDIRECT = 12 := rfl
  rw [hB] at hbelow htight hroom ⊢
  rw [hN] at hind hind0
  have hnew : newBlocks R i (off / 1024) = if off % 1024 = 0 then if off = 12288 then 2 else 1 else 0 := by
    have hentry : NDIRECT ≤ off / 1024 ∧ R (i, NDIRECT) = 0 ↔ off = 12288 := by
      constructor
      · rintro ⟨hle, hzero⟩
        by_contra hne
        exact hind (by omega) hzero
      · intro hoff
        exact ⟨by omega, hind0 (by omega)⟩
    unfold newBlocks
    by_cases hmod : off % 1024 = 0
    · rw [if_pos (htight (off / 1024) (by omega)), if_pos hmod]
      by_cases heq : off = 12288
      · rw [if_pos (hentry.mpr heq), if_pos heq]
      · rw [if_neg fun hc => heq (hentry.mp hc), if_neg heq]
    · rw [if_neg (hbelow (off / 1024) (by omega)), if_neg hmod, if_neg fun hc => hmod (by have := hentry.mp hc; omega)]
  rw [hnew]
  unfold blocksFor
  rw [hN, hB]
  split_ifs <;> omega

lemma Mkfs.dinode_image (hi : mkfsSb.Inum i) : dinode mkfsSb m.image i = dinode mkfsSb m.disk i :=
  dinode_update mkfsSb (mkfsSb_layout.iblock_lt hi).ne'

/-! ### The loop -/

/-- The loop of `iappend` to inode `i` has appended the first `tot` bytes of `p`. -/
structure Appending (m₀ : Mkfs) (i : ℕ) (p : List ℕ) (tot : ℕ) (D : ℕ → Dinode) (m : Mkfs) : Prop where
  written : Written mkfsSb (dinode mkfsSb m₀.image) m₀.image i (fun k => p[k]?) (dinode mkfsSb m₀.image i).size tot D
    m.image
  tight : ∀ n, (dinode mkfsSb m₀.image i).size + tot ≤ BSIZE * n → slot mkfsSb D m.image (i, dataSlot n) = 0
  indirect : (dinode mkfsSb m₀.image i).size + tot ≤ NDIRECT * BSIZE → slot mkfsSb D m.image (i, NDIRECT) = 0
  other : ∀ t, t.1 ≠ i → slot mkfsSb D m.image t = slot mkfsSb (dinode mkfsSb m₀.image) m₀.image t
  count : m.freeblock + blocksFor (dinode mkfsSb m₀.image i).size =
    m₀.freeblock + blocksFor ((dinode mkfsSb m₀.image i).size + tot)
  freeinode : m.freeinode = m₀.freeinode
  fresh : m.Fresh
  padded : ∀ x, (dinode mkfsSb m₀.image i).size + tot ≤ x → slot mkfsSb D m.image (i, dataSlot (x / BSIZE)) ≠ 0 →
    dataByte mkfsSb D m.image i x = 0

section

variable {m0 m : Mkfs} {D : ℕ → Dinode} {i tot : ℕ} {p : List ℕ} (hi : mkfsSb.Inum i)
  (ht : (dinode mkfsSb m0.image i).type ≠ 0) (hmeta : mkfsSb.nmeta ≤ m0.freeblock)
  (hfull : ∀ n, BSIZE * n < (dinode mkfsSb m0.image i).size →
    slot mkfsSb (dinode mkfsSb m0.image) m0.image (i, dataSlot n) ≠ 0)
  (hmax : (dinode mkfsSb m0.image i).size + p.length ≤ MAXFILE * BSIZE)
  (hfit : m0.freeblock + blocksFor ((dinode mkfsSb m0.image i).size + p.length) ≤
    mkfsSb.size + blocksFor (dinode mkfsSb m0.image i).size)

include hi ht hmeta hfull hmax hfit

lemma Appending.pass (h : Appending m0 i p tot D m) (hoff : off = (dinode mkfsSb m0.image i).size + tot)
    (hpos : 0 < n1) (hn1 : tot + n1 ≤ p.length) (hroom : off % BSIZE + n1 ≤ BSIZE) :
    ∃ D', D' i = (m.block (D i) (off / BSIZE)).2.1 ∧ Appending m0 i p (tot + n1) D'
      { (m.block (D i) (off / BSIZE)).1 with
        disk := update (m.block (D i) (off / BSIZE)).1.disk (m.block (D i) (off / BSIZE)).2.2
          (((m.block (D i) (off / BSIZE)).1.disk (m.block (D i) (off / BSIZE)).2.2).put (off - off / BSIZE * BSIZE) n1
            fun k => (p.drop tot).getD k 0) } := by
  have htype : (D i).type ≠ 0 := by rw [h.written.fields.1]; exact ht
  have hind : NDIRECT * BSIZE < off → slot mkfsSb D m.image (i, NDIRECT) ≠ 0 := by
    intro hlt
    rw [slot_direct hi htype le_rfl]
    exact indirect_of_slot hi htype le_rfl (h.written.below NDIRECT (by rwa [Nat.mul_comm, ← hoff]))
  have hcount : blocksFor off + newBlocks (slot mkfsSb D m.image) i (off / BSIZE) = blocksFor (off + n1) := blocksFor_add
    (fun n hn => h.written.below n (by rwa [← hoff])) (fun n hn => h.tight n (by rwa [← hoff])) hind
    (fun hle => h.indirect (by rwa [← hoff])) hpos hroom
  have hcount0 := h.count
  rw [← hoff] at hcount0
  have hmono : blocksFor (off + n1) ≤ blocksFor ((dinode mkfsSb m0.image i).size + p.length) := blocksFor_mono (by omega)
  have hmono0 : blocksFor (dinode mkfsSb m0.image i).size ≤ blocksFor off := blocksFor_mono (by omega)
  have hfbn : off / BSIZE < MAXFILE := Nat.div_lt_of_lt_mul (by rw [Nat.mul_comm BSIZE]; omega)
  obtain ⟨D', hD', hfound⟩ := Mkfs.block_spec h.written.marked h.fresh (by omega) hi htype hfbn (by omega)
  generalize m.block (D i) (off / BSIZE) = r at hD' hfound
  obtain ⟨m', din, x⟩ := r
  dsimp only at hD' hfound ⊢
  have hw := h.written.grow hfull hfound.grow
  -- the store is one of the kernel's `writei`
  have hblock := hfound.block
  have hmeta' : mkfsSb.nmeta ≤ x := by
    rw [← hblock]
    exact (hw.marked.data (by rw [hblock]; exact hfound.ne)).1
  have hstore := hw.store mkfsSb_layout (m := n1) (by rw [← hoff, hblock]; exact hfound.ne) (by rwa [← hoff])
  rw [← hoff, hblock] at hstore
  have hslots := fun v => slot_store hw.marked (n := off / BSIZE) (i := i) (by rw [hblock]; exact hfound.ne) v
  rw [hblock] at hslots
  have himage : { m' with
      disk := update m'.disk x ((m'.disk x).put (off - off / BSIZE * BSIZE) n1 fun k => (p.drop tot).getD k 0) }.image =
      update m'.image x ((m'.image x).put (off % BSIZE) n1 fun k => (p[tot + k]?).getD 0) := by
    rw [Mkfs.image_store (Mkfs.ne_bmapstart hmeta'), Mkfs.image_data hmeta']
    have hmod : off - off / BSIZE * BSIZE = off % BSIZE := by
      rw [Nat.mul_comm]
      exact Nat.sub_eq_of_eq_add (by rw [Nat.add_comm]; exact (Nat.div_add_mod off BSIZE).symm)
    have hsrc : (fun k => (p.drop tot).getD k 0) = fun k => (p[tot + k]?).getD 0 := by
      funext k
      rw [getD_eq_getElem?_getD, getElem?_drop]
    rw [hmod, hsrc]
  refine ⟨D', hD', ?_, fun n hn => ?_, fun hle => ?_, fun t htne => ?_, ?_, hfound.freeinode.trans h.freeinode, fun b hb => ?_,
    fun y hy h0 => ?_⟩
  · rw [himage]
    exact hstore
  · have hne : n ≠ off / BSIZE := by
      rintro rfl
      have := Nat.mul_div_le off BSIZE
      omega
    rw [himage, hslots, hfound.others n hne]
    exact h.tight n (by omega)
  · rw [himage, hslots, hfound.indirect (Nat.div_lt_of_lt_mul (by rw [Nat.mul_comm BSIZE]; omega))]
    exact h.indirect (by omega)
  · rw [himage, hslots, hfound.grow.other t htne]
    exact h.other t htne
  · show m'.freeblock + _ = _
    rw [hfound.count, ← Nat.add_assoc, ← hoff]
    omega
  · have hlt : x < m'.freeblock := by
      have hcount' := hfound.count
      have hB := size_le_BPB
      obtain ⟨⟨-, hsize⟩, hbit⟩ := hw.marked.used _ (by rw [hblock]; exact hfound.ne)
      rw [hblock] at hsize hbit
      rw [Mkfs.bit_image (by omega) (by omega)] at hbit
      exact of_decide_eq_true hbit
    exact (update_of_ne (by have : m'.freeblock ≤ b := hb; omega) _ _).trans (hfound.fresh b hb)
  · have hbytes := fun v => dataByte_store hw.marked (n := off / BSIZE) (i := i) (by rw [hblock]; exact hfound.ne) v i y
    have hold : slot mkfsSb D m.image (i, dataSlot (y / BSIZE)) ≠ 0 → dataByte mkfsSb D' m'.image i y = 0 := by
      intro hne
      rw [← h.padded y (by omega) hne]
      unfold dataByte
      rw [hfound.grow.keep _ hne, hfound.grow.data _ hne (dataSlot_ne _)]
    rw [hblock] at hbytes
    rw [himage, hslots] at h0
    rw [himage, hbytes]
    by_cases hsame : y / BSIZE = off / BSIZE
    · rw [if_pos ⟨rfl, hsame⟩, Bytes.get_put, if_neg (by rw [BSIZE_eq] at hsame ⊢; omega)]
      rw [hsame] at hold
      by_cases hne : slot mkfsSb D m.image (i, dataSlot (off / BSIZE)) = 0
      · rw [Mkfs.image_data hmeta', hfound.zero hne, Bytes.get_zero]
      · rw [← hold hne, ← hblock, ← hsame]
        rfl
    · rw [if_neg fun hc => hsame hc.2]
      rw [hfound.others _ hsame] at h0
      exact hold h0

lemma Mkfs.appendLoop_spec (fuel : ℕ) (hfuel : p.length ≤ tot + fuel) (htot : tot ≤ p.length)
    (h : Appending m0 i p tot D m) :
    ∃ D' m', Mkfs.appendLoop fuel m (D i) ((dinode mkfsSb m0.image i).size + tot) (p.drop tot) =
      some (m', D' i, (dinode mkfsSb m0.image i).size + p.length) ∧ Appending m0 i p p.length D' m' := by
  induction fuel generalizing tot D m with
  | zero =>
    obtain rfl : tot = p.length := by omega
    exact ⟨D, m, rfl, h⟩
  | succ fuel ih =>
    rw [Mkfs.appendLoop]
    by_cases hend : tot = p.length
    · subst hend
      rw [if_pos (drop_length)]
      exact ⟨D, m, rfl, h⟩
    · have hne : p.drop tot ≠ [] := by
        rw [Ne, drop_eq_nil_iff]
        omega
      rw [if_neg hne]
      generalize hoff : (dinode mkfsSb m0.image i).size + tot = off
      have hfbn : off / BSIZE < MAXFILE := Nat.div_lt_of_lt_mul (by rw [Nat.mul_comm BSIZE]; omega)
      dsimp only
      rw [if_pos hfbn]
      generalize hn1 : min (p.drop tot).length ((off / BSIZE + 1) * BSIZE - off) = n1
      have hdiv := Nat.div_add_mod off BSIZE
      have hmod := Nat.mod_lt off (show 0 < BSIZE by decide)
      rw [Nat.add_mul, Nat.one_mul, Nat.mul_comm (off / BSIZE), length_drop] at hn1
      obtain ⟨D', hD', hpass⟩ := h.pass hi ht hmeta hfull hmax hfit hoff.symm (by omega : 0 < n1) (by omega) (by omega)
      generalize m.block (D i) (off / BSIZE) = r at hD' hpass
      obtain ⟨m', din, x⟩ := r
      dsimp only at hD' hpass ⊢
      obtain ⟨D1, m1, hrun, hlast⟩ := ih (by omega) (by omega) hpass
      refine ⟨D1, m1, ?_, hlast⟩
      rw [← hrun, ← hD', drop_drop, ← hoff, Nat.add_assoc]

end

/-! ### The image so far -/

/-- Inode `i` has the contents `c`, followed by zeros in the last block, and no more blocks than it needs; the root is a
directory, the others are files. -/
structure Mkfs.Holds (m : Mkfs) (i : ℕ) (c : List ℕ) : Prop where
  type : (dinode mkfsSb m.image i).type = if i = ROOTINO then T_DIR else T_FILE
  size : (dinode mkfsSb m.image i).size = c.length
  max : c.length ≤ MAXFILE * BSIZE
  full : ∀ n, BSIZE * n < c.length → slot mkfsSb (dinode mkfsSb m.image) m.image (i, dataSlot n) ≠ 0
  tight : ∀ n, c.length ≤ BSIZE * n → slot mkfsSb (dinode mkfsSb m.image) m.image (i, dataSlot n) = 0
  indirect : c.length ≤ NDIRECT * BSIZE → slot mkfsSb (dinode mkfsSb m.image) m.image (i, NDIRECT) = 0
  bytes : ∀ x, slot mkfsSb (dinode mkfsSb m.image) m.image (i, dataSlot (x / BSIZE)) ≠ 0 →
    dataByte mkfsSb (dinode mkfsSb m.image) m.image i x = c.getD x 0

lemma Mkfs.Holds.type_ne (h : m.Holds i c) : (dinode mkfsSb m.image i).type ≠ 0 := by
  rw [h.type]
  split <;> decide

/-- The inodes below `freeinode` have the contents `C`, each in blocks of its own. -/
structure Mkfs.Inv (m : Mkfs) (C : ℕ → List ℕ) : Prop where
  marked : Marked mkfsSb (slot mkfsSb (dinode mkfsSb m.image) m.image) m.image
  files : ∀ i, mkfsSb.Inum i → i < m.freeinode → m.Holds i (C i)
  free : ∀ i, mkfsSb.Inum i → m.freeinode ≤ i → (dinode mkfsSb m.image i).type = 0
  count : m.freeblock = mkfsSb.nmeta + ∑ i ∈ Finset.range m.freeinode, blocksFor (C i).length
  fresh : m.Fresh

lemma Mkfs.Inv.solid (h : m.Inv C) : Solid mkfsSb (dinode mkfsSb m.image) m.image := by
  have hfile : ∀ i, mkfsSb.Inum i → (dinode mkfsSb m.image i).type ≠ 0 → m.Holds i (C i) := fun i hi ht =>
    h.files i hi (Nat.lt_of_not_le fun hle => ht (h.free i hi hle))
  refine ⟨fun i hi ht => ?_, fun i hi ht n hn => (hfile i hi ht).full n ?_⟩
  · rw [(hfile i hi ht).size]
    exact (hfile i hi ht).max
  · rwa [← (hfile i hi ht).size]

/-- Only inode `i` has changed. -/
lemma Mkfs.Inv.change (h : m.Inv C) (hj : ∀ j, j ≠ i → (j < m'.freeinode ↔ j < m.freeinode) ∧ C' j = C j)
    (hmarked : Marked mkfsSb (slot mkfsSb (dinode mkfsSb m'.image) m'.image) m'.image)
    (hdinode : ∀ j, mkfsSb.Inum j → j ≠ i → dinode mkfsSb m'.image j = dinode mkfsSb m.image j)
    (hslot : ∀ t, t.1 ≠ i → slot mkfsSb (dinode mkfsSb m'.image) m'.image t = slot mkfsSb (dinode mkfsSb m.image) m.image t)
    (hbyte : ∀ j x, slot mkfsSb (dinode mkfsSb m.image) m.image (j, dataSlot (x / BSIZE)) ≠ 0 → j ≠ i →
      dataByte mkfsSb (dinode mkfsSb m'.image) m'.image j x = dataByte mkfsSb (dinode mkfsSb m.image) m.image j x)
    (hlt : i < m'.freeinode) (hself : m'.Holds i (C' i))
    (hcount : m'.freeblock = mkfsSb.nmeta + ∑ i ∈ Finset.range m'.freeinode, blocksFor (C' i).length)
    (hfresh : m'.Fresh) : m'.Inv C' := by
  refine ⟨hmarked, fun j hi hjlt => ?_, fun j hi hle => ?_, hcount, hfresh⟩
  · obtain rfl | hne := eq_or_ne j i
    · exact hself
    · have hold := h.files j hi ((hj j hne).1.mp hjlt)
      have hd := hdinode j hi hne
      have hs := fun n => hslot (j, n) hne
      rw [(hj j hne).2]
      refine ⟨hd ▸ hold.type, hd ▸ hold.size, hold.max, fun n hn => ?_, fun n hn => ?_, fun hn => ?_, fun x hx => ?_⟩
      · rw [hs]
        exact hold.full n hn
      · rw [hs]
        exact hold.tight n hn
      · rw [hs]
        exact hold.indirect hn
      · rw [hs] at hx
        rw [hbyte j x hx hne, hold.bytes x hx]
  · have hne : j ≠ i := by omega
    rw [hdinode j hi hne]
    exact h.free j hi (by have := (hj j hne).1; omega)

lemma overlay_append {f : ℕ → ℕ} {l p : List ℕ} (hp : ∀ b ∈ p, b < 256) (hf : ∀ x < l.length, f x = l.getD x 0) {x : ℕ}
    (hx : x < (l ++ p).length) : overlay f l.length p.length (srcByte fun k => p[k]?) x = (l ++ p).getD x 0 := by
  rw [length_append] at hx
  unfold overlay
  by_cases hlt : x < l.length
  · rw [if_neg (by omega), hf x hlt, getD_append _ _ _ _ hlt]
  · rw [if_pos (by omega), getD_append_right _ _ _ _ (by omega)]
    have hk : x - l.length < p.length := by omega
    show (p[x - l.length]?).getD 0 % 256 = _
    rw [getElem?_eq_getElem hk, getD_eq_getElem _ _ hk]
    exact Nat.mod_eq_of_lt (hp _ (getElem_mem hk))

lemma sum_blocksFor_append (C : ℕ → List ℕ) (p : List ℕ) {n : ℕ} (hi : i < n) :
    ∑ j ∈ Finset.range n, blocksFor (update C i (C i ++ p) j).length + blocksFor (C i).length =
      ∑ j ∈ Finset.range n, blocksFor (C j).length + blocksFor ((C i).length + p.length) := by
  have hsum := sum_change_mem (f := fun j => blocksFor (update C i (C i ++ p) j).length)
    (g := fun j => blocksFor (C j).length) (Finset.mem_range.mpr hi) fun j hji => by rw [update_of_ne hji]
  rwa [update_self, length_append] at hsum

lemma Mkfs.Inv.nmeta_le (h : m.Inv C) : mkfsSb.nmeta ≤ m.freeblock := by
  rw [h.count]
  exact Nat.le_add_right _ _

/-- **`iappend`** appends. -/
lemma Mkfs.Inv.iappend (h : m.Inv C) {p : List ℕ} (hi : mkfsSb.Inum i) (hlt : i < m.freeinode) (hp : ∀ b ∈ p, b < 256)
    (hmax : (C i).length + p.length ≤ MAXFILE * BSIZE)
    (hfit : m.freeblock + blocksFor ((C i).length + p.length) ≤ mkfsSb.size + blocksFor (C i).length) :
    ∃ m', m.iappend i p = some m' ∧ m'.Inv (update C i (C i ++ p)) ∧ m'.freeinode = m.freeinode := by
  have hold := h.files i hi hlt
  have ht := hold.type_ne
  have hsize := hold.size
  have hfull := h.solid.full i hi ht
  have hmeta := h.nmeta_le
  have hstart : Appending m i p 0 (dinode mkfsSb m.image) m := by
    refine ⟨.start h.marked hfull, fun n hn => ?_, fun hn => ?_, fun _ _ => rfl, ?_, rfl, h.fresh, fun x hx h0 => ?_⟩
    · rw [Nat.add_zero, hsize] at hn
      exact hold.tight n hn
    · rw [Nat.add_zero, hsize] at hn
      exact hold.indirect hn
    · rw [Nat.add_zero]
    · rw [Nat.add_zero, hsize] at hx
      rw [hold.bytes x h0, getD_eq_default _ _ hx]
  obtain ⟨D', m', hrun, happ⟩ := Mkfs.appendLoop_spec hi ht hmeta hfull (by rwa [hsize])
    (by rwa [hsize]) p.length (by omega) (Nat.zero_le _) hstart
  have hw := happ.written
  obtain ⟨htype, hsize', hsmall, hother⟩ := hw.fields
  obtain ⟨a, ha⟩ : ∃ a, a = ({ D' i with size := (dinode mkfsSb m.image i).size + p.length } : Dinode) := ⟨_, rfl⟩
  have ha' : a = { D' i with size := max (dinode mkfsSb m.image i).size ((dinode mkfsSb m.image i).size + p.length) } := by
    rw [ha, max_eq_right (Nat.le_add_right _ _)]
  have hresult : m.iappend i p = some (m'.winode i a) := by
    rw [drop_zero, Nat.add_zero, Mkfs.dinode_image hi] at hrun
    dsimp only [Mkfs.iappend]
    rw [hrun, ha, Mkfs.dinode_image hi]
    rfl
  obtain ⟨hmarked, -, hdinode, -⟩ := hw.finish mkfsSb_layout hi ht (small_dinode _ _ _) h.solid
    (by rwa [hsize]) ha'
  have hslot := hw.slot_finish mkfsSb_layout hi ha'
  have hupdate : ∀ j, mkfsSb.Inum j → dinode mkfsSb (m'.winode i a).image j =
      update (dinode mkfsSb m.image) i a j := by
    intro j hj
    rw [Mkfs.image_winode hi, hdinode j hj, update_apply]
  rw [← Mkfs.image_winode hi] at hmarked hslot
  -- the family of inodes is the one on the disk
  have hfamily : slot mkfsSb (dinode mkfsSb (m'.winode i a).image) (m'.winode i a).image =
      slot mkfsSb (update (dinode mkfsSb m.image) i a) (m'.winode i a).image :=
    slot_congr (fun j hj => by rw [hupdate j hj]; exact ⟨rfl, rfl⟩) fun _ _ _ _ => rfl
  have hbyte : ∀ j x, slot mkfsSb D' m'.image (j, dataSlot (x / BSIZE)) ≠ 0 →
      dataByte mkfsSb (dinode mkfsSb (m'.winode i a).image) (m'.winode i a).image j x =
        dataByte mkfsSb D' m'.image j x := by
    intro j x h0
    unfold dataByte
    rw [hfamily, hslot, Mkfs.image_winode hi, putDinode_data mkfsSb_layout hi (hw.marked.data h0).1]
  have hself : dinode mkfsSb (m'.winode i a).image i = a := by rw [hupdate i hi, update_self]
  have hlen : a.size = (C i ++ p).length := by rw [ha, length_append, ← hsize]
  have hend : (dinode mkfsSb m.image i).size + p.length = (C i ++ p).length := by rw [length_append, hsize]
  refine ⟨m'.winode i a, hresult, h.change (i := i) (fun j hji => ⟨?_, update_of_ne hji _ _⟩) (by rwa [hfamily])
    (fun j hj hji => by rw [hupdate j hj, update_of_ne hji]) (fun t hti => ?_) (fun j x h0 hji => ?_) ?_ ?_ ?_
    fun b hb => ?_, happ.freeinode⟩
  · rw [show (m'.winode i a).freeinode = m.freeinode from happ.freeinode]
  · rw [hfamily, hslot]
    exact happ.other t hti
  · rw [hbyte j x (by rwa [hw.keep _ h0]), hw.others j x hji h0]
  · exact hlt.trans_eq happ.freeinode.symm
  · rw [update_self]
    refine ⟨?_, by rw [hself, hlen], by rwa [length_append], fun n hn => ?_, fun n hn => ?_, fun hn => ?_, fun x hx => ?_⟩
    · rw [hself, ha]
      exact htype.trans hold.type
    · rw [hfamily, hslot]
      exact hw.below n (by rwa [hend])
    · rw [hfamily, hslot]
      exact happ.tight n (by rwa [hend])
    · rw [hfamily, hslot]
      exact happ.indirect (by rwa [hend])
    · rw [hfamily, hslot] at hx
      rw [hbyte i x hx]
      by_cases hin : x < (C i ++ p).length
      · rw [hw.bytes x (.inr (by rwa [hend])), hsize]
        refine overlay_append hp (fun y hy => hold.bytes y (hfull _ ?_)) hin
        exact lt_of_le_of_lt (Nat.mul_div_le y BSIZE) (by rwa [hsize])
      · rw [happ.padded x (by rw [hend]; omega) hx, getD_eq_default _ _ (by omega)]
  · have hsum := sum_blocksFor_append C p hlt
    have hcount := h.count
    have htaken := happ.count
    rw [hsize] at htaken
    show m'.freeblock = _ + ∑ j ∈ Finset.range m'.freeinode, _
    rw [happ.freeinode]
    omega
  · have hb' : m'.freeblock ≤ b := hb
    have hmono : blocksFor (dinode mkfsSb m.image i).size ≤ blocksFor ((dinode mkfsSb m.image i).size + p.length) :=
      blocksFor_mono (Nat.le_add_right _ _)
    have htaken := happ.count
    exact (putDinode_data mkfsSb_layout hi (by omega)).trans (happ.fresh b hb')

end Xv6.Fs
