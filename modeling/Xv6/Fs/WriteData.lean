import Xv6.Fs.Contents

/-!
# What writes do to contents

The inodes are a family `D`, of which one is held by the entry that is written; all that
is asked of them is that no two slots share a block, that the free map knows the blocks in use, and that
no file has a hole.  `Kept` says which inodes a part of a call leaves as they are.
-/

namespace Xv6.Fs

open Lib Log Function

variable {P : Type} {sb : Superblock} {ok : Stop → Prop}

/-- Byte `k` of the contents of inode `i`. -/
def dataByte (sb : Superblock) (D : ℕ → Dinode) (d : Disk) (i k : ℕ) : ℕ :=
  (d (slot sb D d (i, dataSlot (k / BSIZE)))).get (k % BSIZE)

/-- The bytes `f` with those from `off` on replaced by the first `tot` bytes of `src`. -/
def overlay (f : ℕ → ℕ) (off tot : ℕ) (src : ℕ → ℕ) (x : ℕ) : ℕ :=
  if off ≤ x ∧ x < off + tot then src (x - off) else f x

variable {m x n : ℕ} {a : Dinode} {g : Gates}

lemma overlay_add {f src : ℕ → ℕ} {off tot : ℕ} (h : x < off + tot ∨ off + tot + m ≤ x) :
    overlay f off (tot + m) src x = overlay f off tot src x := by
  unfold overlay
  by_cases hc : off ≤ x ∧ x < off + tot
  · rw [if_pos hc, if_pos (by omega)]
  · rw [if_neg hc, if_neg (by omega)]

/-- Byte `k` at the source of a copy. -/
def srcByte (src : ℕ → Option ℕ) (k : ℕ) : ℕ := (src k).getD 0 % 256

lemma mapped_cases (src : ℕ → Option ℕ) (a m : ℕ) :
    mapped src a m = m ∨ mapped src a m < m ∧ ∃ k, a ≤ k ∧ k < a + m ∧ src k = none := by
  induction m generalizing a with
  | zero => exact .inl rfl
  | succ m ih =>
    rw [mapped]
    by_cases h0 : (src a).isSome
    · rw [if_pos h0]
      rcases ih (a + 1) with hall | ⟨hlt, k, h1, h2, hk⟩
      · exact .inl (by rw [hall])
      · exact .inr ⟨by omega, k, by omega, by omega, hk⟩
    · rw [if_neg h0]
      exact .inr ⟨Nat.succ_pos m, a, Nat.le_refl a, by omega, by simpa using h0⟩

/-- The byte at `x` of inode `i`, or of the block that it gets there. -/
def oldByte (sb : Superblock) (D : ℕ → Dinode) (d : Disk) (i x : ℕ) : ℕ :=
  if slot sb D d (i, dataSlot (x / BSIZE)) = 0 then 0 else dataByte sb D d i x

/-! ### What the loop of `writei` has done -/

/-- The first `tot` bytes have been written at `off`, the inodes are now `D'` and the disk is `d'`;
the inode on disk is still the old one. -/
structure Written (sb : Superblock) (D : ℕ → Dinode) (d : Disk) (i : ℕ) (src : ℕ → Option ℕ) (off tot : ℕ)
    (D' : ℕ → Dinode) (d' : Disk) : Prop where
  marked : Marked sb (slot sb D' d') d'
  inodes : ∃ addrs, D' = update D i { D i with addrs := addrs } ∧ ((D i).Small → { D i with addrs := addrs }.Small)
  dinode : ∀ j, sb.Inum j → dinode sb d' j = dinode sb d j
  keep : ∀ t, slot sb D d t ≠ 0 → slot sb D' d' t = slot sb D d t
  below : ∀ m, BSIZE * m < off + tot → slot sb D' d' (i, dataSlot m) ≠ 0
  bytes : ∀ x, x < (D i).size ∨ x < off + tot →
    dataByte sb D' d' i x = overlay (dataByte sb D d i) off tot (srcByte src) x
  others : ∀ j x, j ≠ i → slot sb D d (j, dataSlot (x / BSIZE)) ≠ 0 → dataByte sb D' d' j x = dataByte sb D d j x
  rest : ∀ x, off + tot ≤ x → slot sb D' d' (i, dataSlot (x / BSIZE)) ≠ 0 → dataByte sb D' d' i x = oldByte sb D d i x

namespace Written

variable {D D' D'' : ℕ → Dinode} {d d' d'' : Disk} {i off tot : ℕ} {src : ℕ → Option ℕ}

lemma start (hm : Marked sb (slot sb D d) d)
    (hbelow : ∀ m, BSIZE * m < off → slot sb D d (i, dataSlot m) ≠ 0) : Written sb D d i src off 0 D d where
  marked := hm
  inodes := ⟨(D i).addrs, (update_eq_self i D).symm, fun hs => hs⟩
  dinode _ _ := rfl
  keep _ _ := rfl
  below := hbelow
  bytes x _ := by
    unfold overlay
    rw [if_neg (by omega)]
  others _ _ _ _ := rfl
  rest x _ h0 := (if_neg h0).symm

lemma fields (h : Written sb D d i src off tot D' d') : (D' i).type = (D i).type ∧ (D' i).size = (D i).size ∧
    ((D i).Small → (D' i).Small) ∧ ∀ j, j ≠ i → D' j = D j := by
  obtain ⟨a, rfl, hs⟩ := h.inodes
  rw [update_self]
  exact ⟨rfl, rfl, hs, fun j hj => update_of_ne hj _ _⟩

section

variable (h : Written sb D d i src off tot D' d')
  (hfull : ∀ m, BSIZE * m < (D i).size → slot sb D d (i, dataSlot m) ≠ 0)

include h hfull

lemma mapped (hx : x < (D i).size ∨ x < off + tot) : slot sb D' d' (i, dataSlot (x / BSIZE)) ≠ 0 := by
  have hle := Nat.mul_div_le x BSIZE
  rcases hx with hx | hx
  · have h0 := hfull (x / BSIZE) (by omega)
    rw [h.keep _ h0]
    exact h0
  · exact h.below _ (by omega)

lemma grow (hg : Grow sb i D' d' D'' d'') : Written sb D d i src off tot D'' d'' where
  marked := hg.marked
  inodes := by
    obtain ⟨a, rfl, hs⟩ := h.inodes
    obtain ⟨a', rfl, hs'⟩ := hg.inodes
    simp only [update_self, update_idem] at hs' ⊢
    exact ⟨a', rfl, fun hsmall => hs' (hs hsmall)⟩
  dinode j hj := (hg.dinode j hj).trans (h.dinode j hj)
  keep t ht := by
    have h1 := h.keep t ht
    rw [hg.keep t (by rwa [h1]), h1]
  below m hm := by
    rw [hg.keep _ (h.below m hm)]
    exact h.below m hm
  bytes x hx := by
    have h0 := h.mapped hfull hx
    rw [← h.bytes x hx]
    unfold dataByte
    rw [hg.keep _ h0, hg.data _ h0 (dataSlot_ne _)]
  others j x hj h0 := by
    have h1 := h.keep _ h0
    have h2 : slot sb D' d' (j, dataSlot (x / BSIZE)) ≠ 0 := by rwa [h1]
    rw [← h.others j x hj h0]
    unfold dataByte
    rw [hg.keep _ h2, hg.data _ h2 (dataSlot_ne _)]
  rest x hx h2 := by
    by_cases h1 : slot sb D' d' (i, dataSlot (x / BSIZE)) = 0
    · have h0 : slot sb D d (i, dataSlot (x / BSIZE)) = 0 := by
        by_contra hne
        exact hne ((h.keep _ hne).symm.trans h1)
      rw [dataByte, hg.fresh _ h1 h2 (dataSlot_ne _), oldByte, if_pos h0, Bytes.get_zero]
    · rw [← h.rest x hx h1]
      unfold dataByte
      rw [hg.keep _ h1, hg.data _ h1 (dataSlot_ne _)]

end

end Written

lemma dataByte_store (hm : Marked sb (slot sb D d) d) (h0 : slot sb D d (i, dataSlot n) ≠ 0) (v : Block) (j x : ℕ) :
    dataByte sb D (update d (slot sb D d (i, dataSlot n)) v) j x =
      if j = i ∧ x / BSIZE = n then v.get (x % BSIZE) else dataByte sb D d j x := by
  unfold dataByte
  rw [slot_store hm h0 v]
  split
  · rename_i hc
    rw [hc.1, hc.2, update_self]
  · rename_i hc
    rw [update_of_ne]
    intro heq
    have := Prod.ext_iff.mp (hm.inj h0 heq)
    exact hc ⟨this.1.symm, (dataSlot_inj this.2).symm⟩

namespace Written

variable {D D' : ℕ → Dinode} {d d' : Disk} {i off tot : ℕ} {src : ℕ → Option ℕ}

section

variable (hl : Layout sb) (h : Written sb D d i src off tot D' d')

include hl h

lemma store (h0 : slot sb D' d' (i, dataSlot ((off + tot) / BSIZE)) ≠ 0) (hm : (off + tot) % BSIZE + m ≤ BSIZE) :
    Written sb D d i src off (tot + m) D' (update d' (slot sb D' d' (i, dataSlot ((off + tot) / BSIZE)))
      ((d' (slot sb D' d' (i, dataSlot ((off + tot) / BSIZE)))).put ((off + tot) % BSIZE) m
        fun k => (src (tot + k)).getD 0)) := by
  have hslot := slot_store h.marked h0 ((d' (slot sb D' d' (i, dataSlot ((off + tot) / BSIZE)))).put
    ((off + tot) % BSIZE) m fun k => (src (tot + k)).getD 0)
  have hdata := (h.marked.data h0).1
  refine ⟨?_, h.inodes, fun j hj => ?_, fun t ht => ?_, fun n hn => ?_, fun x hx => ?_, fun j x hj hjx => ?_,
    fun x hx hx0 => ?_⟩
  · rw [hslot]
    exact h.marked.congr (fun b hb => bit_data hb hdata) hl.data
  · rw [dinode_data hl hj hdata]
    exact h.dinode j hj
  · rw [hslot]
    exact h.keep t ht
  · rw [hslot]
    by_cases hold : BSIZE * n < off + tot
    · exact h.below n hold
    · have hn' : n = (off + tot) / BSIZE := by
        rw [BSIZE_eq] at hn hold hm ⊢
        omega
      rw [hn']
      exact h0
  · rw [dataByte_store h.marked h0]
    by_cases hblk : x / BSIZE = (off + tot) / BSIZE
    · rw [if_pos ⟨rfl, hblk⟩, Bytes.get_put]
      by_cases hin : off + tot ≤ x ∧ x < off + tot + m
      · -- a byte of this pass
        have hmod : x % BSIZE = (off + tot) % BSIZE + (x - (off + tot)) := by
          rw [BSIZE_eq] at hblk ⊢
          omega
        have hpass : (off + tot) % BSIZE ≤ x % BSIZE ∧ x % BSIZE < (off + tot) % BSIZE + m ∧ x % BSIZE < BSIZE := by
          omega
        rw [if_pos hpass, hmod, overlay, if_pos (by omega), srcByte,
          show tot + ((off + tot) % BSIZE + (x - (off + tot)) - (off + tot) % BSIZE) = x - off by omega]
      · -- the rest of the block is as before
        have hpass : ¬ ((off + tot) % BSIZE ≤ x % BSIZE ∧ x % BSIZE < (off + tot) % BSIZE + m ∧ x % BSIZE < BSIZE) := by
          rw [BSIZE_eq] at hblk ⊢
          omega
        rw [if_neg hpass, overlay_add (by omega), ← h.bytes x (by omega), ← hblk]
        rfl
    · have hout : x < off + tot ∨ off + tot + m ≤ x := by
        rw [BSIZE_eq] at hblk hm
        omega
      rw [if_neg fun hc => hblk hc.2, overlay_add hout, h.bytes x (by omega)]
  · rw [dataByte_store h.marked h0, if_neg fun hc => hj hc.1]
    exact h.others j x hj hjx
  · rw [hslot] at hx0
    rw [← h.rest x (by omega) hx0, dataByte_store h.marked h0]
    by_cases hblk : x / BSIZE = (off + tot) / BSIZE
    · have hpass : ¬ ((off + tot) % BSIZE ≤ x % BSIZE ∧ x % BSIZE < (off + tot) % BSIZE + m ∧ x % BSIZE < BSIZE) := by
        rw [BSIZE_eq] at hblk ⊢
        omega
      rw [if_pos ⟨rfl, hblk⟩, Bytes.get_put, if_neg hpass, ← hblk]
      rfl
    · rw [if_neg fun hc => hblk hc.2]

lemma slot_finish (hi : sb.Inum i) (ha : a = { D' i with size := max (D i).size (off + tot) }) :
    slot sb (update D i a) (putDinode sb d' i a) = slot sb D' d' := by
  have hfamily : update D i a = update D' i { D' i with size := max (D i).size (off + tot) } := by
    funext j
    by_cases hj : j = i
    · subst hj
      rw [update_self, update_self, ha]
    · rw [update_of_ne hj, update_of_ne hj, h.fields.2.2.2 j hj]
  rw [hfamily]
  have hsame : slot sb (update D' i { D' i with size := max (D i).size (off + tot) }) d' = slot sb D' d' :=
    Growing.slot_setSize i _
  rw [← hsame]
  refine slot_data ?_ (fun _ _ => ⟨rfl, rfl⟩) fun b hb => putDinode_data hl hi hb
  rw [hsame]
  exact h.marked

lemma finish (hi : sb.Inum i) (ht : (D i).type ≠ 0) (hsmall : (D i).Small) (hs : Solid sb D d)
    (hmax : off + tot ≤ MAXFILE * BSIZE) (ha : a = { D' i with size := max (D i).size (off + tot) }) :
    Marked sb (slot sb (update D i a) (putDinode sb d' i a)) (putDinode sb d' i a) ∧
      Solid sb (update D i a) (putDinode sb d' i a) ∧
      (∀ j, sb.Inum j → Fs.dinode sb (putDinode sb d' i a) j = if j = i then a else Fs.dinode sb d j) ∧
      (∀ x, x < a.size → dataByte sb (update D i a) (putDinode sb d' i a) i x =
        overlay (dataByte sb D d i) off tot (srcByte src) x) ∧
      ∀ j x, j ≠ i → slot sb D d (j, dataSlot (x / BSIZE)) ≠ 0 →
        dataByte sb (update D i a) (putDinode sb d' i a) j x = dataByte sb D d j x := by
  obtain ⟨htype, hsize, hsmall', hother⟩ := h.fields
  have hmaxsize := hs.size i hi ht
  have hM : MAXFILE * BSIZE = 274432 := rfl
  have hset : SetInode sb d' i a (putDinode sb d' i a) :=
    SetInode.of_putDinode hl hi (ha ▸ Growing.small_setSize (hsmall' hsmall) (by omega)) (fun _ _ => rfl) fun _ _ _ => rfl
  have hslot := h.slot_finish hl hi ha
  have hbyte : ∀ j x, slot sb D' d' (j, dataSlot (x / BSIZE)) ≠ 0 →
      dataByte sb (update D i a) (putDinode sb d' i a) j x = dataByte sb D' d' j x := by
    intro j x h0
    unfold dataByte
    rw [hslot, hset.data _ (h.marked.data h0).1]
  have hfull := hs.full i hi ht
  refine ⟨?_, ?_, fun j hj => ?_, fun x hx => ?_, fun j x hj h0 => ?_⟩
  · rw [hslot]
    exact h.marked.congr (fun b _ => bit_putDinode hl hi) hl.data
  · refine ⟨fun j hj htj => ?_, fun j hj htj n hn => ?_⟩
    · by_cases hji : j = i
      · subst hji
        rw [update_self, ha]
        exact max_le hmaxsize hmax
      · rw [update_of_ne hji] at htj ⊢
        exact hs.size j hj htj
    · rw [hslot]
      by_cases hji : j = i
      · subst hji
        rw [update_self, ha] at hn
        rcases lt_max_iff.mp hn with hn | hn
        · rw [h.keep _ (hfull n hn)]
          exact hfull n hn
        · exact h.below n hn
      · rw [update_of_ne hji] at htj hn
        rw [h.keep _ (hs.full j hj htj n hn)]
        exact hs.full j hj htj n hn
  · rw [hset.dinode j hj, h.dinode j hj]
  · have hx' : x < (D i).size ∨ x < off + tot := by
      rw [ha] at hx
      exact lt_max_iff.mp hx
    rw [hbyte i x (h.mapped hfull hx'), h.bytes x hx']
  · rw [hbyte j x (by rwa [h.keep _ h0]), h.others j x hj h0]

end

end Written

/-! ### `writei` -/

section

variable (hl : Layout sb) {s : State P} {e : Fin NINODE} {D : ℕ → Dinode}
  (hD : D (s.ino e).inum = (s.ino e).d) (hi : sb.Inum (s.ino e).inum) (ht : (s.ino e).d.type ≠ 0)
  (hs : Solid sb D s.disk) {src : ℕ → Option ℕ} {off n : ℕ}

include hl hD hi ht hs

lemma bmap_written (hmax : off + tot < MAXFILE * BSIZE) (hw : Written sb D s.disk (s.ino e).inum src off tot D' d') :
    wp (bmap sb e ((off + tot) / BSIZE)) ok (fun a s' => ∃ D1 d1, Written sb D s.disk (s.ino e).inum src off tot D1 d1 ∧
      s' = s.grown e (D1 (s.ino e).inum) d1 ∧
      (a ≠ 0 → a = slot sb D1 d1 ((s.ino e).inum, dataSlot ((off + tot) / BSIZE))) ∧ (a = 0 → Full sb d1))
      (s.grown e (D' (s.ino e).inum) d') := by
  have hself := s.grown_ino_self e (D' (s.ino e).inum) d'
  have hblk : (off + tot) / BSIZE < MAXFILE := Nat.div_lt_of_lt_mul (by rwa [Nat.mul_comm BSIZE])
  refine (bmap_spec (s := s.grown e (D' (s.ino e).inum) d') (e := e) (D := D') hl hw.marked (by rw [hself])
    (by rwa [hself]) (by rw [hself]; simp only; rw [hw.fields.1, hD]; exact ht) _
    (fun hc => absurd hblk (Nat.not_lt.mpr hc))).mono ?_
  rintro a _ ⟨D1, d1, hgrow, rfl, ha, hnone⟩
  simp only [hself, State.grown_grown, State.grown_disk] at hgrow ha ⊢
  exact ⟨D1, d1, hw.grow (hs.full _ hi (by rwa [hD])) hgrow, rfl, ha, hnone⟩

lemma writeLoop_data (hmax : off + n ≤ MAXFILE * BSIZE) (fuel tot : ℕ) (hfuel : n ≤ tot + fuel) (htot : tot ≤ n)
    (hw : Written sb D s.disk (s.ino e).inum src off tot D' d') :
    wp (writeLoop sb e src n fuel tot (off + tot)) ok (fun r s' =>
      (r.1 < n ∧ ∃ k, k < n ∧ src k = none) ∨ ∃ D' d', r.2 = off + r.1 ∧ r.1 ≤ n ∧
      (r.1 = n ∨ Full sb d') ∧ Written sb D s.disk (s.ino e).inum src off r.1 D' d' ∧
      s' = s.grown e (D' (s.ino e).inum) d') (s.grown e (D' (s.ino e).inum) d') := by
  induction fuel generalizing tot D' d' with
  | zero => exact .inr ⟨D', d', rfl, htot, .inl (by show tot = n; omega), hw, rfl⟩
  | succ fuel ih =>
    rw [writeLoop]
    refine wp_ite.mpr ⟨fun hlt => ?_, fun hge => .inr ⟨D', d', rfl, htot, .inl (by show tot = n; omega), hw, rfl⟩⟩
    rw [wp_bind]
    refine (bmap_written hl hD hi ht hs (by omega) hw).mono ?_
    rintro a _ ⟨D1, d1, hw1, rfl, ha, hnone⟩
    refine wp_ite.mpr ⟨fun ha0 => .inr ⟨D1, d1, rfl, htot, .inr (hnone ha0), hw1, rfl⟩, fun ha0 => ?_⟩
    have h0 : slot sb D1 d1 ((s.ino e).inum, dataSlot ((off + tot) / BSIZE)) ≠ 0 := ha ha0 ▸ ha0
    have hmod := Nat.mod_lt (off + tot) (show 0 < BSIZE by decide)
    generalize hm : min (n - tot) (BSIZE - (off + tot) % BSIZE) = m
    simp only [bmodify, wp_bind, wp_modify]
    rcases mapped_cases src tot m with hcopy | ⟨hcopy, k, -, hk, hsrc⟩
    · have hw2 := hw1.store hl h0 (m := m) (by omega)
      rw [← ha ha0] at hw2
      rw [hcopy, if_neg (Nat.lt_irrefl m), Nat.add_assoc off tot m]
      exact ih (tot + m) (by omega) (by omega) hw2
    · rw [if_pos hcopy]
      exact .inl ⟨hlt, k, by omega, hsrc⟩

end

/-- `s'` is `s` after `tot` bytes of `src` have been written at `off` of the inode of `e`. -/
structure Replaced (sb : Superblock) (D : ℕ → Dinode) (s : State P) (e : Fin NINODE) (src : ℕ → Option ℕ)
    (off tot : ℕ) (s' : State P) : Prop where
  state : s' = s.grown e (s'.ino e).d s'.disk
  type : (s'.ino e).d.type = (s.ino e).d.type
  small : (s'.ino e).d.Small
  size : (s'.ino e).d.size = max (s.ino e).d.size (off + tot)
  marked : Marked sb (slot sb (update D (s.ino e).inum (s'.ino e).d) s'.disk) s'.disk
  solid : Solid sb (update D (s.ino e).inum (s'.ino e).d) s'.disk
  dinode : ∀ j, sb.Inum j → dinode sb s'.disk j = if j = (s.ino e).inum then (s'.ino e).d else dinode sb s.disk j
  bytes : ∀ x, x < (s'.ino e).d.size → dataByte sb (update D (s.ino e).inum (s'.ino e).d) s'.disk (s.ino e).inum x =
      overlay (dataByte sb D s.disk (s.ino e).inum) off tot (srcByte src) x
  others : ∀ j x, j ≠ (s.ino e).inum → slot sb D s.disk (j, dataSlot (x / BSIZE)) ≠ 0 →
    dataByte sb (update D (s.ino e).inum (s'.ino e).d) s'.disk j x = dataByte sb D s.disk j x

lemma Written.replaced (hl : Layout sb) {s : State P} {e : Fin NINODE} (hD : D (s.ino e).inum = (s.ino e).d)
    (hi : sb.Inum (s.ino e).inum) (ht : (s.ino e).d.type ≠ 0) (hsmall : (s.ino e).d.Small) (hs : Solid sb D s.disk)
    (hmax : off + tot ≤ MAXFILE * BSIZE) (hw : Written sb D s.disk (s.ino e).inum src off tot D' d')
    (ha : a = { D' (s.ino e).inum with size := max (D (s.ino e).inum).size (off + tot) }) :
    Replaced sb D s e src off tot (s.grown e a (putDinode sb d' (s.ino e).inum a)) := by
  have hM : MAXFILE * BSIZE = 274432 := rfl
  have ht' : (D (s.ino e).inum).type ≠ 0 := by rwa [hD]
  obtain ⟨htype, hsize, hsmall', -⟩ := hw.fields
  obtain ⟨h1, h2, h3, h4, h5⟩ := hw.finish hl hi ht' (by rwa [hD]) hs hmax ha
  have hself := s.grown_ino_self e a (putDinode sb d' (s.ino e).inum a)
  refine ⟨?_, ?_, ?_, ?_, ?_, ?_, ?_, ?_, ?_⟩ <;> rw [hself]
  · rfl
  · rw [← hD, ha]
    exact htype
  · have hold := hs.size _ hi ht'
    rw [ha]
    refine Growing.small_setSize (hsmall' (by rwa [hD])) ?_
    omega
  · rw [← hD, ha]
  · exact h1
  · exact h2
  · exact h3
  · exact h4
  · exact h5

lemma writei_data (hl : Layout sb) {s : State P} {e : Fin NINODE} (hD : D (s.ino e).inum = (s.ino e).d)
    (hi : sb.Inum (s.ino e).inum) (ht : (s.ino e).d.type ≠ 0) (hsmall : (s.ino e).d.Small)
    (hm : Marked sb (slot sb D s.disk) s.disk) (hs : Solid sb D s.disk) (hoff : off ≤ (s.ino e).d.size)
    (hmax : off + n ≤ MAXFILE * BSIZE) :
    wp (writei sb e src off n) ok (fun r s' => ∃ tot : ℕ, r = ↑tot ∧ ((tot < n ∧ ∃ k, k < n ∧ src k = none) ∨
        tot ≤ n ∧ (tot = n ∨ Full sb s'.disk) ∧ Replaced sb D s e src off tot s')) s := by
  have hM : MAXFILE * BSIZE = 274432 := rfl
  have ht' : (D (s.ino e).inum).type ≠ 0 := by rwa [hD]
  have hstart : Written sb D s.disk (s.ino e).inum src off 0 D s.disk := .start hm fun m hm => by
    refine hs.full _ hi ht' m ?_
    rw [hD]
    omega
  have hloop : wp _ ok _ _ := writeLoop_data hl hD hi ht hs hmax n 0 (by omega) (Nat.zero_le n) hstart
  rw [hD, State.grown_self] at hloop
  simp only [writei, inode, wp_bind, wp_read, wp_pure]
  rw [if_neg (by omega), if_neg (by omega), wp_bind]
  refine hloop.mono ?_
  rintro ⟨tot, pos⟩ s' (hbad | ⟨D', d', hpos, htot, hstop, hw, rfl⟩)
  · simp only [setDinode, setInode, iupdate, inode, wp_bind, wp_read, wp_modify, wp_pure]
    exact ⟨tot, rfl, .inl hbad⟩
  obtain ⟨htype, hsize, hsmall', -⟩ := hw.fields
  have hpos' : pos = off + tot := hpos
  have htot' : tot ≤ n := htot
  refine writeEnd_spec rfl ⟨tot, rfl, .inr ⟨htot, ?_, ?_⟩⟩
  · rcases hstop with hstop | hstop
    · exact .inl hstop
    · refine .inr fun b hb => ?_
      rw [State.grown_disk, bit_putDinode hl hi]
      exact hstop b hb
  · have ha : ({ D' (s.ino e).inum with
        size := if pos > (D' (s.ino e).inum).size then pos else (D' (s.ino e).inum).size } : Dinode) =
        { D' (s.ino e).inum with size := max (D (s.ino e).inum).size (off + tot) } := by
      have hmx : (if pos > (D (s.ino e).inum).size then pos else (D (s.ino e).inum).size) =
          max (D (s.ino e).inum).size (off + tot) := by
        rw [hpos', max_def]
        split <;> split <;> omega
      rw [hsize, hmx]
    exact hw.replaced hl hD hi ht hsmall hs (by omega) ha

/-! ### Sizes and contents -/

/-- Inode `j` has the same type, size and contents on both disks. -/
structure SameFile (sb : Superblock) (d d' : Disk) (j : ℕ) : Prop where
  type : (dinode sb d' j).type = (dinode sb d j).type
  size : (dinode sb d' j).size = (dinode sb d j).size
  bytes : ∀ x, x < (dinode sb d j).size → dataByte sb (dinode sb d') d' j x = dataByte sb (dinode sb d) d j x

/-- All inodes that are in use on `d`, but those of `X`, are the same on `d'`. -/
def Kept (sb : Superblock) (X : ℕ → Prop) (d d' : Disk) : Prop :=
  ∀ j, sb.Inum j → (dinode sb d j).type ≠ 0 → ¬ X j → SameFile sb d d' j

section

variable {X Y : ℕ → Prop} {d d' d'' : Disk} {i : ℕ}

lemma Kept.refl (sb : Superblock) (X : ℕ → Prop) (d : Disk) : Kept sb X d d :=
  fun _ _ _ _ => ⟨rfl, rfl, fun _ _ => rfl⟩

lemma Kept.of_eq (h : d' = d) : Kept sb X d d' := h ▸ Kept.refl sb X d

lemma Kept.trans (h : Kept sb X d d') (h' : Kept sb X d' d'') : Kept sb X d d'' := by
  intro j hj ht hX
  obtain ⟨htype, hsize, hbytes⟩ := h j hj ht hX
  obtain ⟨htype', hsize', hbytes'⟩ := h' j hj (by rwa [htype]) hX
  refine ⟨htype'.trans htype, hsize'.trans hsize, fun x hx => ?_⟩
  exact (hbytes' x (by rwa [hsize])).trans (hbytes x hx)

lemma Kept.mono (h : Kept sb X d d') (hXY : ∀ j, X j → Y j) : Kept sb Y d d' :=
  fun j hj ht hY => h j hj ht fun hX => hY (hXY j hX)

lemma Kept.of_free (h : Kept sb (fun j => X j ∨ j = i) d d') (hi : (dinode sb d i).type = 0) : Kept sb X d d' := by
  intro j hj ht hX
  refine h j hj ht ?_
  rintro (hc | rfl)
  · exact hX hc
  · exact ht hi

lemma DiskOk.sameFile (h : DiskOk sb g d) (hg : g.solid) (hdata : ∀ b, sb.nmeta ≤ b → d' b = d b) (hj : sb.Inum j)
    (ht : (dinode sb d j).type ≠ 0) (htype : (dinode sb d' j).type = (dinode sb d j).type)
    (hsize : (dinode sb d' j).size = (dinode sb d j).size) (haddrs : (dinode sb d' j).addrs = (dinode sb d j).addrs) :
    SameFile sb d d' j := by
  refine ⟨htype, hsize, fun x hx => ?_⟩
  -- the slots of `j` depend on its own fields only
  have hslot : ∀ n, slot sb (dinode sb d') d' (j, n) = slot sb (dinode sb d) d (j, n) := by
    intro n
    have hown : slot sb (dinode sb d') d' (j, n) =
        slot sb (update (dinode sb d) j (dinode sb d' j)) d' (j, n) := by
      unfold slot
      simp only [update_self]
    rw [hown, slot_data h.owned.marked (fun i _ => ?_) hdata]
    by_cases hij : i = j
    · subst hij
      rw [update_self]
      exact ⟨htype, haddrs⟩
    · rw [update_of_ne hij]
      exact ⟨rfl, rfl⟩
  have hfull : slot sb (dinode sb d) d (j, dataSlot (x / BSIZE)) ≠ 0 :=
    (h.solid hg).full j hj ht _ (lt_of_le_of_lt (Nat.mul_div_le x BSIZE) hx)
  unfold dataByte
  rw [hslot, hdata _ (h.owned.marked.used _ hfull).1.1]

lemma kept_of_setInode (hset : SetInode sb d i a d') (h : DiskOk sb g d) (hg : g.solid) :
    Kept sb (fun j => j = i) d d' := by
  intro j hj ht hne
  have hsame : dinode sb d' j = dinode sb d j := by rw [hset.dinode j hj, if_neg hne]
  exact h.sameFile hg hset.data hj ht (by rw [hsame]) (by rw [hsame]) (by rw [hsame])

lemma kept_of_fields (hset : SetInode sb d i a d') (h : DiskOk sb g d) (hg : g.solid)
    (htype : a.type = (dinode sb d i).type) (hsize : a.size = (dinode sb d i).size)
    (haddrs : a.addrs = (dinode sb d i).addrs) : Kept sb X d d' := by
  intro j hj ht _
  by_cases hji : j = i
  · subst hji
    have hnew : dinode sb d' j = a := by rw [hset.dinode j hj, if_pos rfl]
    exact h.sameFile hg hset.data hj ht (by rw [hnew, htype]) (by rw [hnew, hsize]) (by rw [hnew, haddrs])
  · exact kept_of_setInode hset h hg j hj ht hji

end

variable [Fintype P] {z : Sel} {s : State P} {L : List (Fin NINODE × ℕ)} {K : List (Fin NINODE)} {e : Fin NINODE}

lemma update_exact (hl : Layout sb) (h : Inv sb z s L K) (he : e ∈ K) (htype : (f (s.ino e).d).type = (s.ino e).d.type)
    (hsize : (f (s.ino e).d).size = (s.ino e).d.size) (haddrs : (f (s.ino e).d).addrs = (s.ino e).d.addrs)
    (hsmall : (f (s.ino e).d).Small) :
    wp (do setDinode e f; iupdate sb e) ok (fun _ s' => After sb z s L K s' ∧
      tree sb s' = (tree sb s).setNlink (s.ino e).inum (f (s.ino e).d).nlink ∧
      (z.solid → Kept sb (fun _ => False) s.disk s'.disk)) s := by
  obtain ⟨hpos, hv⟩ := h.locked e he
  have hsync := (h.sync e hpos hv).1
  have hset := SetInode.of_putDinode hl (h.range e hpos) hsmall (d := s.disk) (fun _ _ => rfl) fun _ _ _ => rfl
  have hkept : wp (do setDinode e f; iupdate sb e) ok (fun _ s' =>
      z.solid → Kept sb (fun _ => False) s.disk s'.disk) s := by
    simp only [setDinode, setInode, iupdate, inode, wp_bind, wp_read, wp_modify, wp_pure]
    have hself : ((s.setIno e fun ip => { ip with d := f ip.d }).ino e) =
        { s.ino e with d := f (s.ino e).d } := update_self _ _ _
    rw [hself]
    intro hs
    exact kept_of_fields hset h.disk hs (by rw [htype, hsync]) (by rw [hsize, hsync]) (by rw [haddrs, hsync])
  exact ((update_spec hl h he htype hsize haddrs hsmall).and hkept).mono fun _ _ h => ⟨h.1.1, h.1.2, h.2⟩

lemma ialloc_kept (hl : Layout sb) (h : Inv sb z s L K) (hok : Allowed z ok) (ht : t ≠ 0) (ht' : t < 2 ^ 16) :
    wp (ialloc sb t) ok (fun _ s' => z.solid → Kept sb (fun _ => False) s.disk s'.disk) s := by
  refine wp_findM_range' (I := fun _ s' => s' = s) ?_ (fun _ hs _ => .of_eq (congrArg State.disk hs)) s rfl
  rintro k _ hk1 hk2 rfl
  rename_i s
  have hi : sb.Inum k := ⟨by omega, by omega⟩
  simp only [wp_bind, wp_read]
  by_cases hfree : (dinode sb s.disk k).type = 0
  · rw [if_pos hfree]
    simp only [wp_bind, wp_modify]
    obtain ⟨hafter, -⟩ := h.alloc hl hi hfree ht ht'
    have hsmall : { Dinode.zero with type := t }.Small :=
      ⟨ht', Nat.two_pow_pos 16, Nat.two_pow_pos 16, Nat.two_pow_pos 16, Nat.two_pow_pos 32,
        fun _ => Nat.two_pow_pos 32, fun _ _ => rfl⟩
    have hset := SetInode.of_putDinode hl hi hsmall (d := s.disk) (fun _ _ => rfl) fun _ _ _ => rfl
    refine (iget_exact hafter.inv hi (.inl (hok _ (by decide) fun _ => by decide))).mono ?_
    rintro e s' ⟨-, -, -, hdisk⟩ hs
    rw [hdisk]
    exact ((kept_of_setInode hset h.disk hs).mono fun _ hj => .inr hj).of_free hfree
  · rw [if_neg hfree, wp_pure]

/-- All that the invariant can follow is followed. -/
def Sel.All (z : Sel) : Prop := z.solid ∧ z.aligned ∧ ∀ i, z.zero i

lemma Sel.all_const {Z G : Prop} (hz : Z) (hg : G) : (Sel.const Z G).All := ⟨hg, hz, fun _ => hz⟩

lemma writei_kept (hl : Layout sb) (h : Inv sb z s L K) (hz : z.All) (he : e ∈ K) (hdir : (s.ino e).d.type = T_DIR)
    (hsrc : ∀ j, (src j).isSome = true) (k : ℕ) {x : ℕ × Name}
    (hx : x = (deInum ((List.range 16).map fun m => (src m).getD 0 % 256),
      deName ((List.range 16).map fun m => (src m).getD 0 % 256))) (hin : x.1 < sb.ninodes) :
    wp (writei sb e src (16 * k) 16) ok (fun w s' =>
      Kept sb (fun j => w = 16 ∧ j = (s.ino e).inum) s.disk s'.disk) s := by
  obtain ⟨hpos, hv⟩ := h.locked e he
  obtain ⟨hsync, ht⟩ := h.sync e hpos hv
  have hi := h.range e hpos
  by_cases hfits : 16 * k ≤ (s.ino e).d.size ∧ 16 * k + 16 ≤ MAXFILE * BSIZE
  · obtain ⟨hoff, hmax⟩ := hfits
    have hdata : wp (writei sb e src (16 * k) 16) ok _ s := writei_data hl (D := dinode sb s.disk) hsync.symm hi ht
      (h.small_of_locked he) h.disk.owned.marked (h.disk.solid hz.1) hoff hmax
    have hpresent : wp (writei sb e src (16 * k) 16) ok (fun w _ => 16 * k + 16 ≤ (s.ino e).d.size → w = 16) s := by
      by_cases hk : 16 * k + 16 ≤ (s.ino e).d.size
      · exact (writei_present h he hdir hz.1 hsrc hk).mono fun _ _ hw _ => hw
      · exact hdata.mono fun _ _ _ hc => absurd hc hk
    refine ((hdata.and (writei_dirent_exact hl h he hdir hsrc k hx hin)).and hpresent).mono ?_
    rintro w s' ⟨⟨⟨tot, rfl, hbad | ⟨-, -, hrep⟩⟩, -, -, -, hsize⟩, hfull⟩
    · obtain ⟨-, m, -, hnone⟩ := hbad
      have := hsrc m
      rw [hnone] at this
      cases this
    have hfam : ∀ j, sb.Inum j → dinode sb s'.disk j =
        update (dinode sb s.disk) (s.ino e).inum (s'.ino e).d j := by
      intro j hj
      rw [hrep.dinode j hj]
      by_cases hji : j = (s.ino e).inum
      · rw [if_pos hji, hji, update_self]
      · rw [if_neg hji, update_of_ne hji]
    have hslot : slot sb (dinode sb s'.disk) s'.disk =
        slot sb (update (dinode sb s.disk) (s.ino e).inum (s'.ino e).d) s'.disk :=
      slot_congr (fun j hj => by rw [hfam j hj]; exact ⟨rfl, rfl⟩) fun _ _ _ _ => rfl
    have hbyte : ∀ j x, dataByte sb (dinode sb s'.disk) s'.disk j x =
        dataByte sb (update (dinode sb s.disk) (s.ino e).inum (s'.ino e).d) s'.disk j x := by
      intro j x
      unfold dataByte
      rw [hslot]
    intro j hj htj hX
    by_cases hji : j = (s.ino e).inum
    · -- the directory itself, when nothing could be written: there was no entry at `k`
      subst hji
      have hnot : ((tot : ℕ) : ℤ) ≠ 16 := fun hc => hX ⟨hc, rfl⟩
      rw [if_neg hnot, hrep.size] at hsize
      have hdvd := h.disk.aligned hz.2.1 _ hi (by rwa [← hsync])
      rw [← hsync] at hdvd
      have hend : ¬ 16 * k + 16 ≤ (s.ino e).d.size := fun hc => hnot (hfull hc)
      have htot0 : tot = 0 := by
        obtain ⟨q, hq⟩ := hdvd
        omega
      have hself : dinode sb s'.disk (s.ino e).inum = (s'.ino e).d := by rw [hrep.dinode _ hi, if_pos rfl]
      refine ⟨by rw [hself, hrep.type, hsync], by rw [hself, hrep.size, hsize, hsync], fun x hx => ?_⟩
      rw [← hsync] at hx
      rw [hbyte, hrep.bytes x (by rwa [hrep.size, hsize])]
      unfold overlay
      exact if_neg (by omega)
    · have hsame : dinode sb s'.disk j = dinode sb s.disk j := by rw [hrep.dinode j hj, if_neg hji]
      refine ⟨by rw [hsame], by rw [hsame], fun x hx => ?_⟩
      rw [hbyte]
      refine hrep.others j x hji ?_
      exact (h.disk.solid hz.1).full j hj htj _ (lt_of_le_of_lt (Nat.mul_div_le x BSIZE) hx)
  · simp only [writei, inode, wp_bind, wp_read, wp_pure]
    refine wp_ite.mpr ⟨fun _ => Kept.of_eq rfl, fun h1 => wp_ite.mpr ⟨fun _ => Kept.of_eq rfl, fun h2 => ?_⟩⟩
    exact absurd ⟨by omega, by omega⟩ hfits

/-- A part of a call after which the tree and the contents of all inodes are as before. -/
structure Undone (sb : Superblock) (z : Sel) (s : State P) (L : List (Fin NINODE × ℕ)) (K : List (Fin NINODE)) (s' : State P) :
    Prop where
  after : After sb z s L K s'
  same : z.All → tree sb s' = tree sb s ∧ Kept sb (fun _ => False) s.disk s'.disk

section

variable {s' s'' : State P} {L' : List (Fin NINODE × ℕ)} {K' : List (Fin NINODE)}

lemma Undone.of_disk (h : After sb z s L K s') (hs : z.All → tree sb s' = tree sb s ∧ s'.disk = s.disk) :
    Undone sb z s L K s' :=
  ⟨h, fun hz => ⟨(hs hz).1, .of_eq (hs hz).2⟩⟩

lemma Undone.trans (h : Undone sb z s L K s') (h' : Undone sb z s' L' K' s'') : Undone sb z s L' K' s'' where
  after := h.after.trans h'.after
  same hz := ⟨(h'.same hz).1.trans (h.same hz).1, (h.same hz).2.trans (h'.same hz).2⟩

end

end Xv6.Fs
