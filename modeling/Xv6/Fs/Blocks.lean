import Xv6.Fs.Model
import Xv6.Fs.Owned

/-!
# Allocation of blocks

`balloc`, `bfree`, `bmap` and `itrunc` keep the free map exact.  While an inode is being changed its
copy in memory is ahead of the disk, so the statements are about the slots of a family `D` of inodes
that agrees with the copy in memory.
-/

namespace Xv6.Fs

open Lib Log Function

variable {P : Type} {sb : Superblock} {ok : Stop → Prop}

/-! ### `balloc` and `bfree` -/

lemma ballocScan_spec (k : ℕ) (s : State P) : wp (ballocScan sb k) ok (fun r s' =>
      match r with
      | some b => b < sb.size ∧ bit sb s.disk b = false ∧
          b / BPB = k ∧ (∀ c, c < b → c / BPB = k → bit sb s.disk c = true) ∧
          s' = { s with disk := update (setBit sb s.disk b) b (Bytes.zero _) }
      | none => s' = s ∧ ∀ b, b < sb.size → b / BPB = k → bit sb s.disk b = true) s := by
  have hB : 0 < BPB := by decide
  simp only [ballocScan, bread, wp_bind, wp_read, wp_pure]
  cases hfind : (List.range (min BPB (sb.size - k * BPB))).find?
      fun bi => !testBit (s.disk (sb.BBLOCK (k * BPB))) bi with
  | none =>
    refine ⟨rfl, fun b hb hk => ?_⟩
    have hdiv := Nat.div_add_mod b BPB
    have hmod := Nat.mod_lt b hB
    have hset := List.find?_eq_none.mp hfind (b % BPB) (List.mem_range.mpr (lt_min hmod (by
      rw [← hk, Nat.mul_comm]
      omega)))
    have hblk : sb.BBLOCK (k * BPB) = sb.BBLOCK b := by
      unfold Superblock.BBLOCK
      rw [Nat.mul_div_cancel _ hB, hk]
    rw [bit, ← hblk]
    simpa using hset
  | some bi =>
    obtain ⟨hclear, hin, hbefore⟩ := List.find?_range_eq_some.mp hfind
    have hmem := List.mem_range.mp hin
    have hlt : bi < BPB := lt_of_lt_of_le hmem (min_le_left _ _)
    have hsize : k * BPB + bi < sb.size := by
      have := lt_of_lt_of_le hmem (min_le_right _ _)
      omega
    have hblk : sb.BBLOCK (k * BPB) = sb.BBLOCK (k * BPB + bi) := by
      unfold Superblock.BBLOCK
      rw [Nat.mul_comm k BPB, Nat.mul_add_div hB, Nat.div_eq_of_lt hlt, Nat.mul_div_cancel_left _ hB, Nat.add_zero]
    have hmod : (k * BPB + bi) % BPB = bi := by
      rw [Nat.mul_comm, Nat.mul_add_mod, Nat.mod_eq_of_lt hlt]
    simp only [bmodify, bzero, wp_bind, wp_modify, wp_pure]
    refine ⟨hsize, ?_, ?_, fun c hc hk => ?_, ?_⟩
    · rw [bit, hmod, ← hblk]
      simpa using hclear
    · rw [Nat.mul_comm k BPB, Nat.mul_add_div hB, Nat.div_eq_of_lt hlt, Nat.add_zero]
    · have hdiv := Nat.div_add_mod c BPB
      have hset := hbefore (c % BPB) (by
        rw [hk, Nat.mul_comm] at hdiv
        omega)
      rw [bit, Superblock.BBLOCK, hk]
      rw [Superblock.BBLOCK, Nat.mul_div_cancel _ hB] at hset
      simpa using hset
    · rw [setBit, hmod, ← hblk]

/-- The disk after `balloc` returns `b`. -/
def ballocDisk (sb : Superblock) (d : Disk) (b : ℕ) : Disk :=
  update (setBit sb d b) b (Bytes.zero _)

/-- There is no free block. -/
def Full (sb : Superblock) (d : Disk) : Prop := ∀ b, b < sb.size → bit sb d b = true

lemma balloc_first (s : State P) : wp (balloc sb) ok (fun b s' => (b = 0 ∧ s' = s ∧ Full sb s.disk) ∨
      (b < sb.size ∧ bit sb s.disk b = false ∧ (∀ c, c < b → bit sb s.disk c = true) ∧
        s' = { s with disk := ballocDisk sb s.disk b })) s := by
  simp only [balloc, wp_bind]
  -- the blocks of the free map looked at so far are all ones
  refine wp_findM_range (I := fun k s' => s' = s ∧ ∀ b, b < sb.size → b / BPB < k → bit sb s.disk b = true)
    ?_ ?_ s ⟨rfl, fun b _ hb => absurd hb (Nat.not_lt_zero _)⟩
  · rintro k _ - ⟨rfl, hset⟩
    refine (ballocScan_spec k _).mono fun r s' hr => ?_
    cases r with
    | none =>
      refine ⟨hr.1, fun b hb hk => ?_⟩
      rcases Nat.lt_succ_iff_lt_or_eq.mp hk with hlt | heq
      · exact hset b hb hlt
      · exact hr.2 b hb heq
    | some b =>
      obtain ⟨hsize, hfree, hk, hleast, hs'⟩ := hr
      refine .inr ⟨hsize, hfree, fun c (hc : c < b) => ?_, hs'⟩
      have hck : c / BPB ≤ k := hk ▸ Nat.div_le_div_right (Nat.le_of_lt hc)
      rcases Nat.lt_or_eq_of_le hck with hlt | heq
      · exact hset c (by omega) hlt
      · exact hleast c hc heq
  · rintro _ ⟨rfl, hset⟩
    refine .inl ⟨rfl, rfl, fun b hb => hset b hb ?_⟩
    have hB : BPB = 8192 := rfl
    rw [hB]
    omega

lemma balloc_spec (s : State P) (hm : ∀ b, b < sb.nmeta → bit sb s.disk b = true) :
    wp (balloc sb) ok (fun b s' => (b = 0 ∧ s' = s ∧ Full sb s.disk) ∨
      (sb.nmeta ≤ b ∧ b < sb.size ∧ bit sb s.disk b = false ∧ s' = { s with disk := ballocDisk sb s.disk b })) s := by
  refine (balloc_first s).mono fun b s' hb => ?_
  rcases hb with hfull | ⟨hsize, hfree, -, hs'⟩
  · exact .inl hfull
  · refine .inr ⟨?_, hsize, hfree, hs'⟩
    by_contra hlt
    rw [hm b (by simpa using hlt)] at hfree
    cases hfree

variable {b n : ℕ} {R : ℕ × ℕ → ℕ} {X Y : ℕ → Prop}

lemma bfree_spec (s : State P) (hb : bit sb s.disk b = true) :
    wp (bfree sb b) ok (fun _ s' => s' = { s with disk := unsetBit sb s.disk b }) s := by
  simp only [bfree, bread, wp_bind, wp_read, wp_pure]
  rw [bit] at hb
  rw [if_pos hb]
  rfl

lemma SameData.unsetBit (hl : Layout sb) (hb : b < sb.size) :
    SameData sb d (unsetBit sb d b) := SameData.bitmap hl hb _

lemma ballocDisk_self (d : Disk) (b : ℕ) : ballocDisk sb d b b = Bytes.zero _ := update_self _ _ _

lemma ballocDisk_data (hl : Layout sb) (hb : b < sb.size) (hx : sb.nmeta ≤ x) (hne : x ≠ b) :
    ballocDisk sb d b x = d x := by
  rw [ballocDisk, update_of_ne hne]
  exact (SameData.bitmap hl hb _).data x hx

lemma dinode_ballocDisk (hl : Layout sb) (hb : b < sb.size) (hm : sb.nmeta ≤ b) (hi : sb.Inum i) :
    dinode sb (ballocDisk sb d b) i = dinode sb d i := by
  rw [ballocDisk, dinode_data hl hi hm]
  exact (SameData.bitmap hl hb _).dinode i hi

/-! ### `bmap` -/

/-- Inode `i` has got more blocks, and nothing else has changed. -/
structure Grow (sb : Superblock) (i : ℕ) (D : ℕ → Dinode) (d : Disk) (D' : ℕ → Dinode) (d' : Disk) :
    Prop where
  marked : Marked sb (slot sb D' d') d'
  owned : Owned sb (slot sb D d) d → Owned sb (slot sb D' d') d'
  inodes : ∃ addrs, D' = update D i { D i with addrs := addrs } ∧ ((D i).Small → { D i with addrs := addrs }.Small)
  dinode : ∀ j, sb.Inum j → dinode sb d' j = dinode sb d j
  /-- A slot that was taken still refers to its block. -/
  keep : ∀ t, slot sb D d t ≠ 0 → slot sb D' d' t = slot sb D d t
  other : ∀ t, t.1 ≠ i → slot sb D' d' t = slot sb D d t
  /-- All blocks that are not indirect blocks keep their contents. -/
  data : ∀ t, slot sb D d t ≠ 0 → t.2 ≠ NDIRECT → d' (slot sb D d t) = d (slot sb D d t)
  fresh : ∀ t, slot sb D d t = 0 → slot sb D' d' t ≠ 0 → t.2 ≠ NDIRECT → d' (slot sb D' d' t) = Bytes.zero _

namespace Grow

variable {i : ℕ} {D D' D'' : ℕ → Dinode} {d d' d'' : Disk}

lemma refl (h : Marked sb (slot sb D d) d) (i : ℕ) : Grow sb i D d D d where
  marked := h
  owned ho := ho
  inodes := ⟨(D i).addrs, (update_eq_self i D).symm, fun hs => hs⟩
  dinode _ _ := rfl
  keep _ _ := rfl
  other _ _ := rfl
  data _ _ _ := rfl
  fresh _ h0 h1 := absurd h0 h1

lemma trans (h : Grow sb i D d D' d') (h' : Grow sb i D' d' D'' d'') : Grow sb i D d D'' d'' where
  marked := h'.marked
  owned ho := h'.owned (h.owned ho)
  inodes := by
    obtain ⟨a, rfl, hs⟩ := h.inodes
    obtain ⟨a', rfl, hs'⟩ := h'.inodes
    simp only [update_self, update_idem] at hs' ⊢
    exact ⟨a', rfl, fun hsmall => hs' (hs hsmall)⟩
  dinode j hj := (h'.dinode j hj).trans (h.dinode j hj)
  keep t ht := by
    have h1 := h.keep t ht
    rw [h'.keep t (by rwa [h1]), h1]
  other t ht := (h'.other t ht).trans (h.other t ht)
  data t ht hn := by
    have h1 := h.keep t ht
    have h2 := h'.data t (by rwa [h1]) hn
    rw [h1] at h2
    rw [h2, h.data t ht hn]
  fresh t h0 h2 hn := by
    by_cases h1 : slot sb D' d' t = 0
    · exact h'.fresh t h1 h2 hn
    · rw [h'.keep t h1, h'.data t h1 hn]
      exact h.fresh t h0 h1 hn

lemma type_eq (h : Grow sb i D d D' d') (j : ℕ) : (D' j).type = (D j).type := by
  obtain ⟨a, rfl, -⟩ := h.inodes
  by_cases hj : j = i
  · subst hj
    simp
  · simp [hj]

lemma size_eq (h : Grow sb i D d D' d') (j : ℕ) : (D' j).size = (D j).size := by
  obtain ⟨a, rfl, -⟩ := h.inodes
  by_cases hj : j = i
  · subst hj
    simp
  · simp [hj]

end Grow

lemma Dinode.Small.setAddr {a : Dinode} (h : a.Small) (hn : n ≤ NDIRECT) (hb : b < 2 ^ 32) :
    { a with addrs := update a.addrs n b }.Small where
  type := h.type
  major := h.major
  minor := h.minor
  nlink := h.nlink
  size := h.size
  addrs k := by
    by_cases hk : k = n
    · subst hk
      simpa using hb
    · simpa [hk] using h.addrs k
  unused k hk := by
    have : k ≠ n := by omega
    simpa [this] using h.unused k hk

section

variable {D : ℕ → Dinode} {d : Disk} {i b : ℕ} (hl : Layout sb) (ho : Marked sb (slot sb D d) d)
  (hs : b < sb.size) (hfree : bit sb d b = false) (hb : sb.nmeta ≤ b)

include hl ho hs hfree

lemma slot_ballocDisk : slot sb D (ballocDisk sb d b) = slot sb D d := by
  refine slot_congr (fun _ _ => ⟨rfl, rfl⟩) fun j hj ht ha => ?_
  have hslot : slot sb D d (j, NDIRECT) = (D j).addrs NDIRECT := slot_direct hj ht le_rfl
  have hne0 : slot sb D d (j, NDIRECT) ≠ 0 := by rwa [hslot]
  rw [← hslot]
  exact ballocDisk_data hl hs (ho.data hne0).1 (ho.ne_of_free hfree hne0)

lemma slot_ballocEntry (hi : sb.Inum i) (ht : (D i).type ≠ 0) (ha : (D i).addrs NDIRECT ≠ 0) (hn : NDIRECT < n)
    (hm : n ≤ MAXFILE) :
    slot sb D (update (ballocDisk sb d b) ((D i).addrs NDIRECT)
      ((ballocDisk sb d b ((D i).addrs NDIRECT)).putLe (4 * (n - NDIRECT - 1)) 4 b)) =
      update (slot sb D d) (i, n) b := by
  have hsmall : b < 2 ^ 32 := by
    have := hl.size
    omega
  rw [slot_setEntry hi ht ha (fun k hk htk hki => ho.indirect_ne hi ht ha hk htk hki) hn hm hsmall,
    slot_ballocDisk hl ho hs hfree]

include hb

lemma Grow.of_take (hempty : slot sb D d (i, n) = 0) (hslot : slot sb D' d' = update (slot sb D d) (i, n) b)
    (hD : ∃ addrs, D' = update D i { D i with addrs := addrs } ∧ ((D i).Small → { D i with addrs := addrs }.Small))
    (hbit : ∀ x, x < sb.size → bit sb d' x = bit sb (ballocDisk sb d b) x)
    (hdinode : ∀ j, sb.Inum j → Fs.dinode sb d' j = Fs.dinode sb (ballocDisk sb d b) j)
    (hdata : ∀ t, slot sb D d t ≠ 0 → t.2 ≠ NDIRECT →
      d' (slot sb D d t) = ballocDisk sb d b (slot sb D d t)) (hzero : d' b = Bytes.zero _) : Grow sb i D d D' d' where
  marked := by
    rw [hslot]
    exact (ho.take hl hb hs hfree _ _).congr hbit hl.data
  owned hown := by
    rw [hslot]
    exact (hown.take hl hb hs hfree hempty _).congr hbit hl.data
  inodes := hD
  dinode j hj := by rw [hdinode j hj, dinode_ballocDisk hl hs hb hj]
  keep t ht := by
    rw [hslot, update_of_ne]
    rintro rfl
    exact ht hempty
  other t ht := by
    rw [hslot, update_of_ne]
    rintro rfl
    exact ht rfl
  data t ht hn := by
    rw [hdata t ht hn]
    exact ballocDisk_data hl hs (ho.data ht).1 (ho.ne_of_free hfree ht)
  fresh t h0 h1 _ := by
    by_cases ht : t = (i, n)
    · rw [hslot, ht, update_self]
      exact hzero
    · rw [hslot, update_of_ne ht] at h1
      exact absurd h0 h1

lemma Grow.setAddr (hi : sb.Inum i) (ht : (D i).type ≠ 0) (hn : n ≤ NDIRECT) (h0 : (D i).addrs n = 0) :
    Grow sb i D d (update D i { D i with addrs := update (D i).addrs n b })
      (ballocDisk sb d b) := by
  have hsmall : b < 2 ^ 32 := by
    have := hl.size
    omega
  have hsame := slot_ballocDisk hl ho hs hfree
  refine Grow.of_take hl ho hs hfree hb (n := n) (by rw [slot_direct hi ht hn, h0]) ?_
    ⟨_, rfl, fun h => h.setAddr hn hsmall⟩ (fun _ _ => rfl) (fun _ _ => rfl) (fun _ _ _ => rfl)
    (ballocDisk_self d b)
  rcases Nat.lt_or_eq_of_le hn with hlt | rfl
  · rw [slot_setDirect hi ht hlt, hsame]
  · rw [slot_setIndirect hi ht h0 (ballocDisk_self d b), hsame]

lemma Grow.setEntry (hi : sb.Inum i) (ht : (D i).type ≠ 0) (ha : (D i).addrs NDIRECT ≠ 0) (hn : NDIRECT < n)
    (hm : n ≤ MAXFILE) (h0 : slot sb D d (i, n) = 0) :
    Grow sb i D d D (update (ballocDisk sb d b) ((D i).addrs NDIRECT)
      ((ballocDisk sb d b ((D i).addrs NDIRECT)).putLe (4 * (n - NDIRECT - 1)) 4 b)) := by
  have hself : slot sb D d (i, NDIRECT) = (D i).addrs NDIRECT := slot_direct hi ht le_rfl
  have hdata : sb.nmeta ≤ (D i).addrs NDIRECT := by
    rw [← hself]
    exact (ho.data (by rwa [hself])).1
  refine Grow.of_take hl ho hs hfree hb h0 (slot_ballocEntry hl ho hs hfree hi ht ha hn hm)
    ⟨(D i).addrs, (update_eq_self i D).symm, fun h => h⟩
    (fun x hx => bit_data hx hdata) (fun j hj => dinode_data hl hj hdata) (fun t ht' hne => ?_) ?_
  · refine update_of_ne (fun e => hne ?_) _ _
    have := ho.inj ht' (hself.trans e.symm)
    rw [this]
  · rw [update_of_ne, ballocDisk_self]
    rw [← hself]
    exact (ho.ne_of_free hfree (by rwa [hself])).symm

end

/-- `s` after the inode of entry `e` has become `a` in memory and the disk `d`. -/
def State.grown (s : State P) (e : Fin NINODE) (a : Dinode) (d : Disk) : State P :=
  { s with disk := d, ino := update s.ino e { s.ino e with d := a } }

section

variable (s : State P) (e : Fin NINODE)

@[simp]
lemma State.grown_disk (a : Dinode) (d : Disk) : (s.grown e a d).disk = d := rfl

@[simp]
lemma State.grown_ino_self (a : Dinode) (d : Disk) :
    (s.grown e a d).ino e = { s.ino e with d := a } := update_self _ _ _

@[simp]
lemma State.grown_grown (a a' : Dinode) (d d' : Disk) :
    (s.grown e a d).grown e a' d' = s.grown e a' d' := by
  simp [State.grown]

lemma State.grown_self : s.grown e (s.ino e).d s.disk = s := by
  unfold State.grown
  rw [update_eq_self]

end

section

variable (hl : Layout sb) {s : State P} {e : Fin NINODE} {D : ℕ → Dinode}
  (ho : Marked sb (slot sb D s.disk) s.disk) (hD : D (s.ino e).inum = (s.ino e).d)
  (hi : sb.Inum (s.ino e).inum) (ht : (s.ino e).d.type ≠ 0)

include hl ho hD hi ht

lemma mapAddr_spec (hn : n ≤ NDIRECT) :
    wp (mapAddr sb e n) ok (fun a s' => ∃ D' d', Grow sb (s.ino e).inum D s.disk D' d' ∧
      s' = s.grown e (D' (s.ino e).inum) d' ∧ (a ≠ 0 → a = (D' (s.ino e).inum).addrs n) ∧
      (a = 0 → Full sb d')) s := by
  simp only [mapAddr, inode, wp_bind, wp_read, wp_pure]
  by_cases h0 : (s.ino e).d.addrs n = 0
  · rw [if_pos h0, wp_bind]
    refine (balloc_spec s ho.reserved).mono fun b s' hb => ?_
    rcases hb with ⟨rfl, rfl, hfull⟩ | ⟨hb, hs, hfree, rfl⟩
    · rw [if_pos rfl, wp_pure]
      refine ⟨D, _, Grow.refl ho _, ?_, fun h => absurd rfl h, fun _ => hfull⟩
      rw [hD, State.grown_self]
    · have hb0 : b ≠ 0 := by
        have := nmeta_pos sb
        omega
      rw [if_neg hb0]
      simp only [setAddr, setDinode, setInode, wp_bind, wp_modify, wp_pure]
      refine ⟨_, _, Grow.setAddr hl ho hs hfree hb hi (by rwa [hD]) hn (by rwa [hD]), ?_, fun _ => ?_,
        fun h => absurd h hb0⟩
      · simp [State.grown, State.setIno, hD]
      · simp
  · rw [if_neg h0, wp_pure]
    refine ⟨D, _, Grow.refl ho _, ?_, fun _ => by rw [hD], fun h => absurd h h0⟩
    rw [hD, State.grown_self]

lemma bmap_spec (n : ℕ) (hpanic : MAXFILE ≤ n → ok (.panic .bmapOutOfRange)) :
    wp (bmap sb e n) ok (fun a s' => ∃ D' d', Grow sb (s.ino e).inum D s.disk D' d' ∧
      s' = s.grown e (D' (s.ino e).inum) d' ∧
      (a ≠ 0 → a = slot sb D' d' ((s.ino e).inum, dataSlot n)) ∧ (a = 0 → Full sb d')) s := by
  have hN := NDIRECT_eq
  have hM := MAXFILE_eq
  have hI := NINDIRECT_eq
  unfold bmap
  by_cases hdir : n < NDIRECT
  · rw [if_pos hdir]
    refine (mapAddr_spec hl ho hD hi ht (Nat.le_of_lt hdir)).mono ?_
    rintro a s' ⟨D', d', hg, rfl, ha, hfull⟩
    refine ⟨D', d', hg, rfl, fun h0 => ?_, hfull⟩
    rw [dataSlot, if_pos hdir, slot_direct hi (by rwa [hg.type_eq, hD]) (by omega)]
    exact ha h0
  · rw [if_neg hdir]
    by_cases hind : n - NDIRECT < NINDIRECT
    · rw [if_pos hind, wp_bind]
      refine (mapAddr_spec hl ho hD hi ht le_rfl).mono ?_
      rintro a s' ⟨D', d', hg, rfl, ha, hfull⟩
      have ht' : (D' (s.ino e).inum).type ≠ 0 := by rwa [hg.type_eq, hD]
      by_cases ha0 : a = 0
      · rw [if_pos ha0, wp_pure]
        exact ⟨D', d', hg, rfl, fun h => absurd rfl h, fun _ => hfull ha0⟩
      · have hind0 : (D' (s.ino e).inum).addrs NDIRECT ≠ 0 := ha ha0 ▸ ha0
        have hslot : slot sb D' d' ((s.ino e).inum, n + 1) =
            (d' ((D' (s.ino e).inum).addrs NDIRECT)).le (4 * (n - NDIRECT)) 4 := by
          rw [slot_indirect hi ht' (by omega) (by omega) hind0, show n + 1 - NDIRECT - 1 = n - NDIRECT by omega]
        rw [if_neg ha0]
        simp only [bread, wp_bind, wp_read, wp_pure, State.grown_disk]
        rw [ha ha0, dataSlot, if_neg hdir]
        by_cases hent : (d' ((D' (s.ino e).inum).addrs NDIRECT)).le (4 * (n - NDIRECT)) 4 = 0
        · rw [if_pos hent, wp_bind]
          refine (balloc_spec _ hg.marked.reserved).mono fun b s' hb => ?_
          rcases hb with ⟨rfl, rfl, hfull'⟩ | ⟨hb, hs, hfree, rfl⟩
          · rw [if_pos rfl, wp_pure]
            exact ⟨D', d', hg, rfl, fun h => absurd rfl h, fun _ => hfull'⟩
          · have hb0 : b ≠ 0 := by
              have := nmeta_pos sb
              omega
            rw [if_neg hb0]
            simp only [bmodify, wp_bind, wp_modify, wp_pure]
            have hg' := Grow.setEntry hl hg.marked hs hfree hb hi ht' (n := n + 1) hind0 (by omega)
              (by omega) (by rw [hslot, hent])
            have hslot' := slot_ballocEntry hl hg.marked hs hfree hi ht' (n := n + 1) hind0 (by omega)
              (by omega)
            rw [show n + 1 - NDIRECT - 1 = n - NDIRECT by omega] at hg' hslot'
            refine ⟨_, _, hg.trans hg', rfl, fun _ => ?_, fun h => absurd h hb0⟩
            rw [hslot', update_self]
        · rw [if_neg hent, wp_pure]
          exact ⟨D', d', hg, rfl, fun _ => hslot.symm, fun h => absurd h hent⟩
    · rw [if_neg hind]
      exact hpanic (by omega)

omit hl ho in
lemma slot_dataSlot_cases (hslot : slot sb D s.disk ((s.ino e).inum, dataSlot n) ≠ 0) :
    (n < NDIRECT ∧ slot sb D s.disk ((s.ino e).inum, dataSlot n) = (s.ino e).d.addrs n) ∨
      (¬ n < NDIRECT ∧ n - NDIRECT < NINDIRECT ∧ (s.ino e).d.addrs NDIRECT ≠ 0 ∧
        slot sb D s.disk ((s.ino e).inum, dataSlot n) =
          (s.disk ((s.ino e).d.addrs NDIRECT)).le (4 * (n - NDIRECT)) 4) := by
  have hN := NDIRECT_eq
  have hM := MAXFILE_eq
  have hI := NINDIRECT_eq
  have ht' : (D (s.ino e).inum).type ≠ 0 := by rwa [hD]
  by_cases hdir : n < NDIRECT
  · have hds : dataSlot n = n := if_pos hdir
    rw [hds, slot_direct hi ht' (by omega), hD]
    exact .inl ⟨hdir, rfl⟩
  · have hds : dataSlot n = n + 1 := if_neg hdir
    rw [hds] at hslot ⊢
    have hind : (D (s.ino e).inum).addrs NDIRECT ≠ 0 ∧ n + 1 ≤ MAXFILE := by
      unfold slot at hslot
      by_contra hc
      rw [if_pos ⟨hi, ht'⟩, if_neg (by simp only; omega), if_neg hc] at hslot
      exact hslot rfl
    rw [slot_indirect hi ht' (by omega) hind.2 hind.1, show n + 1 - NDIRECT - 1 = n - NDIRECT by omega, hD]
    rw [hD] at hind
    exact .inr ⟨hdir, by omega, hind.1, rfl⟩

omit hl ho in
lemma bmap_mapped (hslot : slot sb D s.disk ((s.ino e).inum, dataSlot n) ≠ 0) : wp (bmap sb e n) ok
      (fun a s' => s' = s ∧ a = slot sb D s.disk ((s.ino e).inum, dataSlot n)) s := by
  unfold bmap
  rcases slot_dataSlot_cases hD hi ht hslot with ⟨hdir, heq⟩ | ⟨hdir, hind, haddr, heq⟩
  · rw [heq] at hslot ⊢
    rw [if_pos hdir]
    simp only [mapAddr, inode, wp_bind, wp_read, wp_pure]
    rw [if_neg hslot, wp_pure]
    exact ⟨rfl, rfl⟩
  · rw [heq] at hslot ⊢
    rw [if_neg hdir, if_pos hind]
    simp only [mapAddr, inode, bread, wp_bind, wp_read, wp_pure]
    rw [if_neg haddr, wp_pure, if_neg haddr]
    simp only [wp_bind, wp_read, wp_pure]
    rw [if_neg hslot, wp_pure]
    exact ⟨rfl, rfl⟩

end

/-! ### `itrunc` -/

/-- The slots `R` without those of inode `i` whose number is in `X`. -/
def without (R : ℕ × ℕ → ℕ) (i : ℕ) (X : ℕ → Prop) [DecidablePred X] (t : ℕ × ℕ) : ℕ :=
  if t.1 = i ∧ X t.2 then 0 else R t

lemma Owned.without_step (hl : Layout sb) [DecidablePred X] [DecidablePred Y] (hXY : ∀ m, Y m ↔ X m ∨ m = n)
    (hn : ¬ X n) {s : State P} (h : Owned sb (without R i X) s.disk) :
    wp (if R (i, n) ≠ 0 then bfree sb (R (i, n)) else pure ()) ok
      (fun _ s' => ∃ d', SameData sb s.disk d' ∧ Owned sb (without R i Y) d' ∧ s' = { s with disk := d' }) s := by
  have hRn : without R i X (i, n) = R (i, n) := if_neg fun hc => hn hc.2
  have hY : without R i Y = update (without R i X) (i, n) 0 := by
    funext t
    by_cases ht : t = (i, n)
    · subst ht
      rw [update_self]
      exact if_pos ⟨rfl, (hXY n).mpr (.inr rfl)⟩
    · rw [update_of_ne ht]
      unfold without
      have : t.1 = i → t.2 ≠ n := fun h1 h2 => ht (Prod.ext h1 h2)
      by_cases h1 : t.1 = i
      · simp only [h1, true_and, hXY, this h1, or_false]
      · simp only [h1, false_and]
  by_cases h0 : R (i, n) ≠ 0
  · rw [if_pos h0]
    have h0' : without R i X (i, n) ≠ 0 := by rwa [hRn]
    have hbit := h.bit h0'
    rw [hRn] at hbit
    refine (bfree_spec s hbit).mono fun _ s' hs' => ?_
    have hgive := h.give h0'
    have hdata := h.data h0'
    rw [hRn] at hgive hdata
    refine ⟨_, SameData.unsetBit hl hdata.2, ?_, hs'⟩
    rw [hY]
    exact hgive
  · rw [if_neg h0, wp_pure]
    refine ⟨s.disk, SameData.refl _, ?_, rfl⟩
    have hz : without R i X (i, n) = 0 := by
      rw [hRn]
      simpa using h0
    rw [hY, ← hz, update_eq_self]
    exact h

lemma without_congr [DecidablePred X] [DecidablePred Y] (h : ∀ n, R (i, n) ≠ 0 → (X n ↔ Y n)) :
    without R i X = without R i Y := by
  funext t
  obtain ⟨j, n⟩ := t
  unfold without
  by_cases hj : j = i
  · subst hj
    by_cases h0 : R (j, n) = 0
    · simp [h0]
    · simp [h n h0]
  · simp [hj]

/-- The inode after the loop of `itrunc` has cleared the entries below `k`. -/
def Dinode.cleared (a : Dinode) (k : ℕ) : Dinode :=
  { a with addrs := fun n => if n < k then 0 else a.addrs n }

def Dinode.truncated (a : Dinode) : Dinode := { a with size := 0, addrs := fun _ => 0 }

lemma Dinode.cleared_zero (a : Dinode) : a.cleared 0 = a := rfl

lemma Dinode.cleared_succ (a : Dinode) (k : ℕ) :
    { a.cleared k with addrs := update (a.cleared k).addrs k 0 } = a.cleared (k + 1) := by
  have h : update (fun n => if n < k then 0 else a.addrs n) k 0 =
      fun n => if n < k + 1 then 0 else a.addrs n := by
    funext n
    by_cases hn : n = k
    · subst hn
      simp
    · have : n < k ↔ n < k + 1 := by omega
      simp [update_of_ne hn, this]
  simp only [cleared, h]

lemma Dinode.cleared_succ_of_zero {a : Dinode} {k : ℕ} (h0 : a.addrs k = 0) : a.cleared k = a.cleared (k + 1) := by
  rw [← cleared_succ]
  have h : (a.cleared k).addrs k = 0 := by simp [cleared, h0]
  rw [← h, update_eq_self]

section

variable (hl : Layout sb) {s : State P} {e : Fin NINODE} {D : ℕ → Dinode}
  (ho : Owned sb (slot sb D s.disk) s.disk) (hD : D (s.ino e).inum = (s.ino e).d)
  (hi : sb.Inum (s.ino e).inum) (ht : (s.ino e).d.type ≠ 0)

include hl ho hD hi ht

lemma itruncDirect_spec : wp (itruncDirect sb e) ok
      (fun _ s' => ∃ d', SameData sb s.disk d' ∧
        Owned sb (without (slot sb D s.disk) (s.ino e).inum (· < NDIRECT)) d' ∧
        s' = s.grown e ((s.ino e).d.cleared NDIRECT) d') s := by
  have ht' : (D (s.ino e).inum).type ≠ 0 := by rwa [hD]
  refine wp_eachM_range (I := fun k s' => ∃ d', SameData sb s.disk d' ∧
    Owned sb (without (slot sb D s.disk) (s.ino e).inum (· < k)) d' ∧
    s' = s.grown e ((s.ino e).d.cleared k) d') ?_ s ?_
  · rintro k _ hk ⟨d', hsame, hown, rfl⟩
    have haddr : slot sb D s.disk ((s.ino e).inum, k) = (s.ino e).d.addrs k := by
      rw [slot_direct hi ht' (Nat.le_of_lt hk), hD]
    have hstep : wp _ ok _ (s.grown e ((s.ino e).d.cleared k) d') :=
      Owned.without_step hl (Y := (· < k + 1)) (n := k) (fun m => by omega) (by omega) hown
    rw [haddr] at hstep
    simp only [inode, wp_bind, wp_read, wp_pure]
    have hnow : ((s.grown e ((s.ino e).d.cleared k) d').ino e).d.addrs k = (s.ino e).d.addrs k := by
      simp [State.grown, Dinode.cleared]
    rw [hnow]
    by_cases h0 : (s.ino e).d.addrs k ≠ 0
    · rw [if_pos h0] at hstep ⊢
      rw [wp_bind]
      refine hstep.mono ?_
      rintro _ _ ⟨d'', hsame', hown', rfl⟩
      refine ⟨d'', hsame.trans hsame', hown', ?_⟩
      simp [State.grown, State.setIno, ← Dinode.cleared_succ]
    · rw [if_neg h0] at hstep ⊢
      rw [wp_pure] at hstep ⊢
      obtain ⟨d'', hsame', hown', hs'⟩ := hstep
      have hd : d'' = d' := (congrArg State.disk hs').symm
      subst hd
      refine ⟨d'', hsame, hown', ?_⟩
      rw [Dinode.cleared_succ_of_zero (by simpa using h0)]
  · refine ⟨s.disk, SameData.refl _, ?_, ?_⟩
    · have : without (slot sb D s.disk) (s.ino e).inum (· < 0) = slot sb D s.disk := by
        funext t
        simp [without]
      rw [this]
      exact ho
    · rw [Dinode.cleared_zero, State.grown_self]

omit hl ho in
lemma slot_beyond (hn : slot sb D s.disk ((s.ino e).inum, n) ≠ 0) (hlt : NDIRECT < n) :
    (s.ino e).d.addrs NDIRECT ≠ 0 ∧ n ≤ MAXFILE := by
  by_contra hc
  unfold slot at hn
  rw [hD, if_pos ⟨hi, ht⟩, if_neg (by simpa using hlt), if_neg hc] at hn
  exact hn rfl

lemma itruncIndirect_spec {d1 : Disk} (hsame : SameData sb s.disk d1)
    (hown : Owned sb (without (slot sb D s.disk) (s.ino e).inum (· < NDIRECT)) d1) :
    wp (itruncIndirect sb e) ok
      (fun _ s' => ∃ d', SameData sb s.disk d' ∧
        Owned sb (without (slot sb D s.disk) (s.ino e).inum fun _ => True) d' ∧
        s' = s.grown e ((s.ino e).d.cleared (NDIRECT + 1)) d')
      (s.grown e ((s.ino e).d.cleared NDIRECT) d1) := by
  have hN := NDIRECT_eq
  have hM := MAXFILE_eq
  have hI := NINDIRECT_eq
  have ht' : (D (s.ino e).inum).type ≠ 0 := by rwa [hD]
  have h12 : slot sb D s.disk ((s.ino e).inum, NDIRECT) = (s.ino e).d.addrs NDIRECT := by
    rw [slot_direct hi ht' le_rfl, hD]
  have hnow : ((s.grown e ((s.ino e).d.cleared NDIRECT) d1).ino e).d.addrs NDIRECT =
      (s.ino e).d.addrs NDIRECT := by
    simp [State.grown, Dinode.cleared]
  simp only [itruncIndirect, inode, wp_bind, wp_read, wp_pure]
  rw [hnow]
  by_cases h0 : (s.ino e).d.addrs NDIRECT ≠ 0
  · have hblk : d1 ((s.ino e).d.addrs NDIRECT) = s.disk ((s.ino e).d.addrs NDIRECT) := by
      refine hsame.data _ ?_
      rw [← h12]
      exact (ho.data (by rwa [h12])).1
    rw [if_pos h0]
    simp only [bread, wp_bind, wp_read, wp_pure, State.grown_disk, hblk]
    -- the entries freed so far
    have hloop : wp (Prog.eachM (fun j => if (s.disk ((s.ino e).d.addrs NDIRECT)).le (4 * j) 4 ≠ 0 then
        bfree sb ((s.disk ((s.ino e).d.addrs NDIRECT)).le (4 * j) 4) else pure ()) (List.range NINDIRECT))
        ok _ (s.grown e ((s.ino e).d.cleared NDIRECT) d1) := wp_eachM_range
      (I := fun j s' => ∃ d', SameData sb s.disk d' ∧ Owned sb (without (slot sb D s.disk) (s.ino e).inum
          fun n => n < NDIRECT ∨ (NDIRECT < n ∧ n < NDIRECT + 1 + j)) d' ∧
        s' = s.grown e ((s.ino e).d.cleared NDIRECT) d') ?_ _ ?_
    · refine hloop.mono ?_
      rintro _ _ ⟨d', hsame', hown', rfl⟩
      have hstep : wp _ ok _ (s.grown e ((s.ino e).d.cleared NDIRECT) d') :=
        Owned.without_step hl (Y := (· ≤ MAXFILE)) (n := NDIRECT) (fun m => by omega) (by omega) hown'
      rw [h12, if_pos h0] at hstep
      rw [wp_bind]
      refine hstep.mono ?_
      rintro _ _ ⟨d'', hsame'', hown'', rfl⟩
      refine ⟨d'', hsame'.trans hsame'', ?_, ?_⟩
      · rw [without_congr (Y := (· ≤ MAXFILE))]
        · exact hown''
        · intro n hn
          by_cases hlt : NDIRECT < n
          · have := slot_beyond hD hi ht hn hlt
            simpa using this.2
          · simp only [true_iff]
            omega
      · simp [State.grown, State.setIno, ← Dinode.cleared_succ]
    · rintro j _ hj ⟨d', hsame', hown', rfl⟩
      have hentry : slot sb D s.disk ((s.ino e).inum, NDIRECT + 1 + j) =
          (s.disk ((s.ino e).d.addrs NDIRECT)).le (4 * j) 4 := by
        rw [slot_indirect hi ht' (by omega) (by omega) (by rwa [hD]), hD,
          show NDIRECT + 1 + j - NDIRECT - 1 = j by omega]
      have hstep : wp _ ok _ (s.grown e ((s.ino e).d.cleared NDIRECT) d') :=
        Owned.without_step hl (n := NDIRECT + 1 + j)
        (Y := fun n => n < NDIRECT ∨ (NDIRECT < n ∧ n < NDIRECT + 1 + (j + 1))) (fun m => by omega) (by omega) hown'
      rw [hentry] at hstep
      refine hstep.mono ?_
      rintro _ _ ⟨d'', hsame'', hown'', rfl⟩
      exact ⟨d'', hsame'.trans hsame'', hown'', rfl⟩
    · refine ⟨d1, hsame, ?_, rfl⟩
      rw [without_congr (Y := (· < NDIRECT))]
      · exact hown
      · intro n _
        omega
  · rw [if_neg h0, wp_pure]
    have hz : (s.ino e).d.addrs NDIRECT = 0 := by simpa using h0
    refine ⟨d1, hsame, ?_, by rw [Dinode.cleared_succ_of_zero hz]⟩
    rw [without_congr (Y := (· < NDIRECT))]
    · exact hown
    · intro n hn
      simp only [true_iff]
      by_contra hge
      rcases Nat.lt_or_eq_of_le (Nat.le_of_not_lt hge) with hlt | rfl
      · exact (slot_beyond hD hi ht hn hlt).1 hz
      · rw [h12] at hn
        exact hn hz

/-- **`itrunc` frees all blocks of the inode**, and writes it to disk without them. -/
lemma itrunc_spec (hsmall : (s.ino e).d.Small) : wp (itrunc sb e) ok (fun _ s' => ∃ d', SameData sb s.disk d' ∧
      Owned sb (without (slot sb D s.disk) (s.ino e).inum fun _ => True) d' ∧
      s' = s.grown e (s.ino e).d.truncated
        (putDinode sb d' (s.ino e).inum (s.ino e).d.truncated)) s := by
  have htrunc : { (s.ino e).d.cleared (NDIRECT + 1) with size := 0 } = (s.ino e).d.truncated := by
    have : (fun n => if n < NDIRECT + 1 then 0 else (s.ino e).d.addrs n) = fun _ => 0 := by
      funext n
      split
      · rfl
      · exact hsmall.unused n (by omega)
    simp only [Dinode.cleared, Dinode.truncated, this]
  simp only [itrunc, wp_bind]
  refine (itruncDirect_spec hl ho hD hi ht).mono ?_
  rintro _ _ ⟨d1, hsame, hown, rfl⟩
  rw [wp_bind]
  refine (itruncIndirect_spec hl ho hD hi ht hsame hown).mono ?_
  rintro _ _ ⟨d2, hsame', hown', rfl⟩
  simp only [setDinode, setInode, iupdate, inode, wp_bind, wp_read, wp_modify, wp_pure]
  refine ⟨d2, hsame', hown', ?_⟩
  simp [State.grown, State.setIno, htrunc]

end

end Xv6.Fs
