import Xv6.Fs.Inode

/-!
# Reading and writing contents

`readi` of a directory entry changes nothing, because directories have no holes.  `writei` of one
entry to a directory changes that entry or nothing.
-/

namespace Xv6.Fs

open Lib Log Function List

variable {P : Type} [Fintype P] {sb : Superblock} {z : Sel} {s : State P}
  {L : List (Fin NINODE × ℕ)} {K : List (Fin NINODE)} {ok : Stop → Prop} {g : Gates}

/-! ### Reading an entry -/

variable {k j n : ℕ} {x : ℕ × Name} {src : ℕ → Option ℕ}

section

variable {e : Fin NINODE} (h : Inv sb z s L K) (he : e ∈ K)

include h he

lemma bmap_entry (hdir : (s.ino e).d.type = T_DIR) (hk : 16 * k < (s.ino e).d.size)
    (hpanic : ¬ z.solid → ok (.panic .bmapOutOfRange)) :
    wp (bmap sb e (k / 64)) ok (fun a s' => s' = s ∧
      a = entBlock sb (dinode sb s.disk) s.disk (s.ino e).inum k ∧ a ≠ 0) s := by
  obtain ⟨hpos, hv⟩ := h.locked e he
  obtain ⟨hsync, ht⟩ := h.sync e hpos hv
  have hi := h.range e hpos
  have hN := NDIRECT_eq
  have hM := MAXFILE_eq
  have hI := NINDIRECT_eq
  by_cases hbig : k / 64 < MAXFILE
  · have hslot := h.disk.dirs.full _ hi (by rwa [← hsync]) (k / 64) hbig
      (by rw [← hsync]; show 1024 * (k / 64) < _; omega)
    refine (bmap_mapped hsync.symm hi ht hslot).mono ?_
    rintro a s' ⟨rfl, rfl⟩
    exact ⟨rfl, rfl, hslot⟩
  · rw [bmap, if_neg (by omega), if_neg (by omega)]
    refine hpanic fun hs => ?_
    have hmax := (h.disk.solid hs).size _ hi (by rwa [← hsync])
    rw [← hsync] at hmax
    have hM' : MAXFILE * BSIZE = 274432 := rfl
    omega

lemma readDirent_spec (hdir : (s.ino e).d.type = T_DIR) (hk : 16 * k < (s.ino e).d.size)
    (hp : ¬ z.aligned → ok (.panic p)) (hpanic : ¬ z.solid → ok (.panic .bmapOutOfRange)) :
    wp (readDirent sb e p k) ok (fun de s' => s' = s ∧ 16 * k + 16 ≤ (s.ino e).d.size ∧
      (tree sb s).ent (s.ino e).inum k = (deInum de, deName de)) s := by
  obtain ⟨hpos, hv⟩ := h.locked e he
  obtain ⟨hsync, ht⟩ := h.sync e hpos hv
  have hi := h.range e hpos
  -- in a directory of whole entries, the entry is there
  have hwhole : z.aligned → 16 * k + 16 ≤ (s.ino e).d.size ∧ (s.ino e).d.size < 2 ^ 32 := by
    intro ha
    have hdvd := h.disk.aligned ha _ hi (by rwa [← hsync])
    rw [← hsync] at hdvd
    exact ⟨by omega, (h.small_of_locked he).size⟩
  simp only [readDirent, readi, inode, wp_bind, wp_read, wp_pure]
  refine wp_ite.mpr ⟨fun hbad => ?_, fun hguard => ?_⟩
  · refine hp fun ha => ?_
    obtain ⟨h1, h2⟩ := hwhole ha
    omega
  · -- one pass of the loop reads all there is of the entry
    obtain ⟨n, hn⟩ : ∃ n, (if 16 * k + 16 > (s.ino e).d.size then (s.ino e).d.size - 16 * k else 16) = n :=
      ⟨_, rfl⟩
    have hn0 : 0 < n ∧ n ≤ 16 := by
      split at hn
      · omega
      · omega
    rw [hn, readLoop, if_neg (by omega)]
    simp only [wp_bind]
    rw [show 16 * k / BSIZE = k / 64 from by show 16 * k / 1024 = k / 64; omega]
    refine (bmap_entry h he hdir hk hpanic).mono ?_
    rintro a s' ⟨rfl, ha, ha0⟩
    rw [if_neg ha0]
    have hmod : 16 * k % BSIZE = 16 * (k % 64) := by
      show 16 * k % 1024 = 16 * (k % 64)
      omega
    have hm : min n (BSIZE - 16 * k % BSIZE) = n := by
      rw [hmod]
      refine min_eq_left ?_
      show n ≤ 1024 - 16 * (k % 64)
      omega
    simp only [bread, wp_bind, wp_read, wp_pure, hm, Nat.sub_self]
    rw [readLoop, if_pos rfl, wp_pure, append_nil, wp_pure]
    rw [length_map, length_range]
    by_cases h16 : n = 16
    · rw [if_pos h16, wp_pure]
      subst h16
      have hsize : 16 * k + 16 ≤ (s'.ino e).d.size := by
        split at hn
        · omega
        · omega
      refine ⟨rfl, hsize, ?_⟩
      show ent sb (dinode sb s'.disk) s'.disk (s'.ino e).inum k = _
      rw [ent, if_pos ⟨by rw [← hsync]; exact hdir, by rw [← hsync]; exact hk, ha ▸ ha0⟩, ha, hmod]
      rfl
    · rw [if_neg h16]
      refine hp fun ha => h16 ?_
      rw [← hn, if_neg (Nat.not_lt.mpr (hwhole ha).1)]

end

/-! ### An inode being written -/

/-- The inodes are `D` and the disk `d` while `writei` changes the inode of entry `e`, whose copy on
disk is still the old one. -/
structure Growing (sb : Superblock) (g : Gates) (s : State P) (e : Fin NINODE) (D : ℕ → Dinode) (d : Disk) : Prop where
  owned : Owned sb (slot sb D d) d
  dirs : Dirs sb D d
  solid : g.solid → Solid sb D d
  aligned : g.aligned → Aligned sb D
  inodes : ∃ addrs size, D = update (dinode sb s.disk) (s.ino e).inum
    { (s.ino e).d with size := size, addrs := addrs } ∧
    { (s.ino e).d with size := size, addrs := addrs }.Small
  dinode : ∀ j, sb.Inum j → dinode sb d j = Fs.dinode sb s.disk j

namespace Growing

variable {e : Fin NINODE} {D : ℕ → Dinode} {d : Disk}

lemma start (h : Inv sb z s L K) (he : e ∈ K) : Growing sb z.toGates s e (Fs.dinode sb s.disk) s.disk where
  owned := h.disk.owned
  dirs := h.disk.dirs
  solid := h.disk.solid
  aligned := h.disk.aligned
  inodes := by
    obtain ⟨hpos, hv⟩ := h.locked e he
    refine ⟨(s.ino e).d.addrs, (s.ino e).d.size, ?_, h.small_of_locked he⟩
    have hsync : { (s.ino e).d with size := (s.ino e).d.size, addrs := (s.ino e).d.addrs } =
        Fs.dinode sb s.disk (s.ino e).inum := (h.sync e hpos hv).1
    rw [hsync, update_eq_self]
  dinode _ _ := rfl

omit [Fintype P] in
lemma fields (h : Growing sb g s e D d) : (D (s.ino e).inum).type = (s.ino e).d.type ∧
    (D (s.ino e).inum).nlink = (s.ino e).d.nlink ∧ (D (s.ino e).inum).Small := by
  obtain ⟨a, n, rfl, ha⟩ := h.inodes
  rw [update_self]
  exact ⟨rfl, rfl, ha⟩

omit [Fintype P] in
lemma other (h : Growing sb g s e D d) (hj : j ≠ (s.ino e).inum) : D j = Fs.dinode sb s.disk j := by
  obtain ⟨a, n, rfl, -⟩ := h.inodes
  rw [update_of_ne hj]

omit [Fintype P] in
lemma grow (h : Growing sb g s e D d) (hg : Grow sb (s.ino e).inum D d D' d') : Growing sb g s e D' d' where
  owned := hg.owned h.owned
  dirs := h.dirs.of_grow hg
  solid hs := (h.solid hs).of_grow hg
  aligned ha := (h.aligned ha).congr fun j _ => ⟨hg.type_eq j, hg.size_eq j⟩
  inodes := by
    obtain ⟨a, n, rfl, ha⟩ := h.inodes
    obtain ⟨a', rfl, ha'⟩ := hg.inodes
    rw [update_self] at ha'
    refine ⟨a', n, ?_, ha' ha⟩
    rw [update_self, update_idem]
  dinode j hj := (hg.dinode j hj).trans (h.dinode j hj)

lemma finish (hl : Layout sb) (hg : Growing sb z.toGates s e D d) (h : Inv sb z s L K) (he : e ∈ K) :
    After sb z s L K (s.grown e (D (s.ino e).inum) (putDinode sb d (s.ino e).inum (D (s.ino e).inum))) ∧
      tree sb (s.grown e (D (s.ino e).inum) (putDinode sb d (s.ino e).inum (D (s.ino e).inum))) =
        (tree sb s).withEnt (ent sb D d) := by
  obtain ⟨hpos, hv⟩ := h.locked e he
  obtain ⟨hsync, ht⟩ := h.sync e hpos hv
  obtain ⟨htype, hnlink, hsmall⟩ := hg.fields
  have hi := h.range e hpos
  have ht' : (D (s.ino e).inum).type ≠ 0 := by rwa [htype]
  have hset := SetInode.of_putDinode hl hi hsmall (d := d) (fun _ _ => rfl) fun _ _ _ => rfl
  have hdin : ∀ j, sb.Inum j → Fs.dinode sb (putDinode sb d (s.ino e).inum (D (s.ino e).inum)) j =
      if j = (s.ino e).inum then D (s.ino e).inum else Fs.dinode sb s.disk j := by
    intro j hj
    rw [hset.dinode j hj, hg.dinode j hj]
  obtain ⟨hdisk, hent⟩ := DiskOk.of_family hl hg.owned hg.dirs hg.solid hg.aligned (fun j hj => by
    rw [hdin j hj]
    split
    · rename_i hji
      rw [hji]
    · rename_i hji
      rw [hg.other hji]) hset.data fun b _ => bit_putDinode hl hi
  refine ⟨h.setDisk hpos hv hdisk hdin ht' (fun hT => by rwa [htype] at hT), ?_⟩
  refine (tree_grown hi ht' hdin hent).trans ?_
  refine Tree.ext ?_ ?_ rfl rfl
  · show update (tree sb s).type (s.ino e).inum _ = (tree sb s).type
    rw [htype, ← (h.type_of_locked he).1, update_eq_self]
  · show update (tree sb s).nlink (s.ino e).inum _ = (tree sb s).nlink
    rw [hnlink, ← h.nlink_of_locked he, update_eq_self]

end Growing

/-! ### A store to a block of contents -/

section

variable {D : ℕ → Dinode} {d : Disk} {i n : ℕ} (ho : Marked sb (slot sb D d) d)
  (h0 : slot sb D d (i, dataSlot n) ≠ 0) (v : Block)

include ho h0

lemma slot_store : slot sb D (update d (slot sb D d (i, dataSlot n)) v) = slot sb D d := by
  refine slot_congr (fun _ _ => ⟨rfl, rfl⟩) fun j hj ht ha => update_of_ne ?_ _ _
  intro hc
  have hj' : slot sb D d (j, NDIRECT) = (D j).addrs NDIRECT := slot_direct hj ht le_rfl
  have := ho.inj h0 (hj'.trans hc)
  exact dataSlot_ne n (Prod.ext_iff.mp this).2

lemma store_other (hne : j ≠ i ∨ k / 64 ≠ n) :
    update d (slot sb D d (i, dataSlot n)) v (entBlock sb D d j k) = d (entBlock sb D d j k) := by
  refine update_of_ne ?_ _ _
  intro hc
  have := Prod.ext_iff.mp (ho.inj h0 hc)
  rcases hne with hne | hne
  · exact hne this.1.symm
  · exact hne (dataSlot_inj this.2).symm

end

namespace Growing

variable {e : Fin NINODE} {D : ℕ → Dinode} {d : Disk}

omit [Fintype P] in
lemma store (hl : Layout sb) (hg : Growing sb g s e D d) (hnd : (s.ino e).d.type ≠ T_DIR)
    (h0 : slot sb D d ((s.ino e).inum, dataSlot n) ≠ 0) (v : Block) :
    Growing sb g s e D (update d (slot sb D d ((s.ino e).inum, dataSlot n)) v) ∧
      ∀ j k, ent sb D (update d (slot sb D d ((s.ino e).inum, dataSlot n)) v) j k =
        ent sb D d j k := by
  have hslot := slot_store hg.owned.marked h0 v
  have hdata := (hg.owned.data h0).1
  have hent : ∀ j k, ent sb D (update d (slot sb D d ((s.ino e).inum, dataSlot n)) v) j k =
      ent sb D d j k := by
    intro j k
    by_cases hj : j = (s.ino e).inum
    · subst hj
      rw [ent_of_not_dir (by rwa [hg.fields.1]), ent_of_not_dir (by rwa [hg.fields.1])]
    · refine ent_congr rfl rfl (fun k _ _ => ?_) (fun k _ => ?_) k
      · unfold entBlock
        rw [hslot]
      · rw [store_other hg.owned.marked h0 v (.inl hj)]
  refine ⟨⟨?_, ⟨?_, ?_⟩, fun hs => (hg.solid hs).congr (fun _ _ => ⟨rfl, rfl⟩) fun _ => by rw [hslot],
    hg.aligned, hg.inodes, ?_⟩, hent⟩
  · rw [hslot]
    exact hg.owned.congr (fun b hb => bit_data hb hdata) hl.data
  · rw [hslot]
    exact hg.dirs.full
  · intro j k
    rw [hent]
    exact hg.dirs.ents j k
  · intro j hj
    rw [dinode_data hl hj hdata]
    exact hg.dinode j hj

omit [Fintype P] in
lemma small_setSize {a : Dinode} (h : a.Small) (hn : n < 2 ^ 32) : { a with size := n }.Small :=
  ⟨h.type, h.major, h.minor, h.nlink, hn, h.addrs, h.unused⟩

omit [Fintype P] in
lemma inodes_setSize (hg : Growing sb g s e D d) (hn : n < 2 ^ 32) :
    ∃ addrs size, update D (s.ino e).inum { D (s.ino e).inum with size := n } =
      update (Fs.dinode sb s.disk) (s.ino e).inum
        { (s.ino e).d with size := size, addrs := addrs } ∧
      { (s.ino e).d with size := size, addrs := addrs }.Small := by
  obtain ⟨a, m, rfl, ha⟩ := hg.inodes
  refine ⟨a, n, ?_, small_setSize ha hn⟩
  rw [update_self, update_idem]

omit [Fintype P] in
lemma slot_setSize (i n : ℕ) : slot sb (update D i { D i with size := n }) d = slot sb D d := by
  refine slot_congr (fun j _ => ?_) fun _ _ _ _ => rfl
  by_cases hj : j = i
  · subst hj
    rw [update_self]
    exact ⟨rfl, rfl⟩
  · rw [update_of_ne hj]
    exact ⟨rfl, rfl⟩

omit [Fintype P] in
lemma fields_setSize (i n j : ℕ) : (update D i { D i with size := n } j).type = (D j).type ∧
    (update D i { D i with size := n } j).size = if j = i then n else (D j).size := by
  by_cases hj : j = i
  · subst hj
    simp
  · simp [hj]

omit [Fintype P] in
lemma setSize (hg : Growing sb g s e D d) (hnd : (s.ino e).d.type ≠ T_DIR) (hn : n < 2 ^ 32)
    (hmax : g.solid → n ≤ MAXFILE * BSIZE)
    (hfull : g.solid → ∀ m, BSIZE * m < n → slot sb D d ((s.ino e).inum, dataSlot m) ≠ 0) :
    Growing sb g s e (update D (s.ino e).inum { D (s.ino e).inum with size := n }) d ∧
      ∀ j k, ent sb (update D (s.ino e).inum { D (s.ino e).inum with size := n }) d j k =
        ent sb D d j k := by
  have hslot : slot sb (update D (s.ino e).inum { D (s.ino e).inum with size := n }) d =
      slot sb D d := slot_setSize _ n
  have htype : (update D (s.ino e).inum { D (s.ino e).inum with size := n }
      (s.ino e).inum).type ≠ T_DIR := by
    rw [update_self]
    exact hg.fields.1 ▸ hnd
  have hent : ∀ j k, ent sb (update D (s.ino e).inum { D (s.ino e).inum with size := n }) d j k =
      ent sb D d j k := by
    intro j k
    by_cases hj : j = (s.ino e).inum
    · subst hj
      rw [ent_of_not_dir htype, ent_of_not_dir (by rwa [hg.fields.1])]
    · have hD := update_of_ne hj { D (s.ino e).inum with size := n } D
      refine ent_congr (by rw [hD]) (by rw [hD]) (fun k _ _ => ?_) (fun _ _ => rfl) k
      unfold entBlock
      rw [hslot]
  refine ⟨⟨?_, ⟨?_, ?_⟩, fun hs => (hg.solid hs).setSize (hmax hs) (hfull hs) (fields_setSize _ n) fun _ => by rw [hslot],
    fun ha j hj hT => ?_, hg.inodes_setSize hn, hg.dinode⟩, hent⟩
  · rw [hslot]
    exact hg.owned
  · intro j hj hT m hm hlt
    rw [hslot]
    have hji : j ≠ (s.ino e).inum := by
      rintro rfl
      exact htype hT
    rw [update_of_ne hji] at hT hlt
    exact hg.dirs.full j hj hT m hm hlt
  · intro j k
    rw [hent]
    exact hg.dirs.ents j k
  · have hji : j ≠ (s.ino e).inum := by
      rintro rfl
      exact htype hT
    rw [update_of_ne hji] at hT ⊢
    exact hg.aligned ha j hj hT

end Growing

/-! ### A store of one entry -/

section

variable {e : Fin NINODE} {D : ℕ → Dinode} {d : Disk} {k : ℕ}

/-- The inode of a directory after an entry is written at `k`. -/
def extended (a : Dinode) (k : ℕ) : Dinode :=
  { a with size := if 16 * k + 16 > a.size then 16 * k + 16 else a.size }

variable (hl : Layout sb) (hg : Growing sb g s e D d) (hdir : (s.ino e).d.type = T_DIR)
  (hk : 16 * k ≤ (D (s.ino e).inum).size) (hmax : 16 * k + 16 ≤ MAXFILE * BSIZE)
  (h0 : entBlock sb D d (s.ino e).inum k ≠ 0) (f : ℕ → ℕ)

/-- The disk after the bytes `f` are stored in entry `k`. -/
def storeEntry (sb : Superblock) (D : ℕ → Dinode) (d : Disk) (i k : ℕ) (f : ℕ → ℕ) : Disk :=
  update d (entBlock sb D d i k) ((d (entBlock sb D d i k)).put (16 * (k % 64)) 16 f)

omit [Fintype P]

include hg h0 in
lemma slot_storeEntry : slot sb (update D (s.ino e).inum (extended (D (s.ino e).inum) k))
      (storeEntry sb D d (s.ino e).inum k f) = slot sb D d :=
  (Growing.slot_setSize _ _).trans (slot_store hg.owned.marked h0 _)

include hg hdir hk h0 in
/-- **The store of an entry** changes that entry alone. -/
lemma ent_storeEntry (j k' : ℕ) : ent sb (update D (s.ino e).inum (extended (D (s.ino e).inum) k))
        (storeEntry sb D d (s.ino e).inum k f) j k' =
      if j = (s.ino e).inum ∧ k' = k then
        (deInum ((range 16).map fun m => f m % 256), deName ((range 16).map fun m => f m % 256))
      else ent sb D d j k' := by
  have hslot := slot_storeEntry hg h0 f
  have htype : (D (s.ino e).inum).type = T_DIR := hg.fields.1.trans hdir
  have hblock : ∀ j k', entBlock sb (update D (s.ino e).inum (extended (D (s.ino e).inum) k))
      (storeEntry sb D d (s.ino e).inum k f) j k' = entBlock sb D d j k' := by
    intro j k'
    unfold entBlock
    rw [hslot]
  by_cases hj : j = (s.ino e).inum
  · subst hj
    by_cases hkk : k' = k
    · subst hkk
      rw [if_pos ⟨rfl, rfl⟩]
      unfold ent
      have hlt : 16 * k' < (extended (D (s.ino e).inum) k').size := by
        simp only [extended]
        split
        · omega
        · omega
      rw [hblock, update_self, if_pos ⟨htype, hlt, h0⟩]
      unfold storeEntry
      rw [update_self, direntAt_put_self]
    · rw [if_neg fun hc => hkk hc.2]
      unfold ent
      rw [hblock, update_self]
      -- what is below the new size but not below the old one is entry `k`
      have hsize : 16 * k' < (extended (D (s.ino e).inum) k).size ↔ 16 * k' < (D (s.ino e).inum).size := by
        simp only [extended]
        split
        · omega
        · exact Iff.rfl
      have hbytes : direntAt (storeEntry sb D d (s.ino e).inum k f (entBlock sb D d (s.ino e).inum k')) k' =
          direntAt (d (entBlock sb D d (s.ino e).inum k')) k' := by
        by_cases hblk : k' / 64 = k / 64
        · have hsame : entBlock sb D d (s.ino e).inum k' = entBlock sb D d (s.ino e).inum k := by
            unfold entBlock
            rw [hblk]
          rw [hsame]
          unfold storeEntry
          rw [update_self, direntAt_put_of_ne _ _ (by omega)]
        · unfold storeEntry
          rw [show update d (entBlock sb D d (s.ino e).inum k) _ (entBlock sb D d (s.ino e).inum k') =
            d (entBlock sb D d (s.ino e).inum k') from store_other hg.owned.marked h0 _ (.inr hblk)]
      simp only [hsize, hbytes]
      rfl
  · rw [if_neg fun hc => hj hc.1]
    have hD := update_of_ne hj (extended (D (s.ino e).inum) k) D
    refine ent_congr (by rw [hD]) (by rw [hD]) (fun k _ _ => hblock j k) (fun k'' _ => ?_) k'
    unfold storeEntry
    rw [show update d (entBlock sb D d (s.ino e).inum k) _ (entBlock sb D d j k'') =
      d (entBlock sb D d j k'') from store_other hg.owned.marked h0 _ (.inl hj)]

include hl hg hdir hk hmax h0 in
lemma growing_storeEntry (hi : sb.Inum (s.ino e).inum) (hin : deInum ((range 16).map fun m => f m % 256) < sb.ninodes) :
    Growing sb g s e (update D (s.ino e).inum (extended (D (s.ino e).inum) k))
      (storeEntry sb D d (s.ino e).inum k f) := by
  have hslot := slot_storeEntry hg h0 f
  have hdata := hg.owned.ent_data h0
  have hsmall : (extended (D (s.ino e).inum) k).size < 2 ^ 32 := by
    have h1 := hg.fields.2.2.size
    have h2 : MAXFILE * BSIZE = 274432 := rfl
    simp only [extended]
    split
    · omega
    · exact h1
  refine ⟨?_, ⟨?_, ?_⟩, fun hs => ?_, fun ha j hj hT => ?_, hg.inodes_setSize hsmall, ?_⟩
  · rw [hslot]
    exact hg.owned.congr (fun b hb => bit_data hb hdata) hl.data
  · intro j hj hT n hn hlt
    rw [hslot]
    by_cases hji : j = (s.ino e).inum
    · subst hji
      rw [update_self] at hT hlt
      by_cases hold : BSIZE * n < (D (s.ino e).inum).size
      · exact hg.dirs.full _ hj hT n hn hold
      · -- the directory has been extended into the block of entry `k`
        have hlt' : 1024 * n < (extended (D (s.ino e).inum) k).size := hlt
        have hold' : ¬ 1024 * n < (D (s.ino e).inum).size := hold
        have hn' : n = k / 64 := by
          simp only [extended] at hlt'
          split at hlt'
          · omega
          · omega
        rw [hn']
        exact h0
    · rw [update_of_ne hji] at hT hlt
      exact hg.dirs.full j hj hT n hn hlt
  · intro j k'
    rw [ent_storeEntry hg hdir hk h0 f]
    split
    · exact hin
    · exact hg.dirs.ents j k'
  · have htype : (D (s.ino e).inum).type ≠ 0 := by
      rw [hg.fields.1, hdir]
      decide
    refine (hg.solid hs).setSize ?_ (fun m hm => ?_) (Growing.fields_setSize _ _) fun _ => by rw [hslot]
    · have hold := (hg.solid hs).size _ hi htype
      split
      · exact hmax
      · exact hold
    · by_cases hold : BSIZE * m < (D (s.ino e).inum).size
      · exact (hg.solid hs).full _ hi htype m hold
      · have hm' : m = k / 64 := by
          have h1 : ¬ 1024 * m < (D (s.ino e).inum).size := hold
          have h2 : 1024 * m < if 16 * k + 16 > (D (s.ino e).inum).size then 16 * k + 16 else (D (s.ino e).inum).size := hm
          split at h2
          · omega
          · omega
        rw [hm']
        exact h0
  · by_cases hji : j = (s.ino e).inum
    · subst hji
      rw [update_self] at hT ⊢
      have hold := hg.aligned ha _ hj hT
      simp only [extended]
      split
      · omega
      · exact hold
    · rw [update_of_ne hji] at hT ⊢
      exact hg.aligned ha j hj hT
  · intro j hj
    rw [storeEntry, dinode_data hl hj hdata]
    exact hg.dinode j hj

end

section

variable {e : Fin NINODE} {D : ℕ → Dinode} {d : Disk} {k : ℕ}

lemma storeEntry_finish (hl : Layout sb) (h : Inv sb z s L K) (he : e ∈ K) (hg : Growing sb z.toGates s e D d)
    (hent : ∀ j k, ent sb D d j k = (tree sb s).ent j k) (hdir : (s.ino e).d.type = T_DIR)
    (hk : 16 * k ≤ (D (s.ino e).inum).size) (hmax : 16 * k + 16 ≤ MAXFILE * BSIZE)
    (h0 : entBlock sb D d (s.ino e).inum k ≠ 0) (f : ℕ → ℕ) (hx : x = (deInum ((range 16).map fun m => f m % 256),
      deName ((range 16).map fun m => f m % 256))) (hin : x.1 < sb.ninodes) :
    After sb z s L K (s.grown e (extended (D (s.ino e).inum) k)
        (putDinode sb (storeEntry sb D d (s.ino e).inum k f) (s.ino e).inum
          (extended (D (s.ino e).inum) k))) ∧
      tree sb (s.grown e (extended (D (s.ino e).inum) k)
        (putDinode sb (storeEntry sb D d (s.ino e).inum k f) (s.ino e).inum
          (extended (D (s.ino e).inum) k))) = (tree sb s).setEnt (s.ino e).inum k x := by
  have hg' := growing_storeEntry hl hg hdir hk hmax h0 f (h.range e (h.locked e he).1) (by rw [hx] at hin; exact hin)
  obtain ⟨hafter, htree⟩ := hg'.finish hl h he
  rw [update_self] at hafter htree
  refine ⟨hafter, htree.trans (Tree.ext rfl rfl (funext fun j => funext fun k' => ?_) rfl)⟩
  refine (ent_storeEntry hg hdir hk h0 f j k').trans ?_
  rw [← hx, hent, Tree.setEnt_ent]
  by_cases hj : j = (s.ino e).inum
  · subst hj
    by_cases hkk : k' = k
    · subst hkk
      simp
    · simp [hkk]
  · simp [hj]

end

/-! ### `writei` -/

section

variable (hl : Layout sb) {e : Fin NINODE}

include hl

omit [Fintype P] in
lemma Growing.bmap (hg : Growing sb g s e D d) (hi : sb.Inum (s.ino e).inum) (ht : (s.ino e).d.type ≠ 0)
    (hn : n < MAXFILE) :
    wp (bmap sb e n) ok (fun a s' => ∃ D' d', Growing sb g s e D' d' ∧
      (∀ j k, ent sb D' d' j k = ent sb D d j k) ∧ (D' (s.ino e).inum).size = (D (s.ino e).inum).size ∧
      (∀ t, slot sb D d t ≠ 0 → slot sb D' d' t = slot sb D d t) ∧ s' = s.grown e (D' (s.ino e).inum) d' ∧ (a ≠ 0 → a = slot sb D' d' ((s.ino e).inum, dataSlot n)))
      (s.grown e (D (s.ino e).inum) d) := by
  have hself := s.grown_ino_self e (D (s.ino e).inum) d
  have hb : wp (Fs.bmap sb e n) ok _ (s.grown e (D (s.ino e).inum) d) :=
    bmap_spec (s := s.grown e (D (s.ino e).inum) d) (e := e) (D := D) hl hg.owned.marked
    (by rw [hself]) (by rwa [hself]) (by rw [hself]; simp only; rw [hg.fields.1]; exact ht) n
    (fun hc => absurd hn (Nat.not_lt.mpr hc))
  refine hb.mono ?_
  rintro a _ ⟨D', d', hgrow, rfl, ha, -⟩
  simp only [hself, State.grown_grown, State.grown_disk] at hgrow ha ⊢
  exact ⟨D', d', hg.grow hgrow, ent_grow hgrow hg.dirs, hgrow.size_eq _, hgrow.keep, rfl, ha⟩

omit [Fintype P] in
lemma writeLoop_spec (hi : sb.Inum (s.ino e).inum) (ht : (s.ino e).d.type ≠ 0) (hnd : (s.ino e).d.type ≠ T_DIR)
    (src : ℕ → Option ℕ) (n fuel tot off : ℕ) (hg : Growing sb g s e D d) (hmax : off + (n - tot) ≤ MAXFILE * BSIZE)
    (hfull : g.solid → ∀ m, BSIZE * m < off → slot sb D d ((s.ino e).inum, dataSlot m) ≠ 0) :
    wp (writeLoop sb e src n fuel tot off) ok (fun r s' => ∃ D' d', Growing sb g s e D' d' ∧
      (∀ j k, ent sb D' d' j k = ent sb D d j k) ∧ s' = s.grown e (D' (s.ino e).inum) d' ∧
      r.2 ≤ off + (n - tot) ∧ (D' (s.ino e).inum).size = (D (s.ino e).inum).size ∧
      (g.solid → ∀ m, BSIZE * m < r.2 → slot sb D' d' ((s.ino e).inum, dataSlot m) ≠ 0)) (s.grown e (D (s.ino e).inum) d) := by
  -- all blocks below `off` are there
  induction fuel generalizing tot off D d with
  | zero => exact ⟨D, d, hg, fun _ _ => rfl, rfl, Nat.le_add_right _ _, rfl, hfull⟩
  | succ fuel ih =>
    rw [writeLoop]
    refine wp_ite.mpr ⟨fun htot => ?_, fun _ => ⟨D, d, hg, fun _ _ => rfl, rfl, Nat.le_add_right _ _, rfl, hfull⟩⟩
    rw [wp_bind]
    have hn : off / BSIZE < MAXFILE := Nat.div_lt_of_lt_mul (by rw [Nat.mul_comm BSIZE]; omega)
    refine (hg.bmap hl hi ht hn).mono ?_
    rintro a _ ⟨D', d', hg', hent, hsize, hkeep, rfl, ha⟩
    have hfull' : g.solid → ∀ m, BSIZE * m < off → slot sb D' d' ((s.ino e).inum, dataSlot m) ≠ 0 := by
      intro hs m hm
      rw [hkeep _ (hfull hs m hm)]
      exact hfull hs m hm
    refine wp_ite.mpr ⟨fun _ => ⟨D', d', hg', hent, rfl, Nat.le_add_right _ _, hsize, hfull'⟩, fun ha0 => ?_⟩
    have h0 : slot sb D' d' ((s.ino e).inum, dataSlot (off / BSIZE)) ≠ 0 := ha ha0 ▸ ha0
    have hslot := slot_store hg'.owned.marked h0 ((d' a).put (off % BSIZE)
      (mapped src tot (min (n - tot) (BSIZE - off % BSIZE))) fun k => (src (tot + k)).getD 0)
    rw [← ha ha0] at hslot
    obtain ⟨hg'', hent'⟩ := hg'.store hl hnd h0 ((d' a).put (off % BSIZE)
      (mapped src tot (min (n - tot) (BSIZE - off % BSIZE))) fun k => (src (tot + k)).getD 0)
    rw [← ha ha0] at hg'' hent'
    simp only [bmodify, wp_bind, wp_modify]
    refine wp_ite.mpr ⟨fun _ => ?_, fun _ => ?_⟩
    · refine ⟨D', _, hg'', fun j k => (hent' j k).trans (hent j k), rfl, Nat.le_add_right _ _, hsize, fun hs m hm => ?_⟩
      rw [hslot]
      exact hfull' hs m hm
    · refine (ih _ _ hg'' ?_ fun hs m hm => ?_).mono ?_
      · have : min (n - tot) (BSIZE - off % BSIZE) ≤ n - tot := min_le_left _ _
        omega
      · rw [hslot]
        by_cases hold : BSIZE * m < off
        · exact hfull' hs m hold
        · have hm' : m = off / BSIZE := by
            have hle : min (n - tot) (BSIZE - off % BSIZE) ≤ BSIZE - off % BSIZE := min_le_right _ _
            have hB := BSIZE_eq
            rw [hB] at hm hold hle ⊢
            omega
          rw [hm']
          exact h0
      · rintro r _ ⟨D2, d2, hg2, hent2, rfl, hr, hsize2, hfull2⟩
        refine ⟨D2, d2, hg2, fun j k => (hent2 j k).trans ((hent' j k).trans (hent j k)), rfl, ?_, hsize2.trans hsize, hfull2⟩
        have : min (n - tot) (BSIZE - off % BSIZE) ≤ n - tot := min_le_left _ _
        omega

omit [Fintype P] hl in
lemma writeEnd_spec {D : ℕ → Dinode} {d : Disk} {a : Dinode} {off : ℕ} {w : ℤ} {Q : ℤ → State P → Prop}
    (ha : { D (s.ino e).inum with
      size := if off > (D (s.ino e).inum).size then off else (D (s.ino e).inum).size } = a)
    (hQ : Q w (s.grown e a (putDinode sb d (s.ino e).inum a))) :
    wp (do
      setDinode e fun d => { d with size := if off > d.size then off else d.size }
      iupdate sb e
      pure w) ok Q (s.grown e (D (s.ino e).inum) d) := by
  simp only [setDinode, setInode, iupdate, inode, wp_bind, wp_read, wp_modify, wp_pure]
  refine Eq.subst (motive := Q w) ?_ hQ
  simp [State.grown, State.setIno, ha]

/-- **`writei` to a file** changes no directory and no link count. -/
lemma writei_file (h : Inv sb z s L K) (he : e ∈ K) (hnd : (s.ino e).d.type ≠ T_DIR)
    (src : ℕ → Option ℕ) (off n : ℕ) :
    wp (writei sb e src off n) ok (fun _ s' => After sb z s L K s' ∧ tree sb s' = tree sb s) s := by
  obtain ⟨hpos, hv⟩ := h.locked e he
  obtain ⟨hsync, ht⟩ := h.sync e hpos hv
  have hi := h.range e hpos
  simp only [writei, inode, wp_bind, wp_read, wp_pure]
  refine wp_ite.mpr ⟨fun _ => ⟨After.refl h, rfl⟩, fun hoff => wp_ite.mpr ⟨fun _ => ⟨After.refl h, rfl⟩, fun hmax => ?_⟩⟩
  have hstart := Growing.start h he
  have hbelow : z.solid → ∀ m, BSIZE * m < off → slot sb (dinode sb s.disk) s.disk ((s.ino e).inum, dataSlot m) ≠ 0 := by
    intro hs m hm
    refine (h.disk.solid hs).full _ hi (by rwa [← hsync]) m ?_
    rw [← hsync]
    omega
  have hloop : wp _ ok _ _ := writeLoop_spec hl hi ht hnd src n n 0 off hstart (by omega) hbelow
  rw [← hsync, State.grown_self] at hloop
  rw [wp_bind]
  refine hloop.mono ?_
  rintro r _ ⟨D, d, hg, hent, rfl, hr, -, hfull⟩
  have hr' : (if r.2 > (D (s.ino e).inum).size then r.2 else (D (s.ino e).inum).size) < 2 ^ 32 := by
    have h1 := hg.fields.2.2.size
    have h2 : MAXFILE * BSIZE = 274432 := rfl
    split
    · omega
    · exact h1
  have htype : (D (s.ino e).inum).type ≠ 0 := by rwa [hg.fields.1]
  have hle : z.solid → (if r.2 > (D (s.ino e).inum).size then r.2 else (D (s.ino e).inum).size) ≤ MAXFILE * BSIZE := by
    intro hs
    have hold := (hg.solid hs).size _ hi htype
    split
    · omega
    · exact hold
  have hbelow' : z.solid → ∀ m, BSIZE * m < (if r.2 > (D (s.ino e).inum).size then r.2 else (D (s.ino e).inum).size) →
      slot sb D d ((s.ino e).inum, dataSlot m) ≠ 0 := by
    intro hs m hm
    by_cases hbig : r.2 > (D (s.ino e).inum).size
    · rw [if_pos hbig] at hm
      exact hfull hs m hm
    · rw [if_neg hbig] at hm
      exact (hg.solid hs).full _ hi htype m hm
  obtain ⟨hg', hent'⟩ := hg.setSize hnd hr' hle hbelow'
  obtain ⟨hafter, htree⟩ := hg'.finish hl h he
  rw [update_self] at hafter htree
  have hsame : ent sb (update D (s.ino e).inum { D (s.ino e).inum with
      size := if r.2 > (D (s.ino e).inum).size then r.2 else (D (s.ino e).inum).size }) d =
      (tree sb s).ent := funext fun j => funext fun k => (hent' j k).trans (hent j k)
  rw [hsame] at htree
  exact writeEnd_spec rfl ⟨hafter, htree⟩

omit [Fintype P] hl in
lemma mapped_of_isSome (h : ∀ j, (src j).isSome = true) (a m : ℕ) : mapped src a m = m := by
  induction m generalizing a with
  | zero => rfl
  | succ m ih => rw [mapped, if_pos (h a), ih]

section

variable (h : Inv sb z s L K) (he : e ∈ K) (hdir : (s.ino e).d.type = T_DIR)

include h he hdir

/-- **`writei` of one entry to a directory** stores the entry, or changes nothing that the tree sees
when there is no room. -/
lemma writei_dirent_exact {src : ℕ → Option ℕ} (hsrc : ∀ j, (src j).isSome = true) (k : ℕ) {x : ℕ × Name}
    (hx : x = (deInum ((range 16).map fun m => (src m).getD 0 % 256),
      deName ((range 16).map fun m => (src m).getD 0 % 256))) (hin : x.1 < sb.ninodes) :
    wp (writei sb e src (16 * k) 16) ok (fun w s' => After sb z s L K s' ∧ ((w ≠ 16 ∧ tree sb s' = tree sb s) ∨
        (w = 16 ∧ tree sb s' = (tree sb s).setEnt (s.ino e).inum k x)) ∧
      (w = 16 → 16 * k ≤ (s.ino e).d.size) ∧
      (s'.ino e).d.size = if w = 16 then (extended (s.ino e).d k).size else (s.ino e).d.size) s := by
  obtain ⟨hpos, hv⟩ := h.locked e he
  obtain ⟨hsync, ht⟩ := h.sync e hpos hv
  have hi := h.range e hpos
  have hfail : After sb z s L K s ∧ (((-1 : ℤ) ≠ 16 ∧ tree sb s = tree sb s) ∨
      ((-1 : ℤ) = 16 ∧ tree sb s = (tree sb s).setEnt (s.ino e).inum k x)) ∧
      ((-1 : ℤ) = 16 → 16 * k ≤ (s.ino e).d.size) ∧
      (s.ino e).d.size = if (-1 : ℤ) = 16 then (extended (s.ino e).d k).size else (s.ino e).d.size :=
    ⟨After.refl h, .inl ⟨by decide, rfl⟩, fun hc => absurd hc (by decide), (if_neg (by decide)).symm⟩
  simp only [writei, inode, wp_bind, wp_read, wp_pure]
  refine wp_ite.mpr ⟨fun _ => hfail, fun hguard => wp_ite.mpr ⟨fun _ => hfail, fun hmax => ?_⟩⟩
  rw [writeLoop, if_pos (by decide)]
  simp only [wp_bind]
  have hstart := Growing.start h he
  have hb : wp _ ok _ _ := hstart.bmap hl hi ht (Nat.div_lt_of_lt_mul (by rw [Nat.mul_comm BSIZE]; omega) : 16 * k / BSIZE < MAXFILE)
  rw [← hsync, State.grown_self] at hb
  refine hb.mono ?_
  rintro a _ ⟨D, d, hg, hent, hsize, -, rfl, ha⟩
  have hk : 16 * k ≤ (D (s.ino e).inum).size := by
    rw [hsize]
    omega
  refine wp_ite.mpr ⟨fun _ => ?_, fun ha0 => ?_⟩
  · -- the disk is full
    obtain ⟨hafter, htree⟩ := hg.finish hl h he
    have hsame : ent sb D d = (tree sb s).ent := funext fun j => funext fun k => hent j k
    rw [hsame] at htree
    rw [wp_pure]
    refine writeEnd_spec ?_ ⟨hafter, .inl ⟨show ((0 : ℕ) : ℤ) ≠ 16 by decide, htree⟩, fun _ => by omega, ?_⟩
    · rw [if_neg (by simp only; omega)]
    · rw [State.grown_ino_self, if_neg (show ((0 : ℕ) : ℤ) ≠ 16 by decide)]
      exact hsize
  · have hdiv : 16 * k / BSIZE = k / 64 := by
      show 16 * k / 1024 = k / 64
      omega
    have hmod : 16 * k % BSIZE = 16 * (k % 64) := by
      show 16 * k % 1024 = 16 * (k % 64)
      omega
    have hm : min (16 - 0) (BSIZE - 16 * k % BSIZE) = 16 := by
      rw [hmod]
      show min 16 (1024 - 16 * (k % 64)) = 16
      omega
    rw [hdiv] at ha
    have h0 : entBlock sb D d (s.ino e).inum k ≠ 0 := by
      rw [entBlock, ← ha ha0]
      exact ha0
    obtain ⟨hafter, htree⟩ := storeEntry_finish hl h he hg hent hdir hk (by omega) h0
      (fun m => (src m).getD 0) hx hin
    have hstored : update d a ((d a).put (16 * k % BSIZE) 16 fun m => (src (0 + m)).getD 0) =
        storeEntry sb D d (s.ino e).inum k fun m => (src m).getD 0 := by
      rw [storeEntry, entBlock, ← ha ha0, hmod]
      simp only [Nat.zero_add]
    simp only [bmodify, wp_bind, wp_modify, hm, mapped_of_isSome hsrc]
    rw [if_neg (by decide), writeLoop, if_neg (by decide), wp_pure]
    have hstate : ({ s.grown e (D (s.ino e).inum) d with
        disk := update d a ((d a).put (16 * k % BSIZE) 16 fun m => (src (0 + m)).getD 0) } : State P) =
        s.grown e (D (s.ino e).inum) (storeEntry sb D d (s.ino e).inum k fun m => (src m).getD 0) := by
      rw [hstored]
      rfl
    rw [State.grown_disk, hstate]
    refine writeEnd_spec rfl ⟨hafter, .inr ⟨rfl, htree⟩, fun _ => by omega, ?_⟩
    rw [State.grown_ino_self, if_pos (show ((0 + 16 : ℕ) : ℤ) = 16 by decide)]
    unfold extended
    simp only [hsize]

lemma writei_dirent (hsrc : ∀ j, (src j).isSome = true) (k : ℕ)
    (hx : x = (deInum ((range 16).map fun m => (src m).getD 0 % 256),
      deName ((range 16).map fun m => (src m).getD 0 % 256))) (hin : x.1 < sb.ninodes) :
    wp (writei sb e src (16 * k) 16) ok (fun w s' => After sb z s L K s' ∧ ((w ≠ 16 ∧ tree sb s' = tree sb s) ∨
        (w = 16 ∧ tree sb s' = (tree sb s).setEnt (s.ino e).inum k x))) s :=
  (writei_dirent_exact hl h he hdir hsrc k hx hin).mono fun _ _ h => ⟨h.1, h.2.1⟩

omit hl in
lemma writei_present (hs : z.solid) (hsrc : ∀ j, (src j).isSome = true) (hk : 16 * k + 16 ≤ (s.ino e).d.size) :
    wp (writei sb e src (16 * k) 16) ok (fun w _ => w = 16) s := by
  obtain ⟨hpos, hv⟩ := h.locked e he
  obtain ⟨hsync, ht⟩ := h.sync e hpos hv
  have hsize := (h.disk.solid hs).size _ (h.range e hpos) (by rwa [← hsync])
  rw [← hsync] at hsize
  have hM : MAXFILE * BSIZE = 274432 := rfl
  simp only [writei, inode, wp_bind, wp_read, wp_pure]
  rw [if_neg (by omega), if_neg (by omega), wp_bind, writeLoop, if_pos (by decide), wp_bind]
  rw [show 16 * k / BSIZE = k / 64 from by show 16 * k / 1024 = k / 64; omega]
  refine (bmap_entry h he hdir (by omega) fun hns => absurd hs hns).mono ?_
  rintro a s' ⟨-, -, ha0⟩
  have hm : min (16 - 0) (BSIZE - 16 * k % BSIZE) = 16 := by
    show min 16 (1024 - 16 * k % 1024) = 16
    omega
  rw [if_neg ha0]
  simp only [bmodify, wp_bind, wp_modify, hm, mapped_of_isSome hsrc]
  rw [if_neg (by decide), writeLoop, if_neg (by decide), wp_pure]
  simp only [setDinode, setInode, iupdate, inode, wp_bind, wp_read, wp_modify, wp_pure]
  rfl

end

end

end Xv6.Fs
