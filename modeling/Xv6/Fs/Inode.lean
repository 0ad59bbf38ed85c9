import Xv6.Fs.Inv

/-!
# Inodes

Changes of an inode on disk together with its copy in memory: the link count, `ialloc`, `itrunc`,
and `iput` of the last reference to an inode without links, which frees it.
-/

namespace Xv6.Fs

open Lib Log Function List

variable {P : Type} [Fintype P] {sb : Superblock} {z : Sel} {s : State P}
  {L : List (Fin NINODE × ℕ)} {K : List (Fin NINODE)} {ok : Stop → Prop}

/-! ### Changes of the disk at one inode -/

/-- The disk `d'` differs from `d` in inode `i`, which is now `a`; the free map may differ too. -/
structure SetInode (sb : Superblock) (d : Disk) (i : ℕ) (a : Dinode) (d' : Disk) : Prop where
  data : ∀ b, sb.nmeta ≤ b → d' b = d b
  dinode : ∀ j, sb.Inum j → dinode sb d' j = if j = i then a else dinode sb d j

variable {d d' : Disk} {i t : ℕ} {a : Dinode} {e : Fin NINODE} {g : Gates} {D : ℕ → Dinode}

lemma SetInode.of_putDinode (hl : Layout sb) (hi : sb.Inum i) (ha : a.Small) (hdata : ∀ b, sb.nmeta ≤ b → d' b = d b)
    (hdin : ∀ j, sb.Inum j → j ≠ i → Fs.dinode sb d' j = Fs.dinode sb d j) :
    SetInode sb d i a (putDinode sb d' i a) where
  data b hb := by rw [putDinode_data hl hi hb, hdata b hb]
  dinode j hj := by
    by_cases hji : j = i
    · subst hji
      rw [if_pos rfl, dinode_putDinode sb d' j ha]
    · rw [if_neg hji, dinode_putDinode_of_ne sb d' a hji, hdin j hj hji]

lemma tree_grown (hi : sb.Inum (s.ino e).inum) (ht : a.type ≠ 0)
    (hdin : ∀ j, sb.Inum j → dinode sb d' j = if j = (s.ino e).inum then a else dinode sb s.disk j)
    (hent : ∀ i k, ent sb (dinode sb d') d' i k = E i k) :
    tree sb (s.grown e a d') =
      { type := update (tree sb s).type (s.ino e).inum a.type
        nlink := update (tree sb s).nlink (s.ino e).inum a.nlink
        ent := E
        held := (tree sb s).held } := by
  have hinum : ∀ e', ((s.grown e a d').ino e').inum = (s.ino e').inum := by
    intro e'
    by_cases he : e' = e
    · subst he
      simp [State.grown]
    · simp [State.grown, he]
  refine Tree.ext (funext fun j => ?_) (funext fun j => ?_) (funext fun j => funext fun k => hent j k)
    (funext fun j => ?_)
  · show _ = update (tree sb s).type (s.ino e).inum a.type j
    rw [tree_type, State.grown_disk]
    by_cases hj : j = (s.ino e).inum
    · subst hj
      rw [update_self, if_pos hi, hdin _ hi, if_pos rfl]
    · rw [update_of_ne hj, tree_type]
      by_cases hji : sb.Inum j
      · rw [hdin j hji, if_neg hj]
      · rw [if_neg hji, if_neg hji]
  · show _ = update (tree sb s).nlink (s.ino e).inum a.nlink j
    rw [tree_nlink, State.grown_disk]
    by_cases hj : j = (s.ino e).inum
    · subst hj
      rw [update_self, hdin _ hi, if_pos rfl, if_pos ⟨hi, ht⟩]
    · rw [update_of_ne hj, tree_nlink]
      by_cases hji : sb.Inum j
      · rw [hdin j hji, if_neg hj]
      · rw [if_neg fun h => hji h.1, if_neg fun h => hji h.1]
  · refine propext (exists_congr fun e' => ?_)
    rw [hinum]
    exact Iff.rfl

/-- **An inode that is in memory changes**, on disk and in memory alike. -/
lemma Inv.setDisk (h : Inv sb z s L K) (he : 0 < (s.ino e).ref) (hv : (s.ino e).valid = true)
    (hdisk : DiskOk sb z.toGates d')
    (hdin : ∀ j, sb.Inum j → dinode sb d' j = if j = (s.ino e).inum then a else dinode sb s.disk j) (ht : a.type ≠ 0)
    (hdir : a.type = T_DIR → (s.ino e).d.type = T_DIR) :
    After sb z s L K (s.grown e a d') := by
  have hi := h.range e he
  obtain ⟨hsync, htype⟩ := h.sync e he hv
  have hself : (s.grown e a d').ino e = { s.ino e with d := a } := update_self _ _ _
  have hother : ∀ e', e' ≠ e → (s.grown e a d').ino e' = s.ino e' :=
    fun e' hne => update_of_ne hne _ _
  -- every field but `d` of every entry is as before
  have hsame : ∀ e', ((s.grown e a d').ino e').ref = (s.ino e').ref ∧
      ((s.grown e a d').ino e').inum = (s.ino e').inum ∧
      ((s.grown e a d').ino e').valid = (s.ino e').valid ∧
      ((s.grown e a d').ino e').locked = (s.ino e').locked := by
    intro e'
    by_cases hne : e' = e
    · subst hne
      rw [hself]
      exact ⟨rfl, rfl, rfl, rfl⟩
    · rw [hother e' hne]
      exact ⟨rfl, rfl, rfl, rfl⟩
  have hrest : ∀ e', e' ≠ e → 0 < (s.ino e').ref →
      dinode sb d' (s.ino e').inum = dinode sb s.disk (s.ino e').inum := by
    intro e' hne hpos
    rw [hdin _ (h.range e' hpos), if_neg fun hc => hne (h.uniq e' e hpos he hc)]
  refine ⟨⟨hdisk, ?_, ?_, ?_, ?_, ?_, ?_, ?_, ?_, ?_⟩, rfl, rfl, fun e' _ => (hsame e').2.1⟩
  · intro e' hpos
    rw [(hsame e').1] at hpos
    rw [(hsame e').2.1]
    exact h.range e' hpos
  · intro e1 e2 h1 h2 heq
    rw [(hsame e1).1] at h1
    rw [(hsame e2).1] at h2
    rw [(hsame e1).2.1, (hsame e2).2.1] at heq
    exact h.uniq e1 e2 h1 h2 heq
  · intro e' hpos hv'
    rw [(hsame e').1] at hpos
    rw [(hsame e').2.2.1] at hv'
    by_cases hne : e' = e
    · subst hne
      rw [hself]
      exact ⟨by rw [State.grown_disk, hdin _ hi, if_pos rfl], ht⟩
    · rw [hother e' hne, State.grown_disk, hrest e' hne hpos]
      exact h.sync e' hpos hv'
  · intro e'
    rw [(hsame e').1]
    exact h.refs e'
  · intro x hx
    rw [(hsame x.1).2.1]
    exact h.nums x hx
  · intro e'
    rw [(hsame e').2.2.2]
    exact h.locks e'
  · intro e' hK
    rw [(hsame e').1, (hsame e').2.2.1]
    exact h.locked e' hK
  · intro f hf hw
    obtain ⟨hv', ht'⟩ := h.writable f hf hw
    refine ⟨by rw [(hsame _).2.2.1]; exact hv', fun hT => ht' ?_⟩
    have hfile : (s.grown e a d').file = s.file := rfl
    rw [hfile] at hT
    by_cases hne : (s.file f).ip = e
    · rw [hne, hself] at hT
      rw [hne]
      exact hdir hT
    · rwa [hother _ hne] at hT
  · intro i hz hty hn
    have hT := tree_grown (E := fun i k => ent sb (dinode sb d') d' i k) hi ht hdin fun _ _ => rfl
    rw [hT] at hty hn
    simp only at hty hn
    by_cases hie : i = (s.ino e).inum
    · exact ⟨e, by rw [(hsame e).1]; exact he, by rw [(hsame e).2.1]; exact hie.symm,
        by rw [(hsame e).2.2.1]; exact hv⟩
    · rw [update_of_ne hie] at hty hn
      obtain ⟨e', hpos, hnum, hv'⟩ := h.zero i hz hty hn
      exact ⟨e', by rw [(hsame e').1]; exact hpos, by rw [(hsame e').2.1]; exact hnum,
        by rw [(hsame e').2.2.1]; exact hv'⟩

section

variable (h : Inv sb z s L K) (he : e ∈ K)

include h he

lemma Inv.type_of_locked :
    (tree sb s).type (s.ino e).inum = (s.ino e).d.type ∧ (s.ino e).d.type ≠ 0 := by
  obtain ⟨hpos, hv⟩ := h.locked e he
  obtain ⟨hsync, ht⟩ := h.sync e hpos hv
  rw [tree_type, if_pos (h.range e hpos), ← hsync]
  exact ⟨rfl, ht⟩

lemma Inv.nlink_of_locked :
    (tree sb s).nlink (s.ino e).inum = (s.ino e).d.nlink := by
  obtain ⟨hpos, hv⟩ := h.locked e he
  obtain ⟨hsync, ht⟩ := h.sync e hpos hv
  rw [tree_nlink, if_pos ⟨h.range e hpos, by rwa [← hsync]⟩, ← hsync]

lemma Inv.small_of_locked : (s.ino e).d.Small := by
  obtain ⟨hpos, hv⟩ := h.locked e he
  rw [(h.sync e hpos hv).1]
  exact small_dinode sb _ _

end

/-! ### Changes that keep the contents -/

lemma DiskOk.of_family (hl : Layout sb) (ho : Owned sb (slot sb D d) d) (hdirs : Dirs sb D d)
    (hsolid : g.solid → Solid sb D d) (haligned : g.aligned → Aligned sb D)
    (hdin : ∀ j, sb.Inum j → dinode sb d' j = D j) (hdata : ∀ b, sb.nmeta ≤ b → d' b = d b)
    (hbit : ∀ b, b < sb.size → bit sb d' b = bit sb d b) :
    DiskOk sb g d' ∧ ∀ j k, ent sb (dinode sb d') d' j k = ent sb D d j k := by
  have hslot : slot sb (dinode sb d') d' = slot sb D d :=
    slot_data ho.marked (fun j hj => by rw [hdin j hj]; exact ⟨rfl, rfl⟩) hdata
  have hent : ∀ j k, ent sb (dinode sb d') d' j k = ent sb D d j k := by
    intro j k
    by_cases hj : sb.Inum j
    · refine ent_congr (by rw [hdin j hj]) (by rw [hdin j hj]) (fun k _ _ => ?_) (fun k h0 => ?_) k
      · unfold entBlock
        rw [hslot]
      · rw [hdata _ (ho.ent_data h0)]
    · rw [ent_of_not_inum hj, ent_of_not_inum hj]
  have hfields : ∀ j, sb.Inum j → (dinode sb d' j).type = (D j).type ∧ (dinode sb d' j).size = (D j).size := by
    intro j hj
    rw [hdin j hj]
    exact ⟨rfl, rfl⟩
  refine ⟨⟨?_, ⟨?_, ?_⟩, fun hg => (hsolid hg).congr hfields fun _ => by rw [hslot],
    fun hg => (haligned hg).congr hfields⟩, hent⟩
  · rw [hslot]
    exact ho.congr hbit hl.data
  · intro j hj hT n hn hlt
    rw [hdin j hj] at hT hlt
    rw [hslot]
    exact hdirs.full j hj hT n hn hlt
  · intro j k
    rw [hent]
    exact hdirs.ents j k

lemma DiskOk.setFields (hl : Layout sb) (h : DiskOk sb g d) (hi : sb.Inum i) (ha : a.Small)
    (htype : a.type = (dinode sb d i).type) (hsize : a.size = (dinode sb d i).size)
    (haddrs : a.addrs = (dinode sb d i).addrs) (hd' : d' = putDinode sb d i a) :
    DiskOk sb g d' ∧ ∀ j k, ent sb (dinode sb d') d' j k = ent sb (dinode sb d) d j k := by
  subst hd'
  have hset := SetInode.of_putDinode hl hi ha (d := d) (fun _ _ => rfl) fun _ _ _ => rfl
  have hfields : ∀ j, sb.Inum j → ((dinode sb (putDinode sb d i a) j).type = (dinode sb d j).type ∧
      (dinode sb (putDinode sb d i a) j).addrs = (dinode sb d j).addrs) ∧
      (dinode sb (putDinode sb d i a) j).size = (dinode sb d j).size := by
    intro j hj
    rw [hset.dinode j hj]
    split
    · rename_i hji
      rw [hji]
      exact ⟨⟨htype, haddrs⟩, hsize⟩
    · exact ⟨⟨rfl, rfl⟩, rfl⟩
  have hslot := slot_data h.owned.marked (fun j hj => (hfields j hj).1) hset.data
  have hent : ∀ j k, ent sb (dinode sb (putDinode sb d i a)) (putDinode sb d i a) j k =
      ent sb (dinode sb d) d j k := by
    intro j k
    by_cases hj : sb.Inum j
    · refine ent_congr (hfields j hj).1.1 (hfields j hj).2 (fun k _ _ => ?_) (fun k h0 => ?_) k
      · unfold entBlock
        rw [hslot]
      · rw [hset.data _ (h.owned.ent_data h0)]
    · rw [ent_of_not_inum hj, ent_of_not_inum hj]
  have hsame : ∀ j, sb.Inum j → (dinode sb (putDinode sb d i a) j).type = (dinode sb d j).type ∧
      (dinode sb (putDinode sb d i a) j).size = (dinode sb d j).size :=
    fun j hj => ⟨(hfields j hj).1.1, (hfields j hj).2⟩
  refine ⟨⟨?_, ⟨?_, ?_⟩, fun hg => (h.solid hg).congr hsame fun _ => by rw [hslot],
    fun hg => (h.aligned hg).congr hsame⟩, hent⟩
  · rw [hslot]
    exact h.owned.congr (fun b _ => bit_putDinode hl hi) hl.data
  · intro j hj hT n hn hlt
    rw [(hfields j hj).1.1] at hT
    rw [(hfields j hj).2] at hlt
    rw [hslot]
    exact h.dirs.full j hj hT n hn hlt
  · intro j k
    rw [hent]
    exact h.dirs.ents j k

lemma update_spec (hl : Layout sb) (h : Inv sb z s L K) (he : e ∈ K) (htype : (f (s.ino e).d).type = (s.ino e).d.type)
    (hsize : (f (s.ino e).d).size = (s.ino e).d.size) (haddrs : (f (s.ino e).d).addrs = (s.ino e).d.addrs)
    (hsmall : (f (s.ino e).d).Small) :
    wp (do setDinode e f; iupdate sb e) ok (fun _ s' => After sb z s L K s' ∧
      tree sb s' = (tree sb s).setNlink (s.ino e).inum (f (s.ino e).d).nlink) s := by
  obtain ⟨hpos, hv⟩ := h.locked e he
  obtain ⟨hsync, ht⟩ := h.sync e hpos hv
  have hi := h.range e hpos
  have ht' : (f (s.ino e).d).type ≠ 0 := by rwa [htype]
  have hset := SetInode.of_putDinode hl hi hsmall (d := s.disk) (fun _ _ => rfl) fun _ _ _ => rfl
  obtain ⟨hdisk, hent⟩ := h.disk.setFields hl hi hsmall (by rw [htype, hsync]) (by rw [hsize, hsync])
    (by rw [haddrs, hsync]) rfl
  simp only [setDinode, setInode, iupdate, inode, wp_bind, wp_read, wp_modify, wp_pure]
  have hs' : { s.setIno e fun ip => { ip with d := f ip.d } with
      disk := putDinode sb s.disk (s.ino e).inum (f (s.ino e).d) } =
      s.grown e (f (s.ino e).d) (putDinode sb s.disk (s.ino e).inum (f (s.ino e).d)) := rfl
  have hself : ((s.setIno e fun ip => { ip with d := f ip.d }).ino e) =
      { s.ino e with d := f (s.ino e).d } := update_self _ _ _
  rw [hself]
  refine ⟨h.setDisk hpos hv hdisk hset.dinode ht' (fun hT => by rwa [htype] at hT), ?_⟩
  refine (tree_grown hi ht' hset.dinode hent).trans ?_
  refine Tree.ext ?_ rfl rfl rfl
  show update (tree sb s).type (s.ino e).inum _ = (tree sb s).type
  rw [htype, ← (h.type_of_locked he).1, update_eq_self]

/-! ### Inodes without blocks -/

lemma slot_of_addrs_zero (h : ∀ n, (D i).addrs n = 0) (n : ℕ) : slot sb D d (i, n) = 0 := by
  unfold slot
  simp only [h]
  simp

lemma DiskOk.cleared (h : DiskOk sb g d) (hi : sb.Inum i) (hset : SetInode sb d i a d')
    (hown : Owned sb (without (slot sb (dinode sb d) d) i fun _ => True) d') (ha : ∀ n, a.addrs n = 0)
    (hsize : a.size = 0) :
    DiskOk sb g d' ∧ ∀ j k, ent sb (dinode sb d') d' j k = if j = i then (0, []) else ent sb (dinode sb d) d j k := by
  have hself : dinode sb d' i = a := by rw [hset.dinode i hi, if_pos rfl]
  have hslot : slot sb (dinode sb d') d' = without (slot sb (dinode sb d) d) i fun _ => True := by
    funext t
    obtain ⟨j, n⟩ := t
    unfold without
    by_cases hj : j = i
    · subst hj
      rw [if_pos ⟨rfl, trivial⟩, slot_of_addrs_zero]
      rw [hself]
      exact ha
    · rw [if_neg fun hc => hj hc.1]
      unfold slot
      by_cases hji : sb.Inum j ∧ (dinode sb d j).type ≠ 0
      · rw [hset.dinode j hji.1, if_neg hj]
        by_cases h0 : (dinode sb d j).addrs NDIRECT ≠ 0
        · rw [hset.data _ (h.owned.marked.indirect_data rfl hji.1 hji.2 h0)]
        · simp only [h0, false_and, if_false]
      · by_cases hj' : sb.Inum j
        · rw [hset.dinode j hj', if_neg hj, if_neg hji, if_neg hji]
        · rw [if_neg fun hc => hj' hc.1, if_neg hji]
  have hent : ∀ j k, ent sb (dinode sb d') d' j k =
      if j = i then (0, []) else ent sb (dinode sb d) d j k := by
    intro j k
    by_cases hj : j = i
    · subst hj
      rw [if_pos rfl]
      refine if_neg fun hc => hc.2.2 ?_
      unfold entBlock
      rw [hslot]
      exact if_pos ⟨rfl, trivial⟩
    · rw [if_neg hj]
      by_cases hji : sb.Inum j
      · have hd : dinode sb d' j = dinode sb d j := by rw [hset.dinode j hji, if_neg hj]
        refine ent_congr (by rw [hd]) (by rw [hd]) (fun k _ _ => ?_) (fun k h0 => ?_) k
        · unfold entBlock
          rw [hslot]
          exact if_neg fun hc => hj hc.1
        · rw [hset.data _ (h.owned.ent_data h0)]
      · rw [ent_of_not_inum hji, ent_of_not_inum hji]
  have hother : ∀ j n, j ≠ i → slot sb (dinode sb d') d' (j, n) = slot sb (dinode sb d) d (j, n) := by
    intro j n hj
    rw [hslot]
    exact if_neg fun hc => hj hc.1
  refine ⟨⟨?_, ⟨?_, ?_⟩, fun hg => ⟨?_, ?_⟩, fun hg => ?_⟩, hent⟩
  · rw [hslot]
    exact hown
  · intro j hj hT n hn hlt
    by_cases hji : j = i
    · subst hji
      rw [hself, hsize] at hlt
      exact absurd hlt (Nat.not_lt_zero _)
    · rw [hset.dinode j hj, if_neg hji] at hT hlt
      rw [hother j _ hji]
      exact h.dirs.full j hj hT n hn hlt
  · intro j k
    rw [hent]
    split
    · exact lt_of_le_of_lt (Nat.zero_le _) hi.2
    · exact h.dirs.ents j k
  · intro j hj hT
    by_cases hji : j = i
    · rw [hji, hself, hsize]
      exact Nat.zero_le _
    · rw [hset.dinode j hj, if_neg hji] at hT ⊢
      exact (h.solid hg).size j hj hT
  · intro j hj hT n hlt
    by_cases hji : j = i
    · subst hji
      rw [hself, hsize] at hlt
      exact absurd hlt (Nat.not_lt_zero _)
    · rw [hset.dinode j hj, if_neg hji] at hT hlt
      rw [hother j _ hji]
      exact (h.solid hg).full j hj hT n hlt
  · intro j hj hT
    by_cases hji : j = i
    · rw [hji, hself, hsize]
      exact dvd_zero _
    · rw [hset.dinode j hj, if_neg hji] at hT ⊢
      exact h.aligned hg j hj hT

lemma Dinode.Small.truncated (h : a.Small) : a.truncated.Small where
  type := h.type
  major := h.major
  minor := h.minor
  nlink := h.nlink
  size := Nat.two_pow_pos 32
  addrs _ := Nat.two_pow_pos 32
  unused _ _ := rfl

lemma itrunc_inv (hl : Layout sb) (h : Inv sb z s L K) (he : e ∈ K) (hnd : (s.ino e).d.type ≠ T_DIR) :
    wp (itrunc sb e) ok (fun _ s' => After sb z s L K s' ∧ tree sb s' = tree sb s) s := by
  obtain ⟨hpos, hv⟩ := h.locked e he
  obtain ⟨hsync, ht⟩ := h.sync e hpos hv
  have hi := h.range e hpos
  have hsmall := (h.small_of_locked he).truncated
  refine (itrunc_spec hl h.disk.owned hsync.symm hi ht (h.small_of_locked he)).mono ?_
  rintro _ _ ⟨d', hsame, hown, rfl⟩
  have hset := SetInode.of_putDinode hl hi hsmall hsame.data fun j hj _ => hsame.dinode j hj
  obtain ⟨hdisk, hent⟩ := h.disk.cleared hi hset
    (hown.congr (fun b _ => bit_putDinode hl hi) hl.data) (fun _ => rfl) rfl
  have ht' : (s.ino e).d.truncated.type ≠ 0 := ht
  refine ⟨h.setDisk hpos hv hdisk hset.dinode ht' (fun hT => hT), ?_⟩
  refine (tree_grown hi ht' hset.dinode hent).trans ?_
  refine Tree.ext ?_ ?_ ?_ rfl
  · show update (tree sb s).type (s.ino e).inum (s.ino e).d.type = _
    rw [← (h.type_of_locked he).1, update_eq_self]
  · show update (tree sb s).nlink (s.ino e).inum (s.ino e).d.nlink = _
    rw [← h.nlink_of_locked he, update_eq_self]
  · funext j k
    show (if j = (s.ino e).inum then _ else _) = _
    split
    · rename_i hj
      subst hj
      exact (ent_of_not_dir (by rwa [← hsync])).symm
    · rfl

/-! ### `iput` -/

lemma Inv.freed (h : Inv sb z s ((e, i) :: L) K) (hhold : s.holders e = 0) (hcount : (L.map Prod.fst).count e = 0)
    (hK : e ∉ K) (hdisk : DiskOk sb z.toGates d') (hset : SetInode sb s.disk i a d') (ha : a.type = 0)
    (hent : ∀ j k, ent sb (dinode sb d') d' j k =
      if j = i then (0, []) else ent sb (dinode sb s.disk) s.disk j k) (href : x.ref = 0) (hlock : x.locked = false) :
    After sb z s L K { s with disk := d', ino := update s.ino e x } ∧
      tree sb { s with disk := d', ino := update s.ino e x } = (tree sb s).free i := by
  have hpos := h.ref_pos_of_mem (x := (e, i)) mem_cons_self
  have hnum : (s.ino e).inum = i := h.nums (e, i) mem_cons_self
  have hi : sb.Inum i := h.inum_of_mem (x := (e, i)) mem_cons_self
  have hother : ∀ e', e' ≠ e → update s.ino e x e' = s.ino e' :=
    fun e' he' => update_of_ne he' _ _
  have hself : update s.ino e x e = x := update_self _ _ _
  have hmem : ∀ y ∈ L, y.1 ≠ e := by
    rintro y hy rfl
    have := count_pos_of_mem hy
    omega
  -- the entries that are still referenced are of other inodes
  have hdin : ∀ e', e' ≠ e → 0 < (s.ino e').ref →
      dinode sb d' (s.ino e').inum = dinode sb s.disk (s.ino e').inum := by
    intro e' hne hpos'
    rw [hset.dinode _ (h.range e' hpos'), if_neg]
    intro hc
    exact hne (h.uniq e' e hpos' hpos (hc.trans hnum.symm))
  have htree : tree sb { s with disk := d', ino := update s.ino e x } = (tree sb s).free i := by
    refine Tree.ext (funext fun j => ?_) (funext fun j => ?_) (funext fun j => funext fun k => ?_)
      (funext fun j => ?_)
    · show _ = update (tree sb s).type i 0 j
      rw [tree_type]
      by_cases hj : j = i
      · subst hj
        rw [update_self, if_pos hi]
        simp only
        rw [hset.dinode j hi, if_pos rfl, ha]
      · rw [update_of_ne hj, tree_type]
        by_cases hji : sb.Inum j
        · simp only
          rw [hset.dinode j hji, if_neg hj]
        · rw [if_neg hji, if_neg hji]
    · show _ = update (tree sb s).nlink i 0 j
      rw [tree_nlink]
      simp only
      by_cases hj : j = i
      · subst hj
        rw [update_self, hset.dinode j hi, if_pos rfl, if_neg fun hc => hc.2 ha]
      · rw [update_of_ne hj, tree_nlink]
        by_cases hji : sb.Inum j
        · rw [hset.dinode j hji, if_neg hj]
        · rw [if_neg fun hc => hji hc.1, if_neg fun hc => hji hc.1]
    · show ent sb (dinode sb d') d' j k = update (tree sb s).ent i (fun _ => (0, [])) j k
      rw [hent]
      by_cases hj : j = i
      · subst hj
        rw [if_pos rfl, update_self]
      · rw [if_neg hj, update_of_ne hj]
        rfl
    · refine propext (exists_congr fun e' => ?_)
      refine and_congr_right fun hpos' => ?_
      have hne : e' ≠ e := by
        rintro rfl
        have : s.holders e' ≠ 0 := Nat.pos_iff_ne_zero.mp hpos'
        exact this hhold
      simp only [hother e' hne]
  have hpinned : ∀ e', 0 < s.holders e' → (update s.ino e x e').inum = (s.ino e').inum := by
    intro e' hpos'
    rw [hother e' fun hc => hpos'.ne' (hc ▸ hhold)]
  refine ⟨⟨⟨hdisk, ?_, ?_, ?_, ?_, ?_, ?_, ?_, ?_, ?_⟩, rfl, rfl, hpinned⟩, htree⟩
  · intro e' hpos'
    by_cases hne : e' = e
    · subst hne
      simp only [hself, href] at hpos'
      exact absurd hpos' (Nat.lt_irrefl 0)
    · simp only [hother e' hne] at hpos' ⊢
      exact h.range e' hpos'
  · intro e1 e2 h1 h2 heq
    have hne : ∀ e', 0 < (update s.ino e x e').ref → e' ≠ e := by
      rintro e' hpos' rfl
      rw [hself, href] at hpos'
      exact absurd hpos' (Nat.lt_irrefl 0)
    have hne1 := hne e1 h1
    have hne2 := hne e2 h2
    simp only [hother e1 hne1, hother e2 hne2] at h1 h2 heq
    exact h.uniq e1 e2 h1 h2 heq
  · intro e' hpos' hv
    by_cases hne : e' = e
    · subst hne
      simp only [hself, href] at hpos'
      exact absurd hpos' (Nat.lt_irrefl 0)
    · simp only [hother e' hne] at hpos' hv ⊢
      rw [hdin e' hne hpos']
      exact h.sync e' hpos' hv
  · intro e'
    have hh : State.holders { s with disk := d', ino := update s.ino e x } e' = s.holders e' := rfl
    rw [hh]
    by_cases hne : e' = e
    · subst hne
      simp only [hself, href]
      omega
    · simp only [hother e' hne]
      rw [h.refs, count_cons_ne hne]
  · intro y hy
    simp only [hother y.1 (hmem y hy)]
    exact h.nums y (mem_cons_of_mem _ hy)
  · intro e'
    by_cases hne : e' = e
    · subst hne
      simp [hlock, hK]
    · simp only [hother e' hne]
      exact h.locks e'
  · intro e' he'
    have hne : e' ≠ e := by
      rintro rfl
      exact hK he'
    simp only [hother e' hne]
    exact h.locked e' he'
  · intro f hf hw
    have hf' : (s.file f).type = .inode := hf
    have hne : (s.file f).ip ≠ e := by
      intro hc
      have := holders_pos_of_file (s := s) (f := f) (by rw [hf']; decide)
      rw [hc] at this
      omega
    simp only [hother _ hne]
    exact h.writable f hf hw
  · intro j hz hty hn
    rw [htree] at hty hn
    have hj : j ≠ i := by
      rintro rfl
      exact hty (update_self _ _ _)
    have hty' : (tree sb s).type j ≠ 0 := by rwa [Tree.free_type, update_of_ne hj] at hty
    have hn' : (tree sb s).nlink j = 0 := by rwa [Tree.free_nlink, update_of_ne hj] at hn
    obtain ⟨e', hpos', hnum', hv⟩ := h.zero j hz hty' hn'
    have hne : e' ≠ e := by
      rintro rfl
      exact hj (hnum'.symm.trans hnum)
    refine ⟨e', ?_⟩
    simp only [hother e' hne]
    exact ⟨hpos', hnum', hv⟩

lemma Inv.dropRef (h : Inv sb z s ((e, i) :: L) K) (hK : e ∈ K → ∃ i', (e, i') ∈ L)
    (hlast : ¬ ((s.ino e).ref = 1 ∧ (s.ino e).valid = true ∧ (s.ino e).d.nlink = 0)) :
    After sb z s L K (s.setIno e fun ip => { ip with ref := ip.ref - 1 }) ∧
      tree sb (s.setIno e fun ip => { ip with ref := ip.ref - 1 }) = tree sb s := by
  have hpos := h.ref_pos_of_mem (x := (e, i)) mem_cons_self
  have hnum : (s.ino e).inum = i := h.nums (e, i) mem_cons_self
  have hrefs := h.refs e
  rw [count_cons_self] at hrefs
  refine h.setEntry (fun _ => h.range e hpos) (fun _ e' hne hpos' hsame => hne (h.uniq e' e hpos' hpos hsame))
    (fun _ hv => h.sync e hpos hv) ?_ (fun e' hne => (count_cons_ne hne).symm)
    (fun y hne => (mem_cons_of_fst_ne hne).symm) ?_ (h.locks e) (fun _ _ => Iff.rfl) ?_
    (fun _ => ⟨rfl, fun hv => ⟨hv, rfl⟩⟩) ?_
  · simp only
    omega
  · intro y hy hye
    rw [← hye]
    exact h.nums y (mem_cons_of_mem _ hy)
  · intro he
    obtain ⟨i', hi'⟩ := hK he
    have : 0 < (L.map Prod.fst).count e := count_pos_of_mem hi'
    refine ⟨?_, (h.locked e he).2⟩
    simp only
    omega
  · intro _ hv hn
    obtain ⟨hsync, ht⟩ := h.sync e hpos hv
    rw [tree_nlink, if_pos ⟨h.range e hpos, by rwa [← hsync]⟩, ← hsync] at hn
    have hone : (s.ino e).ref ≠ 1 := fun hc => hlast ⟨hc, hv, hn⟩
    refine ⟨?_, rfl, hv⟩
    simp only
    have : 0 < (s.ino e).ref := hpos
    omega

/-- A free inode as `iput` leaves it. -/
def Dinode.freed (a : Dinode) : Dinode := { a.truncated with type := 0 }

lemma Dinode.Small.freed (h : a.Small) : a.freed.Small where
  type := Nat.two_pow_pos 16
  major := h.major
  minor := h.minor
  nlink := h.nlink
  size := Nat.two_pow_pos 32
  addrs _ := Nat.two_pow_pos 32
  unused _ _ := rfl

lemma iputFree_spec (hl : Layout sb) (h : Inv sb z s L K) (hpos : 0 < (s.ino e).ref) (hv : (s.ino e).valid = true) :
    wp (iputFree sb e) ok (fun _ s' => ∃ d', DiskOk sb z.toGates d' ∧
      SetInode sb s.disk (s.ino e).inum (s.ino e).d.freed d' ∧
      (∀ j k, ent sb (dinode sb d') d' j k =
        if j = (s.ino e).inum then (0, []) else ent sb (dinode sb s.disk) s.disk j k) ∧
      s' = { s.setIno e fun ip => { ip with valid := false, locked := false, d := ip.d.freed } with
        disk := d' }) s := by
  have hi := h.range e hpos
  obtain ⟨hsync, ht⟩ := h.sync e hpos hv
  have hsmall : (s.ino e).d.Small := by
    rw [hsync]
    exact small_dinode sb _ _
  have hself : (s.setIno e fun ip => { ip with locked := true }).ino e = { s.ino e with locked := true } :=
    update_self _ _ _
  simp only [iputFree, setInode, wp_bind, wp_modify]
  have htrunc : wp (itrunc sb e) ok _ (s.setIno e fun ip => { ip with locked := true }) :=
    itrunc_spec (D := dinode sb s.disk) hl h.disk.owned (by rw [hself]; exact hsync.symm)
    (by rwa [hself]) (by rwa [hself]) (by rwa [hself])
  refine htrunc.mono ?_
  rintro _ _ ⟨d', hsame, hown, rfl⟩
  simp only [hself] at hown ⊢
  simp only [setDinode, setInode, iupdate, inode, wp_bind, wp_read, wp_modify, wp_pure]
  -- the inode is written twice: truncated, and then free
  have hset : SetInode sb s.disk (s.ino e).inum (s.ino e).d.freed
      (putDinode sb (putDinode sb d' (s.ino e).inum (s.ino e).d.truncated) (s.ino e).inum
        (s.ino e).d.freed) := by
    refine SetInode.of_putDinode hl hi hsmall.freed (fun b hb => ?_) fun j hj hji => ?_
    · rw [putDinode_data hl hi hb]
      exact hsame.data b hb
    · rw [dinode_putDinode_of_ne sb d' _ hji]
      exact hsame.dinode j hj
  obtain ⟨hdisk, hent⟩ := h.disk.cleared hi hset
    (hown.congr (fun b _ => (bit_putDinode hl hi).trans (bit_putDinode hl hi)) hl.data) (fun _ => rfl)
    rfl
  refine ⟨_, hdisk, hset, hent, ?_⟩
  simp [State.grown, State.setIno, Dinode.freed]

/-! A call that drops a reference changes nothing on disk as long as every inode without links is held, or
referred to by the call itself. -/

/-- Without links is only what is held, or what `L` refers to. -/
def ZeroRef (sb : Superblock) (s : State P) (L : List (Fin NINODE × ℕ)) : Prop :=
  ∀ i, (tree sb s).type i ≠ 0 → (tree sb s).nlink i = 0 → (tree sb s).held i ∨ ∃ e, (e, i) ∈ L

lemma ZeroRef.congr {s' : State P} (h : ZeroRef sb s L) (ht : tree sb s' = tree sb s) : ZeroRef sb s' L := by
  unfold ZeroRef
  rw [ht]
  exact h

lemma ZeroRef.of_zeroHeld (h : (tree sb s).ZeroHeld) : ZeroRef sb s L := fun i ha hn => .inl (h i ha hn)

lemma ZeroRef.cons (h : ZeroRef sb s L) (x : Fin NINODE × ℕ) : ZeroRef sb s (x :: L) := by
  intro i ha hn
  refine (h i ha hn).imp_right ?_
  rintro ⟨e, he⟩
  exact ⟨e, mem_cons_of_mem x he⟩

lemma Inv.zeroRef (h : Inv sb z s L K) (hz : ∀ i, z.zero i) : ZeroRef sb s L := by
  intro i ha hn
  obtain ⟨e, hpos, hi, -⟩ := h.zero i (hz i) ha hn
  by_cases hold : 0 < s.holders e
  · exact .inl ⟨e, hold, hi⟩
  · rw [h.refs] at hpos
    obtain ⟨x, hx, rfl⟩ := mem_map.mp (count_pos_iff.mp (show 0 < (L.map Prod.fst).count e by omega))
    rw [h.nums x hx] at hi
    exact .inr ⟨x.1, hi ▸ hx⟩

section

variable (hl : Layout sb)

include hl

section

variable (h : Inv sb z s ((e, i) :: L) K) (hK : e ∈ K → ∃ i', (e, i') ∈ L)

include h hK

/-- **`iput`** drops a reference, and frees the inode if that was the last one and it has no links; that is
never so while every inode without links has another reference. -/
lemma iput_exact :
    wp (iput sb e) ok (fun _ s' => After sb z s L K s' ∧ (tree sb s).Frees (tree sb s') ∧
      (s'.disk = s.disk ∨ ∃ a, SetInode sb s.disk i a s'.disk) ∧
      (ZeroRef sb s L → tree sb s' = tree sb s ∧ s'.disk = s.disk)) s := by
  have hpos := h.ref_pos_of_mem (x := (e, i)) mem_cons_self
  have hnum : (s.ino e).inum = i := h.nums (e, i) mem_cons_self
  simp only [iput, inode, wp_bind, wp_read, wp_pure]
  by_cases hlast : (s.ino e).ref = 1 ∧ (s.ino e).valid = true ∧ (s.ino e).d.nlink = 0
  · rw [if_pos hlast]
    obtain ⟨href, hv, hn⟩ := hlast
    have hrefs := h.refs e
    rw [count_cons_self] at hrefs
    have hhold : s.holders e = 0 := by omega
    have heK : e ∉ K := by
      intro he
      obtain ⟨i', hi'⟩ := hK he
      have : 0 < (L.map Prod.fst).count e := count_pos_of_mem hi'
      omega
    rw [if_neg fun hc => heK ((h.locks e).mp hc), wp_bind]
    refine (iputFree_spec hl h hpos hv).mono ?_
    rintro _ _ ⟨d', hdisk, hset, hent, rfl⟩
    rw [hnum] at hset hent
    obtain ⟨hafter, htree⟩ := h.freed hhold (by omega) heK hdisk hset rfl hent
      (x := { s.ino e with ref := 0, valid := false, locked := false, d := (s.ino e).d.freed }) rfl rfl
    obtain ⟨hsync, ht⟩ := h.sync e hpos hv
    rw [hnum] at hsync
    have hi : sb.Inum i := hnum ▸ h.range e hpos
    have halloc : (tree sb s).type i ≠ 0 := by
      rw [tree_type, if_pos hi, ← hsync]
      exact ht
    have hnone : (tree sb s).nlink i = 0 := by
      rw [tree_nlink, if_pos ⟨hi, by rwa [← hsync]⟩, ← hsync, hn]
    have hheld : ¬ (tree sb s).held i := by
      rintro ⟨e', hpos', hnum'⟩
      rw [h.uniq e' e (h.ref_pos_of_holders hpos') hpos (hnum'.trans hnum.symm)] at hpos'
      omega
    have hfrees : (tree sb s).Frees ((tree sb s).free i) := (Tree.Frees.refl _).step _ halloc hnone hheld
    rw [← htree] at hfrees
    have hlost : ¬ ZeroRef sb s L := by
      intro hz
      rcases hz i halloc hnone with hc | ⟨e', he'⟩
      · exact hheld hc
      · have hmem := mem_cons_of_mem (e, i) he'
        have hsame : e' = e := h.uniq e' e (h.ref_pos_of_mem hmem) hpos ((h.nums _ hmem).trans hnum.symm)
        have hcount : 0 < (L.map Prod.fst).count e := hsame ▸ count_pos_of_mem he'
        omega
    refine Eq.subst (motive := fun t => After sb z s L K t ∧ (tree sb s).Frees (tree sb t) ∧
      (t.disk = s.disk ∨ ∃ a, SetInode sb s.disk i a t.disk) ∧
      (ZeroRef sb s L → tree sb t = tree sb s ∧ t.disk = s.disk)) ?_
      ⟨hafter, hfrees, .inr ⟨_, hset⟩, fun hz => absurd hz hlost⟩
    simp [State.setIno, href]
  · rw [if_neg hlast]
    obtain ⟨hafter, htree⟩ := h.dropRef hK hlast
    refine ⟨hafter, ?_, .inl rfl, fun _ => ⟨htree, rfl⟩⟩
    show (tree sb s).Frees (tree sb (s.setIno e fun ip => { ip with ref := ip.ref - 1 }))
    rw [htree]
    exact .refl _

lemma iput_spec :
    wp (iput sb e) ok (fun _ s' => After sb z s L K s' ∧ (tree sb s).Frees (tree sb s')) s :=
  (iput_exact hl h hK).mono fun _ _ h => ⟨h.1, h.2.1⟩

end

lemma iunlockput_exact (h : Inv sb z s ((e, i) :: L) (e :: K)) (hK : e ∉ K) :
    wp (iunlockput sb e) ok (fun _ s' => After sb z s L K s' ∧ (tree sb s).Frees (tree sb s') ∧
      (s'.disk = s.disk ∨ ∃ a, SetInode sb s.disk i a s'.disk) ∧
      (ZeroRef sb s L → tree sb s' = tree sb s ∧ s'.disk = s.disk)) s := by
  rw [iunlockput, wp_bind]
  refine (iunlock_exact h hK).mono ?_
  rintro _ s1 ⟨h1, ht1, hd1⟩
  refine (iput_exact hl h1.inv fun hc => absurd hc hK).mono ?_
  rintro _ s2 ⟨h2, ht2, hd2, hstill⟩
  rw [ht1] at ht2 hstill
  rw [hd1] at hd2 hstill
  exact ⟨h1.trans h2, ht2, hd2, fun hz => hstill (hz.congr ht1)⟩

lemma iunlockput_spec (h : Inv sb z s ((e, i) :: L) (e :: K)) (hK : e ∉ K) :
    wp (iunlockput sb e) ok (fun _ s' => After sb z s L K s' ∧ (tree sb s).Frees (tree sb s')) s :=
  (iunlockput_exact hl h hK).mono fun _ _ h => ⟨h.1, h.2.1⟩

end

/-! ### `ialloc` -/

lemma Inv.alloc (hl : Layout sb) (h : Inv sb z s L K) (hi : sb.Inum i) (hfree : (dinode sb s.disk i).type = 0)
    (ht : t ≠ 0) (ht' : t < 2 ^ 16) :
    After sb (z.without i) s L K
        { s with disk := putDinode sb s.disk i { Dinode.zero with type := t } } ∧
      tree sb { s with disk := putDinode sb s.disk i { Dinode.zero with type := t } } =
        (tree sb s).alloc i t := by
  have hsmall : { Dinode.zero with type := t }.Small :=
    ⟨ht', Nat.two_pow_pos 16, Nat.two_pow_pos 16, Nat.two_pow_pos 16, Nat.two_pow_pos 32,
      fun _ => Nat.two_pow_pos 32, fun _ _ => rfl⟩
  have hset := SetInode.of_putDinode hl hi hsmall (d := s.disk) (fun _ _ => rfl) fun _ _ _ => rfl
  have hnoslot : ∀ n, slot sb (dinode sb s.disk) s.disk (i, n) = 0 :=
    fun n => if_neg fun hc => hc.2 hfree
  have hwithout : without (slot sb (dinode sb s.disk) s.disk) i (fun _ => True) =
      slot sb (dinode sb s.disk) s.disk := by
    funext t
    unfold without
    split
    · rename_i hc
      rw [show t = (i, t.2) from Prod.ext hc.1 rfl, hnoslot]
    · rfl
  obtain ⟨hdisk, hent⟩ := h.disk.cleared hi hset
    (by rw [hwithout]; exact h.disk.owned.congr (fun b _ => bit_putDinode hl hi) hl.data) (fun _ => rfl)
    rfl
  have htree : tree sb { s with disk := putDinode sb s.disk i { Dinode.zero with type := t } } =
      (tree sb s).alloc i t := by
    refine Tree.ext (funext fun j => ?_) (funext fun j => ?_) (funext fun j => funext fun k => ?_) rfl
    · rw [Tree.alloc_type, tree_type]
      by_cases hj : j = i
      · subst hj
        rw [update_self, if_pos hi]
        simp only
        rw [hset.dinode j hi, if_pos rfl]
      · rw [update_of_ne hj, tree_type]
        by_cases hji : sb.Inum j
        · simp only
          rw [hset.dinode j hji, if_neg hj]
        · rw [if_neg hji, if_neg hji]
    · rw [Tree.alloc_nlink, tree_nlink]
      simp only
      by_cases hj : j = i
      · subst hj
        rw [update_self, hset.dinode j hi, if_pos rfl, if_pos ⟨hi, ht⟩]
        rfl
      · rw [update_of_ne hj, tree_nlink]
        by_cases hji : sb.Inum j
        · rw [hset.dinode j hji, if_neg hj]
        · rw [if_neg fun hc => hji hc.1, if_neg fun hc => hji hc.1]
    · rw [Tree.alloc_ent]
      refine (hent j k).trans ?_
      by_cases hj : j = i
      · subst hj
        rw [if_pos rfl, update_self]
      · rw [if_neg hj, update_of_ne hj]
        rfl
  refine ⟨⟨⟨hdisk, h.range, h.uniq, ?_, h.refs, h.nums, h.locks, h.locked, h.writable, ?_⟩, rfl, rfl,
    fun _ _ => rfl⟩, htree⟩
  · intro e hpos hv
    obtain ⟨hsync, hty⟩ := h.sync e hpos hv
    have hne : (s.ino e).inum ≠ i := by
      rintro rfl
      rw [hsync] at hty
      exact hty hfree
    refine ⟨?_, hty⟩
    simp only
    rw [hset.dinode _ (h.range e hpos), if_neg hne]
    exact hsync
  · rintro j ⟨hz, hji⟩ hty hn
    rw [htree] at hty hn
    rw [Tree.alloc_type, update_of_ne hji] at hty
    rw [Tree.alloc_nlink, update_of_ne hji] at hn
    exact h.zero j hz hty hn

lemma ialloc_spec (hl : Layout sb) (hok : Allowed z ok) (h : Inv sb z s L K) (ht : t ≠ 0) (ht' : t < 2 ^ 16) :
    wp (ialloc sb t) ok (fun r s' =>
      match r with
      | none => s' = s
      | some e => ∃ i, sb.Inum i ∧ (tree sb s).type i = 0 ∧
          After sb (z.without i) s ((e, i) :: L) K s' ∧ tree sb s' = (tree sb s).alloc i t) s := by
  refine wp_findM_range' (I := fun _ s' => s' = s) ?_ (fun _ hs => hs) s rfl
  rintro k _ hk1 hk2 rfl
  rename_i s
  have hi : sb.Inum k := ⟨by omega, by omega⟩
  simp only [wp_bind, wp_read]
  by_cases hfree : (dinode sb s.disk k).type = 0
  · rw [if_pos hfree]
    simp only [wp_bind, wp_modify]
    obtain ⟨hafter, htree⟩ := h.alloc hl hi hfree ht ht'
    refine (iget_spec (hok.without k) hafter.inv hi).mono ?_
    rintro e s' ⟨hafter', htree'⟩
    refine ⟨k, hi, ?_, hafter.trans hafter', htree'.trans htree⟩
    rw [tree_type, if_pos hi, hfree]
  · rw [if_neg hfree, wp_pure]

end Xv6.Fs
