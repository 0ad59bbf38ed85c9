import Xv6.Fs.MkfsAppend

/-!
# The image that `mkfs` writes

The root directory has an entry for every file, in order.
Before the end of the last entry the root has no hole, although `mkfs` rounds its size up beyond the last block when
the entries fill it.
-/

namespace Xv6.Fs

open Lib Log Function List

/-! ### A new inode -/

lemma slot_newInode {sb : Superblock} (hfree : (D i).type = 0) (ha : ∀ n, a.addrs n = 0) :
    slot sb (update D i a) d = slot sb D d := by
  funext t
  obtain ⟨j, n⟩ := t
  by_cases hj : j = i
  · subst hj
    rw [slot_of_addrs_zero (fun n => by rw [update_self]; exact ha n)]
    exact (if_neg fun hc => hc.2 hfree).symm
  · unfold slot
    rw [update_of_ne hj]

namespace Mkfs

/-- The inode that `ialloc` writes. -/
def newInode (type : ℕ) : Dinode := { Dinode.zero with type := type, nlink := 1 }

lemma small_newInode {type : ℕ} (h : type < 2 ^ 16) : (newInode type).Small where
  type := h
  major := Nat.two_pow_pos 16
  minor := Nat.two_pow_pos 16
  nlink := (by decide : 1 < 2 ^ 16)
  size := Nat.two_pow_pos 32
  addrs _ := Nat.two_pow_pos 32
  unused _ _ := rfl

lemma start_inv : start.Inv fun _ => [] := by
  have htype : ∀ i, mkfsSb.Inum i → (dinode mkfsSb start.image i).type = 0 := by
    intro i hi
    rw [dinode_image hi]
    simp [dinode, Dinode.decode, start]
  have hslot : ∀ t, slot mkfsSb (dinode mkfsSb start.image) start.image t = 0 := by
    intro t
    exact if_neg fun hc => hc.2 (htype t.1 hc.1)
  have hmeta : mkfsSb.nmeta = 46 := rfl
  have hB : BPB = 8192 := rfl
  refine ⟨⟨fun t u ht _ => absurd (hslot t) ht, fun t ht => absurd (hslot t) ht, fun b hb => ?_⟩,
    fun i hi hlt => absurd hlt (Nat.not_lt.mpr hi.1), fun i hi _ => htype i hi, rfl, fun _ _ => rfl⟩
  rw [bit_image (by decide) (by omega)]
  exact decide_eq_true hb

variable {m : Mkfs} {C : ℕ → List ℕ}

/-- **`ialloc`** makes an empty file, or first the root. -/
lemma Inv.ialloc (h : m.Inv C) (hi : mkfsSb.Inum m.freeinode) (hC : C m.freeinode = []) :
    (m.ialloc (if m.freeinode = ROOTINO then T_DIR else T_FILE)).1.Inv C := by
  obtain ⟨i, hfree⟩ : ∃ i, i = m.freeinode := ⟨_, rfl⟩
  rw [← hfree] at hi hC
  obtain ⟨a, ha⟩ : ∃ a, a = newInode (if i = ROOTINO then T_DIR else T_FILE) := ⟨_, rfl⟩
  have hsmall : a.Small := by
    rw [ha]
    exact small_newInode (by split <;> decide)
  have hempty : (dinode mkfsSb m.image i).type = 0 := h.free i hi hfree.ge
  have himage : (m.ialloc (if m.freeinode = ROOTINO then T_DIR else T_FILE)).1.image = putDinode mkfsSb m.image i a := by
    rw [← hfree, ha]
    exact (congrArg Mkfs.image (by rw [Mkfs.ialloc, hfree]; rfl)).trans
      (image_winode (m := { m with freeinode := m.freeinode + 1 }) hi _)
  generalize hm' : (m.ialloc (if m.freeinode = ROOTINO then T_DIR else T_FILE)).1 = m' at himage ⊢
  have hnext : m'.freeinode = i + 1 := by rw [← hm', hfree]; rfl
  have hblocks : m'.freeblock = m.freeblock := by rw [← hm']; rfl
  have hdisk : m'.disk = putDinode mkfsSb m.disk i a := by rw [← hm', ha, hfree]; rfl
  have hself : dinode mkfsSb m'.image i = a := by rw [himage, dinode_putDinode mkfsSb _ _ hsmall]
  have hne : ∀ j, j ≠ i → dinode mkfsSb m'.image j = dinode mkfsSb m.image j :=
    fun j hj => by rw [himage, dinode_putDinode_of_ne mkfsSb _ _ hj]
  have hdata : ∀ b, mkfsSb.nmeta ≤ b → m'.image b = m.image b :=
    fun b hb => by rw [himage, putDinode_data mkfsSb_layout hi hb]
  have hslots : slot mkfsSb (dinode mkfsSb m'.image) m'.image = slot mkfsSb (dinode mkfsSb m.image) m.image := by
    have hnew : slot mkfsSb (update (dinode mkfsSb m.image) i a) m.image = slot mkfsSb (dinode mkfsSb m.image) m.image :=
      slot_newInode hempty fun n => by rw [ha]; rfl
    rw [← hnew]
    refine slot_data (by rw [hnew]; exact h.marked) (fun j _ => ?_) hdata
    by_cases hj : j = i
    · rw [hj, hself, update_self]
      exact ⟨rfl, rfl⟩
    · rw [hne j hj, update_of_ne hj]
      exact ⟨rfl, rfl⟩
  have hnone : ∀ n, slot mkfsSb (dinode mkfsSb m.image) m.image (i, n) = 0 := fun n => if_neg fun hc => hc.2 hempty
  have hzero : a.size = 0 := by rw [ha]; rfl
  refine h.change (i := i) (fun j hji => ⟨by omega, rfl⟩) ?_ (fun j _ hji => hne j hji) (fun t _ => by rw [hslots])
    (fun j x h0 _ => ?_) (by omega) ⟨?_, ?_, ?_, fun n hn => ?_, fun n _ => ?_, fun _ => ?_, fun x hx => ?_⟩ ?_ fun b hb => ?_
  · rw [hslots, himage]
    exact h.marked.congr (fun b _ => bit_putDinode mkfsSb_layout hi) mkfsSb_layout.data
  · unfold dataByte
    rw [hslots, hdata _ (h.marked.data h0).1]
  · rw [hself, ha]
    rfl
  · rw [hself, hzero, hC]
    rfl
  · rw [hC]
    exact Nat.zero_le _
  · rw [hC] at hn
    exact absurd hn (Nat.not_lt_zero _)
  · rw [hslots, hnone]
  · rw [hslots, hnone]
  · rw [hslots] at hx
    exact absurd (hnone _) hx
  · rw [hblocks, hnext, Finset.sum_range_succ, hC, h.count, hfree]
    rfl
  · rw [hblocks] at hb
    have hmeta := h.nmeta_le
    rw [hdisk, putDinode_data mkfsSb_layout hi (by omega)]
    exact h.fresh b hb

/-! ### Many appends -/

/-- There is room for files of the lengths `A`, below inode `last`. -/
structure Room (A : ℕ → ℕ) (last : ℕ) : Prop where
  size : ∀ i, A i ≤ MAXFILE * BSIZE
  blocks : mkfsSb.nmeta + ∑ i ∈ Finset.range last, blocksFor (A i) ≤ mkfsSb.size
  inodes : last ≤ mkfsSb.ninodes

variable {A : ℕ → ℕ} {last i : ℕ}

section

variable (h : m.Inv C) (hr : Room A last) (hlast : m.freeinode ≤ last) (hi : 0 < i) (hlt : i < m.freeinode)

include h hr hlast hi hlt

lemma Inv.append (hp : ∀ b ∈ p, b < 256) (hA : ∀ j, (update C i (C i ++ p) j).length ≤ A j) :
    ∃ m', m.iappend i p = some m' ∧ m'.Inv (update C i (C i ++ p)) ∧ m'.freeinode = m.freeinode := by
  have hinodes := hr.inodes
  have hlen := hA i
  rw [update_self, length_append] at hlen
  have hsum := sum_blocksFor_append C p hlt
  have hmono : ∑ j ∈ Finset.range m.freeinode, blocksFor (update C i (C i ++ p) j).length ≤
      ∑ j ∈ Finset.range last, blocksFor (A j) :=
    (Finset.sum_le_sum fun j _ => blocksFor_mono (hA j)).trans
      (Finset.sum_le_sum_of_subset (Finset.range_subset_range.mpr hlast))
  have hblocks := hr.blocks
  have hcount := h.count
  exact h.iappend ⟨hi, by omega⟩ hlt hp (hlen.trans (hr.size i)) (by omega)

lemma Inv.reads {bufs : List (List ℕ)} (hp : ∀ buf ∈ bufs, ∀ b ∈ buf, b < 256)
    (hA : ∀ j, (update C i (C i ++ bufs.flatten) j).length ≤ A j) :
    ∃ m', bufs.foldlM (fun m buf => m.iappend i buf) m = some m' ∧ m'.Inv (update C i (C i ++ bufs.flatten)) ∧
      m'.freeinode = m.freeinode := by
  induction bufs generalizing m C with
  | nil =>
    refine ⟨m, rfl, ?_, rfl⟩
    rw [flatten_nil, append_nil, update_eq_self]
    exact h
  | cons buf bufs ih =>
    have hA' : ∀ j, (update C i (C i ++ buf) j).length ≤ A j := by
      intro j
      refine le_trans ?_ (hA j)
      by_cases hj : j = i
      · subst hj
        simp only [update_self, flatten_cons, length_append]
        omega
      · rw [update_of_ne hj, update_of_ne hj]
    obtain ⟨m1, hrun, hinv, hfi⟩ := h.append hr hlast hi hlt (hp buf mem_cons_self) hA'
    have hall : update (update C i (C i ++ buf)) i
        (update C i (C i ++ buf) i ++ bufs.flatten) = update C i (C i ++ (buf :: bufs).flatten) := by
      rw [update_self, update_idem, flatten_cons, append_assoc]
    obtain ⟨m2, hrest, hinv2, hfi2⟩ := ih hinv (by omega) (by omega)
      (fun b hb => hp b (mem_cons_of_mem _ hb)) (by rwa [hall])
    rw [hall] at hinv2
    refine ⟨m2, ?_, hinv2, hfi2.trans hfi⟩
    rw [foldlM_cons, hrun]
    exact hrest

end

end Mkfs

/-! ### The files -/

lemma HostFile.shortname_str (file : HostFile) : ∀ b ∈ file.shortname, 0 < b ∧ b < 256 := by
  have hbase : ∀ b ∈ basename file.arg, b ∈ file.arg := by
    intro b hb
    unfold basename at hb
    split at hb
    · exact mem_of_mem_drop hb
    · exact hb
  intro b hb
  refine file.arg_str b (hbase b ?_)
  unfold HostFile.shortname at hb
  split at hb
  · exact mem_of_mem_tail hb
  · exact hb

def rootEntries (files : List HostFile) : List (Name × ℕ) :=
  (dot, ROOTINO) :: (dotdot, ROOTINO) :: (files.zipIdx 2).map fun x => (x.1.shortname, x.2)

def fileContents (files : List HostFile) (i : ℕ) : List ℕ :=
  if i = ROOTINO then (rootEntries files).flatMap fun x => direntBytes x.1 x.2
  else if 2 ≤ i then ((files[i - 2]?).map HostFile.contents).getD [] else []

lemma rootEntries_append (files rest : List HostFile) : rootEntries (files ++ rest) =
    rootEntries files ++ (rest.zipIdx (2 + files.length)).map fun x => (x.1.shortname, x.2) := by
  unfold rootEntries
  rw [zipIdx_append, map_append]
  rfl

lemma length_rootEntries (files : List HostFile) : (rootEntries files).length = files.length + 2 := by
  simp [rootEntries]

lemma length_direntBytes (name : Name) (inum : ℕ) : (direntBytes name inum).length = 16 := by
  simp [direntBytes]

lemma direntBytes_lt (name : Name) (inum : ℕ) : ∀ b ∈ direntBytes name inum, b < 256 := by
  intro b hb
  obtain ⟨j, -, rfl⟩ := mem_map.mp hb
  exact Nat.mod_lt _ (by decide)

lemma length_fileContents_root (files : List HostFile) :
    (fileContents files ROOTINO).length = 16 * (files.length + 2) := by
  unfold fileContents
  rw [if_pos rfl, length_flatMap, ← length_rootEntries]
  simp only [length_direntBytes]
  rw [map_const', sum_replicate_nat, Nat.mul_comm]

lemma fileContents_file {files : List HostFile} :
    fileContents files (k + 2) = ((files[k]?).map HostFile.contents).getD [] := by
  have hroot : k + 2 ≠ ROOTINO := by
    show k + 2 ≠ 1
    omega
  unfold fileContents
  rw [if_neg hroot, if_pos (by omega), Nat.add_sub_cancel]

lemma fileContents_append (files : List HostFile) (file : HostFile) :
    fileContents (files ++ [file]) = update (update (fileContents files) ROOTINO
      (fileContents files ROOTINO ++ direntBytes file.shortname (files.length + 2))) (files.length + 2) file.contents := by
  funext i
  by_cases hroot : i = ROOTINO
  · subst hroot
    have hne : ROOTINO ≠ files.length + 2 := by
      show 1 ≠ files.length + 2
      omega
    rw [update_of_ne hne, update_self]
    unfold fileContents
    rw [if_pos rfl, if_pos rfl, rootEntries_append, flatMap_append]
    simp [Nat.add_comm]
  · by_cases hnew : i = files.length + 2
    · rw [hnew, update_self, fileContents_file, getElem?_concat_length]
      rfl
    · rw [update_of_ne hnew, update_of_ne hroot]
      unfold fileContents
      rw [if_neg hroot, if_neg hroot]
      by_cases h2 : 2 ≤ i
      · rw [if_pos h2, if_pos h2]
        by_cases hlt : i - 2 < files.length
        · rw [getElem?_append_left hlt]
        · rw [getElem?_eq_none (by rw [length_append, length_singleton]; omega), getElem?_eq_none (by omega)]
      · rw [if_neg h2, if_neg h2]

lemma fileContents_nil :
    fileContents [] = update (fun _ => []) ROOTINO (direntBytes dot ROOTINO ++ direntBytes dotdot ROOTINO) := by
  funext i
  unfold fileContents
  by_cases hroot : i = ROOTINO
  · rw [hroot, if_pos rfl, update_self]
    rfl
  · rw [if_neg hroot, update_of_ne hroot]
    split <;> rfl

lemma length_fileContents_le (files rest : List HostFile) (i : ℕ) :
    (fileContents files i).length ≤ (fileContents (files ++ rest) i).length := by
  induction rest using List.reverseRecOn with
  | nil => rw [append_nil]
  | append_singleton rest file ih =>
    refine ih.trans ?_
    rw [← append_assoc, fileContents_append]
    by_cases hnew : i = (files ++ rest).length + 2
    · rw [hnew, fileContents_file, getElem?_eq_none le_rfl]
      exact Nat.zero_le _
    · rw [update_of_ne hnew]
      by_cases hroot : i = ROOTINO
      · rw [hroot, update_self, length_append]
        exact Nat.le_add_right _ _
      · rw [update_of_ne hroot]

def usedBlocks (files : List HostFile) : ℕ :=
  mkfsSb.nmeta + (blocksFor (16 * (files.length + 2)) + (files.map fun file => blocksFor file.contents.length).sum)

lemma sum_fileContents (files : List HostFile) :
    ∑ i ∈ Finset.range (files.length + 2), blocksFor (fileContents files i).length =
      blocksFor (16 * (files.length + 2)) + (files.map fun file => blocksFor file.contents.length).sum := by
  have hfiles : ∑ k ∈ Finset.range files.length, blocksFor (fileContents files (k + 2)).length =
      (files.map fun file => blocksFor file.contents.length).sum := by
    induction files using List.reverseRecOn with
    | nil => rfl
    | append_singleton files file ih =>
      rw [length_append, length_singleton, Finset.sum_range_succ, map_append, sum_append, ← ih]
      congr 1
      · refine Finset.sum_congr rfl fun k hk => ?_
        rw [fileContents_file, fileContents_file, getElem?_append_left (Finset.mem_range.mp hk)]
      · rw [fileContents_file, getElem?_concat_length]
        simp
  rw [Finset.sum_range_succ', Finset.sum_range_succ', hfiles]
  have hroot : (fileContents files (0 + 1)).length = 16 * (files.length + 2) := length_fileContents_root files
  have hzero : blocksFor (fileContents files 0).length = 0 := by simp [fileContents, blocksFor]
  rw [hroot, hzero]
  omega

lemma appendDirent_eq (m : Mkfs) (inum target : ℕ) {name : Name} (h : ∀ b ∈ name, b < 256) :
    m.appendDirent inum target name = m.iappend inum (direntBytes name target) := by
  unfold Mkfs.appendDirent direntBytes
  congr 1
  refine map_congr_left fun k _ => (Nat.mod_eq_of_lt ?_).symm
  unfold dirent
  rw [Option.getD_some]
  split
  · exact Nat.mod_lt _ (by decide)
  · by_cases hk : k - 2 < name.length
    · rw [getD_eq_getElem _ _ hk]
      exact h _ (getElem_mem hk)
    · rw [getD_eq_default _ _ (by omega)]
      decide

section

variable {m : Mkfs} {A : ℕ → ℕ} {last : ℕ} (hr : Mkfs.Room A last)

include hr

lemma Mkfs.Inv.addFile {files : List HostFile} {file : HostFile} (h : m.Inv (fileContents files))
    (hfi : m.freeinode = files.length + 2) (hlast : files.length + 3 ≤ last)
    (hA : ∀ j, (fileContents (files ++ [file]) j).length ≤ A j) (hslash : 47 ∉ basename file.arg)
    (hlen : file.shortname.length ≤ DIRSIZ) :
    ∃ m', m.addFile file = some m' ∧ m'.Inv (fileContents (files ++ [file])) ∧ m'.freeinode = files.length + 3 := by
  have hinodes := hr.inodes
  have hroot : m.freeinode ≠ ROOTINO := by
    show m.freeinode ≠ 1
    omega
  have hempty : fileContents files m.freeinode = [] := by
    rw [hfi, fileContents_file, getElem?_eq_none le_rfl]
    rfl
  have h1 := h.ialloc ⟨by omega, by omega⟩ hempty
  rw [if_neg hroot] at h1
  have hfi1 : (m.ialloc T_FILE).1.freeinode = files.length + 3 := by
    show m.freeinode + 1 = _
    omega
  have hA1 : ∀ j, (update (fileContents files) ROOTINO (fileContents files ROOTINO ++
      direntBytes file.shortname (files.length + 2)) j).length ≤ A j := by
    intro j
    refine le_trans ?_ (hA j)
    rw [fileContents_append]
    by_cases hj : j = files.length + 2
    · have hne : files.length + 2 ≠ ROOTINO := by rw [← hfi]; exact hroot
      rw [hj, update_of_ne hne, ← hfi, hempty]
      exact Nat.zero_le _
    · rw [update_of_ne hj]
  obtain ⟨m2, hrun2, h2, hfi2⟩ := h1.append hr (by omega) (by decide : 0 < ROOTINO)
    (by rw [hfi1]; show 1 < _; omega) (direntBytes_lt file.shortname (files.length + 2)) hA1
  have hnext : update (fileContents files) ROOTINO (fileContents files ROOTINO ++
      direntBytes file.shortname (files.length + 2)) (files.length + 2) = [] := by
    rw [update_of_ne (by rwa [← hfi]), ← hfi, hempty]
  obtain ⟨m3, hrun3, h3, hfi3⟩ := h2.reads hr (by omega) (by omega : 0 < files.length + 2) (by omega) file.reads_byte
    (by rw [hnext, nil_append]; rw [fileContents_append] at hA; exact hA)
  rw [hnext, nil_append] at h3
  refine ⟨m3, ?_, by rw [fileContents_append]; exact h3, by omega⟩
  unfold Mkfs.addFile
  rw [if_neg hslash, if_neg (by omega)]
  show ((m.ialloc T_FILE).1.appendDirent ROOTINO m.freeinode file.shortname >>= fun m1 =>
    file.reads.foldlM (fun m2 buf => Mkfs.iappend m2 m.freeinode buf) m1) = some m3
  rw [appendDirent_eq _ _ _ fun b hb => (file.shortname_str b hb).2, hfi, hrun2]
  exact hrun3

lemma Mkfs.Inv.addFiles {files rest : List HostFile} (h : m.Inv (fileContents files))
    (hfi : m.freeinode = files.length + 2) (hlast : (files ++ rest).length + 2 ≤ last)
    (hA : ∀ j, (fileContents (files ++ rest) j).length ≤ A j) (hslash : ∀ file ∈ rest, 47 ∉ basename file.arg)
    (hlen : ∀ file ∈ rest, file.shortname.length ≤ DIRSIZ) :
    ∃ m', rest.foldlM Mkfs.addFile m = some m' ∧ m'.Inv (fileContents (files ++ rest)) ∧
      m'.freeinode = (files ++ rest).length + 2 := by
  induction rest generalizing files m with
  | nil =>
    refine ⟨m, rfl, ?_, ?_⟩
    · rw [append_nil]
      exact h
    · rw [append_nil]
      exact hfi
  | cons file rest ih =>
    rw [append_cons] at hlast hA ⊢
    obtain ⟨m1, hrun, h1, hfi1⟩ := h.addFile hr hfi
      (by rw [length_append, length_append, length_singleton] at hlast; omega)
      (fun j => (length_fileContents_le _ rest j).trans (hA j)) (hslash file mem_cons_self)
      (hlen file mem_cons_self)
    obtain ⟨m2, hrest, h2, hfi2⟩ := ih h1 (by rw [hfi1, length_append, length_singleton]) hlast hA
      (fun f hf => hslash f (mem_cons_of_mem _ hf)) fun f hf => hlen f (mem_cons_of_mem _ hf)
    refine ⟨m2, ?_, h2, hfi2⟩
    rw [foldlM_cons, hrun]
    exact hrest

end

/-! ### The image -/

lemma Mkfs.balloc_fixRoot {m : Mkfs} (h : m.freeblock < BPB) :
    (m.fixRoot.balloc m.fixRoot.freeblock).map Mkfs.disk = some m.fixRoot.image := by
  have hused : m.fixRoot.freeblock < BPB := h
  unfold Mkfs.balloc
  rw [if_pos hused]
  rfl

/-- **`mkfs`** writes all files. -/
lemma mkfs_spec {files : List HostFile} (hinodes : files.length + 2 ≤ mkfsSb.ninodes)
    (hsize : ∀ file ∈ files, file.contents.length ≤ MAXFILE * BSIZE) (hblocks : usedBlocks files ≤ mkfsSb.size)
    (hslash : ∀ file ∈ files, 47 ∉ basename file.arg) (hlen : ∀ file ∈ files, file.shortname.length ≤ DIRSIZ) :
    ∃ m : Mkfs, mkfs files = some m.fixRoot.image ∧ m.Inv (fileContents files) ∧ m.freeinode = files.length + 2 ∧
      m.freeblock = usedBlocks files := by
  have hr : Mkfs.Room (fun i => (fileContents files i).length) (files.length + 2) := by
    refine ⟨fun i => ?_, ?_, hinodes⟩
    · have hM : MAXFILE * BSIZE = 274432 := rfl
      have hN : mkfsSb.ninodes = 200 := rfl
      by_cases hroot : i = ROOTINO
      · rw [hroot, length_fileContents_root]
        omega
      · unfold fileContents
        rw [if_neg hroot]
        split
        · cases hfile : files[i - 2]? with
          | none => exact Nat.zero_le _
          | some file => exact hsize file (mem_of_getElem? hfile)
        · exact Nat.zero_le _
    · rw [sum_fileContents]
      exact hblocks
  have hA : ∀ j, (fileContents [] j).length ≤ (fileContents files j).length := fun j => length_fileContents_le [] files j
  have h1 := Mkfs.start_inv.ialloc (by decide) rfl
  rw [if_pos (show Mkfs.start.freeinode = ROOTINO from rfl)] at h1
  have hfi1 : (Mkfs.start.ialloc T_DIR).1.freeinode = 2 := rfl
  -- the entries `.` and `..`
  have hlt : ROOTINO < (Mkfs.start.ialloc T_DIR).1.freeinode := by decide
  obtain ⟨m2, hrun2, h2, hfi2⟩ := h1.append hr (by rw [hfi1]; omega) (by decide : 0 < ROOTINO) hlt
    (direntBytes_lt dot ROOTINO) (by
    intro j
    refine le_trans ?_ (hA j)
    rw [fileContents_nil]
    by_cases hj : j = ROOTINO
    · rw [hj, update_self, update_self, nil_append, length_append]
      exact Nat.le_add_right _ _
    · rw [update_of_ne hj, update_of_ne hj])
  have hboth : update (update (fun _ => []) ROOTINO ([] ++ direntBytes dot ROOTINO)) ROOTINO
      (update (fun _ => []) ROOTINO ([] ++ direntBytes dot ROOTINO) ROOTINO ++ direntBytes dotdot ROOTINO) =
      fileContents [] := by
    rw [update_self, update_idem, nil_append, fileContents_nil]
  obtain ⟨m3, hrun3, h3, hfi3⟩ := h2.append hr (by rw [hfi2, hfi1]; omega) (by decide : 0 < ROOTINO)
    (by rwa [hfi2])
    (direntBytes_lt dotdot ROOTINO) (by rwa [hboth])
  rw [hboth] at h3
  obtain ⟨m, hrun, hinv, hfi⟩ := h3.addFiles hr (by rw [hfi3, hfi2, hfi1]; rfl) le_rfl (fun _ => le_rfl) hslash hlen
  have hcount : m.freeblock = usedBlocks files := by
    rw [hinv.count, hfi, nil_append, sum_fileContents]
    rfl
  have hB : BPB = 8192 := rfl
  have hS : mkfsSb.size = 2000 := rfl
  refine ⟨m, ?_, hinv, hfi, hcount⟩
  rw [← Mkfs.balloc_fixRoot (by omega)]
  show ((Mkfs.start.ialloc T_DIR).1.appendDirent ROOTINO ROOTINO dot >>= fun m1 =>
    m1.appendDirent ROOTINO ROOTINO dotdot >>= fun m1 => files.foldlM Mkfs.addFile m1 >>= fun m1 =>
    m1.fixRoot.balloc m1.fixRoot.freeblock >>= fun m1 => pure m1.disk) = _
  rw [appendDirent_eq _ _ _ (by decide), hrun2]
  show (m2.appendDirent ROOTINO ROOTINO dotdot >>= fun m1 => files.foldlM Mkfs.addFile m1 >>= fun m1 =>
    m1.fixRoot.balloc m1.fixRoot.freeblock >>= fun m1 => pure m1.disk) = _
  rw [appendDirent_eq _ _ _ (by decide), hrun3]
  show (files.foldlM Mkfs.addFile m3 >>= fun m1 =>
    m1.fixRoot.balloc m1.fixRoot.freeblock >>= fun m1 => pure m1.disk) = _
  rw [hrun]
  show (m.fixRoot.balloc m.fixRoot.freeblock >>= fun m1 => pure m1.disk) = _
  cases m.fixRoot.balloc m.fixRoot.freeblock <;> rfl

end Xv6.Fs
