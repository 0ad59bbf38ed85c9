import Xv6.Fs.MkfsImage

/-!
# The kernel reads the image of `mkfs`
-/

namespace Xv6.Fs

open Lib Log List

variable {P : Type}

/-! ### The rounded size of the root -/

def rootInode (m : Mkfs) : Dinode :=
  { dinode mkfsSb m.image ROOTINO with size := ((dinode mkfsSb m.image ROOTINO).size / BSIZE + 1) * BSIZE }

variable {k i : ℕ} {file : HostFile} {s : State P} {ok : Stop → Prop} {e : Fin NINODE}

lemma getD_flatMap {α : Type} {f : α → List ℕ} {w : ℕ} (hw : ∀ a, (f a).length = w) {l : List α} {j : ℕ}
    (hk : k < l.length) (hj : j < w) : (l.flatMap f).getD (w * k + j) 0 = (f l[k]).getD j 0 := by
  induction l generalizing k with
  | nil => cases hk
  | cons a l ih =>
    rw [flatMap_cons]
    cases k with
    | zero => rw [Nat.mul_zero, Nat.zero_add, getD_append _ _ _ _ (by rwa [hw]), getElem_cons_zero]
    | succ k =>
      rw [length_cons] at hk
      rw [getD_append_right _ _ _ _ (by rw [hw, Nat.mul_succ]; omega), hw,
        show w * (k + 1) + j - w = w * k + j by rw [Nat.mul_succ]; omega, ih (by omega), getElem_cons_succ]

lemma rootEntries_spec {files : List HostFile} (hgood : ∀ file ∈ files, file.shortname.length ≤ DIRSIZ)
    (hdistinct : (files.map HostFile.shortname).Nodup) (hfile : files[k]? = some file)
    (hdots : file.shortname ≠ dot ∧ file.shortname ≠ dotdot) (hle : n ≤ k + 2) (hn : n < (rootEntries files).length) :
    GoodName (rootEntries files)[n].1 ∧ 0 < (rootEntries files)[n].2 ∧ (rootEntries files)[n].2 ≤ n + 1 ∧
      (file.shortname = (rootEntries files)[n].1 ↔ n = k + 2) ∧ (n = k + 2 → (rootEntries files)[n].2 = k + 2) := by
  have hk := (List.getElem?_eq_some_iff.mp hfile).1
  have hlen := length_rootEntries files
  match n with
  | 0 =>
    rw [show (rootEntries files)[0] = (dot, ROOTINO) from rfl]
    refine ⟨⟨by decide, by decide⟩, by decide, by decide, ?_, fun hc => by omega⟩
    exact iff_of_false hdots.1 (by omega)
  | 1 =>
    rw [show (rootEntries files)[1] = (dotdot, ROOTINO) from rfl]
    refine ⟨⟨by decide, by decide⟩, by decide, by decide, ?_, fun hc => by omega⟩
    exact iff_of_false hdots.2 (by omega)
  | n + 2 =>
    have hlt : n < files.length := by omega
    have hentry : (rootEntries files)[n + 2] = (files[n].shortname, n + 2) := by
      simp [rootEntries, Nat.add_comm]
    rw [hentry]
    refine ⟨⟨hgood _ (getElem_mem hlt), files[n].shortname_str⟩, by omega, by omega, ?_, fun hc => hc⟩
    constructor
    · intro hname
      have hk' : k < (files.map HostFile.shortname).length := by simpa using hk
      have hlt' : n < (files.map HostFile.shortname).length := by simpa using hlt
      have hsame : (files.map HostFile.shortname)[k] = (files.map HostFile.shortname)[n] ↔ k = n :=
        hdistinct.getElem_inj_iff
      rw [getElem_map, getElem_map, (List.getElem?_eq_some_iff.mp hfile).2] at hsame
      rw [hsame.mp hname]
    · intro hc
      have hnk : n = k := by omega
      subst hnk
      rw [(List.getElem?_eq_some_iff.mp hfile).2]

/-- Entry `e` of the inode table holds inode `i` of the disk `d`, as `ilock` reads it. -/
structure Cached (d : Disk) (i : ℕ) (s : State P) (e : Fin NINODE) : Prop where
  disk : s.disk = d
  inum : (s.ino e).inum = i
  copy : (s.ino e).d = dinode mkfsSb d i

lemma iget_free {inum : ℕ} (hfree : ∃ e', (s.ino e').ref = 0) :
    wp (iget inum) ok (fun e' s' => s'.disk = s.disk ∧ (s'.ino e').inum = inum) s := by
  simp only [iget, wp_bind, wp_read]
  cases hin : (List.finRange NINODE).find? fun e => 0 < (s.ino e).ref ∧ (s.ino e).inum = inum with
  | some e =>
    have he := find?_some hin
    simp only [decide_eq_true_eq] at he
    simp only [setInode, wp_bind, wp_modify, wp_pure]
    refine ⟨rfl, ?_⟩
    exact (congrArg Inode.inum (Function.update_self e _ s.ino)).trans he.2
  | none =>
    cases hout : (List.finRange NINODE).find? fun e => (s.ino e).ref = 0 with
    | some e =>
      simp only [setInode, wp_bind, wp_modify, wp_pure]
      exact ⟨rfl, congrArg Inode.inum (Function.update_self e _ s.ino)⟩
    | none =>
      obtain ⟨e', he'⟩ := hfree
      exact absurd he' (by simpa using find?_eq_none.mp hout e' (mem_finRange e'))

namespace Mkfs.Inv

variable {m : Mkfs} {files : List HostFile} (h : m.Inv (fileContents files)) (hfi : m.freeinode = files.length + 2)
  (hinodes : files.length + 2 ≤ mkfsSb.ninodes)

lemma inum_root : mkfsSb.Inum ROOTINO := by decide

include h hfi

lemma holds_root : m.Holds ROOTINO (fileContents files ROOTINO) :=
  h.files ROOTINO inum_root (by rw [hfi]; show 1 < _; omega)

lemma size_root : (dinode mkfsSb m.image ROOTINO).size = 16 * (files.length + 2) := by
  rw [(h.holds_root hfi).size, length_fileContents_root]

omit h hfi in
lemma fixRoot_image : m.fixRoot.image = putDinode mkfsSb m.image ROOTINO (rootInode m) := by
  unfold Mkfs.fixRoot rootInode
  rw [← Mkfs.dinode_image inum_root]
  exact Mkfs.image_winode inum_root _

include hinodes

lemma dinode_root : dinode mkfsSb m.fixRoot.image ROOTINO = rootInode m := by
  have hN : mkfsSb.ninodes = 200 := rfl
  have hB : BSIZE = 1024 := rfl
  have hsmall : (rootInode m).Small := by
    refine Growing.small_setSize (small_dinode _ _ _) ?_
    rw [h.size_root hfi, hB]
    omega
  rw [fixRoot_image, dinode_putDinode mkfsSb _ _ hsmall]

lemma size_fixRoot : (dinode mkfsSb m.fixRoot.image ROOTINO).size = (16 * (files.length + 2) / 1024 + 1) * 1024 := by
  rw [h.dinode_root hfi hinodes, ← h.size_root hfi]
  rfl

lemma type_fixRoot : (dinode mkfsSb m.fixRoot.image ROOTINO).type = T_DIR := by
  rw [h.dinode_root hfi hinodes]
  show (dinode mkfsSb m.image ROOTINO).type = T_DIR
  rw [(h.holds_root hfi).type, if_pos rfl]

omit h hfi hinodes in
lemma dinode_file (hi : i ≠ ROOTINO) : dinode mkfsSb m.fixRoot.image i = dinode mkfsSb m.image i := by
  rw [fixRoot_image, dinode_putDinode_of_ne mkfsSb _ _ hi]

lemma slot_fixRoot : slot mkfsSb (dinode mkfsSb m.fixRoot.image) m.fixRoot.image =
    slot mkfsSb (dinode mkfsSb m.image) m.image := by
  refine slot_data h.marked (fun i _ => ?_) fun b hb => ?_
  · by_cases hi : i = ROOTINO
    · rw [hi, h.dinode_root hfi hinodes]
      exact ⟨rfl, rfl⟩
    · rw [dinode_file hi]
      exact ⟨rfl, rfl⟩
  · rw [fixRoot_image, putDinode_data mkfsSb_layout inum_root hb]

lemma image_byte (hi : mkfsSb.Inum i) (hlt : i < files.length + 2)
    (hslot : slot mkfsSb (dinode mkfsSb m.fixRoot.image) m.fixRoot.image (i, dataSlot (x / BSIZE)) ≠ 0) :
    dataByte mkfsSb (dinode mkfsSb m.fixRoot.image) m.fixRoot.image i x = (fileContents files i).getD x 0 := by
  rw [h.slot_fixRoot hfi hinodes] at hslot
  rw [← (h.files i hi (by omega)).bytes x hslot]
  unfold dataByte
  rw [h.slot_fixRoot hfi hinodes, fixRoot_image, putDinode_data mkfsSb_layout inum_root (h.marked.data hslot).1]

lemma image_bytes (hi : mkfsSb.Inum i) (hlt : i < files.length + 2) (hx : x < (fileContents files i).length) :
    slot mkfsSb (dinode mkfsSb m.fixRoot.image) m.fixRoot.image (i, dataSlot (x / BSIZE)) ≠ 0 ∧
      dataByte mkfsSb (dinode mkfsSb m.fixRoot.image) m.fixRoot.image i x = (fileContents files i).getD x 0 := by
  have hslot := (h.files i hi (by omega)).full (x / BSIZE) (lt_of_le_of_lt (Nat.mul_div_le x BSIZE) hx)
  rw [← h.slot_fixRoot hfi hinodes] at hslot
  exact ⟨hslot, h.image_byte hfi hinodes hi hlt hslot⟩

lemma slot_root (n : ℕ) : slot mkfsSb (dinode mkfsSb m.fixRoot.image) m.fixRoot.image (ROOTINO, dataSlot n) ≠ 0 ↔
    BSIZE * n < 16 * (files.length + 2) := by
  have hroot := h.holds_root hfi
  rw [h.slot_fixRoot hfi hinodes, ← length_fileContents_root]
  refine ⟨fun hne => ?_, hroot.full n⟩
  by_contra hlt
  exact hne (hroot.tight n (Nat.not_lt.mp hlt))

/-! ### Files -/

lemma readsAs_file (hfile : files[k]? = some file) (hs : Cached m.fixRoot.image (k + 2) s e) :
    (s.ino e).d.type = T_FILE ∧ (s.ino e).d.size = file.contents.length ∧
      ReadsAs mkfsSb s e fun x => file.contents.getD x 0 := by
  have hk := (List.getElem?_eq_some_iff.mp hfile).1
  have hi : mkfsSb.Inum (k + 2) := ⟨by omega, by omega⟩
  have hne : k + 2 ≠ ROOTINO := by
    show k + 2 ≠ 1
    omega
  have hcontents : fileContents files (k + 2) = file.contents := by
    rw [fileContents_file, hfile]
    rfl
  have hcopy : (s.ino e).d = dinode mkfsSb m.image (k + 2) := by rw [hs.copy, dinode_file hne]
  have hsize : (s.ino e).d.size = file.contents.length := by
    rw [hcopy, (h.files (k + 2) hi (by omega)).size, hcontents]
  have htype : (s.ino e).d.type = T_FILE := by
    rw [hcopy, (h.files (k + 2) hi (by omega)).type, if_neg hne]
  have hbytes : ∀ x, x < (s.ino e).d.size → x < (fileContents files (k + 2)).length := by
    intro x hx
    rw [hcontents, ← hsize]
    exact hx
  refine ⟨htype, hsize, readsAs_of_below (D := dinode mkfsSb m.fixRoot.image) (by rw [hs.inum, hs.copy]) (by rwa [hs.inum])
    (by rw [htype]; decide) (fun x hx => ?_) fun x hx => ?_⟩
  · rw [hs.inum, hs.disk]
    exact (h.image_bytes hfi hinodes hi (by omega) (hbytes x hx)).1
  · rw [hs.inum, hs.disk, (h.image_bytes hfi hinodes hi (by omega) (hbytes x hx)).2, hcontents]

/-! ### The root directory -/

lemma readDirent_root (hk : k < (rootEntries files).length) (hs : Cached m.fixRoot.image ROOTINO s e) {p : Panic} :
    wp (readDirent mkfsSb e p k) ok (fun de s' => s' = s ∧
      de = direntBytes (rootEntries files)[k].1 (rootEntries files)[k].2) s := by
  have hN : mkfsSb.ninodes = 200 := rfl
  have hB : BSIZE = 1024 := rfl
  have hlen := length_rootEntries files
  have hroot : ROOTINO < files.length + 2 := by
    show 1 < _
    omega
  have hsize := h.size_fixRoot hfi hinodes
  have htype := h.type_fixRoot hfi hinodes
  rw [← hs.copy] at hsize htype
  have hbytes : ∀ j < 16, 16 * k + j < (fileContents files ROOTINO).length := by
    intro j hj
    rw [length_fileContents_root]
    omega
  have hguard : ¬ (16 * k > (s.ino e).d.size ∨ (16 * k + 16) % 2 ^ 32 < 16 * k) := by
    rw [hsize]
    omega
  have hcount : (if 16 * k + 16 > (s.ino e).d.size then (s.ino e).d.size - 16 * k else 16) = 16 := by
    rw [hsize]
    exact if_neg (by omega)
  simp only [readDirent, readi, inode, wp_bind, wp_read, wp_pure]
  rw [if_neg hguard, hcount]
  refine (readLoop_range (D := dinode mkfsSb m.fixRoot.image) (by rw [hs.inum, hs.copy]) (by rw [hs.inum]; exact inum_root)
    (by rw [htype]; decide) 16 (16 * k) 16 le_rfl fun x h1 h2 => ?_).mono ?_
  · rw [hs.inum, hs.disk]
    have hx := hbytes (x - 16 * k) (by omega)
    rw [Nat.add_sub_cancel' h1] at hx
    exact (h.image_bytes hfi hinodes inum_root hroot hx).1
  · rintro bytes s' ⟨rfl, rfl⟩
    have hentry : dataBytes mkfsSb (dinode mkfsSb m.fixRoot.image) s'.disk (s'.ino e).inum (16 * k) 16 =
        direntBytes (rootEntries files)[k].1 (rootEntries files)[k].2 := by
      rw [hs.inum, hs.disk]
      refine ext_getElem (by rw [length_direntBytes]; simp [dataBytes]) fun j h1 h2 => ?_
      rw [length_direntBytes] at h2
      have hx := hbytes j h2
      simp only [dataBytes, getElem_map, getElem_range]
      rw [(h.image_bytes hfi hinodes inum_root hroot hx).2]
      unfold fileContents
      rw [if_pos rfl, getD_flatMap (fun x => length_direntBytes x.1 x.2) hk h2, getD_eq_getElem]
    rw [hentry, if_pos (length_direntBytes _ _)]
    exact ⟨rfl, rfl⟩

/-- **`dirlookup`** on the root finds the file. -/
lemma dirlookup_root (hgood : ∀ file ∈ files, file.shortname.length ≤ DIRSIZ)
    (hdistinct : (files.map HostFile.shortname).Nodup) (hfile : files[k]? = some file)
    (hdots : file.shortname ≠ dot ∧ file.shortname ≠ dotdot) (hs : Cached m.fixRoot.image ROOTINO s e)
    (hfree : ∃ e', (s.ino e').ref = 0) :
    wp (dirlookup mkfsSb e file.shortname) ok (fun r s' => ∃ e' off, r = some (e', off) ∧ s'.disk = s.disk ∧
      (s'.ino e').inum = k + 2) s := by
  have hN : mkfsSb.ninodes = 200 := rfl
  have hk := (List.getElem?_eq_some_iff.mp hfile).1
  have hlen := length_rootEntries files
  have htype := h.type_fixRoot hfi hinodes
  rw [← hs.copy] at htype
  have hcount : k + 2 < direntCount (s.ino e).d.size := by
    rw [hs.copy, h.size_fixRoot hfi hinodes]
    unfold direntCount
    omega
  simp only [dirlookup, inode, wp_bind, wp_read, wp_pure]
  rw [if_neg (not_not.mpr htype)]
  -- the entries before that of the file have other names
  refine wp_findM_range (I := fun n s' => s' = s ∧ n ≤ k + 2) ?_ ?_ s ⟨rfl, Nat.zero_le _⟩
  · rintro n _ hn ⟨rfl, hle⟩
    rw [wp_bind]
    refine (h.readDirent_root hfi hinodes (by omega : n < (rootEntries files).length) hs).mono ?_
    rintro de _ ⟨rfl, rfl⟩
    obtain ⟨hgoodName, hpos, hsmall, hname, hinum⟩ :=
      rootEntries_spec hgood hdistinct hfile hdots hle (by omega : n < (rootEntries files).length)
    rw [deInum_direntBytes _ (by omega), deName_direntBytes hgoodName, if_neg hpos.ne']
    by_cases hlast : n = k + 2
    · rw [if_pos (hname.mpr hlast), wp_bind]
      refine (iget_free hfree).mono ?_
      rintro e' s' ⟨hdisk, hfound⟩
      exact ⟨e', _, rfl, hdisk, by rw [hfound, hinum hlast]⟩
    · rw [if_neg fun hc => hlast (hname.mp hc)]
      exact ⟨rfl, by omega⟩
  · rintro _ ⟨rfl, hle⟩
    omega

end Mkfs.Inv

/-! ### `mkfs` and the kernel -/

lemma HostFile.slash_basename (h : 47 ∉ file.shortname) : 47 ∉ basename file.arg := by
  intro hmem
  refine h ?_
  unfold HostFile.shortname
  split
  · rename_i hhead
    cases hbase : basename file.arg with
    | nil =>
      rw [hbase] at hmem
      cases hmem
    | cons b rest =>
      rw [hbase] at hhead hmem
      cases hhead
      exact (mem_cons.mp hmem).resolve_left (by decide)
  · exact hmem

lemma map_getD_range (l : List ℕ) (off n : ℕ) :
    (List.range (min n (l.length - off))).map (fun k => l.getD (off + k) 0) = (l.drop off).take n := by
  refine ext_getElem (by simp) fun k h1 h2 => ?_
  simp only [length_map, length_range] at h1
  simp only [getElem_map, getElem_range, getElem_take, getElem_drop]
  exact getD_eq_getElem _ _ (by omega)

/-- **`mkfs` and the kernel agree on the format.**  When the files fit, `mkfs` writes an image whose free map has the
blocks in use and no other.  On an entry that holds the root of the image `dirlookup` finds every file by its name,
and on an entry that holds the inode found `readi` returns the bytes of the file. -/
theorem mkfs_readable (files : List HostFile)
    (hnames : ∀ file ∈ files, file.shortname.length ≤ DIRSIZ ∧ file.shortname ≠ dot ∧ file.shortname ≠ dotdot ∧
      47 ∉ file.shortname)
    (hdistinct : (files.map HostFile.shortname).Nodup)
    (hsize : ∀ file ∈ files, file.contents.length ≤ MAXFILE * BSIZE)
    (hinodes : files.length + 2 ≤ mkfsSb.ninodes) (hblocks : usedBlocks files ≤ mkfsSb.size) :
    ∃ d, mkfs files = some d ∧ (∀ b < mkfsSb.size, bit mkfsSb d b = decide (b < usedBlocks files)) ∧
      ∀ file ∈ files, ∃ j, (∀ (s : State P) (e : Fin NINODE), Cached d ROOTINO s e → (∃ e', (s.ino e').ref = 0) →
          ∃ e' off s', dirlookup mkfsSb e file.shortname s = .ok (some (e', off), s') ∧ s'.disk = d ∧ (s'.ino e').inum = j) ∧
        ∀ (s : State P) (e : Fin NINODE), Cached d j s e →
          (s.ino e).d.type = T_FILE ∧ (s.ino e).d.size = file.contents.length ∧
          ∀ off n, off + n < 2 ^ 32 → readi mkfsSb e off n s = .ok ((file.contents.drop off).take n, s) := by
  obtain ⟨m, hrun, hinv, hfi, hcount⟩ := mkfs_spec hinodes hsize hblocks
    (fun file hf => HostFile.slash_basename (hnames file hf).2.2.2) fun file hf => (hnames file hf).1
  have hB := size_le_BPB
  refine ⟨m.fixRoot.image, hrun, fun b hb => ?_, fun file hfile => ?_⟩
  · rw [← hcount]
    exact Mkfs.bit_image (m := m.fixRoot) (show m.freeblock ≤ BPB by omega) (by omega)
  · obtain ⟨k, hk⟩ := mem_iff_getElem?.mp hfile
    refine ⟨k + 2, fun s e hs hfree => ?_, fun s e hs => ?_⟩
    · have hlookup : wp (dirlookup mkfsSb e file.shortname) (fun _ => False) _ s := hinv.dirlookup_root hfi hinodes
        (fun f hf => (hnames f hf).1) hdistinct hk ⟨(hnames file hfile).2.1, (hnames file hfile).2.2.1⟩ hs hfree
      obtain ⟨_, s', hok, e', off, rfl, hdisk, hinum⟩ := hlookup.returns
      exact ⟨e', off, s', hok, hdisk.trans hs.disk, hinum⟩
    · obtain ⟨htype, hlen, hreads⟩ := hinv.readsAs_file hfi hinodes hk hs
      refine ⟨htype, hlen, fun off n hoff => ?_⟩
      rw [hreads off n hoff, hlen, map_getD_range]

/-- The file `user/_hi`, read in two pieces. -/
def hiFile : HostFile :=
  ⟨[117, 115, 101, 114, 47, 95, 104, 105], [[104], [105, 10]], by decide, by decide, by decide, by decide⟩

/-- Entry `e` has been locked and holds inode `i`. -/
def holding (d : Disk) (i : ℕ) (e : Fin NINODE) (s : State Unit) : State Unit :=
  s.setIno e fun ip => { ip with d := dinode mkfsSb d i, valid := true, locked := true }

theorem mkfs_readable_hi : ∃ d j e off s', mkfs [hiFile] = some d ∧
      dirlookup mkfsSb 0 [104, 105] (holding d ROOTINO 0 (boot d ())) = .ok (some (e, off), s') ∧
      readi mkfsSb e 1 5 (holding d j e s') = .ok ([105, 10], holding d j e s') := by
  obtain ⟨d, hrun, -, hfile⟩ := mkfs_readable (P := Unit) [hiFile] (by decide) (by decide) (by decide) (by decide)
    (by decide)
  obtain ⟨j, hlookup, hread⟩ := hfile hiFile mem_cons_self
  obtain ⟨e, off, s', hok, hdisk, hinum⟩ := hlookup (holding d ROOTINO 0 (boot d ())) 0 ⟨rfl, rfl, rfl⟩ ⟨1, rfl⟩
  have hself : (holding d j e s').ino e = { s'.ino e with d := dinode mkfsSb d j, valid := true, locked := true } :=
    Function.update_self _ _ _
  obtain ⟨-, -, hbytes⟩ := hread (holding d j e s') e ⟨hdisk, by rw [hself]; exact hinum, by rw [hself]⟩
  exact ⟨d, j, e, off, s', hrun, hok, hbytes 1 5 (by decide)⟩

/-- **The root directory has no hole unless its entries fill its blocks.**  Its size is a multiple of the block size;
each block below it has been allocated exactly if the entries do not fill the last one, and then `bmap` and `readi`
change nothing. -/
theorem mkfs_root_blocks (files : List HostFile)
    (hnames : ∀ file ∈ files, file.shortname.length ≤ DIRSIZ ∧ 47 ∉ basename file.arg)
    (hsize : ∀ file ∈ files, file.contents.length ≤ MAXFILE * BSIZE)
    (hinodes : files.length + 2 ≤ mkfsSb.ninodes) (hblocks : usedBlocks files ≤ mkfsSb.size) :
    ∃ d size, mkfs files = some d ∧ (dinode mkfsSb d ROOTINO).size = size ∧ BSIZE ∣ size ∧ 16 * (files.length + 2) < size ∧
      ((∀ n < size / BSIZE, slot mkfsSb (dinode mkfsSb d) d (ROOTINO, dataSlot n) ≠ 0) ↔ (files.length + 2) % 64 ≠ 0) ∧
      (∀ x, 16 * (files.length + 2) ≤ x → slot mkfsSb (dinode mkfsSb d) d (ROOTINO, dataSlot (x / BSIZE)) ≠ 0 →
        dataByte mkfsSb (dinode mkfsSb d) d ROOTINO x = 0) ∧
      ((files.length + 2) % 64 ≠ 0 → ∀ (s : State P) (e : Fin NINODE), Cached d ROOTINO s e →
        (∀ n < size / BSIZE, bmap mkfsSb e n s = .ok (slot mkfsSb (dinode mkfsSb d) d (ROOTINO, dataSlot n), s)) ∧
        ∀ off n, ∃ bytes, readi mkfsSb e off n s = .ok (bytes, s)) := by
  obtain ⟨m, hrun, h, hfi, -⟩ := mkfs_spec hinodes hsize hblocks (fun file hf => (hnames file hf).2) fun file hf =>
    (hnames file hf).1
  have hB : BSIZE = 1024 := rfl
  have hN : mkfsSb.ninodes = 200 := rfl
  have hM : MAXFILE * BSIZE = 274432 := rfl
  have hend := h.size_fixRoot hfi hinodes
  have hslot := h.slot_root hfi hinodes
  refine ⟨_, _, hrun, hend, Dvd.intro_left _ rfl, by omega, ⟨fun hall => ?_, fun hmod n hn => ?_⟩, fun x hx h0 => ?_,
    fun hmod s e hs => ?_⟩
  · have := (hslot _).mp (hall (16 * (files.length + 2) / 1024) (by rw [hB]; omega))
    rw [hB] at this
    omega
  · exact (hslot n).mpr (by rw [hB] at hn ⊢; omega)
  · rw [h.image_byte hfi hinodes Mkfs.Inv.inum_root (show 1 < _ by omega) h0, getD_eq_default _ _ (by rwa [length_fileContents_root])]
  · have hbelow : ∀ n, 1024 * n < (s.ino e).d.size →
        slot mkfsSb (dinode mkfsSb m.fixRoot.image) s.disk ((s.ino e).inum, dataSlot n) ≠ 0 := by
      intro n hn
      rw [hs.copy, hend] at hn
      rw [hs.disk, hs.inum]
      exact (hslot n).mpr (by rw [hB]; omega)
    have hD : dinode mkfsSb m.fixRoot.image (s.ino e).inum = (s.ino e).d := by rw [hs.inum, hs.copy]
    have hi : mkfsSb.Inum (s.ino e).inum := by rw [hs.inum]; exact Mkfs.Inv.inum_root
    have ht : (s.ino e).d.type ≠ 0 := by rw [hs.copy, h.type_fixRoot hfi hinodes]; decide
    refine ⟨fun n hn => ?_, fun off n => ?_⟩
    · have hmap : wp (bmap mkfsSb e n) (fun _ => False) _ s :=
        bmap_mapped hD hi ht (hbelow n (by rw [hs.copy, hend]; rw [hB] at hn; omega))
      obtain ⟨_, _, hok, rfl, rfl⟩ := hmap.returns
      rw [hok, hs.disk, hs.inum]
    · have hread : wp (readi mkfsSb e off n) (fun _ => False) _ s :=
        readi_data hD hi ht (fun k hk => hbelow _ (by rw [hB]; omega)) off n
      obtain ⟨bytes, _, hok, rfl, -⟩ := hread.returns
      exact ⟨bytes, hok⟩

/-- An empty file. -/
def shortFile (k : ℕ) : HostFile :=
  ⟨[128 + k % 64], [], by intro b hb; rw [mem_singleton.mp hb]; omega, dotFile.reads_pos, dotFile.reads_le, dotFile.reads_byte⟩

theorem mkfs_root_blocks_one : ∃ d, mkfs [shortFile 0] = some d ∧ 48 < (dinode mkfsSb d ROOTINO).size ∧
    slot mkfsSb (dinode mkfsSb d) d (ROOTINO, dataSlot 0) ≠ 0 := by
  obtain ⟨d, size, hrun, rfl, hdvd, hroom, hall, -⟩ := mkfs_root_blocks (P := Unit) [shortFile 0] (by decide) (by decide)
    (by decide) (by decide)
  exact ⟨d, hrun, hroom, hall.mpr (by decide) 0 (Nat.div_pos (Nat.le_of_dvd (by omega) hdvd) (by decide))⟩

/-- With 62 files the entries fill a block, and the second block of the root has not been allocated. -/
theorem mkfs_root_hole : ∃ d, mkfs ((List.range 62).map shortFile) = some d ∧ (dinode mkfsSb d ROOTINO).size = 2 * BSIZE ∧
    slot mkfsSb (dinode mkfsSb d) d (ROOTINO, dataSlot 1) = 0 := by
  have hinodes : ((List.range 62).map shortFile).length + 2 ≤ mkfsSb.ninodes := by decide
  obtain ⟨m, hrun, h, hfi, -⟩ := mkfs_spec hinodes (by decide) (by decide) (by decide) (by decide)
  have hslot := (h.slot_root hfi hinodes 1).not
  exact ⟨_, hrun, h.size_fixRoot hfi hinodes, not_not.mp (hslot.mpr (by decide))⟩

/-- The file `a/b`. -/
def slashFile : HostFile := ⟨[97, 47, 98], [], by decide, dotFile.reads_pos, dotFile.reads_le, dotFile.reads_byte⟩

/-- A name with a slash stops `mkfs`. -/
theorem mkfs_slash :
    0 < slashFile.shortname.length ∧ slashFile.shortname.length ≤ DIRSIZ ∧ slashFile.shortname ≠ dot ∧
      slashFile.shortname ≠ dotdot ∧ usedBlocks [slashFile] ≤ mkfsSb.size ∧ mkfs [slashFile] = none := by
  have hnone : (mkfs [slashFile]).isNone = true := by decide +kernel
  exact ⟨by decide, by decide, by decide, by decide, by decide, Option.isNone_iff_eq_none.mp hnone⟩

end Xv6.Fs
