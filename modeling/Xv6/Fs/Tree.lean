import Xv6.Fs.Blocks

/-!
# Directories as a tree

What the blocks of directories mean: `ent i k` is the `k`-th entry of directory `i`, as the number
and the name it holds.  `Tree` is the file system as the tree calls see it, with the inodes that a
process or an open file holds.
-/

namespace Xv6.Fs

open Lib Log Function List

/-! ### Directory entries in a block -/

/-- The bytes of the `k`-th entry of a directory, in its block `x`. -/
def direntAt (x : Block) (k : ℕ) : List ℕ := (List.range 16).map fun j => x.get (16 * (k % 64) + j)

/-- A name as `create` and `link` get it from a path. -/
def GoodName (name : Name) : Prop := name.length ≤ DIRSIZ ∧ ∀ c ∈ name, 0 < c ∧ c < 256

lemma direntAt_put_self (x : Block) (k : ℕ) (f : ℕ → ℕ) :
    direntAt (x.put (16 * (k % 64)) 16 f) k = (List.range 16).map fun j => f j % 256 := by
  have hB := BSIZE_eq
  refine map_congr_left fun j hj => ?_
  have hj' := mem_range.mp hj
  rw [Bytes.get_put, if_pos (by omega), Nat.add_sub_cancel_left]

lemma direntAt_put_of_ne (x : Block) (f : ℕ → ℕ) (h : k' % 64 ≠ k % 64) :
    direntAt (x.put (16 * (k % 64)) 16 f) k' = direntAt x k' := by
  refine map_congr_left fun j hj => ?_
  have hj' := mem_range.mp hj
  exact Bytes.get_put_of_disjoint x f (by omega)

/-- The bytes of a new entry, as `dirlink` writes them. -/
def direntBytes (name : Name) (inum : ℕ) : List ℕ :=
  (List.range 16).map fun j => ((dirent name inum j).getD 0) % 256

lemma deInum_direntBytes (name : Name) {inum : ℕ} (h : inum < 2 ^ 16) : deInum (direntBytes name inum) = inum := by
  simp [deInum, direntBytes, dirent]
  omega

lemma takeWhile_padded {name : Name} (h : ∀ c ∈ name, 0 < c) (m : ℕ) :
    (name ++ List.replicate m 0).takeWhile (fun c => decide (c ≠ 0)) = name := by
  rw [takeWhile_append_of_pos]
  · cases m with
    | zero => simp
    | succ m => simp [replicate_succ]
  · intro c hc
    have := h c hc
    simp
    omega

lemma deName_direntBytes {name : Name} {inum : ℕ} (h : GoodName name) : deName (direntBytes name inum) = name := by
  obtain ⟨hlen, hbytes⟩ := h
  have hD := DIRSIZ_eq
  have hdrop : ((direntBytes name inum).drop 2).take DIRSIZ =
      name ++ List.replicate (DIRSIZ - name.length) 0 := by
    refine ext_getElem ?_ fun j h1 h2 => ?_
    · simp [direntBytes]
      omega
    · simp only [direntBytes, getElem_take, getElem_drop, getElem_map, getElem_range, dirent, Option.getD_some]
      rw [if_neg (by omega), show 2 + j - 2 = j by omega]
      by_cases hj : j < name.length
      · rw [getElem_append_left hj, getD_eq_getElem _ _ hj]
        exact Nat.mod_eq_of_lt (hbytes _ (getElem_mem hj)).2
      · rw [getElem_append_right (by omega), getElem_replicate, getD_eq_default _ _ (by omega)]
  unfold deName
  rw [hdrop]
  exact takeWhile_padded (fun c hc => (hbytes c hc).1) _

/-! ### The entries of a directory -/

section

variable (sb : Superblock) (D : ℕ → Dinode) (d : Disk)

/-- The block that holds entry `k` of directory `i`. -/
def entBlock (i k : ℕ) : ℕ := slot sb D d (i, dataSlot (k / 64))

/-- The number and the name in entry `k` of directory `i`; the number is 0 where there is none. -/
def ent (i k : ℕ) : ℕ × Name :=
  if (D i).type = T_DIR ∧ 16 * k < (D i).size ∧ entBlock sb D d i k ≠ 0 then
    (deInum (direntAt (d (entBlock sb D d i k)) k), deName (direntAt (d (entBlock sb D d i k)) k))
  else (0, [])

/-- What every directory must have, beyond the free map: blocks for all its entries, and no entry
that names an inode beyond the last. -/
structure Dirs : Prop where
  full : ∀ i, sb.Inum i → (D i).type = T_DIR → ∀ n, n < MAXFILE → BSIZE * n < (D i).size →
    slot sb D d (i, dataSlot n) ≠ 0
  ents : ∀ i k, (ent sb D d i k).1 < sb.ninodes

/-- A directory has a whole number of entries. -/
def Aligned : Prop := ∀ i, sb.Inum i → (D i).type = T_DIR → 16 ∣ (D i).size

/-- No inode is longer than a file may be, and none has a hole. -/
structure Solid : Prop where
  size : ∀ i, sb.Inum i → (D i).type ≠ 0 → (D i).size ≤ MAXFILE * BSIZE
  full : ∀ i, sb.Inum i → (D i).type ≠ 0 → ∀ n, BSIZE * n < (D i).size → slot sb D d (i, dataSlot n) ≠ 0

end

lemma dataSlot_ne (n : ℕ) : dataSlot n ≠ NDIRECT := by
  unfold dataSlot
  split
  · omega
  · omega

lemma dataSlot_inj (h : dataSlot m = dataSlot n) : m = n := by
  unfold dataSlot at h
  split at h
  · split at h
    · exact h
    · omega
  · split at h
    · omega
    · omega

lemma dataSlot_le (h : dataSlot n ≤ MAXFILE) : n < MAXFILE := by
  have hN := NDIRECT_eq
  have hM := MAXFILE_eq
  unfold dataSlot at h
  split at h
  · omega
  · omega

section

variable {sb : Superblock} {D D' : ℕ → Dinode} {d d' : Disk}

lemma ent_of_not_dir (h : (D i).type ≠ T_DIR) : ent sb D d i k = (0, []) :=
  if_neg fun hc => h hc.1

lemma ent_of_not_inum (h : ¬ sb.Inum i) : ent sb D d i k = (0, []) := by
  refine if_neg fun hc => hc.2.2 ?_
  exact if_neg fun h' => h h'.1

lemma Owned.ent_data (ho : Owned sb (slot sb D d) d) (h : entBlock sb D d i k ≠ 0) :
    sb.nmeta ≤ entBlock sb D d i k := (ho.data h).1

lemma slot_of_lt (h : MAXFILE < t.2) : slot sb D d t = 0 := by
  have hN := NDIRECT_eq
  have hM := MAXFILE_eq
  have h1 : ¬ t.2 ≤ NDIRECT := by omega
  have h2 : ¬ t.2 ≤ MAXFILE := by omega
  unfold slot
  simp only [h1, h2, and_false, if_false, ite_self]

lemma ent_congr (htype : (D' i).type = (D i).type) (hsize : (D' i).size = (D i).size)
    (hslot : ∀ k, 16 * k < (D i).size → (D i).type = T_DIR → entBlock sb D' d' i k = entBlock sb D d i k)
    (hdata : ∀ k, entBlock sb D d i k ≠ 0 → direntAt (d' (entBlock sb D d i k)) k =
      direntAt (d (entBlock sb D d i k)) k) (k : ℕ) : ent sb D' d' i k = ent sb D d i k := by
  unfold ent
  rw [htype, hsize]
  by_cases hc : (D i).type = T_DIR ∧ 16 * k < (D i).size
  · rw [hslot k hc.2 hc.1]
    by_cases h0 : entBlock sb D d i k ≠ 0
    · rw [hdata k h0]
    · rw [if_neg fun h => h0 h.2.2, if_neg fun h => h0 h.2.2]
  · rw [if_neg fun h => hc ⟨h.1, h.2.1⟩, if_neg fun h => hc ⟨h.1, h.2.1⟩]

lemma entBlock_of_grow (hg : Grow sb i D d D' d') (hd : Dirs sb D d) (hk : 16 * k < (D j).size)
    (htype : (D j).type = T_DIR) : entBlock sb D' d' j k = entBlock sb D d j k := by
  unfold entBlock
  by_cases h0 : slot sb D d (j, dataSlot (k / 64)) = 0
  · by_cases hj : sb.Inum j
    · have hbig : MAXFILE ≤ k / 64 := by
        by_contra hlt
        exact hd.full j hj htype (k / 64) (by omega) (show 1024 * (k / 64) < _ by omega) h0
      have hslot : MAXFILE < dataSlot (k / 64) := by
        by_contra hle
        exact absurd (dataSlot_le (Nat.le_of_not_lt hle)) (by omega)
      rw [slot_of_lt hslot, slot_of_lt hslot]
    · unfold slot
      rw [if_neg fun h => hj h.1, if_neg fun h => hj h.1]
  · exact hg.keep _ h0

lemma ent_grow (hg : Grow sb i D d D' d') (hd : Dirs sb D d) (j k : ℕ) :
    ent sb D' d' j k = ent sb D d j k := by
  refine ent_congr (hg.type_eq j) (hg.size_eq j) (fun k hk ht => entBlock_of_grow hg hd hk ht)
    (fun k h0 => ?_) k
  rw [show d' (entBlock sb D d j k) = d (entBlock sb D d j k) from hg.data _ h0 (dataSlot_ne _)]

lemma Solid.congr (h : Solid sb D d)
    (hfields : ∀ j, sb.Inum j → (D' j).type = (D j).type ∧ (D' j).size = (D j).size)
    (hslot : ∀ t, slot sb D' d' t = slot sb D d t) : Solid sb D' d' where
  size i hi ht := by
    rw [(hfields i hi).1] at ht
    rw [(hfields i hi).2]
    exact h.size i hi ht
  full i hi ht n hn := by
    rw [(hfields i hi).1] at ht
    rw [(hfields i hi).2] at hn
    rw [hslot]
    exact h.full i hi ht n hn

lemma Solid.of_grow (hg : Grow sb i D d D' d') (h : Solid sb D d) : Solid sb D' d' where
  size j hj ht := by
    rw [hg.type_eq] at ht
    rw [hg.size_eq]
    exact h.size j hj ht
  full j hj ht n hn := by
    rw [hg.type_eq] at ht
    rw [hg.size_eq] at hn
    have h0 := h.full j hj ht n hn
    rw [hg.keep _ h0]
    exact h0

lemma Solid.setSize (h : Solid sb D d) (hmax : n ≤ MAXFILE * BSIZE)
    (hfull : ∀ m, BSIZE * m < n → slot sb D d (i, dataSlot m) ≠ 0)
    (hfields : ∀ j, (D' j).type = (D j).type ∧ (D' j).size = if j = i then n else (D j).size)
    (hslot : ∀ t, slot sb D' d' t = slot sb D d t) : Solid sb D' d' where
  size j hj ht := by
    rw [(hfields j).1] at ht
    rw [(hfields j).2]
    split
    · exact hmax
    · exact h.size j hj ht
  full j hj ht m hm := by
    rw [(hfields j).1] at ht
    rw [(hfields j).2] at hm
    rw [hslot]
    by_cases hji : j = i
    · rw [if_pos hji] at hm
      rw [hji]
      exact hfull m hm
    · rw [if_neg hji] at hm
      exact h.full j hj ht m hm

lemma Aligned.congr (h : Aligned sb D)
    (hfields : ∀ j, sb.Inum j → (D' j).type = (D j).type ∧ (D' j).size = (D j).size) : Aligned sb D' := by
  intro j hj ht
  rw [(hfields j hj).1] at ht
  rw [(hfields j hj).2]
  exact h j hj ht

lemma Dirs.of_grow (hg : Grow sb i D d D' d') (hd : Dirs sb D d) : Dirs sb D' d' where
  full j hj ht n hn hlt := by
    rw [hg.type_eq] at ht
    rw [hg.size_eq] at hlt
    have h0 := hd.full j hj ht n hn hlt
    rw [hg.keep _ h0]
    exact h0
  ents j k := by
    rw [ent_grow hg hd]
    exact hd.ents j k

end

/-! ### The tree -/

/-- The file system as the tree calls see it. -/
@[ext]
structure Tree where
  type : ℕ → ℕ
  nlink : ℕ → ℕ
  /-- Entry `k` of directory `i`. -/
  ent : ℕ → ℕ → ℕ × Name
  /-- A process has the inode as its current directory, or an open file refers to it. -/
  held : ℕ → Prop

namespace Tree

/-- `iput` of the last reference to an inode without links. -/
@[simps -fullyApplied]
def free (T : Tree) (i : ℕ) : Tree where
  type := update T.type i 0
  nlink := update T.nlink i 0
  ent := update T.ent i fun _ => (0, [])
  held := T.held

@[simps -fullyApplied]
def setNlink (T : Tree) (i n : ℕ) : Tree := { T with nlink := update T.nlink i n }

@[simps -fullyApplied]
def setEnt (T : Tree) (i k : ℕ) (x : ℕ × Name) : Tree :=
  { T with ent := update T.ent i (update (T.ent i) k x) }

/-- The tree with other entries. -/
def withEnt (T : Tree) (E : ℕ → ℕ → ℕ × Name) : Tree := { T with ent := E }

/-- `ialloc`. -/
@[simps -fullyApplied]
def alloc (T : Tree) (i t : ℕ) : Tree where
  type := update T.type i t
  nlink := update T.nlink i 0
  ent := update T.ent i fun _ => (0, [])
  held := T.held

/-- Some inodes without links, which nobody holds, have been freed. -/
inductive Frees : Tree → Tree → Prop
  | refl (T : Tree) : Frees T T
  | step {T T' : Tree} (h : Frees T T') (i : ℕ) (ha : T'.type i ≠ 0) (hn : T'.nlink i = 0)
      (hh : ¬ T'.held i) : Frees T (T'.free i)

lemma Frees.trans (h : Frees T T') (h' : Frees T' T'') : Frees T T'' := by
  induction h' with
  | refl => exact h
  | step _ i ha hn hh ih => exact ih.step i ha hn hh

/-- Every allocated inode without links is held. -/
def ZeroHeld (T : Tree) : Prop := ∀ i, T.type i ≠ 0 → T.nlink i = 0 → T.held i

/-- What is held is allocated, and what has no links is held. -/
structure Calm (T : Tree) : Prop where
  zero : T.ZeroHeld
  held : ∀ i, T.held i → T.type i ≠ 0

lemma Frees.eq (h : Frees T T') (hz : T.ZeroHeld) : T' = T := by
  induction h with
  | refl => rfl
  | step _ i ha hn hh ih =>
    rw [ih] at ha hn hh
    exact absurd (hz i ha hn) hh

end Tree

end Xv6.Fs
