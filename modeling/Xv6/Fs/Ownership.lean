import Xv6.Fs.Calls
import Xv6.Lib.Run

/-!
# Ownership of disk blocks

The image must have a block for every entry of every directory: a lookup in a directory with a hole
allocates a block for the hole, and forgets it.
-/

namespace Xv6.Fs

open Lib Log List

variable {P : Type} [DecidableEq P]

/-! ### The state after boot -/

/-- `userinit` has looked up `/` for the first process `p₀`; nothing has been read from the disk `d`. -/
def boot (d : Disk) (p₀ : P) : State P where
  disk := d
  ino e :=
    { ref := if e = 0 then 1 else 0
      inum := if e = 0 then ROOTINO else 0
      valid := false
      locked := false
      d := Dinode.zero }
  file _ :=
    { type := .none, ref := 0, readable := false, writable := false, ip := 0, off := 0, major := 0 }
  proc p := { cwd := if p = p₀ then some 0 else none, ofile := fun _ => none }

/-- The inode `i` as the kernel sees it: the copy in memory, if it is valid. -/
def State.dinode (sb : Superblock) (s : State P) (i : ℕ) : Dinode :=
  match (List.finRange NINODE).find? fun e => 0 < (s.ino e).ref ∧ (s.ino e).inum = i ∧ (s.ino e).valid with
  | some e => (s.ino e).d
  | none => Fs.dinode sb s.disk i

/-- The block that slot `t` of the inodes refers to, 0 if none. -/
def State.slot (sb : Superblock) (s : State P) (t : ℕ × ℕ) : ℕ := Fs.slot sb (s.dinode sb) s.disk t

/-- A bit of the free map is set exactly for metadata and for blocks that one slot refers to, and no
block is referred to twice. -/
structure BlocksOwned (sb : Superblock) (s : State P) : Prop where
  bit : ∀ b < sb.size, bit sb s.disk b = true ↔ b < sb.nmeta ∨ ∃! t, s.slot sb t = b
  once : ∀ t u, s.slot sb t ≠ 0 → s.slot sb t = s.slot sb u → t = u

section

variable {sb : Superblock} {d : Disk} {p₀ : P} {s : State P}

omit [DecidableEq P] in
lemma BlocksOwned.owned (h : BlocksOwned sb s) (hl : Layout sb)
    (hdata : ∀ t, s.slot sb t ≠ 0 → sb.nmeta ≤ s.slot sb t ∧ s.slot sb t < sb.size) :
    Owned sb (s.slot sb) s.disk where
  pool :=
    { inj := by
        intro t u b ht hu
        obtain ⟨ht, hb⟩ := nz_eq_some.mp ht
        obtain ⟨hu, -⟩ := nz_eq_some.mp hu
        exact h.once t u (by rwa [ht]) (ht.trans hu.symm)
      used := by
        intro t b ht
        obtain ⟨rfl, hb⟩ := nz_eq_some.mp ht
        obtain ⟨h1, h2⟩ := hdata t hb
        refine ⟨⟨h1, h2⟩, ?_⟩
        rw [(h.bit _ h2).mpr (.inr ⟨t, rfl, fun u hu => h.once u t (by rwa [hu]) hu⟩)]
        exact Bool.noConfusion
      total := by
        rintro b ⟨h1, h2⟩ hb
        rcases (h.bit b h2).mp (by simpa using hb) with hlt | ⟨t, ht, -⟩
        · exact absurd hlt (by omega)
        · exact ⟨t, nz_eq_some.mpr ⟨ht, by have := nmeta_pos sb; omega⟩⟩ }
  reserved b hb := (h.bit b (lt_of_lt_of_le hb hl.data)).mpr (.inl hb)

omit [DecidableEq P] in
lemma BlocksOwned.of_owned (h : Owned sb (s.slot sb) s.disk) : BlocksOwned sb s where
  bit b hb := by
    have hpos := nmeta_pos sb
    constructor
    · intro hbit
      by_cases hlt : b < sb.nmeta
      · exact .inl hlt
      · obtain ⟨t, ht⟩ := h.pool.total b ⟨Nat.le_of_not_lt hlt, hb⟩ (by rw [hbit]; exact Bool.noConfusion)
        refine .inr ⟨t, (nz_eq_some.mp ht).1, fun u hu => ?_⟩
        exact h.pool.inj u t b (nz_eq_some.mpr ⟨hu, by omega⟩) ht
    · rintro (hlt | ⟨t, rfl, -⟩)
      · exact h.reserved b hlt
      · by_cases h0 : s.slot sb t = 0
        · exact h.reserved _ (by omega)
        · exact h.bit h0
  once t u h0 he := h.pool.inj t u _ (nz_of_ne h0) (by rw [he]; exact nz_of_ne (he ▸ h0))

omit [DecidableEq P] in
lemma Inv.dinode_eq [Fintype P] (h : Inv sb z s L K) : s.dinode sb = Fs.dinode sb s.disk := by
  funext i
  unfold State.dinode
  split
  · rename_i e hfind
    have he := find?_some hfind
    simp only [decide_eq_true_eq] at he
    rw [(h.sync e he.1 he.2.2).1, he.2.1]
  · rfl

lemma dinode_boot (i : ℕ) : (boot d p₀).dinode sb i = Fs.dinode sb d i := by
  unfold State.dinode
  split
  · rename_i e hfind
    have he := find?_some hfind
    simp only [decide_eq_true_eq] at he
    exact absurd he.2.2 Bool.false_ne_true
  · rfl

lemma slot_boot : (boot d p₀).slot sb = Fs.slot sb (Fs.dinode sb d) d := by
  funext t
  unfold State.slot
  rw [show (boot d p₀).dinode sb = Fs.dinode sb d from funext dinode_boot]
  rfl

variable [Fintype P]

lemma holders_boot (e : Fin NINODE) : (boot d p₀).holders e = if e = 0 then 1 else 0 := by
  have hfile : ∑ f, (if ((boot d p₀).file f).type ≠ .none ∧ ((boot d p₀).file f).ip = e then 1 else 0) = 0 :=
    Finset.sum_eq_zero fun f _ => if_neg fun hc => hc.1 rfl
  unfold State.holders
  rw [hfile, Nat.add_zero]
  by_cases he : e = 0
  · subst he
    rw [Finset.sum_eq_single p₀]
    · simp [boot]
    · intro p _ hp
      simp [boot, hp]
    · exact fun hc => absurd (Finset.mem_univ p₀) hc
  · rw [if_neg he]
    refine Finset.sum_eq_zero fun p _ => if_neg fun hc => he ?_
    by_cases hp : p = p₀
    · simp only [boot, hp, if_true, Option.some.injEq] at hc
      exact hc.symm
    · simp [boot, hp] at hc

lemma inv_boot (hroot : sb.Inum ROOTINO) (hdisk : DiskOk sb z.toGates d)
    (hz : ∀ i, z.zero i → (tree sb (boot d p₀)).type i ≠ 0 → (tree sb (boot d p₀)).nlink i ≠ 0) :
    Inv sb z (boot d p₀) [] [] where
  disk := hdisk
  range e he := by
    by_cases h0 : e = 0
    · subst h0
      exact hroot
    · simp [boot, h0] at he
  uniq e e' he he' _ := by
    by_contra hne
    by_cases h0 : e = 0
    · have h0' : e' ≠ 0 := fun hc => hne (h0.trans hc.symm)
      simp [boot, h0'] at he'
    · simp [boot, h0] at he
  sync e _ hv := absurd hv Bool.false_ne_true
  refs e := by
    rw [holders_boot]
    rfl
  nums x hx := nomatch hx
  locks e := ⟨fun hc => absurd hc Bool.false_ne_true, fun hc => nomatch hc⟩
  locked e he := nomatch he
  writable f hf := nomatch hf
  zero i hi ha hn := absurd hn (hz i hi ha)

omit [Fintype P] in
lemma filesOk_boot : FilesOk (boot d p₀) := fun _ _ => rfl

/-! ### Runs -/

lemma step_blocks (hl : Layout sb) (hroot : sb.Inum ROOTINO) (hinv : Inv sb (.const False False) s [] [])
    (hfiles : FilesOk s) :
    (∀ s', step sb s (p, c) = some s' → Inv sb (.const False False) s' [] [] ∧ FilesOk s') ∧
      invoke sb s p c ≠ some (.error (.panic .freeingFreeBlock)) := by
  unfold step invoke
  cases hcwd : (s.proc p).cwd with
  | none => simp
  | some cwd =>
    have hready : Ready sb False False s := ⟨hinv, hfiles, False.elim⟩
    have hcall : wp (call sb p cwd c) (fun e => e ≠ .panic .freeingFreeBlock) _ s :=
      call_spec (fun e he _ => he) hl hroot hready hcwd c
    simp only [Option.map_some]
    constructor
    · intro s' hs
      cases hrun : call sb p cwd c s with
      | error e =>
        rw [hrun] at hs
        cases hs
      | ok r =>
        rw [hrun] at hs
        cases hs
        have hdone := hcall.of_ok hrun
        exact ⟨hdone.inv, hdone.files⟩
    · intro hc
      exact hcall.of_error (Option.some.inj hc) rfl

/-- **Ownership of disk blocks.**  From an image in which every block is owned, in which slots refer
to data blocks, and in which directories have blocks for all their entries and name no inode beyond
the last, every sequence of calls leads to a state in which every block is owned, and no call then
frees a free block. -/
theorem blocks_owned (hl : Layout sb) (hroot : sb.Inum ROOTINO) (hown : BlocksOwned sb (boot d p₀))
    (hdata : ∀ t, (boot d p₀).slot sb t ≠ 0 → sb.nmeta ≤ (boot d p₀).slot sb t ∧ (boot d p₀).slot sb t < sb.size)
    (hdirs : Dirs sb (dinode sb d) d) {as : List (P × Call P)}
    (hrun : run (step sb) (boot d p₀) as = some s) :
    BlocksOwned sb s ∧ ∀ p c, invoke sb s p c ≠ some (.error (.panic .freeingFreeBlock)) := by
  have hdisk : DiskOk sb ⟨False, False⟩ d :=
    ⟨by have := hown.owned hl hdata; rwa [slot_boot] at this, hdirs, False.elim, False.elim⟩
  have hinv : Inv sb (.const False False) s [] [] ∧ FilesOk s := by
    refine run_invariant (I := fun s => Inv sb (.const False False) s [] [] ∧ FilesOk s) ?_ hrun
      ⟨inv_boot hroot hdisk fun _ hz => hz.elim, filesOk_boot⟩
    rintro s ⟨p, c⟩ s' hs ⟨hinv, hfiles⟩
    exact (step_blocks hl hroot hinv hfiles).1 s' hs
  refine ⟨.of_owned ?_, fun p c => (step_blocks hl hroot hinv.1 hinv.2).2⟩
  unfold State.slot
  rw [hinv.1.dinode_eq]
  exact hinv.1.disk.owned

end

/-! ### Small images -/

/-- The slots that images without indirect blocks use. -/
def directSlots (sb : Superblock) : List (ℕ × ℕ) :=
  (List.range sb.ninodes).flatMap fun i => (List.range (NDIRECT + 1)).map fun n => (i, n)

section

variable {sb : Superblock} {D : ℕ → Dinode} {d : Disk} {p₀ : P}

lemma mem_directSlots (h : ∀ i < sb.ninodes, (D i).addrs NDIRECT = 0) (ht : slot sb D d t ≠ 0) :
    t ∈ directSlots sb := by
  unfold slot at ht
  by_cases hi : sb.Inum t.1 ∧ (D t.1).type ≠ 0
  · rw [if_pos hi] at ht
    by_cases hn : t.2 ≤ NDIRECT
    · refine mem_flatMap.mpr ⟨t.1, mem_range.mpr hi.1.2, mem_map.mpr ⟨t.2, ?_, rfl⟩⟩
      exact mem_range.mpr (Nat.lt_succ_of_le hn)
    · rw [if_neg hn, if_neg fun hc => hc.1 (h t.1 hi.1.2)] at ht
      exact absurd rfl ht
  · rw [if_neg hi] at ht
    exact absurd rfl ht

lemma BlocksOwned.of_direct (h : ∀ i < sb.ninodes, (dinode sb d i).addrs NDIRECT = 0)
    (honce : ∀ t ∈ directSlots sb, ∀ u ∈ directSlots sb, slot sb (dinode sb d) d t ≠ 0 →
      slot sb (dinode sb d) d t = slot sb (dinode sb d) d u → t = u)
    (hbit : ∀ b < sb.size, Fs.bit sb d b = true ↔
      b < sb.nmeta ∨ ∃ t ∈ directSlots sb, slot sb (dinode sb d) d t = b) :
    BlocksOwned sb (boot d p₀) := by
  have honce' : ∀ t u, slot sb (dinode sb d) d t ≠ 0 →
      slot sb (dinode sb d) d t = slot sb (dinode sb d) d u → t = u := by
    intro t u ht he
    exact honce t (mem_directSlots h ht) u (mem_directSlots h (he ▸ ht)) ht he
  refine ⟨fun b hb => ?_, by rw [slot_boot]; exact honce'⟩
  rw [slot_boot]
  refine (hbit b hb).trans (or_congr_right' fun hlt => ?_)
  have h0 : b ≠ 0 := by
    have := nmeta_pos sb
    omega
  constructor
  · rintro ⟨t, -, rfl⟩
    exact ⟨t, rfl, fun u hu => honce' u t (by rwa [hu]) hu⟩
  · rintro ⟨t, rfl, -⟩
    exact ⟨t, mem_directSlots h h0, rfl⟩

lemma Dirs.of_small (hpos : 0 < sb.ninodes)
    (hfull : ∀ i < sb.ninodes, sb.Inum i → (D i).type = T_DIR → ∀ n < MAXFILE, BSIZE * n < (D i).size →
      slot sb D d (i, dataSlot n) ≠ 0)
    (hents : ∀ i < sb.ninodes, ∀ k < (D i).size / 16 + 1, (ent sb D d i k).1 < sb.ninodes) :
    Dirs sb D d where
  full i hi := hfull i hi.2 hi
  ents i k := by
    by_cases hc : (D i).type = T_DIR ∧ 16 * k < (D i).size ∧ entBlock sb D d i k ≠ 0
    · have hi : sb.Inum i := by
        by_contra hi
        refine hc.2.2 ?_
        unfold entBlock slot
        rw [if_neg fun h => hi h.1]
      exact hents i hi.2 k (by omega)
    · unfold ent
      rw [if_neg hc]
      exact hpos

end

/-- A directory block with the given entries. -/
def dirBlock (l : List (Name × ℕ)) : Block :=
  (Bytes.zero BSIZE).put 0 (16 * l.length) fun k =>
    (dirent (l.getD (k / 16) ([], 0)).1 (l.getD (k / 16) ([], 0)).2 (k % 16)).getD 0

/-- A block of the free map with the first `n` bits set. -/
def mapBlock (n : ℕ) : Block :=
  (Bytes.zero BSIZE).put 0 BSIZE fun k => if k < n / 8 then 255 else if k = n / 8 then 2 ^ (n % 8) - 1 else 0

/-- A directory of `size` bytes with one block. -/
def dirInode (size b : ℕ) : Dinode := ⟨T_DIR, 0, 0, 1, size, fun k => if k = 0 then b else 0⟩

/-- A path in user memory. -/
def userPath (path : Name) : Mem := fun k => some (UInt8.ofNat (path.getD k 0))

/-- A small disk: 40 blocks, of which 34 are metadata, and inodes 1 to 4. -/
def smallSb : Superblock := ⟨40, 5, 30, 2, 32, 33⟩

/-- An empty file system. -/
def emptyDisk : Disk :=
  putDinode smallSb (fun b =>
    if b = 33 then mapBlock 35
    else if b = 34 then dirBlock [(dot, 1), (dotdot, 1)]
    else Bytes.zero _) 1 (dirInode 1024 34)

lemma smallSb_layout : Layout smallSb := by constructor <;> decide

lemma emptyDisk_direct : ∀ i < smallSb.ninodes, (dinode smallSb emptyDisk i).addrs NDIRECT = 0 := by
  decide +kernel

lemma emptyDisk_owned {p₀ : P} : BlocksOwned smallSb (boot emptyDisk p₀) := by
  refine .of_direct emptyDisk_direct ?_ ?_ <;> decide +kernel

lemma emptyDisk_data {p₀ : P} (t : ℕ × ℕ) (ht : (boot emptyDisk p₀).slot smallSb t ≠ 0) :
    smallSb.nmeta ≤ (boot emptyDisk p₀).slot smallSb t ∧ (boot emptyDisk p₀).slot smallSb t < smallSb.size := by
  rw [slot_boot] at ht ⊢
  have hall : ∀ t ∈ directSlots smallSb, slot smallSb (dinode smallSb emptyDisk) emptyDisk t ≠ 0 →
      smallSb.nmeta ≤ slot smallSb (dinode smallSb emptyDisk) emptyDisk t ∧
      slot smallSb (dinode smallSb emptyDisk) emptyDisk t < smallSb.size := by decide +kernel
  exact hall t (mem_directSlots emptyDisk_direct ht) ht

lemma emptyDisk_dirs : Dirs smallSb (dinode smallSb emptyDisk) emptyDisk := by
  refine .of_small (by decide) ?_ ?_ <;> decide +kernel

theorem blocks_owned_emptyDisk : ∃ s, run (step smallSb) (boot emptyDisk ())
        [((), .mkdir (userPath [100])), ((), .open (userPath [100, 47, 102]) O_CREATE),
          ((), .unlink (userPath [100, 47, 102])), ((), .exit)] = some s ∧ BlocksOwned smallSb s := by
  have hsome : (run (step smallSb) (boot emptyDisk ())
      [((), .mkdir (userPath [100])), ((), .open (userPath [100, 47, 102]) O_CREATE),
        ((), .unlink (userPath [100, 47, 102])), ((), .exit)]).isSome := by decide +kernel
  obtain ⟨s, hs⟩ := Option.isSome_iff_exists.mp hsome
  exact ⟨s, hs, (blocks_owned smallSb_layout (by decide) emptyDisk_owned emptyDisk_data emptyDisk_dirs hs).1⟩

/-- Directory `d` of 65 entries, the last of which has no block. -/
def holeDisk : Disk :=
  putDinode smallSb (putDinode smallSb (fun b =>
    if b = 33 then mapBlock 36
    else if b = 34 then dirBlock [(dot, 1), (dotdot, 1), ([100], 2)]
    else if b = 35 then dirBlock [(dot, 2), (dotdot, 1)]
    else Bytes.zero _) 1 (dirInode 1024 34)) 2 (dirInode 1040 35)

/-- Block `b` is marked but no slot refers to it; for states without indirect blocks. -/
def leaks (sb : Superblock) (s : State P) (b : ℕ) : Bool :=
  bit sb s.disk b && (directSlots sb).all fun t => (s.dinode sb t.1).addrs NDIRECT = 0 ∧ s.slot sb t ≠ b

omit [DecidableEq P] in
lemma not_blocksOwned_of_leaks {sb : Superblock} (hb : b < sb.size) (hmeta : sb.nmeta ≤ b) (h : leaks sb s b = true) :
    ¬ BlocksOwned sb s := by
  obtain ⟨hbit, hall⟩ := Bool.and_eq_true_iff.mp h
  simp only [all_eq_true, decide_eq_true_eq] at hall
  have h0 : b ≠ 0 := by
    have := nmeta_pos sb
    omega
  intro hown
  rcases (hown.bit b hb).mp hbit with hlt | ⟨t, ht, -⟩
  · exact absurd hlt (by omega)
  · refine (hall t (mem_directSlots (fun i hi => ?_) (ht ▸ h0))).2 ht
    exact (hall (i, 0) (mem_flatMap.mpr ⟨i, mem_range.mpr hi, by simp⟩)).1

/-- A failing `open("d/x")` in the directory with a hole allocates a block that nobody owns. -/
theorem blocks_owned_fails : BlocksOwned smallSb (boot holeDisk ()) ∧
      ∃ s, run (step smallSb) (boot holeDisk ()) [((), .open (userPath [100, 47, 120]) O_RDONLY)] = some s ∧
        ¬ BlocksOwned smallSb s := by
  constructor
  · refine .of_direct ?_ ?_ ?_ <;> decide +kernel
  · have hleak : (run (step smallSb) (boot holeDisk ()) [((), .open (userPath [100, 47, 120]) O_RDONLY)]).map
        (leaks smallSb · 36) = some true := by decide +kernel
    obtain ⟨s, hs, hleaks⟩ := Option.map_eq_some_iff.mp hleak
    exact ⟨s, hs, not_blocksOwned_of_leaks (by decide) (by decide) hleaks⟩

end Xv6.Fs
