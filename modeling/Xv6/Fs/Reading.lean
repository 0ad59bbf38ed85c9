import Xv6.Fs.Ownership
import Xv6.Fs.ReadCalls

/-!
# Files without holes, and copies in memory

From a consistent image without holes, no sequence of calls makes a hole, so `readi` never allocates.
-/

namespace Xv6.Fs

open Lib Log

variable {P : Type} [DecidableEq P]

/-! ### Images -/

/-- A consistent image without holes: every block is owned, slots refer to data blocks, and
directories name no inode beyond the last. -/
structure Image (sb : Superblock) (d : Disk) (p₀ : P) : Prop where
  layout : Layout sb
  root : sb.Inum ROOTINO
  owned : BlocksOwned sb (boot d p₀)
  data : ∀ t, (boot d p₀).slot sb t ≠ 0 → sb.nmeta ≤ (boot d p₀).slot sb t ∧ (boot d p₀).slot sb t < sb.size
  dirs : Dirs sb (dinode sb d) d
  solid : Solid sb (dinode sb d) d

lemma Solid.of_small {sb : Superblock} (hsize : ∀ i < sb.ninodes, (D i).size ≤ MAXFILE * BSIZE)
    (hfull : ∀ i < sb.ninodes, sb.Inum i → (D i).type ≠ 0 → ∀ n < (D i).size / BSIZE + 1, BSIZE * n < (D i).size →
      slot sb D d (i, dataSlot n) ≠ 0) : Solid sb D d where
  size i hi _ := hsize i hi.2
  full i hi ht n hn := by
    refine hfull i hi.2 hi ht n (Nat.lt_succ_of_le ?_) hn
    rw [Nat.le_div_iff_mul_le (by decide), Nat.mul_comm]
    exact Nat.le_of_lt hn

lemma image_emptyDisk {p₀ : P} : Image smallSb emptyDisk p₀ where
  layout := smallSb_layout
  root := by decide
  owned := emptyDisk_owned
  data := emptyDisk_data
  dirs := emptyDisk_dirs
  solid := by refine .of_small ?_ ?_ <;> decide +kernel

/-- The bytes 104 and 105 in user memory. -/
def userBytes : Mem := fun k => if k < 2 then some (UInt8.ofNat (104 + k)) else none

/-- A file is made, written and read back; a part of the write has no source. -/
def readRun : List (Unit × Op Unit) :=
  [((), .call (.open (userPath [102]) (O_CREATE + O_RDWR))), ((), .call (.write 0 userBytes 2)),
    ((), .call (.write 0 userBytes 3)), ((), .call (.open (userPath [102]) O_RDONLY)),
    ((), .read 1 (fun _ => true) 10 0), ((), .dup 1), ((), .fstat 2 true)]

/-! ### Runs -/

section

variable {sb : Superblock} {d : Disk} {p₀ : P} {s : State P} [Fintype P]

lemma invokeOp_solid (hl : Layout sb) (hroot : sb.Inum ROOTINO) (hinv : Inv sb (.const False True) s [] [])
    (hfiles : FilesOk s) :
    (∀ s', stepOp sb s (p, o) = some s' → Inv sb (.const False True) s' [] [] ∧ FilesOk s') ∧
      invokeOp sb s p o ≠ some (.error (.panic .bmapOutOfRange)) := by
  unfold stepOp invokeOp
  cases hcwd : (s.proc p).cwd with
  | none => simp
  | some cwd =>
    have hready : Ready sb False True s := ⟨hinv, hfiles, False.elim⟩
    have hop : wp (op sb p cwd o) (fun e => e ≠ .panic .bmapOutOfRange) _ s :=
      op_spec (fun e _ he => he trivial) trivial hl hroot hready hcwd o
    simp only [Option.map_some]
    constructor
    · intro s' hs
      cases hrun : op sb p cwd o s with
      | error e =>
        rw [hrun] at hs
        cases hs
      | ok r =>
        rw [hrun] at hs
        cases hs
        have hdone := hop.of_ok hrun
        exact ⟨hdone.inv, hdone.files⟩
    · intro hc
      exact hop.of_error (Option.some.inj hc) rfl

lemma Image.run_inv (h : Image sb d p₀) {as : List (P × Op P)} (hrun : run (stepOp sb) (boot d p₀) as = some s) :
    Inv sb (.const False True) s [] [] ∧ FilesOk s := by
  have hdisk : DiskOk sb ⟨True, False⟩ d :=
    ⟨by have := h.owned.owned h.layout h.data; rwa [slot_boot] at this, h.dirs, fun _ => h.solid, False.elim⟩
  refine run_invariant (I := fun s => Inv sb (.const False True) s [] [] ∧ FilesOk s) ?_ hrun
    ⟨inv_boot h.root hdisk fun _ hz => hz.elim, filesOk_boot⟩
  rintro s ⟨p, o⟩ s' hs ⟨hinv, hfiles⟩
  exact (invokeOp_solid h.layout h.root hinv hfiles).1 s' hs

/-- **No holes.**  From a consistent image without holes every sequence of calls leads to a state
without holes.  On an inode that is locked there, `readi` returns the bytes of the file and changes
nothing, also outside of a transaction, where it would stop at the first `log_write`; neither it nor
`writei` nor any call asks `bmap` for a block out of range. -/
theorem no_holes (h : Image sb d p₀) {as : List (P × Op P)} (hrun : run (stepOp sb) (boot d p₀) as = some s) :
    Solid sb (s.dinode sb) s.disk ∧ (∀ p o, invokeOp sb s p o ≠ some (.error (.panic .bmapOutOfRange))) ∧
      ∀ e s₁, 0 < (s.ino e).ref → ilock sb e s = .ok ((), s₁) → ∀ off n,
        readi sb e off n s₁ = .ok (bytesAt sb s₁ e off (readable s₁ e off n), s₁) ∧
        readiUser sb e (fun _ => true) off n s₁ =
          .ok ((↑(readable s₁ e off n), bytesAt sb s₁ e off (readable s₁ e off n)), s₁) ∧
        (∀ dst, ∃ r, readiUser sb e dst off n s₁ = .ok (r, s₁)) ∧
        ∀ src, writei sb e src off n s₁ ≠ .error (.panic .bmapOutOfRange) := by
  obtain ⟨hinv, hfiles⟩ := h.run_inv hrun
  refine ⟨?_, fun p o => (invokeOp_solid h.layout h.root hinv hfiles).2, fun e s₁ hpos hlock off n => ?_⟩
  · rw [hinv.dinode_eq]
    exact hinv.disk.solid trivial
  · have hilock : wp (ilock sb e) (fun _ => True) _ s := ilock_spec (fun _ _ _ => trivial) hinv hpos
    have h₁ := (hilock.of_ok hlock).1.inv
    obtain ⟨hpos₁, hv₁⟩ := h₁.locked e List.mem_cons_self
    have hkernel : wp (readi sb e off n) (fun _ => False) _ s₁ := readi_solid h₁ trivial hpos₁ hv₁ off n
    have huser (dst : ℕ → Bool) : wp (readiUser sb e dst off n) (fun _ => False) _ s₁ :=
      readiUser_solid h₁ trivial hpos₁ hv₁ dst off n
    refine ⟨?_, ?_, fun dst => ?_, fun src hc => ?_⟩
    · obtain ⟨_, _, hr, rfl, rfl⟩ := hkernel.returns
      exact hr
    · obtain ⟨_, _, hr, rfl, rfl | ⟨-, k, hk⟩⟩ := (huser fun _ => true).returns
      · exact hr
      · cases hk
    · obtain ⟨r, _, hr, rfl, -⟩ := (huser dst).returns
      exact ⟨r, hr⟩
    · have hwrite : wp (writei sb e src off n) (fun _ => False) _ s₁ := writei_inRange src off n s₁
      exact hwrite.of_error hc

end

theorem no_holes_readRun :
    ∃ s, run (stepOp smallSb) (boot emptyDisk ()) readRun = some s ∧ Solid smallSb (s.dinode smallSb) s.disk := by
  have hsome : (run (stepOp smallSb) (boot emptyDisk ()) readRun).isSome := by decide +kernel
  obtain ⟨s, hs⟩ := Option.isSome_iff_exists.mp hsome
  exact ⟨s, hs, (no_holes image_emptyDisk hs).1⟩

/-- Files `a` and `b`: the indirect block of `a` is the first block of `b`. -/
def crossDisk : Disk :=
  putDinode smallSb (putDinode smallSb (putDinode smallSb (fun b =>
    if b = 33 then mapBlock 37
    else if b = 34 then dirBlock [(dot, 1), (dotdot, 1), ([97], 2), ([98], 3)]
    else if b = 36 then (Bytes.zero _).putLe 0 4 35
    else Bytes.zero _) 1 (dirInode 1024 34))
    2 ⟨T_FILE, 0, 0, 1, 13 * BSIZE, fun k => if k < NDIRECT then 35 else 36⟩)
    3 ⟨T_FILE, 0, 0, 1, BSIZE, fun k => if k = 0 then 36 else 0⟩

/-- Zeros are written to `b`. -/
def crossRun : List (Unit × Op Unit) :=
  [((), .call (.open (userPath [98]) O_RDWR)), ((), .call (.write 0 (fun _ => some 0) 4))]

/-- Without ownership of blocks a write makes a hole in another file. -/
theorem no_holes_fails : Solid smallSb ((boot crossDisk ()).dinode smallSb) (boot crossDisk ()).disk ∧
      ∃ s, run (stepOp smallSb) (boot crossDisk ()) crossRun = some s ∧ ¬ Solid smallSb (s.dinode smallSb) s.disk := by
  constructor
  · rw [show (boot crossDisk ()).dinode smallSb = dinode smallSb crossDisk from funext dinode_boot]
    refine .of_small ?_ ?_ <;> decide +kernel
  · have hhole : (run (stepOp smallSb) (boot crossDisk ()) crossRun).map (fun s =>
        decide ((s.dinode smallSb 2).type ≠ 0 ∧ BSIZE * 12 < (s.dinode smallSb 2).size ∧
          s.slot smallSb (2, dataSlot 12) = 0)) = some true := by decide +kernel
    obtain ⟨s, hs, hd⟩ := Option.map_eq_some_iff.mp hhole
    obtain ⟨ht, hsize, hslot⟩ := of_decide_eq_true hd
    exact ⟨s, hs, fun hsolid => hsolid.full 2 (by decide) ht 12 hsize hslot⟩

/-- **Copies in memory.**  From such an image, after every sequence of calls no inode is locked, and
the copy of an inode that is in use, once read, is what the disk holds. -/
theorem inodes_synced [Fintype P] {sb : Superblock} {d : Disk} {p₀ : P} {s : State P} (h : Image sb d p₀)
    {as : List (P × Op P)} (hrun : run (stepOp sb) (boot d p₀) as = some s) (e : Fin NINODE) :
    (s.ino e).locked = false ∧
      (0 < (s.ino e).ref → (s.ino e).valid = true → (s.ino e).d = dinode sb s.disk (s.ino e).inum) := by
  obtain ⟨hinv, -⟩ := h.run_inv hrun
  refine ⟨?_, fun hpos hv => (hinv.sync e hpos hv).1⟩
  rw [Bool.eq_false_iff]
  intro hc
  exact absurd ((hinv.locks e).mp hc) List.not_mem_nil

theorem inodes_synced_readRun :
    ∃ s, run (stepOp smallSb) (boot emptyDisk ()) readRun = some s ∧ 0 < (s.ino 1).ref ∧ (s.ino 1).valid = true ∧
      (s.ino 1).d = dinode smallSb s.disk (s.ino 1).inum := by
  have hsome : (run (stepOp smallSb) (boot emptyDisk ()) readRun).map (fun s =>
      decide (0 < (s.ino 1).ref ∧ (s.ino 1).valid = true)) = some true := by decide +kernel
  obtain ⟨s, hs, hd⟩ := Option.map_eq_some_iff.mp hsome
  obtain ⟨hpos, hv⟩ := of_decide_eq_true hd
  exact ⟨s, hs, hpos, hv, (inodes_synced image_emptyDisk hs 1).2 hpos hv⟩

/-- Files `a` and `b` are made and closed, which frees entries 1 and 2; `b` comes back in entry 1 and
is written. -/
def staleRun : List (Unit × Op Unit) :=
  [((), .call (.open (userPath [97]) (O_CREATE + O_RDWR))), ((), .call (.open (userPath [98]) (O_CREATE + O_RDWR))),
    ((), .call (.close 0)), ((), .call (.close 1)), ((), .call (.open (userPath [98]) O_RDWR)),
    ((), .call (.write 0 userBytes 2))]

/-- An entry that is not in use keeps `valid` and an old copy. -/
theorem inodes_synced_fails : Image smallSb emptyDisk () ∧
      ∃ s, run (stepOp smallSb) (boot emptyDisk ()) staleRun = some s ∧
        (s.ino 2).valid = true ∧ (s.ino 2).locked = false ∧ (s.ino 2).d ≠ dinode smallSb s.disk (s.ino 2).inum := by
  have hstale : (run (stepOp smallSb) (boot emptyDisk ()) staleRun).map (fun s =>
      decide ((s.ino 2).valid = true ∧ (s.ino 2).locked = false ∧
        (s.ino 2).d.size ≠ (dinode smallSb s.disk (s.ino 2).inum).size)) = some true := by decide +kernel
  obtain ⟨s, hs, hd⟩ := Option.map_eq_some_iff.mp hstale
  obtain ⟨hv, hlock, hsize⟩ := of_decide_eq_true hd
  exact ⟨image_emptyDisk, s, hs, hv, hlock, fun hc => hsize (by rw [hc])⟩

end Xv6.Fs
