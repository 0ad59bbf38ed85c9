import Xv6.Fs.Reading

/-!
# Runs of calls from an image
-/

namespace Xv6.Fs

open Lib Log

variable {P : Type} [DecidableEq P]

/-- An image as the run of calls needs it: consistent, the root a directory, no inode in use without links. -/
structure Planted [Fintype P] (sb : Superblock) (d : Disk) (p₀ : P) : Prop extends Image sb d p₀ where
  aligned : Aligned sb (dinode sb d)
  rootDir : (dinode sb d ROOTINO).type = T_DIR
  linked : ∀ i, sb.Inum i → (dinode sb d i).type ≠ 0 → (dinode sb d i).nlink ≠ 0

variable [Fintype P] {sb : Superblock} {d : Disk} {p₀ : P} {s s' : State P} {p : P} {o : Op P}

lemma Planted.ready (h : Planted sb d p₀) : Ready sb True True (boot d p₀) := by
  have hinv : Inv sb (.const True True) (boot d p₀) [] [] := by
    refine inv_boot h.root ⟨by have := h.owned.owned h.layout h.data; rwa [slot_boot] at this, h.dirs, fun _ => h.solid,
      fun _ => h.aligned⟩ fun i _ ha => ?_
    by_cases hi : sb.Inum i
    · rw [tree_type, if_pos hi] at ha
      rw [tree_nlink, if_pos ⟨hi, ha⟩]
      exact h.linked i hi ha
    · rw [tree_type, if_neg hi] at ha
      exact absurd rfl ha
  refine ⟨hinv, filesOk_boot, fun _ => ⟨hinv.zeroHeld fun _ => trivial, ?_⟩⟩
  rintro i ⟨e, he, rfl⟩
  rw [holders_boot] at he
  by_cases h0 : e = 0
  · subst h0
    change (tree sb (boot d p₀)).type ROOTINO ≠ 0
    rw [tree_type, if_pos h.root]
    change (dinode sb d ROOTINO).type ≠ 0
    rw [h.rootDir]
    decide
  · rw [if_neg h0] at he
    exact absurd he (Nat.lt_irrefl 0)

section

variable (h : Ready sb True True s) (hl : Layout sb) (hroot : sb.Inum ROOTINO)
  (hs : stepOp sb s (p, o) = some s')

include h hl hroot hs

lemma Ready.done : Done sb True True s s' := by
  unfold stepOp invokeOp at hs
  cases hcwd : (s.proc p).cwd with
  | none =>
    rw [hcwd] at hs
    cases hs
  | some cwd =>
    have hop : wp (op sb p cwd o) (fun _ => True) _ s := op_spec (fun _ _ _ => trivial) trivial hl hroot h hcwd o
    rw [hcwd] at hs
    simp only [Option.map_some] at hs
    cases hrun : op sb p cwd o s with
    | error e =>
      rw [hrun] at hs
      cases hs
    | ok r =>
      rw [hrun] at hs
      cases hs
      exact hop.of_ok hrun

lemma Ready.next : Ready sb True True s' := by
  have hdone := h.done hl hroot hs
  exact ⟨hdone.inv, hdone.files, fun _ => ⟨hdone.inv.zeroHeld fun _ => trivial,
    (hdone.effects trivial).held_alloc (h.calm trivial).held⟩⟩

end

/-! ### A small image -/

lemma planted_emptyDisk : Planted smallSb emptyDisk () where
  toImage := image_emptyDisk
  aligned i hi := by
    have hall : ∀ i < 5, (dinode smallSb emptyDisk i).type = T_DIR → 16 ∣ (dinode smallSb emptyDisk i).size := by
      decide +kernel
    exact hall i hi.2
  rootDir := by decide +kernel
  linked i hi := by
    have hall : ∀ i < 5, (dinode smallSb emptyDisk i).type ≠ 0 → (dinode smallSb emptyDisk i).nlink ≠ 0 := by
      decide +kernel
    exact hall i hi.2

lemma emptyDisk_root : (tree smallSb (boot emptyDisk ())).type ROOTINO = T_DIR := by
  rw [tree_type, if_pos planted_emptyDisk.root]
  exact planted_emptyDisk.rootDir

end Xv6.Fs
