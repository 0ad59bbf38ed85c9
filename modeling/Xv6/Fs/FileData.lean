import Xv6.Fs.Reading

/-!
# Files as arrays of bytes
-/

namespace Xv6.Fs

open Lib Log Function

variable {P : Type} {sb : Superblock} {ok : Stop → Prop}

/-! ### Arrays of bytes -/

/-- `readi` on entry `e` reads the bytes `f`, up to the size. -/
def ReadsAs (sb : Superblock) (s : State P) (e : Fin NINODE) (f : ℕ → ℕ) : Prop :=
  ∀ off n, off + n < 2 ^ 32 →
    readi sb e off n s = .ok ((List.range (min n ((s.ino e).d.size - off))).map fun k => f (off + k), s)

section

variable {s : State P} {e : Fin NINODE} {D : ℕ → Dinode} (hD : D (s.ino e).inum = (s.ino e).d)
  (hi : sb.Inum (s.ino e).inum) (ht : (s.ino e).d.type ≠ 0)

include hD hi ht

lemma readsAs_of_below
    (hbelow : ∀ k, k < (s.ino e).d.size → slot sb D s.disk ((s.ino e).inum, dataSlot (k / BSIZE)) ≠ 0)
    (hf : ∀ x, x < (s.ino e).d.size → dataByte sb D s.disk (s.ino e).inum x = f x) : ReadsAs sb s e f := by
  intro off n hoff
  have hread : wp (readi sb e off n) (fun _ => False) _ s := readi_data hD hi ht hbelow off n
  obtain ⟨bytes, s', hrun, rfl, rfl⟩ := hread.returns
  rw [hrun]
  have hcount : readable s' e off n = min n ((s'.ino e).d.size - off) := by
    unfold readable
    by_cases hbig : off > (s'.ino e).d.size
    · rw [if_pos (Or.inl hbig)]
      omega
    · rw [if_neg]
      omega
  rw [hcount]
  congr 2
  refine List.map_congr_left fun k hk => ?_
  have := List.mem_range.mp hk
  exact hf _ (by omega)

lemma readsAs_of_solid (hs : Solid sb D s.disk)
    (hf : ∀ x, x < (s.ino e).d.size → dataByte sb D s.disk (s.ino e).inum x = f x) : ReadsAs sb s e f := by
  refine readsAs_of_below hD hi ht (fun k hk => ?_) hf
  refine hs.full _ hi (by rwa [hD]) _ ?_
  rw [hD]
  exact lt_of_le_of_lt (Nat.mul_div_le k BSIZE) hk

end

namespace Replaced

variable {D : ℕ → Dinode} {s s' : State P} {e : Fin NINODE} {src : ℕ → Option ℕ} {off tot : ℕ}

section

variable (hr : Replaced sb D s e src off tot s')

include hr

lemma inum : (s'.ino e).inum = (s.ino e).inum := by rw [hr.state, State.grown_ino_self]

lemma ino_other (he' : e' ≠ e) : s'.ino e' = s.ino e' := by
  rw [hr.state]
  exact update_of_ne he' _ _

lemma readsAs (hi : sb.Inum (s.ino e).inum) (ht : (s.ino e).d.type ≠ 0) :
    ReadsAs sb s' e (overlay (dataByte sb D s.disk (s.ino e).inum) off tot (srcByte src)) := by
  refine readsAs_of_solid (by rw [hr.inum, update_self]) (by rwa [hr.inum]) (by rwa [hr.type])
    hr.solid ?_
  rw [hr.inum]
  exact hr.bytes

lemma readsAs_other (hs : Solid sb D s.disk) (hne : (s.ino e').inum ≠ (s.ino e).inum)
    (hD : D (s.ino e').inum = (s.ino e').d) (hi : sb.Inum (s.ino e').inum) (ht : (s.ino e').d.type ≠ 0) :
    ReadsAs sb s' e' (dataByte sb D s.disk (s.ino e').inum) := by
  have hsame : s'.ino e' = s.ino e' := hr.ino_other fun h => hne (by rw [h])
  refine readsAs_of_solid (by rwa [hsame, update_of_ne hne]) (by rwa [hsame]) (by rwa [hsame])
    hr.solid ?_
  rw [hsame]
  intro x hx
  refine hr.others _ x hne (hs.full _ hi (by rwa [hD]) _ ?_)
  rw [hD]
  exact lt_of_le_of_lt (Nat.mul_div_le x BSIZE) hx

end

end Replaced

/-- **`readi` and `writei` implement an array of bytes.**  On inodes that share no block and have no hole, `writei` at
an offset up to the size writes all it was asked to, or less when there is no free block left; `readi` then returns
the old bytes with those of the source in their place.  Other inodes keep their size and their bytes, and there is
again no shared block and no hole. -/
theorem writei_byteArray (hl : Layout sb) {D : ℕ → Dinode} {s : State P} {e : Fin NINODE}
    (hm : Marked sb (slot sb D s.disk) s.disk) (hs : Solid sb D s.disk)
    (hD : D (s.ino e).inum = (s.ino e).d) (hi : sb.Inum (s.ino e).inum) (ht : (s.ino e).d.type ≠ 0)
    (hsmall : (s.ino e).d.Small) {src : ℕ → Option ℕ} {off n : ℕ} (hoff : off ≤ (s.ino e).d.size)
    (hmax : off + n ≤ MAXFILE * BSIZE) (hsrc : ∀ k, k < n → (src k).isSome) :
    ∃ (tot : ℕ) (s' : State P), writei sb e src off n s = .ok (↑tot, s') ∧ tot ≤ n ∧ (tot = n ∨ Full sb s'.disk) ∧
      (s'.ino e).d.size = max (s.ino e).d.size (off + tot) ∧
      (∃ f, ReadsAs sb s e f ∧ ReadsAs sb s' e (overlay f off tot (srcByte src))) ∧
      (∀ e', e' ≠ e → s'.ino e' = s.ino e') ∧
      (∀ e', (s.ino e').inum ≠ (s.ino e).inum → D (s.ino e').inum = (s.ino e').d → sb.Inum (s.ino e').inum →
        (s.ino e').d.type ≠ 0 → ∃ f, ReadsAs sb s e' f ∧ ReadsAs sb s' e' f) ∧
      (∀ j, sb.Inum j → dinode sb s'.disk j = if j = (s.ino e).inum then (s'.ino e).d else dinode sb s.disk j) ∧
      Marked sb (slot sb (update D (s.ino e).inum (s'.ino e).d) s'.disk) s'.disk ∧
      Solid sb (update D (s.ino e).inum (s'.ino e).d) s'.disk := by
  have hwrite : wp (writei sb e src off n) (fun _ => False) _ s :=
    writei_data hl hD hi ht hsmall hm hs hoff hmax
  obtain ⟨_, s', hrun, tot, rfl, ⟨-, k, hk, hnone⟩ | ⟨htot, hstop, hr⟩⟩ := hwrite.returns
  · exact absurd (hsrc k hk) (by rw [hnone]; exact Bool.false_ne_true)
  refine ⟨tot, s', hrun, htot, hstop, hr.size, ⟨dataByte sb D s.disk (s.ino e).inum, ?_, hr.readsAs hi ht⟩,
    fun _ => hr.ino_other, fun e' hne hD' hi' ht' =>
      ⟨dataByte sb D s.disk (s.ino e').inum, ?_, hr.readsAs_other hs hne hD' hi' ht'⟩, hr.dinode, hr.marked, hr.solid⟩
  · exact readsAs_of_solid hD hi ht hs fun _ _ => rfl
  · exact readsAs_of_solid hD' hi' ht' hs fun _ _ => rfl

/-- The root directory of an empty disk, held by entry 0. -/
def rootHeld : State Unit := (boot emptyDisk ()).grown 0 (dinode smallSb emptyDisk ROOTINO) emptyDisk

lemma marked_rootHeld : Marked smallSb (slot smallSb (dinode smallSb emptyDisk) rootHeld.disk) rootHeld.disk := by
  have hown := (emptyDisk_owned : BlocksOwned smallSb (boot emptyDisk ())).owned smallSb_layout emptyDisk_data
  rw [slot_boot] at hown
  exact hown.marked

lemma solid_rootHeld : Solid smallSb (dinode smallSb emptyDisk) rootHeld.disk :=
  (image_emptyDisk : Image smallSb emptyDisk ()).solid

lemma size_rootHeld : (rootHeld.ino 0).d.size = 1024 := by decide +kernel

theorem writei_byteArray_rootHeld :
    ∃ (tot : ℕ) (s' : State Unit), writei smallSb 0 (fun _ => some 7) 1020 10 rootHeld = .ok (↑tot, s') ∧
      (s'.ino 0).d.size = max 1024 (1020 + tot) := by
  have hoff : 1020 ≤ (rootHeld.ino 0).d.size := by rw [size_rootHeld]; decide
  have hsrc : ∀ k, k < 10 → ((fun _ => some 7 : ℕ → Option ℕ) k).isSome := fun _ _ => rfl
  obtain ⟨tot, s', hrun, -, -, hend, -⟩ := writei_byteArray (e := 0) smallSb_layout marked_rootHeld solid_rootHeld rfl
    (by decide) (by decide +kernel) (small_dinode _ _ _) hoff (by decide) hsrc
  exact ⟨tot, s', hrun, by rw [← size_rootHeld]; exact hend⟩

/-- A range whose end does not fit in 32 bits reads nothing, although there are bytes at its start. -/
theorem readi_overflow : Marked smallSb (slot smallSb (dinode smallSb emptyDisk) rootHeld.disk) rootHeld.disk ∧
      Solid smallSb (dinode smallSb emptyDisk) rootHeld.disk ∧
      ∃ s' : State Unit, writei smallSb 0 (fun _ => some 7) 1020 0 rootHeld = .ok (0, s') ∧
        readi smallSb 0 1 (2 ^ 32 - 1) s' = .ok ([], s') ∧ (s'.ino 0).d.size = 1024 := by
  have hwrite : wp (writei smallSb 0 (fun _ => some 7) 1020 0) (fun _ => False) _ rootHeld :=
    writei_data smallSb_layout rfl (by decide) (by decide +kernel) (small_dinode _ _ _) marked_rootHeld
      solid_rootHeld (by rw [size_rootHeld]; decide) (by decide)
  obtain ⟨_, s', hrun, tot, rfl, ⟨hlt, -⟩ | ⟨htot, -, hr⟩⟩ := hwrite.returns
  · exact absurd hlt (Nat.not_lt_zero _)
  obtain rfl : tot = 0 := Nat.le_zero.mp htot
  have hsize : (s'.ino 0).d.size = 1024 := by
    rw [hr.size, size_rootHeld]
    rfl
  refine ⟨marked_rootHeld, solid_rootHeld, s', hrun, ?_, hsize⟩
  have hguard : 1 > (s'.ino 0).d.size ∨ (1 + (2 ^ 32 - 1)) % 2 ^ 32 < 1 := Or.inr (by decide)
  have hread : wp (readi smallSb 0 1 (2 ^ 32 - 1)) (fun _ => False) (fun r s₁ => r = [] ∧ s₁ = s') s' := by
    simp only [readi, inode, wp_bind, wp_read, wp_pure]
    rw [if_pos hguard]
    exact ⟨rfl, rfl⟩
  obtain ⟨_, _, hok, rfl, rfl⟩ := hread.returns
  exact hok

end Xv6.Fs
