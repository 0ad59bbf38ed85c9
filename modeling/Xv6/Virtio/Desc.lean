import Xv6.Virtio.Model

/-!
# Allocating and freeing descriptors

`alloc3_desc` gets three distinct free descriptors, or gives back what it got.  `free_chain` follows the
`next` links of a chain that `virtio_disk_rw` has formatted: it frees the three descriptors of the chain
and no other.  Neither panics.
-/

namespace Xv6.Virtio

open Function

variable {P B : Type} {s : State P B} {i : Fin NUM} {idx : Idx}

lemma allocDesc_eq_some (h : allocDesc s = some (i, s')) :
    s.free i = true ∧ s' = { s with free := update s.free i false } := by
  obtain ⟨j, hj, heq⟩ := Option.map_eq_some_iff.mp h
  cases heq
  exact ⟨List.find?_some hj, rfl⟩

lemma freeDesc_ok [DecidableEq B] (h : s.free i = false) :
    ∃ w, freeDesc s i = .ok { s with desc := update s.desc i .zero, free := update s.free i true, sleeping := w } := by
  rw [freeDesc, dif_pos i.isLt, if_neg (by simp [h])]
  exact ⟨_, rfl⟩

/-- The state after three descriptors have been taken. -/
def State.take (s : State P B) (idx : Idx) : State P B :=
  { s with free := update (update (update s.free (idx 0) false) (idx 1) false) (idx 2) false }

lemma take_free (idx : Idx) (i : Fin NUM) : (s.take idx).free i = false ↔ s.free i = false ∨ ∃ k, idx k = i := by
  simp only [State.take, update_apply, Fin.exists_fin_succ, IsEmpty.exists_iff, or_false, Fin.succ_zero_eq_one,
    Fin.succ_one_eq_two]
  grind

/-- The descriptors that are in use keep their contents. -/
def Untouched (s : State P B) (d : Fin NUM → Desc B) : Prop := ∀ i, s.free i = false → d i = s.desc i

lemma untouched_update (h : Untouched s d) (hi : s.free i = true) (x : Desc B) :
    Untouched s (update d i x) := by
  intro j hj
  have hne : j ≠ i := by
    rintro rfl
    rw [hi] at hj
    cases hj
  rw [update_of_ne hne]
  exact h j hj

lemma update_false_true {f : Fin NUM → Bool} (hi : f i = true) : update (update f i false) i true = f := by
  rw [update_idem, ← hi, update_eq_self]

lemma alloc3Desc_spec [DecidableEq B] (s : State P B) :
    (∃ d w, alloc3Desc s = .ok ({ s with desc := d, sleeping := w }, none) ∧ Untouched s d) ∨
      ∃ idx, alloc3Desc s = .ok (s.take idx, some idx) ∧ Injective idx ∧ ∀ k, s.free (idx k) = true := by
  have hrefl : Untouched s s.desc := fun _ _ => rfl
  unfold alloc3Desc
  cases ha : allocDesc s with
  | none => exact .inl ⟨s.desc, s.sleeping, rfl, hrefl⟩
  | some ra =>
    obtain ⟨a, s1⟩ := ra
    obtain ⟨hfa, rfl⟩ := allocDesc_eq_some ha
    dsimp only
    cases hb : allocDesc { s with free := update s.free a false } with
    | none =>
      -- the first goes back
      left
      obtain ⟨w, hw⟩ := freeDesc_ok (s := { s with free := update s.free a false }) (i := a) (update_self ..)
      refine ⟨update s.desc a .zero, w, ?_, untouched_update hrefl hfa _⟩
      simp only [hw, Except.map, update_false_true hfa]
    | some rb =>
      obtain ⟨b, s2⟩ := rb
      obtain ⟨hfb, rfl⟩ := allocDesc_eq_some hb
      dsimp only at hfb ⊢
      have hba : b ≠ a := by
        rintro rfl
        rw [update_self] at hfb
        cases hfb
      rw [update_of_ne hba] at hfb
      cases hc : allocDesc { s with free := update (update s.free a false) b false } with
      | none =>
        -- the first two go back
        left
        have h1 : update (update s.free a false) b false a = false := by rw [update_of_ne hba.symm, update_self]
        have h2 : update (update (update s.free a false) b false) a true b = false := by rw [update_of_ne hba, update_self]
        have hfree : update (update (update (update s.free a false) b false) a true) b true = s.free := by
          have hcomm : update (update (update s.free a false) b false) a true =
              update (update (update s.free a false) a true) b false := update_comm hba ..
          rw [hcomm, update_false_true hfa, update_false_true hfb]
        obtain ⟨v, hv⟩ := freeDesc_ok (s := { s with free := update (update s.free a false) b false }) (i := a) h1
        obtain ⟨w, hw⟩ := freeDesc_ok (i := b)
          (s := { s with
            desc := update s.desc a .zero
            free := update (update (update s.free a false) b false) a true
            sleeping := v }) h2
        refine ⟨update (update s.desc a .zero) b .zero, w, ?_, untouched_update (untouched_update hrefl hfa _) hfb _⟩
        simp only [hv, hw, Except.map, hfree]
      | some rc =>
        obtain ⟨c, s3⟩ := rc
        obtain ⟨hfc, rfl⟩ := allocDesc_eq_some hc
        right
        dsimp only at hfc
        have hcb : c ≠ b := by
          rintro rfl
          simp at hfc
        have hca : c ≠ a := by
          rintro rfl
          simp [update_of_ne hcb] at hfc
        rw [update_of_ne hcb, update_of_ne hca] at hfc
        refine ⟨![a, b, c], rfl, ?_, ?_⟩
        · intro i j hij
          fin_cases i <;> fin_cases j <;> simp_all
        · intro k
          fin_cases k
          · exact hfa
          · exact hfb
          · exact hfc

/-- The chain that `virtio_disk_rw` makes of three descriptors. -/
def Formatted (s : State P B) (b : B) (idx : Idx) : Prop :=
  s.infoB (idx 0) = some b ∧ ∃ write, s.desc (idx 0) = ⟨.ops (idx 0), 16, true, false, idx 1⟩ ∧
    s.desc (idx 1) = ⟨.data b, 1024, true, !write, idx 2⟩ ∧
    s.desc (idx 2) = ⟨.status (idx 0), 1, false, true, 0⟩

/-- The state after a chain has been freed. -/
def State.give (s : State P B) (idx : Idx) : State P B :=
  { s with
    desc := update (update (update s.desc (idx 0) .zero) (idx 1) .zero) (idx 2) .zero
    free := update (update (update s.free (idx 0) true) (idx 1) true) (idx 2) true }

lemma freeChain_succ [DecidableEq B] (fuel : ℕ) (h : s.free i = false) : ∃ w, freeChain (fuel + 1) s i =
      let s' : State P B := { s with desc := update s.desc i .zero, free := update s.free i true, sleeping := w }
      if (s.desc i).chained then freeChain fuel s' (s.desc i).next else .ok s' := by
  obtain ⟨w, hw⟩ := freeDesc_ok h
  refine ⟨w, ?_⟩
  rw [freeChain, hw]
  simp only [i.isLt, dite_true]

lemma freeChain_spec [DecidableEq B] (hinj : Injective idx) (hdesc : Formatted s b idx)
    (hfree : ∀ k, s.free (idx k) = false) (info : Fin NUM → Option B) :
    ∃ w, freeChain NUM { s with infoB := info } (idx 0) = .ok { s.give idx with infoB := info, sleeping := w } := by
  obtain ⟨-, write, h0, h1, h2⟩ := hdesc
  have h10 : idx 1 ≠ idx 0 := hinj.ne (by decide)
  have h20 : idx 2 ≠ idx 0 := hinj.ne (by decide)
  have h21 : idx 2 ≠ idx 1 := hinj.ne (by decide)
  obtain ⟨u, hu⟩ := freeChain_succ 7 (s := { s with infoB := info }) (hfree 0)
  obtain ⟨v, hv⟩ := freeChain_succ 6 (i := idx 1)
    (s := { s with
      infoB := info
      desc := update s.desc (idx 0) .zero
      free := update s.free (idx 0) true
      sleeping := u }) (by simpa [update_of_ne h10] using hfree 1)
  obtain ⟨w, hw⟩ := freeChain_succ 5 (i := idx 2)
    (s := { s with
      infoB := info
      desc := update (update s.desc (idx 0) .zero) (idx 1) .zero
      free := update (update s.free (idx 0) true) (idx 1) true
      sleeping := v }) (by simpa [update_of_ne h20, update_of_ne h21] using hfree 2)
  refine ⟨w, ?_⟩
  simp only [hu, h0, if_true, hv, update_of_ne h10, h1, hw, update_of_ne h20, update_of_ne h21, h2, Bool.false_eq_true,
    if_false, State.give]

lemma give_free (idx : Idx) (i : Fin NUM) : (s.give idx).free i = false ↔ s.free i = false ∧ ∀ k, idx k ≠ i := by
  simp only [State.give, update_apply, Fin.forall_fin_succ, IsEmpty.forall_iff, and_true, Fin.succ_zero_eq_one,
    Fin.succ_one_eq_two]
  grind

lemma give_desc (h : ∀ k, idx k ≠ i) : (s.give idx).desc i = s.desc i := by
  simp only [State.give]
  rw [update_of_ne (h 2).symm, update_of_ne (h 1).symm, update_of_ne (h 0).symm]

lemma setStatus_eq (h : Formatted s b idx) :
    s.setStatus (idx 0) = { s with status := update s.status (idx 0) 0 } := by
  obtain ⟨-, write, h0, h1, h2⟩ := h
  unfold State.setStatus
  simp only [h0, h1, Fin.ofNat_eq_cast, Fin.cast_val_eq_self, h2]

end Xv6.Virtio
