import Mathlib

/-!
# Intervals that cover a set

An interval is a start and a length.  `cover x bs` counts the intervals of `bs` that contain `x`, which
cutting an interval in two, or joining two, does not change.
-/

namespace Xv6.Lib

/-- The point `x` is in the interval `b`. -/
def Inside (x : ℕ) (b : ℕ × ℕ) : Prop := b.1 ≤ x ∧ x < b.1 + b.2
  deriving Decidable

def cover (x : ℕ) (bs : List (ℕ × ℕ)) : ℕ := bs.countP fun b => Inside x b

variable {x : ℕ} {b : ℕ × ℕ} {bs cs : List (ℕ × ℕ)}

@[simp]
lemma cover_nil : cover x [] = 0 := rfl

lemma cover_cons : cover x (b :: bs) = cover x bs + if Inside x b then 1 else 0 := by
  unfold cover
  rw [List.countP_cons]
  simp only [decide_eq_true_eq]

lemma cover_append : cover x (bs ++ cs) = cover x bs + cover x cs := List.countP_append

lemma cover_pos_iff : 0 < cover x bs ↔ ∃ b ∈ bs, Inside x b := by
  unfold cover
  rw [List.countP_pos_iff]
  simp only [decide_eq_true_eq]

lemma cover_perm (h : bs.Perm cs) : cover x bs = cover x cs := h.countP_eq _

lemma inside_iff {a m : ℕ} : Inside x (a, m) ↔ a ≤ x ∧ x < a + m := Iff.rfl

lemma inside_join {a m n : ℕ} : (if Inside x (a, m) then 1 else 0) + (if Inside x (a + m, n) then 1 else 0) =
    if Inside x (a, m + n) then 1 else 0 := by
  by_cases h1 : Inside x (a, m)
  · rw [if_pos h1, if_neg, if_pos]
    · rw [inside_iff] at h1 ⊢
      omega
    · rw [inside_iff] at h1 ⊢
      omega
  · rw [if_neg h1, Nat.zero_add]
    have h2 : Inside x (a + m, n) ↔ Inside x (a, m + n) := by
      rw [inside_iff] at h1 ⊢
      rw [inside_iff]
      omega
    rw [if_congr h2 rfl rfl]

lemma pairwise_of_cover (h : ∀ x, cover x bs ≤ 1) : bs.Pairwise fun b c => ∀ x, ¬ (Inside x b ∧ Inside x c) := by
  induction bs with
  | nil => exact List.Pairwise.nil
  | cons b bs ih =>
    refine List.Pairwise.cons (fun c hc x hx => ?_) (ih fun x => ?_)
    · have h1 := h x
      have h2 : 0 < cover x bs := cover_pos_iff.mpr ⟨c, hc, hx.2⟩
      rw [cover_cons, if_pos hx.1] at h1
      omega
    · have h1 := h x
      rw [cover_cons] at h1
      omega

end Xv6.Lib
