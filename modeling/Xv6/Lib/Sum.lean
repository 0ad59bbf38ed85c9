import Mathlib

/-!
# Sums that change at one place
-/

namespace Xv6.Lib

lemma sum_change_mem {ι : Type*} [DecidableEq ι] {s : Finset ι} {f g : ι → ℕ} {p : ι} (hp : p ∈ s)
    (h : ∀ q, q ≠ p → f q = g q) : ∑ q ∈ s, f q + g p = ∑ q ∈ s, g q + f p := by
  have hrest : ∑ q ∈ s.erase p, f q = ∑ q ∈ s.erase p, g q :=
    Finset.sum_congr rfl fun q hq => h q (Finset.ne_of_mem_erase hq)
  have hf := Finset.add_sum_erase _ f hp
  have hg := Finset.add_sum_erase _ g hp
  omega

variable {P : Type*} [Fintype P] [DecidableEq P]

lemma sum_change {f g : P → ℕ} (p : P) (h : ∀ q, q ≠ p → f q = g q) :
    ∑ q, f q + g p = ∑ q, g q + f p := sum_change_mem (Finset.mem_univ p) h

end Xv6.Lib
