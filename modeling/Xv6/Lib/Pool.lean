import Mathlib

/-!
# Resources with owners

A pool of resources, some of them free, the others each owned by exactly one slot.  `R t` is what
slot `t` owns.
-/

namespace Xv6.Lib

open Function

variable {B T : Type*}

structure Pool (pool : B → Prop) (free : B → Prop) (R : T → Option B) : Prop where
  /-- No resource has two owners. -/
  inj : ∀ t u b, R t = some b → R u = some b → t = u
  /-- What is owned is in the pool and not free. -/
  used : ∀ t b, R t = some b → pool b ∧ ¬ free b
  /-- What is not free is owned: nothing is lost. -/
  total : ∀ b, pool b → ¬ free b → ∃ t, R t = some b

namespace Pool

variable {pool free free' : B → Prop} {R : T → Option B}

lemma congr_free (h : Pool pool free R) (hf : ∀ b, pool b → (free' b ↔ free b)) : Pool pool free' R where
  inj := h.inj
  used t b ht := ⟨(h.used t b ht).1, fun hb => (h.used t b ht).2 ((hf b (h.used t b ht).1).mp hb)⟩
  total b hb hnf := h.total b hb fun hfb => hnf ((hf b hb).mpr hfb)

variable [DecidableEq T]

lemma take (h : Pool pool free R) {b : B} (hb : pool b) (hfree : free b) {t : T} (ht : R t = none)
    (hf : ∀ x, pool x → (free' x ↔ free x ∧ x ≠ b)) : Pool pool free' (update R t (some b)) where
  inj u v x hu hv := by
    have hother : ∀ w, w ≠ t → R w = some x → x ≠ b := by
      rintro w - hw rfl
      exact (h.used w x hw).2 hfree
    by_cases hut : u = t
    · subst hut
      by_cases hvt : v = u
      · exact hvt.symm
      · rw [update_self, Option.some.injEq] at hu
        rw [update_of_ne hvt] at hv
        exact absurd hu.symm (hother v hvt hv)
    · rw [update_of_ne hut] at hu
      by_cases hvt : v = t
      · subst hvt
        rw [update_self, Option.some.injEq] at hv
        exact absurd hv.symm (hother u hut hu)
      · rw [update_of_ne hvt] at hv
        exact h.inj u v x hu hv
  used u x hu := by
    by_cases hut : u = t
    · subst hut
      rw [update_self, Option.some.injEq] at hu
      subst hu
      exact ⟨hb, fun hx => ((hf b hb).mp hx).2 rfl⟩
    · rw [update_of_ne hut] at hu
      obtain ⟨hx, hnf⟩ := h.used u x hu
      exact ⟨hx, fun hfx => hnf ((hf x hx).mp hfx).1⟩
  total x hx hnf := by
    by_cases hxb : x = b
    · exact ⟨t, by rw [update_self, hxb]⟩
    · obtain ⟨u, hu⟩ := h.total x hx fun hfx => hnf ((hf x hx).mpr ⟨hfx, hxb⟩)
      refine ⟨u, ?_⟩
      rw [update_of_ne]
      · exact hu
      · rintro rfl
        rw [ht] at hu
        cases hu

lemma give (h : Pool pool free R) {b : B} {t : T} (ht : R t = some b)
    (hf : ∀ x, pool x → (free' x ↔ free x ∨ x = b)) : Pool pool free' (update R t none) where
  inj u v x hu hv := by
    have hne : ∀ w, update R t none w = some x → w ≠ t := by
      rintro w hw rfl
      rw [update_self] at hw
      cases hw
    have hut := hne u hu
    have hvt := hne v hv
    rw [update_of_ne hut] at hu
    rw [update_of_ne hvt] at hv
    exact h.inj u v x hu hv
  used u x hu := by
    have hut : u ≠ t := by
      rintro rfl
      rw [update_self] at hu
      cases hu
    rw [update_of_ne hut] at hu
    obtain ⟨hx, hnf⟩ := h.used u x hu
    refine ⟨hx, fun hfx => ?_⟩
    rcases (hf x hx).mp hfx with hfx | rfl
    · exact hnf hfx
    · exact hut (h.inj u t x hu ht)
  total x hx hnf := by
    obtain ⟨u, hu⟩ := h.total x hx fun hfx => hnf ((hf x hx).mpr (Or.inl hfx))
    refine ⟨u, ?_⟩
    rw [update_of_ne]
    · exact hu
    · rintro rfl
      rw [ht, Option.some.injEq] at hu
      exact hnf ((hf x hx).mpr (Or.inr hu.symm))

end Pool

end Xv6.Lib
