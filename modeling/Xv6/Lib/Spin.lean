import Mathlib

/-!
# Spinlocks and who holds them

`Holds lock held` says that the owner recorded in each lock is the one agent that believes to hold it.
-/

namespace Xv6.Lib

variable {L C : Type} [DecidableEq L] {lock : L → Option C} {held held' : C → List L} {l : L} {c : C}

structure Holds (lock : L → Option C) (held : C → List L) : Prop where
  owner : ∀ l c, lock l = some c ↔ l ∈ held c
  nodup : ∀ c, (held c).Nodup

namespace Holds

section

variable (h : Holds lock held)

include h

omit [DecidableEq L] in
lemma eq_of_mem {c' : C} (hc : l ∈ held c) (hc' : l ∈ held c') : c = c' := by
  have := ((h.owner l c).mpr hc).symm.trans ((h.owner l c').mpr hc')
  exact Option.some.inj this

omit [DecidableEq L] in
lemma notMem_of_none (hl : lock l = none) (c : C) : l ∉ held c := by
  intro hc
  rw [(h.owner l c).mpr hc] at hl
  cases hl

omit [DecidableEq L] in
lemma congr (he : ∀ c, held' c = held c) : Holds lock held' := by
  rwa [funext he]

lemma acquire (hl : lock l = none) (hc : held' c = l :: held c) (ho : ∀ c', c' ≠ c → held' c' = held c') :
    Holds (Function.update lock l (some c)) held' where
  owner x d := by
    have hfree := h.notMem_of_none hl
    have hx := h.owner x d
    by_cases hd : d = c
    · subst hd
      grind
    · rw [ho d hd]
      grind
  nodup d := by
    by_cases hd : d = c
    · subst hd
      rw [hc]
      exact List.nodup_cons.mpr ⟨h.notMem_of_none hl d, h.nodup d⟩
    · rw [ho d hd]
      exact h.nodup d

lemma release (hc : (held c).Perm (l :: held' c)) (ho : ∀ c', c' ≠ c → held' c' = held c') :
    Holds (Function.update lock l none) held' where
  owner x d := by
    have hmem : l ∈ held c := hc.mem_iff.mpr List.mem_cons_self
    have hx := h.owner x d
    by_cases hd : d = c
    · subst hd
      have hnd := List.nodup_cons.mp (hc.nodup_iff.mp (h.nodup d))
      have hx' : x ∈ held d ↔ x ∈ l :: held' d := hc.mem_iff
      grind
    · rw [ho d hd]
      have : l ∉ held d := fun hm => hd (h.eq_of_mem hm hmem)
      grind
  nodup d := by
    by_cases hd : d = c
    · subst hd
      exact (List.nodup_cons.mp (hc.nodup_iff.mp (h.nodup d))).2
    · rw [ho d hd]
      exact h.nodup d

end

end Holds

end Xv6.Lib
