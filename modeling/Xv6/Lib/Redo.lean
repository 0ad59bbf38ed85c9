import Mathlib

/-!
# Installing a list of writes

The data of a redo log is a list of pairs, an address and the value to store there; `install`
stores them in order.  Whatever part of the list was stored before, storing all of it gives the same
result (`install_of_partial`).
-/

namespace Xv6.Lib

open Function List

variable {A V : Type*} [DecidableEq A]

/-- Store the pairs of `ws` in order. -/
def install (home : A → V) (ws : List (A × V)) : A → V :=
  ws.foldl (fun h w => update h w.1 w.2) home

@[simp]
lemma install_nil (home : A → V) : install home [] = home := rfl

@[simp]
lemma install_cons (home : A → V) (w : A × V) (ws : List (A × V)) :
    install home (w :: ws) = install (update home w.1 w.2) ws := rfl

variable {home home' : A → V} {ws : List (A × V)}

lemma install_of_notMem {a : A} (h : a ∉ ws.map Prod.fst) : install home ws a = home a := by
  induction ws generalizing home with
  | nil => rfl
  | cons w ws ih =>
    simp only [map_cons, mem_cons, not_or] at h
    rw [install_cons, ih h.2, update_of_ne h.1]

lemma install_congr {a : A} (h : a ∈ ws.map Prod.fst ∨ home a = home' a) :
    install home ws a = install home' ws a := by
  induction ws generalizing home home' with
  | nil =>
    rcases h with h | h
    · simp at h
    · exact h
  | cons w ws ih =>
    rw [install_cons, install_cons]
    refine ih ?_
    by_cases ha : a = w.1
    · subst ha; simp
    · rcases h with h | h
      · simp only [map_cons, mem_cons] at h
        exact .inl (h.resolve_left ha)
      · exact .inr (by rw [update_of_ne ha, update_of_ne ha, h])

/-- **Redo is idempotent.**  If `home'` differs from `home` only at addresses of `ws`, installing
`ws` over either gives the same. -/
lemma install_of_partial (h : ∀ a, a ∉ ws.map Prod.fst → home' a = home a) : install home' ws = install home ws := by
  funext a
  refine install_congr ?_
  by_cases ha : a ∈ ws.map Prod.fst
  · exact .inl ha
  · exact .inr (h a ha)

lemma install_of_mem (hnd : (ws.map Prod.fst).Nodup) {w : A × V} (hw : w ∈ ws) : install home ws w.1 = w.2 := by
  induction ws generalizing home with
  | nil => simp at hw
  | cons x ws ih =>
    rw [map_cons, nodup_cons] at hnd
    rw [install_cons]
    rcases mem_cons.mp hw with rfl | hw
    · rw [install_of_notMem hnd.1, update_self]
    · exact ih hnd.2 hw

lemma install_eq_self (h : ∀ w ∈ ws, home w.1 = w.2) : install home ws = home := by
  induction ws with
  | nil => rfl
  | cons w ws ih =>
    rw [install_cons, ← h w mem_cons_self, update_eq_self]
    exact ih fun v hv => h v (mem_cons_of_mem _ hv)

end Xv6.Lib
