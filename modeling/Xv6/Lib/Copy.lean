import Mathlib

/-!
Copies from place to place within one memory: what a sequence of them leaves, if no copy writes a place that a later one
reads or writes.
-/

namespace Xv6.Lib

open List Function

variable {A V : Type} [DecidableEq A]

/-- The copies `l`, each a destination and a source, one after the other. -/
def copies (m : A → V) (l : List (A × A)) : A → V := l.foldl (fun m c => update m c.1 (m c.2)) m

/-- A copy may be made before another: it writes neither the source nor the destination of the later one. -/
abbrev Clear (c c' : A × A) : Prop := c.1 ≠ c'.2 ∧ c.1 ≠ c'.1

theorem copies_of_ne {m : A → V} {l : List (A × A)} {a : A} (h : ∀ c ∈ l, a ≠ c.1) : copies m l a = m a := by
  induction l generalizing m with
  | nil => rfl
  | cons c l ih =>
    obtain ⟨hc, hl⟩ := forall_mem_cons.mp h
    exact (ih hl).trans (update_of_ne hc _ _)

theorem copies_of_mem {m : A → V} {l : List (A × A)} (h : l.Pairwise Clear) {c : A × A} (hc : c ∈ l) :
    copies m l c.1 = m c.2 := by
  induction l generalizing m with
  | nil => cases hc
  | cons c' l ih =>
    obtain ⟨hclear, hl⟩ := pairwise_cons.mp h
    rcases mem_cons.mp hc with rfl | hc
    · exact (copies_of_ne fun c' hc' => (hclear c' hc').2).trans (update_self ..)
    · exact (ih hl hc).trans (update_of_ne (hclear c hc).1.symm _ _)

end Xv6.Lib
