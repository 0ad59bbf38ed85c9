import Mathlib

/-!
# Circular singly linked lists

`Path next a l c` says that the links lead from `a` through the nodes `l` to `c`; `Loop next l` that they
lead through the nodes `l` and back to the first of them.  A loop can be entered at any node (`Loop.rotate`).
-/

namespace Xv6.Lib.Slist

open Function List

variable {α : Type*} {next next' : α → α} {a b c x z : α} {l l1 l2 : List α}

def Path (next : α → α) : α → List α → α → Prop
  | a, [], c => next a = c
  | a, x :: l, c => next a = x ∧ Path next x l c

def Loop (next : α → α) : List α → Prop
  | [] => False
  | a :: l => Path next a l a

lemma path_append : Path next a (l1 ++ x :: l2) c ↔ Path next a l1 x ∧ Path next x l2 c := by
  induction l1 generalizing a with
  | nil => rfl
  | cons y l1 ih =>
    rw [cons_append, Path, Path, ih]
    exact and_assoc.symm

lemma Path.frame (h : Path next a l c) (hn : ∀ x ∈ a :: l, next' x = next x) : Path next' a l c := by
  induction l generalizing a with
  | nil =>
    rw [Path, hn a mem_cons_self]
    exact h
  | cons x l ih =>
    refine ⟨?_, ih h.2 fun y hy => hn y (mem_cons_of_mem _ hy)⟩
    rw [hn a mem_cons_self]
    exact h.1

lemma Loop.rotate (h : Loop next (l1 ++ l2)) : Loop next (l2 ++ l1) := by
  cases l1 with
  | nil => rwa [append_nil]
  | cons a l1 =>
    cases l2 with
    | nil => rwa [append_nil] at h
    | cons b l2 =>
      obtain ⟨h1, h2⟩ := path_append.mp h
      exact path_append.mpr ⟨h2, h1⟩

lemma Loop.insert [DecidableEq α] (h : Loop next (z :: l)) (hb : b ∉ z :: l) (hz : z ∉ l) :
    Loop (update (update next b (next z)) z b) (z :: b :: l) := by
  have hbz : b ≠ z := fun e => hb (e ▸ mem_cons_self)
  have hframe : ∀ x ∈ l, update (update next b (next z)) z b x = next x := by
    intro x hx
    have hxz : x ≠ z := fun e => hz (e ▸ hx)
    have hxb : x ≠ b := fun e => hb (mem_cons_of_mem _ (e ▸ hx))
    rw [update_of_ne hxz, update_of_ne hxb]
  refine ⟨update_self _ _ _, ?_⟩
  cases l with
  | nil =>
    rw [Path, update_of_ne hbz, update_self]
    exact h
  | cons x l =>
    refine ⟨?_, Path.frame h.2 hframe⟩
    rw [update_of_ne hbz, update_self]
    exact h.1

lemma Loop.remove [DecidableEq α] (h : Loop next (z :: x :: l)) (hz : z ∉ x :: l) :
    Loop (update next z (next x)) (z :: l) := by
  have hframe : ∀ y ∈ l, update next z (next x) y = next y := by
    intro y hy
    rw [update_of_ne]
    rintro rfl
    exact hz (mem_cons_of_mem _ hy)
  cases l with
  | nil =>
    rw [Loop, Path, update_self]
    exact h.2
  | cons y l =>
    refine ⟨?_, Path.frame h.2.2 hframe⟩
    rw [update_self]
    exact h.2.1

end Xv6.Lib.Slist
