import Mathlib

/-!
# Circular doubly linked lists

`Links` are the fields `next` and `prev` of the nodes.  `Seg s a l c` says that the links lead from `a`
through the nodes `l` to `c` and back; `Cycle s h l` that they lead from the head `h` through `l` to the
head again.
-/

namespace Xv6.Lib.Dlist

open Function List

structure Links (α : Type*) where
  next : α → α
  prev : α → α

variable {α : Type*}

/-- The links in the other direction. -/
def Links.swap (s : Links α) : Links α := ⟨s.prev, s.next⟩

def Seg (s : Links α) : α → List α → α → Prop
  | a, [], c => s.next a = c ∧ s.prev c = a
  | a, x :: l, c => (s.next a = x ∧ s.prev x = a) ∧ Seg s x l c

abbrev Cycle (s : Links α) (h : α) (l : List α) : Prop := Seg s h l h

section

variable {s s' : Links α} {a b c h x : α} {l l1 l2 : List α}

lemma seg_append : Seg s a (l1 ++ x :: l2) c ↔ Seg s a l1 x ∧ Seg s x l2 c := by
  induction l1 generalizing a with
  | nil => rfl
  | cons y l1 ih =>
    rw [cons_append, Seg, Seg, ih]
    exact and_assoc.symm

lemma Seg.swap (hs : Seg s a l c) : Seg s.swap c l.reverse a := by
  induction l generalizing a with
  | nil => exact ⟨hs.2, hs.1⟩
  | cons x l ih =>
    rw [reverse_cons]
    exact seg_append.mpr ⟨ih hs.2, hs.1.2, hs.1.1⟩

lemma Seg.frame (hs : Seg s a l c) (hn : ∀ x ∈ a :: l, s'.next x = s.next x)
    (hp : ∀ x ∈ l ++ [c], s'.prev x = s.prev x) : Seg s' a l c := by
  induction l generalizing a with
  | nil =>
    refine ⟨?_, ?_⟩
    · rw [hn a mem_cons_self]
      exact hs.1
    · rw [hp c (mem_singleton.mpr rfl)]
      exact hs.2
  | cons x l ih =>
    refine ⟨⟨?_, ?_⟩, ih hs.2 (fun y hy => hn y (mem_cons_of_mem _ hy)) fun y hy => hp y (mem_cons_of_mem _ hy)⟩
    · rw [hn a mem_cons_self]
      exact hs.1.1
    · rw [hp x mem_cons_self]
      exact hs.1.2

lemma Seg.prev_mem (hs : Seg s a l c) : s.prev c ∈ a :: l := by
  induction l generalizing a with
  | nil =>
    rw [hs.2]
    exact mem_singleton.mpr rfl
  | cons x l ih => exact mem_cons_of_mem _ (ih hs.2)

lemma Seg.retarget (hs : Seg s a l b) (hd : (a :: l).Nodup) (hn : s'.next (s.prev b) = c)
    (hn' : ∀ x ∈ a :: l, x ≠ s.prev b → s'.next x = s.next x) (hp : s'.prev c = s.prev b)
    (hp' : ∀ x ∈ l, s'.prev x = s.prev x) : Seg s' a l c := by
  induction l generalizing a with
  | nil =>
    rw [hs.2] at hn hp
    exact ⟨hn, hp⟩
  | cons x l ih =>
    obtain ⟨hx, hd'⟩ := nodup_cons.mp hd
    have hne : a ≠ s.prev b := by
      rintro rfl
      exact hx hs.2.prev_mem
    refine ⟨⟨?_, ?_⟩, ih hs.2 hd' (fun y hy => hn' y (mem_cons_of_mem _ hy)) fun y hy => hp' y (mem_cons_of_mem _ hy)⟩
    · rw [hn' a mem_cons_self hne]
      exact hs.1.1
    · rw [hp' x mem_cons_self]
      exact hs.1.2

end

/-! ### Taking a node out and putting it back -/

section

variable [DecidableEq α]

/-- `b->next->prev = b->prev; b->prev->next = b->next`. -/
def Links.unlink (s : Links α) (b : α) : Links α :=
  let s := { s with prev := update s.prev (s.next b) (s.prev b) }
  { s with next := update s.next (s.prev b) (s.next b) }

/-- `b->next = h->next; b->prev = h; h->next->prev = b; h->next = b`. -/
def Links.insertAfter (s : Links α) (h b : α) : Links α :=
  let s := { s with next := update s.next b (s.next h) }
  let s := { s with prev := update s.prev b h }
  let s := { s with prev := update s.prev (s.next h) b }
  { s with next := update s.next h b }

variable {s : Links α} {h b : α} {l l1 l2 : List α}

lemma Cycle.unlink (hs : Cycle s h (l1 ++ b :: l2)) (hd : (h :: (l1 ++ b :: l2)).Nodup) :
    Cycle (s.unlink b) h (l1 ++ l2) := by
  obtain ⟨h1, h2⟩ := seg_append.mp hs
  -- the nodes before and after `b` are different from `b`
  have hb : b ∉ h :: l1 ∧ b ∉ l2 ∧ (h :: l1).Nodup ∧ ∀ x ∈ h :: l1, x ∉ l2 := by
    have hd' : ((h :: l1) ++ b :: l2).Nodup := hd
    rw [nodup_append] at hd'
    obtain ⟨hd1, hd2, hne⟩ := hd'
    rw [nodup_cons] at hd2
    exact ⟨fun hc => hne b hc b mem_cons_self rfl, hd2.1, hd1, fun x hx hx2 => hne x hx x (mem_cons_of_mem _ hx2) rfl⟩
  obtain ⟨hb1, hb2, hd1, hdisj⟩ := hb
  have hnb : s.next b ≠ b := by
    intro hc
    cases l2 with
    | nil => exact hb1 (by rw [← hc, h2.1]; exact mem_cons_self)
    | cons y l2 => exact hb2 (by rw [← hc, h2.1.1]; exact mem_cons_self)
  have hpb : (s.unlink b).prev b = s.prev b := update_of_ne hnb.symm _ _
  have hnext : (s.unlink b).next = update s.next (s.prev b) (s.next b) := by
    change update s.next (update s.prev (s.next b) (s.prev b) b) (s.next b) = _
    rw [update_of_ne hnb.symm]
  have hprev : (s.unlink b).prev = update s.prev (s.next b) (s.prev b) := rfl
  have hre : (∀ x ∈ l1, x ≠ s.next b) → Seg (s.unlink b) h l1 (s.next b) := by
    intro hne
    refine h1.retarget hd1 ?_ ?_ ?_ ?_
    · rw [hnext, update_self]
    · intro x _ hx
      rw [hnext, update_of_ne hx]
    · rw [hprev, update_self]
    · intro x hx
      rw [hprev, update_of_ne (hne x hx)]
  cases l2 with
  | nil =>
    rw [append_nil]
    rw [h2.1] at hre
    exact hre fun x hx hc => (nodup_cons.mp hd1).1 (hc ▸ hx)
  | cons y l2 =>
    have hy : s.next b = y := h2.1.1
    rw [hy] at hre
    refine seg_append.mpr ⟨hre fun x hx hc => hdisj x (mem_cons_of_mem _ hx) (hc ▸ mem_cons_self), ?_⟩
    have hd2 : (y :: l2).Nodup := by
      have hd' : ((h :: l1 ++ [b]) ++ y :: l2).Nodup := by simpa using hd
      exact (nodup_append.mp hd').2.1
    refine h2.2.frame ?_ ?_
    · intro x hx
      rw [hnext, update_of_ne]
      rintro rfl
      exact hdisj _ h1.prev_mem hx
    · intro x hx
      rw [hprev, hy, update_of_ne]
      rintro rfl
      rcases mem_append.mp hx with hx | hx
      · exact (nodup_cons.mp hd2).1 hx
      · rw [mem_singleton.mp hx] at hdisj
        exact hdisj h mem_cons_self mem_cons_self

lemma Cycle.insertAfter (hs : Cycle s h l) (hd : (h :: l).Nodup) (hb : b ∉ h :: l) : Cycle (s.insertAfter h b) h (b :: l) := by
  have hbh : b ≠ h := fun hc => hb (hc ▸ mem_cons_self)
  have hnext : (s.insertAfter h b).next = update (update s.next b (s.next h)) h b := rfl
  have hprev : (s.insertAfter h b).prev = update (update s.prev b h) (s.next h) b := by
    change update (update s.prev b h) (update s.next b (s.next h) h) b = _
    rw [update_of_ne hbh.symm]
  have hfirst : s.next h ≠ b := by
    intro hc
    cases l with
    | nil => exact hbh (by rw [← hc, hs.1])
    | cons x l => exact hb (by rw [← hc, hs.1.1]; simp)
  refine ⟨⟨by rw [hnext, update_self], ?_⟩, ?_⟩
  · rw [hprev, update_of_ne hfirst.symm, update_self]
  cases l with
  | nil =>
    refine ⟨?_, ?_⟩
    · rw [hnext, update_of_ne hbh, update_self, hs.1]
    · rw [hprev, hs.1, update_self]
  | cons x l =>
    have hx : s.next h = x := hs.1.1
    refine ⟨⟨?_, ?_⟩, hs.2.frame ?_ ?_⟩
    · rw [hnext, update_of_ne hbh, update_self, hx]
    · rw [hprev, hx, update_self]
    · intro y hy
      rw [hnext, update_of_ne, update_of_ne]
      · rintro rfl
        exact hb (mem_cons_of_mem _ hy)
      · rintro rfl
        exact (nodup_cons.mp hd).1 hy
    · intro y hy
      have hmem : y ∈ h :: l := by simpa [or_comm] using hy
      have hyx : y ≠ x := by
        rintro rfl
        rcases mem_cons.mp hmem with rfl | hy
        · exact (nodup_cons.mp hd).1 mem_cons_self
        · exact (nodup_cons.mp (nodup_cons.mp hd).2).1 hy
      have hyb : y ≠ b := by
        rintro rfl
        refine hb ?_
        rcases mem_cons.mp hmem with rfl | hy
        · exact mem_cons_self
        · simp [hy]
      rw [hprev, hx, update_of_ne hyx, update_of_ne hyb]

/-! ### Walking along the list -/

/-- The first node from `a` on that passes the test, before the head `h`; at most `fuel` nodes are
visited. -/
def walk (link : α → α) (h : α) (test : α → Bool) : ℕ → α → Option (Option α)
  | 0, _ => none
  | fuel + 1, a => if a = h then some none else if test a then some (some a) else walk link h test fuel (link a)

lemma Seg.walk_next {a : α} (hs : Seg s a l h) (hh : h ∉ l) (test : α → Bool) (fuel : ℕ) (hf : l.length < fuel) :
    walk s.next h test fuel (s.next a) = some (l.find? test) := by
  induction l generalizing a fuel with
  | nil =>
    obtain ⟨fuel, rfl⟩ := Nat.exists_eq_succ_of_ne_zero (Nat.ne_of_gt hf)
    rw [hs.1, walk, if_pos rfl, find?_nil]
  | cons x l ih =>
    obtain ⟨fuel, rfl⟩ := Nat.exists_eq_succ_of_ne_zero (Nat.ne_zero_of_lt hf)
    rw [mem_cons] at hh
    push Not at hh
    rw [hs.1.1, walk, if_neg hh.1.symm]
    by_cases ht : test x = true
    · rw [if_pos ht, find?_cons_of_pos ht]
    · rw [if_neg ht, find?_cons_of_neg ht]
      exact ih hs.2 hh.2 fuel (Nat.lt_of_succ_lt_succ hf)

lemma Seg.walk_prev {a : α} (hs : Seg s h l a) (hh : h ∉ l) (test : α → Bool) (fuel : ℕ) (hf : l.length < fuel) :
    walk s.prev h test fuel (s.prev a) = some (l.reverse.find? test) :=
  hs.swap.walk_next (by rwa [mem_reverse]) test fuel (by rwa [length_reverse])

end

end Xv6.Lib.Dlist
