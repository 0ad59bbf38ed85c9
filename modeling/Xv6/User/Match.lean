import Mathlib

/-!
# `grep.c`: the matcher

A string is the list of its characters up to the terminating zero.  The meaning of a pattern is a language: the product
of the languages of its items.
-/

namespace Xv6.User.Grep

open List Computability

/-! ### The matcher -/

/-- `matchstar(c, re, text)`; `here` is `matchhere(re, ·)`. -/
def matchstar (here : List Char → Bool) (c : Char) : List Char → Bool
  | [] => here []
  | a :: text => here (a :: text) || (a = c || c = '.') && matchstar here c text

def matchhere : List Char → List Char → Bool
  | [], _ => true
  | c :: '*' :: re, text => matchstar (matchhere re) c text
  | ['$'], text => text.isEmpty
  | _ :: _, [] => false
  | c :: re, a :: text => (c = '.' || c = a) && matchhere re text

/-- The loop of `match`. -/
def matchloop (here : List Char → Bool) : List Char → Bool
  | [] => here []
  | a :: text => here (a :: text) || matchloop here text

/-- `match(re, text)`. -/
def matchText (re text : List Char) : Bool :=
  if re.head? = some '^' then matchhere re.tail text else matchloop (matchhere re) text

/-! ### What a pattern means -/

inductive Item where
  | one (c : Char)
  | star (c : Char)

/-- A pattern is read from left to right; a character that `*` follows is starred. -/
def items : List Char → List Item
  | [] => []
  | c :: '*' :: re => .star c :: items re
  | c :: re => .one c :: items re

/-- The characters that `c` stands for, as words of one character. -/
def charLang (c : Char) : Language Char := {w | ∃ a, w = [a] ∧ (c = '.' ∨ c = a)}

def Item.lang : Item → Language Char
  | .one c => charLang c
  | .star c => (charLang c)∗

/-- The items before a single `$` in last place. -/
def body : List Item → List Item
  | [] => []
  | [.one '$'] => []
  | x :: xs => x :: body xs

/-- There is a single `$` in last place. -/
def ends : List Item → Bool
  | [] => false
  | [.one '$'] => true
  | _ :: xs => ends xs

/-- The words that the pattern denotes. -/
def denotes (xs : List Item) : Language Char := ((body xs).map Item.lang).prod

lemma denotes_cons {xs : List Item} (h : x = .one '$' → xs ≠ []) :
    denotes (x :: xs) = x.lang * denotes xs ∧ ends (x :: xs) = ends xs := by
  unfold denotes
  rw [body, ends]
  · exact ⟨prod_cons, rfl⟩
  · exact h
  · exact h

/-! ### The loops -/

lemma matchstar_iff (here : List Char → Bool) (c : Char) (text : List Char) :
    matchstar here c text = true ↔ ∃ w ∈ (charLang c)∗, ∃ v, w ++ v = text ∧ here v = true := by
  have hstar : ∀ w, w ∈ (charLang c)∗ ↔ w = [] ∨ ∃ a w', (c = '.' ∨ c = a) ∧ w' ∈ (charLang c)∗ ∧ a :: w' = w := by
    intro w
    nth_rewrite 1 [← Language.one_add_self_mul_kstar_eq_kstar]
    rw [Language.mem_add, Language.mem_one, Language.mem_mul]
    refine or_congr_right ⟨?_, ?_⟩
    · rintro ⟨-, ⟨a, rfl, ha⟩, w', hw', rfl⟩
      exact ⟨a, w', ha, hw', rfl⟩
    · rintro ⟨a, w', ha, hw', rfl⟩
      exact ⟨[a], ⟨a, rfl, ha⟩, w', hw', rfl⟩
  induction text with
  | nil =>
    rw [matchstar]
    constructor
    · intro h
      exact ⟨[], (hstar []).mpr (.inl rfl), [], rfl, h⟩
    · rintro ⟨w, -, v, hwv, hv⟩
      rwa [(append_eq_nil_iff.mp hwv).2] at hv
  | cons a text ih =>
    simp only [matchstar, Bool.or_eq_true, Bool.and_eq_true, decide_eq_true_eq]
    constructor
    · rintro (h | ⟨ha, h⟩)
      · exact ⟨[], (hstar []).mpr (.inl rfl), _, rfl, h⟩
      · obtain ⟨w, hw, v, rfl, hv⟩ := ih.mp h
        exact ⟨a :: w, (hstar _).mpr (.inr ⟨a, w, ha.symm.imp_right Eq.symm, hw, rfl⟩), v, rfl, hv⟩
    · rintro ⟨w, hw, v, hwv, hv⟩
      rcases (hstar w).mp hw with rfl | ⟨b, w', hb, hw', rfl⟩
      · rw [nil_append] at hwv
        exact .inl (hwv ▸ hv)
      · obtain ⟨rfl, rfl⟩ := cons_eq_cons.mp hwv
        exact .inr ⟨hb.symm.imp_left Eq.symm, ih.mpr ⟨w', hw', v, rfl, hv⟩⟩

lemma matchloop_iff (here : List Char → Bool) (text : List Char) :
    matchloop here text = true ↔ ∃ u v, u ++ v = text ∧ here v = true := by
  induction text with
  | nil =>
    rw [matchloop]
    constructor
    · intro h
      exact ⟨[], [], rfl, h⟩
    · rintro ⟨u, v, huv, hv⟩
      rwa [(append_eq_nil_iff.mp huv).2] at hv
  | cons a text ih =>
    rw [matchloop, Bool.or_eq_true, ih]
    constructor
    · rintro (h | ⟨u, v, rfl, hv⟩)
      · exact ⟨[], _, rfl, h⟩
      · exact ⟨a :: u, v, rfl, hv⟩
    · rintro ⟨u, v, huv, hv⟩
      cases u with
      | nil => exact .inl (huv ▸ hv)
      | cons b u =>
        obtain ⟨rfl, rfl⟩ := cons_eq_cons.mp huv
        exact .inr ⟨u, v, rfl, hv⟩

/-! ### The matcher decides the language -/

lemma matchhere_iff (re text : List Char) :
    matchhere re text = true ↔ ∃ w ∈ denotes (items re), ∃ v, w ++ v = text ∧ (ends (items re) = true → v = []) := by
  induction re using items.induct generalizing text with
  | case1 =>
    rw [matchhere, items]
    exact iff_of_true rfl ⟨[], rfl, text, rfl, fun h => nomatch h⟩
  | case2 c re ih =>
    obtain ⟨hlang, hends⟩ := @denotes_cons (.star c) (items re) fun h => nomatch h
    rw [matchhere, items, matchstar_iff, hlang, hends]
    constructor
    · rintro ⟨w, hw, v, rfl, hv⟩
      obtain ⟨w', hw', v', rfl, hv'⟩ := (ih v).mp hv
      exact ⟨w ++ w', Language.append_mem_mul hw hw', v', append_assoc _ _ _, hv'⟩
    · rintro ⟨-, ⟨w, hw, w', hw', rfl⟩, v, rfl, hv⟩
      exact ⟨w, hw, w' ++ v, (append_assoc _ _ _).symm, (ih _).mpr ⟨w', hw', v, rfl, hv⟩⟩
  | case3 c re hstar ih =>
    have hitems : items (c :: re) = .one c :: items re := by
      rw [items]
      exact hstar
    rw [hitems]
    by_cases hend : c = '$' ∧ re = []
    · obtain ⟨rfl, rfl⟩ := hend
      rw [matchhere, List.isEmpty_iff]
      constructor
      · rintro rfl
        exact ⟨[], rfl, [], rfl, fun _ => rfl⟩
      · rintro ⟨w, rfl, v, rfl, hv⟩
        exact hv rfl
    · have hdollar : c = '$' → re = [] → False := fun hc hre => hend ⟨hc, hre⟩
      have hnil : Item.one c = .one '$' → items re ≠ [] := by
        rintro ⟨⟩ hre
        unfold items at hre
        split at hre
        · exact hend ⟨rfl, rfl⟩
        · cases hre
        · cases hre
      obtain ⟨hlang, hends⟩ := denotes_cons hnil
      rw [hlang, hends]
      cases text with
      | nil =>
        refine iff_of_false (by simp [matchhere]) ?_
        rintro ⟨-, ⟨-, ⟨b, rfl, -⟩, w, -, rfl⟩, v, hwv, -⟩
        cases hwv
      | cons a text =>
        simp only [matchhere, Bool.and_eq_true, ih, Bool.or_eq_true, decide_eq_true_eq]
        constructor
        · rintro ⟨hc, w, hw, v, rfl, hv⟩
          exact ⟨[a] ++ w, Language.append_mem_mul ⟨a, rfl, hc⟩ hw, v, rfl, hv⟩
        · rintro ⟨-, ⟨-, ⟨b, rfl, hb⟩, w, hw, rfl⟩, v, hwv, hv⟩
          obtain ⟨rfl, rfl⟩ := cons_eq_cons.mp hwv
          exact ⟨hb, w, hw, v, rfl, hv⟩

/-- **The matcher decides the language.**  `match` returns 1 exactly when the text has a part that the pattern denotes:
at the start if the pattern begins with `^`, and up to the end if it ends in a single `$`. -/
theorem match_decides (re text : List Char) : matchText re text = true ↔
      if re.head? = some '^' then
        ∃ w ∈ denotes (items re.tail), ∃ v, w ++ v = text ∧ (ends (items re.tail) = true → v = [])
      else ∃ u, ∃ w ∈ denotes (items re), ∃ v, u ++ w ++ v = text ∧ (ends (items re) = true → v = []) := by
  rw [matchText]
  split
  · exact matchhere_iff _ _
  · rw [matchloop_iff]
    constructor
    · rintro ⟨u, v, rfl, hv⟩
      obtain ⟨w, hw, v', rfl, hv'⟩ := (matchhere_iff _ _).mp hv
      exact ⟨u, w, hw, v', append_assoc _ _ _, hv'⟩
    · rintro ⟨u, w, hw, v, rfl, hv⟩
      exact ⟨u, w ++ v, (append_assoc _ _ _).symm, (matchhere_iff _ _).mpr ⟨w, hw, v, rfl, hv⟩⟩

end Xv6.User.Grep
