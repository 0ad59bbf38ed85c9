import Mathlib

/-!
# The sieve on lists

`sieve d` keeps the head of a list, drops what it divides from the rest and goes on with what is left.
-/

namespace Xv6.Lib

open List

variable {α β : Type*}

/-- The elements that `p` does not divide. -/
def sift (d : α → α → Bool) (p : α) (l : List α) : List α := l.filter fun t => !d p t

lemma length_sift_le (d : α → α → Bool) (p : α) (l : List α) : (sift d p l).length ≤ l.length :=
  length_filter_le _ l

def sieve (d : α → α → Bool) : List α → List α
  | [] => []
  | p :: l => p :: sieve d (sift d p l)
termination_by l => l.length
decreasing_by exact Nat.lt_succ_of_le (length_sift_le d p l)

@[simp]
lemma sieve_nil (d : α → α → Bool) : sieve d [] = [] := by rw [sieve]

lemma sieve_cons (d : α → α → Bool) (p : α) (l : List α) : sieve d (p :: l) = p :: sieve d (sift d p l) := by rw [sieve]

section

variable {d : α → α → Bool} {d' : β → β → Bool} {f : α → β}

lemma sift_map {p : α} {l : List α} (h : ∀ t ∈ l, d' (f p) (f t) = d p t) :
    sift d' (f p) (l.map f) = (sift d p l).map f := by
  unfold sift
  rw [filter_map]
  exact congrArg (List.map f) (filter_congr fun t ht => by simp [h t ht])

lemma sieve_map {l : List α} (h : ∀ p ∈ l, ∀ t ∈ l, d' (f p) (f t) = d p t) :
    sieve d' (l.map f) = (sieve d l).map f := by
  induction hn : l.length using Nat.strong_induction_on generalizing l with
  | _ n ih =>
    cases l with
    | nil => simp
    | cons p l =>
      have hsub : ∀ t ∈ sift d p l, t ∈ p :: l := fun t ht => mem_cons_of_mem _ (mem_of_mem_filter ht)
      have hlen : (sift d p l).length < n := by
        rw [← hn]
        exact Nat.lt_succ_of_le (length_sift_le d p l)
      rw [map_cons, sieve_cons, sieve_cons, map_cons, sift_map fun t ht => h p mem_cons_self t (mem_cons_of_mem _ ht),
        ih _ hlen (fun a ha b hb => h a (hsub a ha) b (hsub b hb)) rfl]

end

/-! ### Numbers -/

/-- Divisibility as a test. -/
def divs (p t : ℕ) : Bool := t % p == 0

lemma divs_iff {p t : ℕ} : divs p t = true ↔ p ∣ t := by
  rw [divs, beq_iff_eq, Nat.dvd_iff_mod_eq_zero]

/-- No number from 2 to `m - 1` divides `t`. -/
def Rough (m t : ℕ) : Prop := ∀ q, 2 ≤ q → q < m → ¬ q ∣ t

instance (m : ℕ) : DecidablePred (Rough m) := fun t =>
  decidable_of_iff (∀ q < m, 2 ≤ q → ¬ q ∣ t) ⟨fun h q h2 hq => h q hq h2, fun h q hq h2 => h q h2 hq⟩

lemma Rough.prime_iff {m : ℕ} (hm : 2 ≤ m) (h : Rough m m) : Nat.Prime m :=
  Nat.prime_def_lt'.mpr ⟨hm, fun q h2 hq => h q h2 hq⟩

lemma rough_succ_iff {m t : ℕ} (hm : 2 ≤ m) : Rough (m + 1) t ↔ Rough m t ∧ ¬ m ∣ t := by
  constructor
  · exact fun h => ⟨fun q h2 hq => h q h2 (by omega), h m hm (Nat.lt_succ_self m)⟩
  · rintro ⟨h, hmt⟩ q h2 hq
    rcases Nat.lt_or_ge q m with hlt | hge
    · exact h q h2 hlt
    · have heq : q = m := by omega
      exact heq ▸ hmt

lemma rough_succ_of_not {m t : ℕ} (hm : 2 ≤ m) (hnot : ¬ Rough m m) : Rough (m + 1) t ↔ Rough m t := by
  rw [rough_succ_iff hm]
  refine and_iff_left_of_imp fun h hmt => hnot fun q h2 hq hqm => ?_
  exact h q h2 hq (hqm.trans hmt)

/-- What is left of the numbers from 2 to `n + 1` when those below `m` have been tested. -/
def remaining (n m : ℕ) : List ℕ := (List.range' 2 n).filter (Rough m ·)

lemma remaining_eq_cons {n m : ℕ} (hm : 2 ≤ m) (hn : m < n + 2) (hr : Rough m m) :
    ∃ l, remaining n m = m :: l ∧ sift divs m l = remaining n (m + 1) := by
  have hsplit : List.range' 2 n = List.range' 2 (m - 2) ++ m :: List.range' (m + 1) (n + 1 - m) := by
    have h1 : n = (m - 2) + (n + 2 - m) := by omega
    have h2 : n + 2 - m = (n + 1 - m) + 1 := by omega
    rw [h1, ← List.range'_append_1, show 2 + (m - 2) = m by omega, ← h1, h2, List.range'_succ]
  have hsmall : ∀ k, 2 ≤ k → (List.range' 2 (m - 2)).filter (Rough (m + k - 2) ·) = [] := by
    intro k hk
    refine filter_eq_nil_iff.mpr fun t ht => ?_
    obtain ⟨h1, h2⟩ := mem_range'_1.mp ht
    simp only [decide_eq_true_eq]
    exact fun h => h t h1 (by omega) (dvd_refl t)
  have hm0 := hsmall 2 le_rfl
  have hm1 := hsmall 3 (by omega)
  rw [show m + 2 - 2 = m by omega] at hm0
  rw [show m + 3 - 2 = m + 1 by omega] at hm1
  refine ⟨(List.range' (m + 1) (n + 1 - m)).filter (Rough m ·), ?_, ?_⟩
  · rw [remaining, hsplit, filter_append, hm0, nil_append, filter_cons_of_pos (by simpa using hr)]
  · have hself : ¬ Rough (m + 1) m := fun h => h m hm (Nat.lt_succ_self m) (dvd_refl m)
    rw [remaining, hsplit, filter_append, hm1, nil_append, filter_cons_of_neg (by simpa using hself), sift,
      filter_filter]
    refine filter_congr fun t _ => ?_
    rw [Bool.eq_iff_iff]
    simp only [Bool.and_eq_true, Bool.not_eq_true', decide_eq_true_eq, ← Bool.not_eq_true, divs_iff, rough_succ_iff hm]
    exact And.comm

lemma sieve_remaining (n : ℕ) (k m : ℕ) (hm : 2 ≤ m) (hk : n + 2 = m + k) :
    sieve divs (remaining n m) = (List.range' m k).filter Nat.Prime := by
  induction k generalizing m with
  | zero =>
    have hnil : remaining n m = [] := by
      refine filter_eq_nil_iff.mpr fun t ht => ?_
      obtain ⟨h1, h2⟩ := mem_range'_1.mp ht
      simp only [decide_eq_true_eq]
      exact fun h => h t h1 (by omega) (dvd_refl t)
    rw [hnil, sieve_nil]
    rfl
  | succ k ih =>
    have hnext := ih (m + 1) (by omega) (by omega)
    rw [List.range'_succ]
    by_cases hr : Rough m m
    · obtain ⟨l, hl, hsift⟩ := remaining_eq_cons hm (by omega : m < n + 2) hr
      rw [hl, sieve_cons, hsift, hnext, filter_cons_of_pos (by simpa using hr.prime_iff hm)]
    · have hsame : remaining n (m + 1) = remaining n m :=
        filter_congr fun t _ => by simp only [rough_succ_of_not hm hr]
      have hprime : ¬ Nat.Prime m := fun hp => hr fun q h2 hq hqm => by
        rcases hp.eq_one_or_self_of_dvd q hqm with h1 | h1 <;> omega
      rw [← hsame, hnext, filter_cons_of_neg (by simpa using hprime)]

/-- **The sieve of the numbers from 2 on are the primes.** -/
lemma sieve_range' (n : ℕ) : sieve divs (List.range' 2 n) = (List.range' 2 n).filter Nat.Prime := by
  have hall : remaining n 2 = List.range' 2 n :=
    filter_eq_self.mpr fun t _ => by
      simp only [decide_eq_true_eq]
      exact fun q h2 hq => absurd hq (by omega)
  rw [← sieve_remaining n n 2 le_rfl (by omega), hall]

end Xv6.Lib
