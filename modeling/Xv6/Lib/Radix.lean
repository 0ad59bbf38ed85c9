import Mathlib

/-!
# Radix trees in memory

`mem a i` is the word at index `i` of node `a`, and `next` says which words refer to another node.  A path is
a list of indices; `node mem a p` is the node to which it leads.  `Unshared` says that no node is reached in two
ways.
-/

namespace Xv6.Lib.Radix

open Function List

variable {N W : Type} (next : W → Option N)

def node (mem : N → ℕ → W) (a : N) : List ℕ → Option N
  | [] => some a
  | i :: p => (next (mem a i)).bind fun b => node mem b p

/-- No node of the first `n` levels below `root` is reached by two paths. -/
def Unshared (mem : N → ℕ → W) (root : N) (n : ℕ) : Prop :=
  ∀ p q a, p.length ≤ n → q.length ≤ n → node next mem root p = some a → node next mem root q = some a → p = q

variable {next} {mem mem' : N → ℕ → W} {root a b : N} {n i : ℕ} {p q : List ℕ} {w : W}

lemma node_append (p q : List ℕ) :
    node next mem root (p ++ q) = (node next mem root p).bind fun a => node next mem a q := by
  induction p generalizing root with
  | nil => rfl
  | cons i p ih =>
    rw [cons_append, node, node, Option.bind_assoc]
    congr 1
    funext b
    exact ih

lemma node_concat (p : List ℕ) (i : ℕ) :
    node next mem root (p ++ [i]) = (node next mem root p).bind fun a => next (mem a i) := by
  rw [node_append]
  congr 1
  funext a
  rw [node]
  cases next (mem a i) with
  | none => rfl
  | some b => rfl

lemma node_congr (h : ∀ q i r a, p = q ++ i :: r → node next mem root q = some a → next (mem' a i) = next (mem a i)) :
    node next mem' root p = node next mem root p := by
  induction p generalizing root with
  | nil => rfl
  | cons i p ih =>
    rw [node, node, h [] i p root rfl rfl]
    cases hb : next (mem root i) with
    | none => rfl
    | some b =>
      apply ih
      intro q j r a hp hq
      apply h (i :: q) j r a
      · rw [hp]
        rfl
      · rw [node, hb]
        exact hq

lemma node_eq (h : ∀ q a, q.length < n → node next mem root q = some a → mem' a = mem a) (hp : p.length ≤ n) :
    node next mem' root p = node next mem root p := by
  apply node_congr
  intro q i r a hqr hq
  rw [h q a _ hq]
  rw [hqr, length_append, length_cons] at hp
  omega

lemma Unshared.of_eq (h : Unshared next mem root n)
    (heq : ∀ p, p.length ≤ n → node next mem' root p = node next mem root p) : Unshared next mem' root n := by
  intro p q a hp hq h1 h2
  rw [heq p hp] at h1
  rw [heq q hq] at h2
  exact h p q a hp hq h1 h2

variable [DecidableEq N]

/-- The memory with word `i` of node `a` replaced. -/
def set (mem : N → ℕ → W) (a : N) (i : ℕ) (w : W) : N → ℕ → W :=
  update mem a (update (mem a) i w)

lemma set_self (mem : N → ℕ → W) (a : N) (i : ℕ) (w : W) : set mem a i w a i = w := by
  rw [set, update_self, update_self]

lemma set_of_ne (mem : N → ℕ → W) {a b : N} (i j : ℕ) (w : W) (h : b ≠ a ∨ j ≠ i) :
    set mem a i w b j = mem b j := by
  by_cases hb : b = a
  · subst hb
    rw [set, update_self, update_of_ne (h.resolve_left fun hne => hne rfl)]
  · rw [set, update_of_ne hb]

namespace Unshared

variable (h : Unshared next mem root n) (ha : node next mem root p = some a)

include h ha

lemma node_set_last (hp : p.length = n) (hq : q.length ≤ n) :
    node next (set mem a i w) root q = node next mem root q := by
  apply node_congr
  intro q' j r b hqr hb
  rw [set_of_ne]
  apply Or.inl
  rintro rfl
  have heq := h q' p b (by rw [hqr, length_append, length_cons] at hq; omega) (Nat.le_of_eq hp) hb ha
  rw [hqr, heq, length_append, length_cons] at hq
  omega

variable (hp : p.length < n) (hnone : next (mem a i) = none) (hw : next w = some b)
  (hfresh : ∀ q, q.length ≤ n → node next mem root q ≠ some b) (hleaf : ∀ j, next (mem b j) = none)

include hp hnone hw hfresh hleaf

/-- **A new node** `b`, without children, is hung in at word `i` of node `a`. -/
lemma node_link (hq : q.length ≤ n) :
    node next (set mem a i w) root q = if q = p ++ [i] then some b else node next mem root q := by
  have hab : b ≠ a := by
    rintro rfl
    exact hfresh p (Nat.le_of_lt hp) ha
  -- no shorter path reads the new word
  have hother : ∀ q : List ℕ, q.length ≤ n → (¬ ∃ r, q = p ++ i :: r) →
      node next (set mem a i w) root q = node next mem root q := by
    intro q hq hno
    apply node_congr
    intro q' j r c hqr hc
    rw [set_of_ne]
    by_cases hca : c = a
    · subst hca
      have heq := h q' p c (by rw [hqr, length_append, length_cons] at hq; omega) (Nat.le_of_lt hp) hc ha
      apply Or.inr
      rintro rfl
      exact hno ⟨r, by rw [hqr, heq]⟩
    · exact .inl hca
  by_cases hr : ∃ r, q = p ++ i :: r
  · obtain ⟨r, rfl⟩ := hr
    have hpa : node next (set mem a i w) root p = some a := by
      rw [hother p (Nat.le_of_lt hp), ha]
      rintro ⟨r', hr'⟩
      have := congrArg List.length hr'
      rw [length_append, length_cons] at this
      omega
    have hb : node next (set mem a i w) root (p ++ i :: r) = node next (set mem a i w) b r := by
      rw [node_append, hpa, Option.bind_some, node, set_self, hw, Option.bind_some]
    have hold : node next mem root (p ++ i :: r) = none := by
      rw [node_append, ha, Option.bind_some, node, hnone, Option.bind_none]
    rw [hb, hold]
    cases r with
    | nil => rw [if_pos rfl, node]
    | cons j r =>
      rw [if_neg (by simp), node, set_of_ne _ _ _ _ (.inl hab), hleaf, Option.bind_none]
  · rw [hother q hq hr, if_neg fun hc => hr ⟨[], hc⟩]

lemma link : Unshared next (set mem a i w) root n := by
  intro q q' c hq hq' h1 h2
  rw [h.node_link ha hp hnone hw hfresh hleaf hq] at h1
  rw [h.node_link ha hp hnone hw hfresh hleaf hq'] at h2
  split at h1
  · rename_i heq
    split at h2
    · rename_i heq'
      rw [heq, heq']
    · cases h1
      exact absurd h2 (hfresh q' hq')
  · split at h2
    · cases h2
      exact absurd h1 (hfresh q hq)
    · exact h q q' c hq hq' h1 h2

end Unshared

end Xv6.Lib.Radix
