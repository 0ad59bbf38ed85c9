import Xv6.Umalloc.Model
import Xv6.Lib.Slist
import Xv6.Lib.Cover

/-!
# The ring of free blocks

The free blocks are a ring through `base` in the order of their addresses.
-/

namespace Xv6.Umalloc

open Lib Lib.Slist List

/-- The block with header `p`. -/
def block (h : Heap) (p : ℕ) : ℕ × ℕ := (p, 16 * h.size p)

def blocks (h : Heap) (ps : List ℕ) : List (ℕ × ℕ) := ps.map (block h)

/-- The memory that `sbrk` has returned. -/
def regions (h : Heap) : List (ℕ × ℕ) := h.core.map fun r => (r.1, 16 * r.2)

/-- The free blocks are those with headers `c`, of which `base` is the first and empty; those in use have
the headers `L`.  Together they cover the memory. -/
structure Tiled (base : ℕ) (h : Heap) (c L : List ℕ) : Prop where
  head : c.head? = some base
  loop : Loop h.ptr c
  sorted : c.Pairwise (· < ·)
  base_size : h.size base = 0
  pos : ∀ p ∈ c, p ≠ base → 0 < h.size p
  live_pos : ∀ p ∈ L, 0 < h.size p
  tiles : ∀ x, cover x (blocks h c) + cover x (blocks h L) = cover x (regions h)
  once : ∀ x, cover x (regions h) ≤ 1
  above : ∀ r ∈ h.core, base + 16 ≤ r.1
  sum : (c.map h.size).sum + (L.map h.size).sum = h.total

/-- No free block is followed by another, those in `S` apart. -/
def Sep (base : ℕ) (h : Heap) (c : List ℕ) (S : ℕ → Prop) : Prop :=
  ∀ p ∈ c, p ≠ base → ¬ S p → p + 16 * h.size p ∉ c

/-- The heap between two calls. -/
structure Ring (base : ℕ) (h : Heap) (c L : List ℕ) : Prop extends Tiled base h c L where
  freep : h.freep ∈ c
  apart : Sep base h c fun _ => False

variable {p x q bp z fuel : ℕ}

lemma inside_block (hp : 0 < h.size p) : Inside p (block h p) := by
  unfold block
  rw [inside_iff]
  omega

lemma blocks_append (h : Heap) (ps qs : List ℕ) : blocks h (ps ++ qs) = blocks h ps ++ blocks h qs :=
  map_append

lemma blocks_cons (h : Heap) (p : ℕ) (ps : List ℕ) : blocks h (p :: ps) = block h p :: blocks h ps := rfl

lemma blocks_congr {ps : List ℕ} (hs : ∀ p ∈ ps, h'.size p = h.size p) : blocks h' ps = blocks h ps :=
  map_congr_left fun p hp => by
    unfold block
    rw [hs p hp]

namespace Tiled

variable {base : ℕ} {h : Heap} {c L : List ℕ} (hr : Tiled base h c L)

include hr

lemma nodup : c.Nodup := hr.sorted.imp fun hab => by omega

lemma base_mem : base ∈ c := mem_of_mem_head? hr.head

lemma base_le (hp : p ∈ c) : base ≤ p := by
  have hhead := hr.head
  have hs := hr.sorted
  cases c with
  | nil => cases hp
  | cons a c =>
    obtain rfl : a = base := Option.some.inj hhead
    rcases mem_cons.mp hp with rfl | hp
    · exact Nat.le_refl _
    · exact Nat.le_of_lt ((pairwise_cons.mp hs).1 p hp)

lemma not_both (hp : p ∈ c) (hq : q ∈ L) (h1 : Inside x (block h p)) (h2 : Inside x (block h q)) : False := by
  have h3 : 0 < cover x (blocks h c) := cover_pos_iff.mpr ⟨_, mem_map_of_mem hp, h1⟩
  have h4 : 0 < cover x (blocks h L) := cover_pos_iff.mpr ⟨_, mem_map_of_mem hq, h2⟩
  have := hr.tiles x
  have := hr.once x
  omega

lemma above_of_inside (hx : 0 < cover x (regions h)) : base + 16 ≤ x := by
  obtain ⟨b, hb, hin⟩ := cover_pos_iff.mp hx
  obtain ⟨r, hrm, rfl⟩ := mem_map.mp hb
  have := hr.above r hrm
  rw [inside_iff] at hin
  omega

lemma live_above (hq : q ∈ L) : base + 16 ≤ q := by
  refine hr.above_of_inside ?_
  have h4 : 0 < cover q (blocks h L) :=
    cover_pos_iff.mpr ⟨_, mem_map_of_mem hq, inside_block (hr.live_pos q hq)⟩
  have := hr.tiles q
  omega

lemma disjoint (hp : p ∈ c) (hq : q ∈ L) : p + 16 * h.size p ≤ q ∨ q + 16 * h.size q ≤ p := by
  have hpos := hr.live_pos q hq
  by_cases hb : p = base
  · subst hb
    have := hr.live_above hq
    rw [hr.base_size]
    omega
  · have hpos' := hr.pos p hp hb
    by_contra hcon
    rcases Nat.le_total p q with hle | hle
    · refine hr.not_both hp hq (x := q) ?_ (inside_block hpos)
      unfold block
      rw [inside_iff]
      omega
    · refine hr.not_both hp hq (x := p) (inside_block hpos') ?_
      unfold block
      rw [inside_iff]
      omega

lemma live_not_mem (hq : q ∈ L) : q ∉ c := by
  intro hc
  have h1 := hr.disjoint hc hq
  have h2 := hr.live_pos q hq
  omega

lemma next_cases (hp : p ∈ c) :
    (∃ u y v, c = u ++ p :: y :: v ∧ h.ptr p = y) ∨ ∃ u, c = u ++ [p] ∧ h.ptr p = base := by
  obtain ⟨u, v, rfl⟩ := append_of_mem hp
  have hloop := Loop.rotate hr.loop
  cases v with
  | cons y v => exact .inl ⟨u, y, v, rfl, hloop.1⟩
  | nil =>
    refine .inr ⟨u, rfl, ?_⟩
    have hhead := hr.head
    cases u with
    | nil =>
      obtain rfl : p = base := Option.some.inj hhead
      exact hloop
    | cons a u =>
      obtain rfl : a = base := Option.some.inj hhead
      exact hloop.1

lemma next_mem (hp : p ∈ c) : h.ptr p ∈ c := by
  rcases hr.next_cases hp with ⟨u, y, v, hc, hy⟩ | ⟨u, hc, hy⟩
  · rw [hy, hc]
    simp
  · rw [hy]
    exact hr.base_mem

lemma end_le (hp : p ∈ c) (hq : q ∈ c) (hlt : p < q) : p + 16 * h.size p ≤ q := by
  have hpos := hr.pos q hq (by have := hr.base_le hp; omega)
  have hover : (blocks h c).Pairwise fun b b' => ∀ x, ¬ (Inside x b ∧ Inside x b') := by
    refine pairwise_of_cover fun x => ?_
    have := hr.tiles x
    have := hr.once x
    omega
  by_contra hcon
  have hin : Inside q (block h p) := by
    unfold block
    rw [inside_iff]
    omega
  have hsymm : Std.Symm fun a b : ℕ => ∀ x, ¬ (Inside x (block h a) ∧ Inside x (block h b)) :=
    ⟨fun _ _ hab x hx => hab x hx.symm⟩
  exact (pairwise_map.mp hover).forall hp hq (Nat.ne_of_lt hlt) q ⟨hin, inside_block hpos⟩

end Tiled

/-! ### The search loop of `free` -/

lemma exists_split (hs : (a :: c).Pairwise (· < ·)) (ha : a < bp) (hbp : bp ∉ c) :
    ∃ u z v, a :: c = u ++ z :: v ∧ z < bp ∧ ∀ w ∈ v, bp < w := by
  induction c generalizing a with
  | nil => exact ⟨[], a, [], rfl, ha, fun _ hw => nomatch hw⟩
  | cons b c ih =>
    obtain ⟨-, hs'⟩ := pairwise_cons.mp hs
    obtain ⟨hb, hc⟩ := not_or.mp (fun h => hbp (mem_cons.mpr h))
    rcases Nat.lt_or_gt_of_ne hb with hlt | hgt
    · refine ⟨[], a, b :: c, rfl, ha, fun w hw => ?_⟩
      rcases mem_cons.mp hw with rfl | hw
      · exact hlt
      · exact Nat.lt_trans hlt ((pairwise_cons.mp hs').1 w hw)
    · obtain ⟨u, z, v, heq, hz, hv⟩ := ih hs' hgt hc
      exact ⟨a :: u, z, v, by rw [heq]; rfl, hz, hv⟩

/-- The condition on which the search stops at `p`. -/
def Stops (h : Heap) (bp p : ℕ) : Prop :=
  (bp > p ∧ bp < h.ptr p) ∨ (p ≥ h.ptr p ∧ (bp > p ∨ bp < h.ptr p))

lemma search_path (hpath : Path h.ptr p l e) (hz : z ∈ p :: l) (hstop : ∀ q ∈ p :: l, Stops h bp q ↔ q = z)
    (hfuel : l.length < fuel) :
    search h bp fuel p = some z := by
  induction l generalizing p fuel with
  | nil =>
    obtain rfl : z = p := mem_singleton.mp hz
    obtain ⟨fuel, rfl⟩ := Nat.exists_eq_succ_of_ne_zero (Nat.ne_of_gt hfuel)
    rw [search]
    rcases (hstop z hz).mpr rfl with h1 | h2
    · rw [if_pos h1]
    · rw [if_pos h2, ite_self]
  | cons x l ih =>
    obtain ⟨fuel, rfl⟩ := Nat.exists_eq_succ_of_ne_zero (Nat.ne_of_gt (Nat.lt_of_le_of_lt (Nat.zero_le _) hfuel))
    rw [search]
    by_cases hp : Stops h bp p
    · obtain rfl : p = z := (hstop p mem_cons_self).mp hp
      rcases hp with h1 | h2
      · rw [if_pos h1]
      · rw [if_pos h2, ite_self]
    · rw [if_neg fun h1 => hp (.inl h1), if_neg fun h2 => hp (.inr h2), hpath.1]
      refine ih hpath.2 ?_ (fun q hq => hstop q (mem_cons_of_mem _ hq)) (by rw [length_cons] at hfuel; omega)
      rcases mem_cons.mp hz with rfl | hz
      · exact absurd ((hstop z mem_cons_self).mpr rfl) hp
      · exact hz

/-- **The search ends at the predecessor of `bp`.** -/
lemma Ring.search_eq (hr : Ring base h c L) (hc : c = u ++ z :: v) (hz : z < bp) (hv : ∀ w ∈ v, bp < w)
    (hfuel : c.length ≤ fuel) :
    search h bp fuel h.freep = some z := by
  have hsorted := hr.sorted
  have hle : ∀ w ∈ c, w ≤ z ∨ bp < w := by
    intro w hw
    rw [hc] at hw hsorted
    rcases mem_append.mp hw with hw | hw
    · exact .inl (Nat.le_of_lt ((pairwise_append.mp hsorted).2.2 w hw z mem_cons_self))
    · rcases mem_cons.mp hw with rfl | hw
      · exact .inl (Nat.le_refl _)
      · exact .inr (hv w hw)
  have hzc : z ∈ c := by
    rw [hc]
    exact mem_append_right _ mem_cons_self
  have hstop : ∀ p ∈ c, Stops h bp p ↔ p = z := by
    intro p hp
    have hbase := hr.base_le hp
    have hbz := hr.base_le hzc
    rcases hr.next_cases hp with ⟨a, y, b, hab, hy⟩ | ⟨a, hab, hy⟩
    · -- `y` is the next higher node
      have hord := hsorted
      rw [hab] at hord
      obtain ⟨-, hright, hleft⟩ := pairwise_append.mp hord
      obtain ⟨hpy, hyb⟩ := pairwise_cons.mp hright
      have hlt : p < y := hpy y mem_cons_self
      have hgap : z ≤ p ∨ y ≤ z := by
        have hz' : z ∈ a ++ p :: y :: b := by rwa [← hab]
        rcases mem_append.mp hz' with hm | hm
        · exact .inl (Nat.le_of_lt (hleft z hm p mem_cons_self))
        · rcases mem_cons.mp hm with rfl | hm
          · exact .inl (Nat.le_refl _)
          · rcases mem_cons.mp hm with rfl | hm
            · exact .inr (Nat.le_refl _)
            · exact .inr (Nat.le_of_lt ((pairwise_cons.mp hyb).1 z hm))
      have hyc : y ≤ z ∨ bp < y := hle y (by rw [hab]; simp)
      have hpc := hle p hp
      unfold Stops
      rw [hy]
      omega
    · -- `p` is the last node
      have hlast : z ≤ p := by
        have hz' : z ∈ a ++ [p] := by rwa [← hab]
        have hord := hsorted
        rw [hab] at hord
        rcases mem_append.mp hz' with hm | hm
        · exact Nat.le_of_lt ((pairwise_append.mp hord).2.2 z hm p mem_cons_self)
        · exact Nat.le_of_eq (mem_singleton.mp hm)
      have hpc := hle p hp
      unfold Stops
      rw [hy]
      omega
  obtain ⟨a, b, hab⟩ := append_of_mem hr.freep
  have hloop : Loop h.ptr (h.freep :: (b ++ a)) := Loop.rotate (hab ▸ hr.loop)
  have hmem : ∀ q, q ∈ h.freep :: (b ++ a) ↔ q ∈ c := by
    intro q
    rw [hab]
    simp only [mem_cons, mem_append]
    grind
  refine search_path hloop ((hmem z).mpr hzc) (fun q hq => hstop q ((hmem q).mp hq)) ?_
  rw [hab] at hfuel
  simp only [length_append, length_cons] at hfuel ⊢
  omega

end Xv6.Umalloc
