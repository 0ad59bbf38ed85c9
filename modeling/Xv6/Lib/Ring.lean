import Mathlib

/-!
# Ring buffers with wrapping counters

A buffer of `n` cells, a counter `r` of what has been taken out and a counter `w` of what has been put
in, both of `k` bits.  The counters may wrap: the difference `w - r` is the length as long as `n`
divides `2 ^ k`.
-/

namespace Xv6.Lib.Ring

open Function List

variable {α : Type*} {n k : ℕ} [NeZero n]

/-- The cell of a counter. -/
def cell (n : ℕ) [NeZero n] (c : BitVec k) : Fin n := Fin.ofNat n c.toNat

/-- What is in the buffer, in order. -/
def contents (data : Fin n → α) (r w : BitVec k) : List α :=
  (List.range (w - r).toNat).map fun j => data (cell n (r + BitVec.ofNat k j))

omit [NeZero n] in
lemma toNat_add_ofNat {r : BitVec k} {j : ℕ} (hn : n ∣ 2 ^ k) : (r + BitVec.ofNat k j).toNat % n = (r.toNat + j) % n := by
  rw [BitVec.toNat_add, BitVec.toNat_ofNat, Nat.add_mod_mod, Nat.mod_mod_of_dvd _ hn]

lemma cell_add (hn : n ∣ 2 ^ k) (r : BitVec k) (j : ℕ) : (cell n (r + BitVec.ofNat k j)).val = (r.toNat + j) % n :=
  toNat_add_ofNat hn

lemma length_contents (data : Fin n → α) (r w : BitVec k) : (contents data r w).length = (w - r).toNat := by
  simp [contents]

lemma contents_self (data : Fin n → α) (r : BitVec k) : contents data r r = [] := by simp [contents]

omit [NeZero n] in
lemma toNat_one (hk : 1 < 2 ^ k) : (1 : BitVec k).toNat = 1 := by
  change (BitVec.ofNat k 1).toNat = 1
  rw [BitVec.toNat_ofNat, Nat.mod_eq_of_lt hk]

omit [NeZero n] in
lemma add_ofNat_sub (r w : BitVec k) : r + BitVec.ofNat k (w - r).toNat = w := by
  rw [BitVec.ofNat_toNat, BitVec.setWidth_eq]
  ring

lemma contents_push (hn : n ∣ 2 ^ k) (data : Fin n → α) (r w : BitVec k) (a : α) (h : (w - r).toNat < n)
    (hk : (w - r).toNat + 1 < 2 ^ k) :
    contents (update data (cell n w) a) r (w + 1) = contents data r w ++ [a] := by
  have hlen : (w + 1 - r).toNat = (w - r).toNat + 1 := by
    have hsub : w + 1 - r = w - r + 1 := by ring
    rw [hsub, BitVec.toNat_add, toNat_one (by omega), Nat.mod_eq_of_lt hk]
  have hcell : (cell n w).val = (r.toNat + (w - r).toNat) % n := by
    conv_lhs => rw [← add_ofNat_sub r w]
    exact cell_add hn r _
  rw [contents, hlen, range_succ, map_append, map_singleton, add_ofNat_sub, update_self, contents]
  congr 1
  refine map_congr_left fun j hj => update_of_ne (fun heq => ?_) _ _
  -- two counters less than `n` apart have different cells
  have hj := mem_range.mp hj
  have hval := congrArg Fin.val heq
  rw [cell_add hn, hcell] at hval
  have hmod := Nat.sub_mod_eq_zero_of_mod_eq hval.symm
  rw [Nat.mod_eq_of_lt (by omega)] at hmod
  omega

lemma contents_push_of_nodup (hn : n ∣ 2 ^ k) (hk : n < 2 ^ k) {data : Fin n → Fin n} {r w : BitVec k} {a : Fin n}
    (h : (a :: contents data r w).Nodup) :
    contents (update data (cell n w) a) r (w + 1) = contents data r w ++ [a] := by
  have hlen := h.length_le_card
  rw [length_cons, length_contents, Fintype.card_fin] at hlen
  exact contents_push hn data r w a (by omega) (by omega)

lemma contents_pop (data : Fin n → α) (r w : BitVec k) (h : r ≠ w) :
    contents data r w = data (cell n r) :: contents data (r + 1) w := by
  have hpos : 0 < (w - r).toNat := by
    rw [Nat.pos_iff_ne_zero]
    intro h0
    refine h ?_
    rw [← add_ofNat_sub r w, h0]
    simp
  have hk : 1 < 2 ^ k := by
    have := (w - r).isLt
    omega
  have hlen : (w - r).toNat = (w - (r + 1)).toNat + 1 := by
    have hle : (1 : BitVec k) ≤ w - r := by
      rw [BitVec.le_def, toNat_one hk]
      exact hpos
    have hsub : w - (r + 1) = w - r - 1 := by ring
    rw [hsub, BitVec.toNat_sub_of_le hle, toNat_one hk]
    omega
  rw [contents, hlen, range_succ_eq_map, map_cons, map_map, contents]
  congr 1
  · simp
  · refine map_congr_left fun j _ => ?_
    simp only [comp]
    congr 2
    rw [Nat.succ_eq_add_one, BitVec.ofNat_add]
    change r + (BitVec.ofNat k j + 1) = r + 1 + BitVec.ofNat k j
    ring

lemma contents_append (data : Fin n → α) (r m w : BitVec k) (h : (m - r).toNat + (w - m).toNat < 2 ^ k) :
    contents data r w = contents data r m ++ contents data m w := by
  have hlen : (w - r).toNat = (m - r).toNat + (w - m).toNat := by
    have hsub : w - r = (m - r) + (w - m) := by ring
    rw [hsub, BitVec.toNat_add, Nat.mod_eq_of_lt h]
  rw [contents, hlen, range_add, map_append, map_map]
  congr 1
  refine map_congr_left fun j _ => ?_
  simp only [comp]
  rw [BitVec.ofNat_add, ← add_assoc, add_ofNat_sub]

omit [NeZero n] in
lemma toNat_pred_sub {r w : BitVec k} (h : r ≠ w) : (w - 1 - r).toNat + 1 = (w - r).toNat := by
  have hne : (w - r).toNat ≠ 0 := by
    intro h0
    refine h ?_
    rw [← add_ofNat_sub r w, h0]
    simp
  have hk : 1 < 2 ^ k := by
    have := (w - r).isLt
    omega
  have hle : (1 : BitVec k) ≤ w - r := by
    rw [BitVec.le_def, toNat_one hk]
    omega
  have hsub : w - 1 - r = w - r - 1 := by ring
  rw [hsub, BitVec.toNat_sub_of_le hle, toNat_one hk]
  omega

lemma contents_pred (data : Fin n → α) (r w : BitVec k) (h : r ≠ w) :
    contents data r w = contents data r (w - 1) ++ [data (cell n (w - 1))] := by
  have hlen := toNat_pred_sub h
  have hlt := (w - r).isLt
  have hone : (w - (w - 1)).toNat = 1 := by rw [show w - (w - 1) = 1 by ring, toNat_one (by omega)]
  rw [contents_append data r (w - 1) w (by omega)]
  congr 1
  rw [contents, hone]
  simp

end Xv6.Lib.Ring
