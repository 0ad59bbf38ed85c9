import Xv6.Lib.Copy

/-!
# `memmove`, of the kernel and of the user library

The kernel copies backwards if the source begins before the destination and reaches into it, the library unless the
source begins after the destination.
-/

namespace Xv6.Memmove

open Lib List Function

abbrev Addr : Type := BitVec 64

abbrev Mem : Type := Addr → BitVec 8

/-- `*d++ = *s++`, `n` times. -/
def forward : ℕ → Mem → Addr → Addr → Mem
  | 0, m, _, _ => m
  | n + 1, m, d, s => forward n (update m d (m s)) (d + 1) (s + 1)

/-- `*--d = *--s`, `n` times. -/
def backward : ℕ → Mem → Addr → Addr → Mem
  | 0, m, _, _ => m
  | n + 1, m, d, s => backward n (update m (d - 1) (m (s - 1))) (d - 1) (s - 1)

/-- `memmove` of `string.c`, where `n` is a `uint`: the memory, and the value returned. -/
def kernelMemmove (m : Mem) (dst src : Addr) (n : BitVec 32) : Mem × Addr :=
  if n = 0 then (m, dst)
  else if src < dst ∧ dst < src + n.setWidth 64 then
    (backward n.toNat m (dst + n.setWidth 64) (src + n.setWidth 64), dst)
  else (forward n.toNat m dst src, dst)

/-- `memmove` of `ulib.c`, where `n` is an `int`. -/
def userMemmove (m : Mem) (dst src : Addr) (n : BitVec 32) : Mem × Addr :=
  if dst < src then (forward n.toInt.toNat m dst src, dst)
  else (backward n.toInt.toNat m (dst + n.signExtend 64) (src + n.signExtend 64), dst)

/-- The copies of the bytes `0` to `n - 1`. -/
def bytes (d s : Addr) (n : ℕ) : List (Addr × Addr) := (range n).map fun i => (d + .ofNat 64 i, s + .ofNat 64 i)

theorem forward_eq (n : ℕ) (m : Mem) (d s : Addr) : forward n m d s = copies m (bytes d s n) := by
  induction n generalizing m d s with
  | zero => rfl
  | succ n ih =>
    have hnext : ∀ (a : Addr) (i : ℕ), a + 1 + .ofNat 64 i = a + .ofNat 64 (i + 1) := by
      intro a i
      rw [Nat.add_comm i 1, BitVec.ofNat_add, BitVec.add_assoc]
      rfl
    rw [forward, ih, bytes, bytes, range_succ_eq_map, map_cons, map_map]
    simp only [hnext, comp_def]
    simp [copies]

theorem backward_eq (n : ℕ) (m : Mem) (d s : Addr) :
    backward n m (d + .ofNat 64 n) (s + .ofNat 64 n) = copies m (bytes d s n).reverse := by
  induction n generalizing m with
  | zero => rfl
  | succ n ih =>
    have hlast : ∀ a : Addr, a + .ofNat 64 (n + 1) - 1 = a + .ofNat 64 n := by
      intro a
      rw [BitVec.ofNat_add, ← BitVec.add_assoc]
      exact BitVec.add_sub_cancel _ _
    rw [backward, hlast, hlast, ih, bytes, bytes, range_succ, map_append, reverse_append]
    rfl

/-- The bytes of the range hold what the source held, and the others what they held. -/
structure Moved (m : Mem) (dst src : Addr) (n : ℕ) (m' : Mem) : Prop where
  copied : ∀ i < n, m' (dst + .ofNat 64 i) = m (src + .ofNat 64 i)
  frame : ∀ a, (∀ i < n, a ≠ dst + .ofNat 64 i) → m' a = m a

section

variable {m m₁ m₂ : Mem} {dst src : Addr} {n : ℕ}

theorem Moved.unique (h₁ : Moved m dst src n m₁) (h₂ : Moved m dst src n m₂) : m₁ = m₂ := by
  funext a
  by_cases ha : ∀ i < n, a ≠ dst + .ofNat 64 i
  · rw [h₁.frame a ha, h₂.frame a ha]
  · push Not at ha
    obtain ⟨i, hi, rfl⟩ := ha
    rw [h₁.copied i hi, h₂.copied i hi]

theorem moved_copies {l : List (Addr × Addr)} (hl : l.Perm (bytes dst src n)) (h : l.Pairwise Clear) :
    Moved m dst src n (copies m l) where
  copied i hi := by
    have hmem : (dst + .ofNat 64 i, src + .ofNat 64 i) ∈ l := hl.mem_iff.mpr (mem_map_of_mem (mem_range.mpr hi))
    exact copies_of_mem h hmem
  frame a ha := by
    refine copies_of_ne fun c hc => ?_
    obtain ⟨i, hi, rfl⟩ := mem_map.mp (hl.mem_iff.mp hc)
    exact ha i (mem_range.mp hi)

variable (hdst : dst.toNat + n ≤ 2 ^ 64) (hsrc : src.toNat + n ≤ 2 ^ 64)

theorem toNat_add_of_le {a : Addr} {i : ℕ} (h : a.toNat + n ≤ 2 ^ 64) (hi : i < n) :
    (a + .ofNat 64 i).toNat = a.toNat + i := by
  rw [BitVec.toNat_add, BitVec.toNat_ofNat, Nat.add_mod_mod, Nat.mod_eq_of_lt (by omega)]

include hdst

theorem clear_of_ne {i j : ℕ} (hi : i < n) (hj : j < n) (hij : i ≠ j)
    (hne : dst.toNat + i ≠ (src + .ofNat 64 j).toNat) :
    Clear (dst + .ofNat 64 i, src + .ofNat 64 i) (dst + .ofNat 64 j, src + .ofNat 64 j) := by
  rw [← toNat_add_of_le hdst hi] at hne
  refine ⟨fun h => hne (congrArg BitVec.toNat h), fun h => hij ?_⟩
  have := congrArg BitVec.toNat h
  dsimp only at this
  rw [toNat_add_of_le hdst hi, toNat_add_of_le hdst hj] at this
  omega

include hsrc

theorem forward_moved (h : ¬ (src.toNat < dst.toNat ∧ dst.toNat < src.toNat + n)) :
    Moved m dst src n (forward n m dst src) := by
  rw [forward_eq]
  refine moved_copies (.refl _) (pairwise_map.mpr (pairwise_lt_range.imp_of_mem fun {i j} hi hj hij => ?_))
  rw [mem_range] at hi hj
  refine clear_of_ne hdst hi hj (by omega) ?_
  rw [toNat_add_of_le hsrc hj]
  omega

theorem backward_moved (h : src.toNat ≤ dst.toNat) :
    Moved m dst src n (backward n m (dst + .ofNat 64 n) (src + .ofNat 64 n)) := by
  rw [backward_eq]
  refine moved_copies (reverse_perm _) (pairwise_reverse.mpr (pairwise_map.mpr ?_))
  refine pairwise_lt_range.imp_of_mem fun {i j} hi hj hij => ?_
  rw [mem_range] at hi hj
  refine clear_of_ne hdst hj hi (by omega) ?_
  rw [toNat_add_of_le hsrc hi]
  omega

end

/-- **Both `memmove`s are safe for every overlap, and agree.**  For every memory and all ranges of fewer than `2 ^ 31`
bytes within the address space, each leaves in the destination the bytes that the source held and every other byte as it
was. -/
theorem memmoves_move (m : Mem) (dst src : Addr) (n : BitVec 32) (hn : n.toNat < 2 ^ 31)
    (hdst : dst.toNat + n.toNat ≤ 2 ^ 64) (hsrc : src.toNat + n.toNat ≤ 2 ^ 64) :
    Moved m dst src n.toNat (kernelMemmove m dst src n).1 ∧ Moved m dst src n.toNat (userMemmove m dst src n).1 ∧
      kernelMemmove m dst src n = userMemmove m dst src n := by
  have hwide : n.setWidth 64 = .ofNat 64 n.toNat := (BitVec.ofNat_toNat ..).symm
  have hint : n.toInt.toNat = n.toNat := by
    rw [BitVec.toInt_eq_toNat_of_lt (by omega), Int.toNat_natCast]
  have hsign : n.signExtend 64 = .ofNat 64 n.toNat := by
    rw [BitVec.signExtend_eq_setWidth_of_msb_false (by rw [BitVec.msb_eq_false_iff_two_mul_lt]; omega), hwide]
  have hkernel : Moved m dst src n.toNat (kernelMemmove m dst src n).1 := by
    rw [kernelMemmove]
    split_ifs with h0 hback
    · subst h0
      exact ⟨fun i hi => absurd hi (Nat.not_lt_zero i), fun _ _ => rfl⟩
    · rw [hwide]
      exact backward_moved hdst hsrc (Nat.le_of_lt hback.1)
    · refine forward_moved hdst hsrc fun hlap => hback ⟨hlap.1, ?_⟩
      -- the source ends below the destination's end, so that the sum does not wrap
      rw [BitVec.lt_def, hwide, BitVec.toNat_add, BitVec.toNat_ofNat, Nat.add_mod_mod, Nat.mod_eq_of_lt (by omega)]
      exact hlap.2
  have huser : Moved m dst src n.toNat (userMemmove m dst src n).1 := by
    rw [userMemmove, hint, hsign]
    split_ifs with hlt
    · exact forward_moved hdst hsrc fun hlap => absurd hlap.1 (Nat.lt_asymm hlt)
    · exact backward_moved hdst hsrc (Nat.le_of_not_lt hlt)
  have hret : (kernelMemmove m dst src n).2 = (userMemmove m dst src n).2 := by
    rw [kernelMemmove, userMemmove]
    split_ifs <;> rfl
  exact ⟨hkernel, huser, Prod.ext (hkernel.unique huser) hret⟩

/-- Three bytes, moved by one within a memory that holds each address's low byte. -/
theorem memmoves_move_overlap : (kernelMemmove (·.setWidth 8) 101 100 3).1 102 = 101 ∧
    kernelMemmove (·.setWidth 8) 101 100 3 = userMemmove (·.setWidth 8) 101 100 3 := by
  obtain ⟨h, -, heq⟩ := memmoves_move (·.setWidth 8) 101 100 3 (by decide) (by decide) (by decide)
  exact ⟨h.copied 1 (by decide), heq⟩

end Xv6.Memmove
