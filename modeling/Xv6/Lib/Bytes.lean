import Mathlib

/-!
# Storage of bytes with little-endian words

`Bytes n` is a fixed amount of storage: a disk block, a page of memory.  Bytes are read as
naturals with `get`; `put` overwrites a range, and `le`/`putLe` read and write the little-endian
word of `w` bytes at an offset.
-/

namespace Xv6.Lib

/-- `n` bytes of storage. -/
def Bytes (n : ℕ) : Type := Fin n → UInt8

instance (n : ℕ) : DecidableEq (Bytes n) := inferInstanceAs (DecidableEq (Fin n → UInt8))

namespace Bytes

variable {n : ℕ}

/-- The byte at index `i`, `0` outside the storage. -/
def get (b : Bytes n) (i : ℕ) : ℕ := if h : i < n then (b ⟨i, h⟩).toNat else 0

/-- All bytes zero. -/
def zero (n : ℕ) : Bytes n := fun _ => 0

/-- The bytes from `off` on, `len` of them, replaced by those of `f`. -/
def put (b : Bytes n) (off len : ℕ) (f : ℕ → ℕ) : Bytes n :=
  fun i => if off ≤ i.1 ∧ i.1 < off + len then UInt8.ofNat (f (i.1 - off)) else b i

lemma get_lt (b : Bytes n) (i : ℕ) : b.get i < 256 := by
  unfold get
  split
  · exact UInt8.toNat_lt _
  · omega

variable {b c : Bytes n} {off len w v off' w' : ℕ} {vs : List ℕ}

@[ext]
lemma ext (h : ∀ i < n, b.get i = c.get i) : b = c := by
  funext i
  have hi := h i.1 i.2
  simp only [get, i.2, dif_pos] at hi
  exact UInt8.toNat_inj.mp hi

@[simp]
lemma get_zero (i : ℕ) : (zero n).get i = 0 := by
  unfold get zero
  split <;> rfl

lemma get_put (b : Bytes n) (off len : ℕ) (f : ℕ → ℕ) (i : ℕ) : (b.put off len f).get i =
      if off ≤ i ∧ i < off + len ∧ i < n then f (i - off) % 256 else b.get i := by
  unfold get put
  by_cases hi : i < n
  · by_cases hr : off ≤ i ∧ i < off + len
    · simp [hi, hr.1, hr.2]
    · simp [hi, hr]
  · simp [hi]

lemma get_put_of_disjoint (b : Bytes n) {i : ℕ} (f : ℕ → ℕ) (h : i < off ∨ off + len ≤ i) :
    (b.put off len f).get i = b.get i := by
  rw [get_put, if_neg (by omega)]

/-! ### Little-endian words -/

/-- The little-endian word of `w` bytes at `off`. -/
def le (b : Bytes n) (off : ℕ) : ℕ → ℕ
  | 0 => 0
  | w + 1 => b.get off + 256 * le b (off + 1) w

/-- Write the low `w` bytes of `v` at `off`, least significant byte first. -/
def putLe (b : Bytes n) (off w v : ℕ) : Bytes n := b.put off w fun k => v / 256 ^ k

lemma le_lt (b : Bytes n) (off w : ℕ) : b.le off w < 256 ^ w := by
  induction w generalizing off with
  | zero => simp [le]
  | succ w ih =>
    have h1 := b.get_lt off
    have h2 := ih (off + 1)
    rw [le, pow_succ]
    omega

lemma le_congr (h : ∀ i, off ≤ i → i < off + w → b.get i = c.get i) : b.le off w = c.le off w := by
  induction w generalizing off with
  | zero => rfl
  | succ w ih =>
    rw [le, le, h off (by omega) (by omega), ih fun i h1 h2 => h i (by omega) (by omega)]

@[simp]
lemma le_zero (off w : ℕ) : (zero n).le off w = 0 := by
  induction w generalizing off with
  | zero => rfl
  | succ w ih => simp [le, ih]

lemma le_of_digits (h : ∀ k < w, b.get (off + k) = v / 256 ^ k % 256) : b.le off w = v % 256 ^ w := by
  induction w generalizing off v with
  | zero => simp [le, Nat.mod_one]
  | succ w ih =>
    have h0 := h 0 (by omega)
    simp only [Nat.add_zero, pow_zero, Nat.div_one] at h0
    have hrest : b.le (off + 1) w = v / 256 % 256 ^ w := by
      refine ih fun k hk => ?_
      have hk' := h (k + 1) (by omega)
      rw [pow_succ, Nat.mul_comm, ← Nat.div_div_eq_div_mul] at hk'
      rw [show off + 1 + k = off + (k + 1) by omega]
      exact hk'
    rw [le, h0, hrest, pow_succ, Nat.mul_comm (256 ^ w) 256, Nat.mod_mul]

lemma get_putLe (b : Bytes n) (off w v i : ℕ) : (b.putLe off w v).get i =
      if off ≤ i ∧ i < off + w ∧ i < n then v / 256 ^ (i - off) % 256 else b.get i :=
  get_put b off w _ i

lemma le_putLe (b : Bytes n) (h : off + w ≤ n) : (b.putLe off w v).le off w = v % 256 ^ w := by
  refine le_of_digits fun k hk => ?_
  rw [get_putLe, if_pos (by omega), Nat.add_sub_cancel_left]

lemma le_putLe_of_lt (b : Bytes n) (h : off + w ≤ n) (hv : v < 256 ^ w) : (b.putLe off w v).le off w = v := by
  rw [le_putLe b h, Nat.mod_eq_of_lt hv]

lemma le_put_of_disjoint (b : Bytes n) (f : ℕ → ℕ) (h : off' + w ≤ off ∨ off + len ≤ off') :
    (b.put off len f).le off' w = b.le off' w :=
  le_congr fun i h1 h2 => get_put_of_disjoint b f (by omega)

lemma le_putLe_of_disjoint (b : Bytes n) (h : off' + w' ≤ off ∨ off + w ≤ off') :
    (b.putLe off w v).le off' w' = b.le off' w' :=
  le_put_of_disjoint b _ h

/-! ### Arrays of words -/

/-- Consecutive words of `w` bytes from `off` on. -/
def putWords (b : Bytes n) (off w : ℕ) : List ℕ → Bytes n
  | [] => b
  | v :: vs => putWords (b.putLe off w v) (off + w) w vs

lemma le_putWords_of_disjoint (h : off' + w' ≤ off ∨ off + w * vs.length ≤ off') :
    (b.putWords off w vs).le off' w' = b.le off' w' := by
  induction vs generalizing b off with
  | nil => rfl
  | cons v vs ih =>
    rw [List.length_cons, Nat.mul_succ] at h
    rw [putWords, ih (by omega), le_putLe_of_disjoint b (by omega)]

lemma le_putWords (hroom : off + w * vs.length ≤ n) (hvs : ∀ v ∈ vs, v < 256 ^ w) {k : ℕ} (hk : k < vs.length) :
    (b.putWords off w vs).le (off + w * k) w = vs[k] := by
  induction vs generalizing b off k with
  | nil => simp at hk
  | cons v vs ih =>
    rw [List.length_cons, Nat.mul_succ] at hroom
    rw [putWords]
    cases k with
    | zero =>
      rw [le_putWords_of_disjoint (by omega), Nat.mul_zero, Nat.add_zero]
      exact le_putLe_of_lt b (by omega) (hvs v List.mem_cons_self)
    | succ k =>
      rw [Nat.mul_succ, show off + (w * k + w) = off + w + w * k by omega,
        ih (by omega) (fun x hx => hvs x (List.mem_cons_of_mem _ hx)) (by simpa using hk)]
      rfl

end Bytes

end Xv6.Lib
