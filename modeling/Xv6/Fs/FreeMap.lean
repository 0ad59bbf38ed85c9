import Xv6.Fs.Blocks

/-!
# The block allocator over any free map

What `balloc` and `bfree` do to the free map, whatever its size and its contents.  `balloc` ends with
a `bzero` of the block it took, and nothing stops that block from being one of the free map: the
free map must mark its own blocks as used, as `mkfs` does.
-/

namespace Xv6.Fs

open Lib Log Function

variable {P : Type} {sb : Superblock}

/-- The number of blocks of the free map that `balloc` looks at. -/
def Superblock.nbitmap (sb : Superblock) : ℕ := (sb.size + BPB - 1) / BPB

/-- The free map marks its own blocks as used. -/
def MarksItself (sb : Superblock) (d : Disk) : Prop :=
  ∀ k, k < sb.nbitmap → sb.bmapstart + k < sb.size → bit sb d (sb.bmapstart + k) = true

/-- `d'` is `d` with block `b` marked as used and zeroed: in the blocks of the free map the bit of `b`
has changed and no other, and all other blocks are as they were. -/
structure Allocated (sb : Superblock) (d : Disk) (b : ℕ) (d' : Disk) : Prop where
  below : b < sb.size
  free : bit sb d b = false
  least : ∀ c, c < b → bit sb d c = true
  bits : ∀ c, c < sb.nbitmap * BPB → bit sb d' c = (decide (c = b) || bit sb d c)
  zeroed : d' b = Bytes.zero _
  others : ∀ x, x ≠ b → x ≠ sb.BBLOCK b → d' x = d x

lemma allocated_ballocDisk (hm : MarksItself sb d) (hb : b < sb.size) (hfree : bit sb d b = false)
    (hleast : ∀ c, c < b → bit sb d c = true) :
    Allocated sb d b (ballocDisk sb d b) where
  below := hb
  free := hfree
  least := hleast
  bits c hc := by
    have hk : c / BPB < sb.nbitmap := Nat.div_lt_of_lt_mul (by rwa [Nat.mul_comm] at hc)
    -- the block that is zeroed is not one of the map, since those are marked
    have hne : b ≠ sb.BBLOCK c := by
      rintro rfl
      have hset := hm (c / BPB) hk (by
        rw [Nat.add_comm]
        exact hb)
      rw [Nat.add_comm] at hset
      rw [Superblock.BBLOCK, hset] at hfree
      cases hfree
    rw [ballocDisk, bit_update sb hne, bit_setBit]
  zeroed := ballocDisk_self d b
  others x hx hmap := by rw [ballocDisk, update_of_ne hx, setBit, update_of_ne hmap]

lemma Allocated.ne_zero (h : Allocated sb d b d') (h0 : bit sb d 0 = true) : b ≠ 0 := by
  rintro rfl
  have := h.free
  rw [h0] at this
  cases this

lemma bfree_returns (s : State P) (hb : bit sb s.disk b = true) :
    bfree sb b s = .ok ((), { s with disk := unsetBit sb s.disk b }) := by
  obtain ⟨_, s', hrun, rfl⟩ := (bfree_spec s hb).returns
  exact hrun

/-- The allocator over any free map that marks block 0 and its own blocks.  Either every block is in
use and `balloc` returns 0, or it takes the first free one, and a `bfree` of it gives the map back. -/
theorem balloc_bfree (sb : Superblock) (s : State P) (h0 : bit sb s.disk 0 = true)
    (hm : MarksItself sb s.disk) :
    (∃ b s', balloc sb s = .ok (b, s') ∧ (b = 0 ↔ ∀ c, c < sb.size → bit sb s.disk c = true) ∧ (b = 0 → s' = s) ∧
      (b ≠ 0 → s' = { s with disk := s'.disk } ∧ Allocated sb s.disk b s'.disk ∧
        ∃ s'', bfree sb b s' = .ok ((), s'') ∧ ∀ c, c < sb.nbitmap * BPB → bit sb s''.disk c = bit sb s.disk c)) ∧
    ∀ b, bit sb s.disk b = true → ∃ d, bfree sb b s = .ok ((), { s with disk := d }) ∧
      (∀ c, bit sb d c = (!decide (c = b) && bit sb s.disk c)) ∧
      ∀ x, x ≠ sb.BBLOCK b → d x = s.disk x := by
  constructor
  · have hspec : wp (balloc sb) (fun _ => False) _ s := balloc_first s
    obtain ⟨b, s', hrun, hb⟩ := hspec.returns
    refine ⟨b, s', hrun, ?_⟩
    rcases hb with ⟨rfl, rfl, hfull⟩ | ⟨hlt, hfree, hleast, rfl⟩
    · exact ⟨⟨fun _ => hfull, fun _ => rfl⟩, fun _ => rfl, fun h => absurd rfl h⟩
    · have ha := allocated_ballocDisk hm hlt hfree hleast
      have hb0 := ha.ne_zero h0
      refine ⟨⟨fun h => absurd h hb0, fun hfull => ?_⟩, fun h => absurd h hb0, fun _ => ⟨rfl, ha, ?_⟩⟩
      · rw [hfull b hlt] at hfree
        cases hfree
      · have hin : b < sb.nbitmap * BPB := by
          have hB : BPB = 8192 := rfl
          rw [Superblock.nbitmap, hB]
          omega
        have hset : bit sb (ballocDisk sb s.disk b) b = true := by
          rw [ha.bits b hin]
          simp
        refine ⟨_, bfree_returns { s with disk := ballocDisk sb s.disk b } hset, fun c hc => ?_⟩
        rw [bit_unsetBit, ha.bits c hc]
        by_cases hcb : c = b
        · subst hcb
          simp [hfree]
        · simp [hcb]
  · intro b hb
    refine ⟨_, bfree_returns s hb, fun c => bit_unsetBit sb s.disk b c, fun x hx => ?_⟩
    exact update_of_ne hx _ _

/-- A disk of three blocks, the second of which is the free map. -/
def tinySb : Superblock := ⟨3, 1, 0, 2, 2, 1⟩

/-- Its free map starts with the byte `v`. -/
def tinyState (v : ℕ) : State Unit where
  disk := update (fun _ => Bytes.zero _) 1 ((Bytes.zero _).putLe 0 1 v)
  ino _ := ⟨0, 0, false, false, Dinode.zero⟩
  file _ := ⟨.none, 0, false, false, 0, 0, 0⟩
  proc _ := ⟨none, fun _ => none⟩

lemma tinyState_marks : MarksItself tinySb (tinyState 3).disk := by
  intro k hk _
  have hk0 : k = 0 := Nat.lt_one_iff.mp hk
  subst hk0
  decide +kernel

/-- Blocks 0 and 1 are in use, so `balloc` takes block 2. -/
theorem balloc_bfree_tiny : ∃ b s', balloc tinySb (tinyState 3) = .ok (b, s') ∧
      (b = 0 ↔ ∀ c, c < 3 → bit tinySb (tinyState 3).disk c = true) := by
  obtain ⟨⟨b, s', hrun, hiff, -⟩, -⟩ := balloc_bfree tinySb (tinyState 3) (by decide +kernel) tinyState_marks
  exact ⟨b, s', hrun, hiff⟩

/-- Where only block 0 is marked, the first free block is the free map itself: `balloc` zeroes it,
and the bit of block 0 is lost. -/
theorem balloc_takes_map : ∃ s', balloc tinySb (tinyState 1) = .ok (1, s') ∧ bit tinySb (tinyState 1).disk 0 = true ∧
      bit tinySb s'.disk 0 = false := by
  have h0 : bit tinySb (tinyState 1).disk 0 = true := by decide +kernel
  have h1 : bit tinySb (tinyState 1).disk 1 = false := by decide +kernel
  have hspec : wp (balloc tinySb) (fun _ => False) _ (tinyState 1) := balloc_first _
  obtain ⟨b, s', hrun, hb⟩ := hspec.returns
  rcases hb with ⟨-, -, hfull⟩ | ⟨-, hfree, hleast, rfl⟩
  · rw [hfull 1 (by decide)] at h1
    cases h1
  · have hb0 : b ≠ 0 := by
      rintro rfl
      rw [h0] at hfree
      cases hfree
    have hb1 : b ≤ 1 := by
      by_contra hlt
      rw [hleast 1 (by omega)] at h1
      cases h1
    obtain rfl : b = 1 := by omega
    refine ⟨_, hrun, h0, ?_⟩
    decide +kernel

end Xv6.Fs
