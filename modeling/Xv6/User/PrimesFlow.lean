import Xv6.User.Primes
import Xv6.Lib.Sieve

/-!
# What flows through the pipes of `primes`

Pipe `k` leads from process `k` to process `k + 1`.  `inp x` are the numbers that process `x` has still to read: those
in its pipe, and those that the process before it has still to write.
-/

namespace Xv6.User.Primes

open Lib List

/-! ### Numbers as bytes -/

lemma ofBytes_toBytes (v : Int32) : ofBytes (toBytes v) = v := by
  have hsum : ∀ n : ℕ, n < 2 ^ 32 →
      n % 256 + 256 * (n / 256 % 256 + 256 * (n / 256 ^ 2 % 256 + 256 * (n / 256 ^ 3 % 256 + 256 * 0))) = n := by
    intro n hn
    omega
  have hv := hsum v.toNat v.isLt
  apply BitVec.eq_of_toNat_eq
  rw [ofBytes, BitVec.toNat_ofNat]
  simp only [toBytes, range_succ, range_zero, nil_append, map_cons, map_nil,
    cons_append, foldr_cons, foldr_nil, BitVec.toNat_ofNat, Nat.pow_zero, Nat.div_one, Nat.pow_one]
  rw [show (2 : ℕ) ^ 8 = 256 by rfl, hv]
  exact Nat.mod_eq_of_lt v.isLt

@[simp]
lemma length_toBytes (v : Int32) : (toBytes v).length = 4 := rfl

lemma toBytes_ne_nil (v : Int32) : toBytes v ≠ [] := fun h => by cases h

/-- The numbers in a buffer. -/
def decode : List Byte → List Int32
  | a :: b :: c :: d :: rest => ofBytes [a, b, c, d] :: decode rest
  | _ => []

lemma decode_append (v : Int32) (rest : List Byte) : decode (toBytes v ++ rest) = v :: decode rest :=
  congrArg (· :: decode rest) (ofBytes_toBytes v)

lemma decode_flatMap (l : List Int32) : decode (l.flatMap toBytes) = l := by
  induction l with
  | nil => rfl
  | cons v l ih => rw [flatMap_cons, decode_append, ih]

lemma length_flatMap_toBytes (l : List Int32) : (l.flatMap toBytes).length = 4 * l.length := by
  induction l with
  | nil => rfl
  | cons v l ih =>
    rw [flatMap_cons, length_append, ih, length_toBytes, length_cons]
    omega

/-- The pipe holds whole numbers, the last of those written; what the reads have returned are the others, each whole,
and then nothing. -/
structure Pipe.Whole (pi : Pipe) : Prop where
  queue : ∃ taken n, pi.written = taken ++ decode pi.buf ∧ pi.got = taken.map toBytes ++ List.replicate n []
  bytes : pi.buf = (decode pi.buf).flatMap toBytes
  room : pi.buf.length ≤ PIPESIZE

lemma Pipe.whole_empty : Pipe.Whole ⟨[], [], []⟩ := ⟨⟨[], 0, rfl, rfl⟩, rfl, Nat.zero_le _⟩

lemma Pipe.Whole.write {pi : Pipe} (h : pi.Whole) (hroom : pi.buf.length ≠ PIPESIZE) (v : Int32) :
    4 ≤ PIPESIZE - pi.buf.length ∧ decode (pi.buf ++ toBytes v) = decode pi.buf ++ [v] ∧
      Pipe.Whole { pi with buf := pi.buf ++ toBytes v, written := pi.written ++ [v] } := by
  have hlen : pi.buf.length = 4 * (decode pi.buf).length := by
    conv_lhs => rw [h.bytes]
    exact length_flatMap_toBytes _
  have hle := h.room
  have hsize : PIPESIZE = 512 := rfl
  have hbuf : pi.buf ++ toBytes v = (decode pi.buf ++ [v]).flatMap toBytes := by
    conv_lhs => rw [h.bytes]
    simp
  have hdec : decode (pi.buf ++ toBytes v) = decode pi.buf ++ [v] := by rw [hbuf, decode_flatMap]
  refine ⟨by omega, hdec, ?_, ?_, ?_⟩
  · obtain ⟨taken, n, hw, hg⟩ := h.queue
    refine ⟨taken, n, ?_, hg⟩
    rw [hdec, hw, append_assoc]
  · rw [hdec]
    exact hbuf
  · rw [length_append, length_toBytes]
    omega

lemma Pipe.Whole.read {pi : Pipe} (h : pi.Whole) {rest : List Int32} (hv : decode pi.buf = v :: rest)
    (hgot : [] ∉ pi.got) : pi.buf.take 4 = toBytes v ∧ decode (pi.buf.drop 4) = rest ∧
      Pipe.Whole { pi with buf := pi.buf.drop 4, got := pi.got ++ [toBytes v] } := by
  have hbuf : pi.buf = toBytes v ++ rest.flatMap toBytes := by rw [h.bytes, hv, flatMap_cons]
  have hdrop : pi.buf.drop 4 = rest.flatMap toBytes := by
    rw [hbuf]
    exact drop_left' (length_toBytes v)
  refine ⟨?_, ?_, ?_, ?_, ?_⟩
  · rw [hbuf]
    exact take_left' (length_toBytes v)
  · rw [hdrop, decode_flatMap]
  · obtain ⟨taken, n, hw, hg⟩ := h.queue
    have hn : n = 0 := by
      by_contra hne
      refine hgot (hg ▸ mem_append_right _ (mem_replicate.mpr ⟨hne, rfl⟩))
    refine ⟨taken ++ [v], 0, ?_, ?_⟩
    · rw [hdrop, decode_flatMap, hw, hv, append_assoc]
      rfl
    · rw [hg, hn]
      simp
  · rw [hdrop, decode_flatMap]
  · rw [length_drop]
    exact (Nat.sub_le _ _).trans h.room

lemma Pipe.Whole.eof {pi : Pipe} (h : pi.Whole) : Pipe.Whole { pi with got := pi.got ++ [[]] } := by
  obtain ⟨taken, n, hw, hg⟩ := h.queue
  refine ⟨⟨taken, n + 1, hw, ?_⟩, h.bytes, h.room⟩
  rw [hg, append_assoc, replicate_succ']

/-! ### What a process has still to write and to print -/

/-- `tmp % num == 0`. -/
def divides (num tmp : Int32) : Bool := tmp.srem num == 0

/-- The numbers from `i` to `N`. -/
def count (N i : ℕ) : List Int32 := (List.range' i (N + 1 - i)).map (BitVec.ofNat 32)

/-- What a process has still to write, when it has `inp` to read. -/
def will (N : ℕ) : Code → List Int32 → List Int32
  | .mainClose0 _, _ => count N 2
  | .mainWrite _ i _, _ => count N i.toNat
  | .close0 _ num _, inp | .read _ num _ _, inp => sift divides num inp
  | .write _ num _ tmp _, inp => tmp :: sift divides num inp
  | _, _ => []

/-- What the last process has still to print, with its descendants. -/
def left (N : ℕ) : Code → List Int32 → List Int32
  | .mainPipe, _ | .mainFork _, _ => sieve divides (count N 2)
  | .child _ _, inp | .childFd _ _, inp | .first _, inp => sieve divides inp
  | .print _ num, inp => num :: sieve divides (sift divides num inp)
  | .pipe _ num, inp | .fork _ num _, inp => sieve divides (sift divides num inp)
  | _, _ => []

/-- The steps of a process at its first `read`, with its descendants. -/
def sieveCost : List Int32 → ℕ
  | [] => 2
  | p :: l => 12 + 2 * l.length + sieveCost (sift divides p l)
termination_by l => l.length
decreasing_by exact Nat.lt_succ_of_le (length_sift_le divides p l)

lemma sieveCost_nil : sieveCost [] = 2 := by rw [sieveCost]

lemma sieveCost_cons (p : Int32) (l : List Int32) :
    sieveCost (p :: l) = 12 + 2 * l.length + sieveCost (sift divides p l) := by rw [sieveCost]

/-- A bound for the steps that a process has still to make, with those of the processes that it has still to fork. -/
def cost (N : ℕ) : Code → List Int32 → ℕ
  | .mainPipe, _ => (count N 2).length + sieveCost (count N 2) + 8
  | .mainFork _, _ => (count N 2).length + sieveCost (count N 2) + 7
  | .mainClose0 _, _ => (count N 2).length + 4
  | .mainWrite _ i _, _ => (count N i.toNat).length + 3
  | .mainClose1 _, _ => 3
  | .child _ _, inp => sieveCost inp + 2
  | .childFd _ _, inp => sieveCost inp + 1
  | .first _, inp => sieveCost inp
  | .closeFirst _, _ => 1
  | .print _ num, inp => 2 * inp.length + sieveCost (sift divides num inp) + 11
  | .pipe _ num, inp => 2 * inp.length + sieveCost (sift divides num inp) + 10
  | .fork _ num _, inp => 2 * inp.length + sieveCost (sift divides num inp) + 9
  | .close0 _ _ _, inp => 2 * inp.length + 6
  | .read _ _ _ _, inp => 2 * inp.length + 5
  | .write _ _ _ _ _, inp => 2 * inp.length + 6
  | .close1 _ _, _ => 4
  | .closeFd _, _ => 3
  | .wait, _ => 1
  | .exited, _ => 0

namespace Sys

def code (s : Sys) (x : ℕ) : Code := (s.procs[x]?.map Proc.code).getD .exited

def queue (s : Sys) (k : ℕ) : List Int32 := (s.pipes[k]?.map fun pi => decode pi.buf).getD []

/-- What process `x` has still to read. -/
def inp (N : ℕ) (s : Sys) : ℕ → List Int32
  | 0 => []
  | x + 1 => s.queue x ++ will N (s.code x) (s.inp N x)

def cost (N : ℕ) (s : Sys) : ℕ := ∑ x ∈ Finset.range s.procs.length, Primes.cost N (s.code x) (s.inp N x)

section

variable {N : ℕ} {s s' : Sys} {x : ℕ} {q : Proc}

lemma inp_succ (N : ℕ) (s : Sys) (x : ℕ) : s.inp N (x + 1) = s.queue x ++ will N (s.code x) (s.inp N x) := rfl

lemma code_eq (h : s.procs[x]? = some q) : s.code x = q.code := by
  unfold code
  rw [h]
  rfl

lemma inp_below (h : ∀ y, y < z → s'.code y = s.code y ∧ s'.queue y = s.queue y) : s'.inp N z = s.inp N z := by
  induction z with
  | zero => rfl
  | succ z ih =>
    obtain ⟨hc, hq⟩ := h z (Nat.lt_succ_self z)
    rw [inp, inp, hc, hq, ih fun y hy => h y (by omega)]

lemma inp_above (hz : s'.inp N z = s.inp N z) (h : ∀ y, z ≤ y → s'.code y = s.code y ∧ s'.queue y = s.queue y)
    (hy : z ≤ y) : s'.inp N y = s.inp N y := by
  induction y, hy using Nat.le_induction with
  | base => exact hz
  | succ y hy ih =>
    obtain ⟨hc, hq⟩ := h y hy
    rw [inp, inp, hc, hq, ih]

lemma inp_others (hcode : ∀ y, y ≠ x → s'.code y = s.code y) (hqueue : ∀ y, y ≠ x → y + 1 ≠ x → s'.queue y = s.queue y)
    (hnext : s'.inp N (x + 1) = s.inp N (x + 1)) (hy : y ≠ x) : s'.inp N y = s.inp N y := by
  rcases Nat.lt_or_ge y x with hlt | hge
  · refine inp_below fun z hz => ⟨hcode z (by omega), hqueue z (by omega) (by omega)⟩
  · refine inp_above hnext (fun z hz => ⟨hcode z (by omega), hqueue z (by omega) (by omega)⟩) (by omega)

end

end Sys

end Xv6.User.Primes
