import Xv6.Lib.Redo
import Xv6.Log.Code

/-!
# The code of the log on a flat array of blocks

`Flat` is the machine that a process running `log.c` alone sees: `mem b` is what `bread(b)`
returns, `disk b` is what is durable, and a `bwrite` makes them agree on one block at a time.  A
crash keeps `disk` and loses the rest.
-/

namespace Xv6.Log

open Lib Function List

/-- The contents of every block. -/
abbrev Disk : Type := ℕ → Block

structure Flat where
  /-- What `bread` returns. -/
  mem : Disk
  /-- What is durable. -/
  disk : Disk
  /-- `log.lh.block[0..n)` in memory. -/
  lh : List ℕ
  /-- The block numbers of the buffers in use, the most recent first. -/
  stack : List ℕ

namespace Flat

/-- The machine after a start: nothing is cached and the in-memory log is empty. -/
def boot (d : Disk) : Flat := ⟨d, d, [], []⟩

/-- The block at position `k` of the stack. -/
def top (m : Flat) (k : ℕ) : ℕ := m.stack.getD k 0

def exec (m : Flat) : Cmd → Flat
  | .bread b => { m with stack := b :: m.stack }
  | .memmove dst src => { m with mem := update m.mem (m.top dst) (m.mem (m.top src)) }
  | .putHead => { m with mem := update m.mem (m.top 0) (Log.putHead m.lh (m.mem (m.top 0))) }
  | .getHead => { m with lh := headBlocks (m.mem (m.top 0)) }
  | .bwrite k => { m with disk := update m.disk (m.top k) (m.mem (m.top k)) }
  | .bunpin _ => m
  | .brelse k => { m with stack := m.stack.eraseIdx k }
  | .clear => { m with lh := [] }

def run (m : Flat) (code : List Cmd) : Flat := code.foldl exec m

lemma run_append (m : Flat) (c1 c2 : List Cmd) : m.run (c1 ++ c2) = (m.run c1).run c2 :=
  foldl_append

/-- Every disk that a stop inside `code` can leave satisfies `P`. -/
def AllDisks (P : Disk → Prop) (m : Flat) (code : List Cmd) : Prop :=
  ∀ k, P (m.run (code.take k)).disk

variable {P : Disk → Prop} {m : Flat} {L : LogArea} {tail a : ℕ} {bs : List ℕ}

lemma AllDisks.mono {code : List Cmd} (h : AllDisks P m code) (hPQ : ∀ d, P d → Q d) :
    AllDisks Q m code := fun k => hPQ _ (h k)

lemma AllDisks.append (h1 : AllDisks P m c1) (h2 : AllDisks P (m.run c1) c2) :
    AllDisks P m (c1 ++ c2) := by
  intro k
  rw [take_append, run_append]
  by_cases hk : k ≤ c1.length
  · rw [Nat.sub_eq_zero_of_le hk]
    exact h1 k
  · rw [take_of_length_le (by omega)]
    exact h2 _

lemma AllDisks.nil (h : P m.disk) : AllDisks P m [] :=
  fun k => by rw [take_nil]; exact h

lemma AllDisks.cons {cs : List Cmd} (h : P m.disk) (hcs : AllDisks P (m.exec c) cs) :
    AllDisks P m (c :: cs) := by
  intro k
  cases k with
  | zero => exact h
  | succ k => exact hcs k

/-! ### `write_log` -/

/-- Consecutive log blocks from entry `tail` on, paired with the contents `vs`. -/
def slots (L : LogArea) (tail : ℕ) : List Block → List (ℕ × Block)
  | [] => []
  | v :: vs => (L.slot tail, v) :: slots L (tail + 1) vs

lemma mem_slots {vs : List Block} (h : a ∈ (slots L tail vs).map Prod.fst) :
    L.slot tail ≤ a ∧ a < L.slot tail + vs.length := by
  induction vs generalizing tail with
  | nil => simp [slots] at h
  | cons v vs ih =>
    simp only [slots, map_cons, mem_cons] at h
    rw [length_cons]
    rcases h with rfl | h
    · omega
    · have := ih h
      unfold LogArea.slot at *
      omega

lemma slot_mem (h : tail + 1 < L.size) : L.Mem (L.slot tail) := by
  unfold LogArea.Mem LogArea.slot
  omega

lemma run_writeLogStep (m : Flat) (L : LogArea) (b tail : ℕ) : m.run (writeLogStep L b tail) =
      { m with mem := update m.mem (L.slot tail) (m.mem b), disk := update m.disk (L.slot tail) (m.mem b) } := by
  simp [run, writeLogStep, exec, top]

lemma map_update_of_notMem {m : Disk} {v : Block} (h : a ∉ bs) : bs.map (update m a v) = bs.map m := by
  refine map_congr_left fun b hb => update_of_ne ?_ _ _
  rintro rfl
  exact h hb

/-- **What `write_log` does**: the cached contents of the logged blocks are in the log blocks, in
memory and on disk, and nothing else has changed. -/
lemma run_writeLog (m : Flat) (L : LogArea) (tail : ℕ) (bs : List ℕ)
    (hout : ∀ b ∈ bs, ¬ L.Mem b) (hfit : tail + bs.length < L.size) :
    m.run (writeLog L tail bs) =
      { m with mem := install m.mem (slots L tail (bs.map m.mem)),
               disk := install m.disk (slots L tail (bs.map m.mem)) } := by
  induction bs generalizing m tail with
  | nil => rfl
  | cons b bs ih =>
    rw [length_cons] at hfit
    have hslot : L.slot tail ∉ bs := fun h =>
      hout _ (mem_cons_of_mem _ h) (slot_mem (by omega))
    rw [writeLog, run_append, run_writeLogStep, ih _ _ (fun x hx => hout x (mem_cons_of_mem _ hx))
      (by omega)]
    simp only [map_cons, slots, install_cons, map_update_of_notMem hslot]

lemma allDisks_writeLog (m : Flat) (tail : ℕ) (bs : List ℕ)
    (hstep : ∀ d t v, tail ≤ t → t < tail + bs.length → P d → P (update d (L.slot t) v)) (h : P m.disk) :
    AllDisks P m (writeLog L tail bs) := by
  induction bs generalizing m tail with
  | nil => exact AllDisks.nil h
  | cons b bs ih =>
    rw [writeLog]
    have hnew : P (update m.disk (L.slot tail) (m.mem b)) :=
      hstep _ _ _ le_rfl (by simp) h
    refine AllDisks.append ?_ ?_
    · intro k
      rcases k with _ | _ | _ | _ | _ | _ | k <;>
        simpa [writeLogStep, run, exec, top, List.take] using by first | exact h | exact hnew
    · rw [run_writeLogStep]
      refine ih _ _ (fun d t v h1 h2 => hstep d t v (by omega) ?_) hnew
      rw [length_cons]
      omega

/-! ### `install_trans` -/

/-- The home blocks `bs` from entry `tail` on, paired with the contents of their log blocks. -/
def homes (L : LogArea) (d : Disk) (tail : ℕ) : List ℕ → List (ℕ × Block)
  | [] => []
  | b :: bs => (b, d (L.slot tail)) :: homes L d (tail + 1) bs

lemma map_fst_homes (L : LogArea) (d : Disk) (tail : ℕ) (bs : List ℕ) : (homes L d tail bs).map Prod.fst = bs := by
  induction bs generalizing tail with
  | nil => rfl
  | cons b bs ih => simp [homes, ih]

lemma homes_congr (h : ∀ t, tail ≤ t → t < tail + bs.length → d (L.slot t) = d' (L.slot t)) :
    homes L d tail bs = homes L d' tail bs := by
  induction bs generalizing tail with
  | nil => rfl
  | cons b bs ih =>
    rw [length_cons] at h
    simp only [homes]
    rw [h tail le_rfl (by omega), ih fun t h1 h2 => h t (by omega) (by omega)]

lemma homes_update (hb : ¬ L.Mem b) (hfit : tail + bs.length < L.size) :
    homes L (update d b v) tail bs = homes L d tail bs := by
  refine homes_congr fun t h1 h2 => update_of_ne (fun e => hb ?_) _ _
  rw [← e]
  exact slot_mem (by omega)

section

variable (m : Flat)

lemma run_installStep (L : LogArea) (r : Bool) (b tail : ℕ) : m.run (installStep L r b tail) =
      { m with mem := update m.mem b (m.mem (L.slot tail)), disk := update m.disk b (m.mem (L.slot tail)) } := by
  cases r <;> simp [run, installStep, exec, top]

/-- **What `install_trans` does**: every logged block holds, in memory and on disk, the contents of
its log block, and nothing else has changed. -/
lemma run_installTrans (L : LogArea) (r : Bool) (tail : ℕ) (bs : List ℕ) (hout : ∀ b ∈ bs, ¬ L.Mem b)
    (hfit : tail + bs.length < L.size) :
    m.run (installTrans L r tail bs) =
      { m with mem := install m.mem (homes L m.mem tail bs), disk := install m.disk (homes L m.mem tail bs) } := by
  induction bs generalizing m tail with
  | nil => rfl
  | cons b bs ih =>
    rw [length_cons] at hfit
    rw [installTrans, run_append, run_installStep, ih _ _ (fun x hx => hout x (mem_cons_of_mem _ hx))
      (by omega)]
    simp only [homes, install_cons]
    rw [homes_update (hout b mem_cons_self) (by omega)]

lemma allDisks_installTrans (r : Bool) (tail : ℕ) (bs : List ℕ) (hout : ∀ b ∈ bs, ¬ L.Mem b)
    (hfit : tail + bs.length < L.size) (hstep : ∀ d, ∀ w ∈ homes L m.mem tail bs, P d → P (update d w.1 w.2))
    (h : P m.disk) : AllDisks P m (installTrans L r tail bs) := by
  induction bs generalizing m tail with
  | nil => exact AllDisks.nil h
  | cons b bs ih =>
    rw [length_cons] at hfit
    rw [installTrans]
    have hnew : P (update m.disk b (m.mem (L.slot tail))) :=
      hstep _ (b, _) mem_cons_self h
    refine AllDisks.append ?_ ?_
    · intro k
      cases r <;> rcases k with _ | _ | _ | _ | _ | _ | _ | k <;>
        simpa [installStep, run, exec, top, List.take] using by first | exact h | exact hnew
    · rw [run_installStep]
      refine ih _ _ (fun x hx => hout x (mem_cons_of_mem _ hx)) (by omega) (fun d w hw => ?_) hnew
      refine hstep d w (mem_cons_of_mem _ ?_)
      rwa [homes_update (hout b mem_cons_self) (by omega)] at hw

/-! ### The header -/

lemma run_writeHead (L : LogArea) : m.run (writeHead L) =
      { m with mem := update m.mem L.start (Log.putHead m.lh (m.mem L.start)),
               disk := update m.disk L.start (Log.putHead m.lh (m.mem L.start)) } := by
  simp [run, writeHead, exec, top]

lemma run_readHead (L : LogArea) : m.run (readHead L) = { m with lh := headBlocks (m.mem L.start) } := by
  simp [run, readHead, exec, top]

lemma allDisks_readHead (h : P m.disk) : AllDisks P m (readHead L) := by
  intro k
  rcases k with _ | _ | _ | k <;> simpa [readHead, run, exec, top] using h

lemma allDisks_writeHead (h : P m.disk) (hnew : P (update m.disk L.start (Log.putHead m.lh (m.mem L.start)))) :
    AllDisks P m (writeHead L) := by
  intro k
  rcases k with _ | _ | _ | _ | k <;>
    simpa [writeHead, run, exec, top] using by first | exact h | exact hnew

end

end Flat

end Xv6.Log
