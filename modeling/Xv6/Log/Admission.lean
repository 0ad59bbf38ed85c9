import Xv6.Lib.Sum
import Xv6.Log.GroupInv

/-!
# Admission to the log

`begin_op` admits an operation when `lh.n + (outstanding + 1) * MAXOPBLOCKS ≤ LOGSIZE`, so that the
admitted operations log at most `LOGSIZE` blocks together.  `log_write` refuses to run once `lh.n`
has reached `log.size - 1`, and `mkfs` makes a log of `LOGSIZE` blocks of which one is the header:
the reservation is one block larger than the log.
-/

namespace Xv6.Log.Group

open Lib Function Finset

variable {P : Type} [DecidableEq P]

/-- The number of distinct blocks in a list. -/
def distinct (l : List ℕ) : ℕ := l.toFinset.card

/-- No operation logs more than `k` distinct blocks. -/
def OpFits (k : ℕ) (s : Group P) : Act P → Prop
  | .write p b => distinct (b :: s.cur p) ≤ k
  | _ => True

/-- `log_write` is called when fewer than `LOGSIZE - 1` distinct blocks have been logged since the
last commit. -/
def LogFits (s : Group P) : Act P → Prop
  | .write _ _ => distinct s.since < LOGSIZE - 1
  | _ => True

instance (k : ℕ) (s : Group P) (a : Act P) : Decidable (OpFits k s a) := by
  cases a <;> unfold OpFits <;> infer_instance

instance (s : Group P) (a : Act P) : Decidable (LogFits s a) := by
  cases a <;> unfold LogFits <;> infer_instance

/-! ### When `log_write` panics -/

variable {b : ℕ} {s s' : Group P} {a : Act P} {cur : P → List ℕ} {p : P}

lemma distinct_cons_of_mem (h : b ∈ l) : distinct (b :: l) = distinct l := by
  unfold distinct
  rw [List.toFinset_cons, insert_eq_of_mem (List.mem_toFinset.mpr h)]

lemma distinct_cons_of_notMem (h : b ∉ l) : distinct (b :: l) = distinct l + 1 := by
  unfold distinct
  rw [List.toFinset_cons, card_insert_of_notMem (by simpa using h)]

lemma distinct_le_cons (b : ℕ) (l : List ℕ) : distinct l ≤ distinct (b :: l) := by
  by_cases h : b ∈ l
  · rw [distinct_cons_of_mem h]
  · rw [distinct_cons_of_notMem h]
    exact Nat.le_succ _

variable [Fintype P]

omit [DecidableEq P] in
lemma Inv.length_lh (h : Inv L s) (hc : s.log.committing = false) :
    s.log.lh.length = distinct s.since := by
  rw [distinct, ← List.toFinset_card_of_nodup h.nodup]
  congr 1
  ext b
  simp [h.header hc b]

lemma Inv.tooBig_iff (h : Inv mkfsLog s) (hs : step s a = some s') :
    s'.panicked = some .tooBig ↔ ¬ LogFits s a := by
  obtain ⟨hnone, hst⟩ := step_cases hs
  cases hst with
  | @write p b g new hp hg =>
    have hlen := h.length_lh (h.not_committing hp)
    have hsize : s.log.area.size = LOGSIZE := by rw [h.area]; rfl
    have hroom := (logWrite_eq_ok hg).2.1
    simp only [hnone, LogFits, reduceCtorEq, not_lt, false_iff, not_le]
    omega
  | @writePanic p b e hp he =>
    have hlen := h.length_lh (h.not_committing hp)
    have hsize : s.log.area.size = LOGSIZE := by rw [h.area]; rfl
    have hpos := active_pos hp
    have hcount := h.count
    have hL := LOGSIZE_eq
    simp only [LogFits, not_lt]
    rcases logWrite_eq_error he with ⟨rfl, hb⟩ | ⟨rfl, hb⟩
    · simp only [true_iff]
      omega
    · omega
  | endPanic hp hc => exact absurd (h.not_committing hp) (by simp [hc])
  | _ => simp [hnone, LogFits]

/-! ### Operations of `MAXOPBLOCKS - 1` blocks -/

/-- What is left of the reservation of process `q`. -/
def unused (pc : P → Pc) (cur : P → List ℕ) (q : P) : ℕ :=
  if pc q = .inOp then MAXOPBLOCKS - distinct (cur q) else 0

/-- While operations run, the header and what they have left of their reservations fit in
`LOGSIZE` blocks.  An operation that runs alone leaves one more block: it was admitted to an empty
log, or the others have ended with some of their reservation unused. -/
structure Room (s : Group P) : Prop where
  small : ∀ q, distinct (s.cur q) < MAXOPBLOCKS
  fits : 1 ≤ active s.pc → s.log.lh.length + ∑ q, unused s.pc s.cur q + (if active s.pc = 1 then 1 else 0) ≤ LOGSIZE

omit [DecidableEq P] in
lemma sum_unused_le (pc : P → Pc) (cur : P → List ℕ) : ∑ q, unused pc cur q ≤ active pc * MAXOPBLOCKS := by
  have hle : ∀ q ∈ univ.filter (fun q => pc q = .inOp), unused pc cur q ≤ MAXOPBLOCKS := by
    intro q _
    unfold unused
    split <;> omega
  calc ∑ q, unused pc cur q
      = ∑ q ∈ univ.filter (fun q => pc q = .inOp), unused pc cur q := by
        refine (sum_filter_of_ne fun q _ hq => ?_).symm
        by_contra hpc
        exact hq (if_neg hpc)
    _ ≤ active pc * MAXOPBLOCKS := sum_le_card_nsmul _ _ _ hle

omit [Fintype P] in
lemma unused_update_pc {pc : P → Pc} (hp : pc p ≠ .inOp) (hc : c ≠ .inOp) :
    unused (update pc p c) cur = unused pc cur := by
  funext q
  unfold unused
  by_cases hq : q = p
  · subst hq
    simp [hp, hc]
  · simp [hq]

omit [Fintype P] in
lemma small_end (h : ∀ q, distinct (cur q) < MAXOPBLOCKS) (p q : P) :
    distinct (update cur p [] q) < MAXOPBLOCKS := by
  by_cases hq : q = p
  · subst hq
    simp [distinct]
  · simpa [hq] using h q

lemma room_enter (hi : Inv mkfsLog s) (h : Room s) (hp : s.pc p = .testing) (hc : s.log.committing = false)
    (room : (s.log.lh.length : ℤ) + (s.log.outstanding + 1) * MAXOPBLOCKS ≤ LOGSIZE) :
    Room { s with log := { s.log with outstanding := s.log.outstanding + 1 }, pc := update s.pc p .inOp } := by
  refine ⟨h.small, fun _ => ?_⟩
  have hact : active (update s.pc p .inOp) = active s.pc + 1 :=
    active_update_in (by simp [hp])
  have hsum := sum_unused_le (update s.pc p .inOp) s.cur
  have hcount := hi.count
  simp only [hact, MAXOPBLOCKS_eq, LOGSIZE_eq] at hsum room ⊢
  split
  · -- admitted to an idle log, whose header is empty
    have hlen := hi.length_lh hc
    rw [hi.idle hc (by omega)] at hlen
    simp only [distinct, List.toFinset_nil, card_empty] at hlen
    omega
  · omega

lemma room_write (hi : Inv mkfsLog s) (h : Room s) {new : Bool} (hp : s.pc p = .inOp)
    (hg : s.log.logWrite b = .ok (g, new)) (hb : distinct (b :: s.cur p) ≤ MAXOPBLOCKS - 1) :
    Room { s with log := g, cur := update s.cur p (b :: s.cur p), since := b :: s.since } := by
  have hfits := h.fits (active_pos hp)
  have hsum := sum_change (f := unused s.pc (update s.cur p (b :: s.cur p)))
    (g := unused s.pc s.cur) p (fun q hq => by simp [unused, hq])
  have hnew : unused s.pc (update s.cur p (b :: s.cur p)) p =
      MAXOPBLOCKS - distinct (b :: s.cur p) := by
    simp [unused, hp]
  have hold : unused s.pc s.cur p = MAXOPBLOCKS - distinct (s.cur p) := if_pos hp
  have hle := distinct_le_cons b (s.cur p)
  have hM := MAXOPBLOCKS_eq
  constructor
  · intro q
    by_cases hq : q = p
    · subst hq
      simp only [update_self]
      omega
    · simpa [hq] using h.small q
  · intro _
    -- a block that is new in the header is new in the operation
    rcases (logWrite_eq_ok hg).2.2.2 with ⟨-, rfl, -⟩ | ⟨hmem, rfl, -⟩
    · simp only
      omega
    · have hcur : b ∉ s.cur p := fun hbc => hmem ((hi.header (hi.not_committing hp) b).mpr
        ((hi.since b).mpr (Or.inr ⟨p, hbc⟩)))
      have hd := distinct_cons_of_notMem hcur
      simp only [List.length_append, List.length_singleton]
      omega

lemma room_innerEnd (h : Room s) (hp : s.pc p = .inOp) :
    Room { s with log := { s.log with outstanding := s.log.outstanding - 1 }, pc := wakeup (update s.pc p .outside),
                  cur := update s.cur p [], ended := s.cur p ++ s.ended } := by
  refine ⟨fun q => small_end h.small p q, fun _ => ?_⟩
  have hfits := h.fits (active_pos hp)
  have hact := active_update_out (c := .outside) hp (by simp)
  have hsum := sum_change
    (f := unused (wakeup (update s.pc p .outside)) (update s.cur p []))
    (g := unused s.pc s.cur) p (fun q hq => by simp [unused, hq, wakeup_eq])
  have hnew : unused (wakeup (update s.pc p .outside)) (update s.cur p []) p = 0 := by
    simp [unused, wakeup_eq]
  have hold : unused s.pc s.cur p = MAXOPBLOCKS - distinct (s.cur p) := if_pos hp
  have hsmall := h.small p
  simp only [active_wakeup]
  split <;> split at hfits <;> omega

lemma room_step (hi : Inv mkfsLog s) (h : Room s) (hs : step s a = some s') (ha : OpFits (MAXOPBLOCKS - 1) s a) :
    Room s' := by
  obtain ⟨-, hst⟩ := step_cases hs
  cases hst with
  | call hp | sleep hp =>
    refine ⟨h.small, ?_⟩
    rw [unused_update_pc (by simp [hp]) (by simp), active_update_of_ne (by simp [hp]) (by simp)]
    exact h.fits
  | enter hp hc room => exact room_enter hi h hp hc room
  | write hp hg => exact room_write hi h hp hg ha
  | writePanic hp he => exact ⟨h.small, h.fits⟩
  | @lastEnd p hp hc hz =>
    refine ⟨fun q => small_end h.small p q, fun h1 => ?_⟩
    have hact := active_update_out (c := .commit (commit s.log.area s.log.lh)) hp (by simp)
    have hcount := hi.count
    simp only at h1
    omega
  | innerEnd hp hc hz => exact room_innerEnd h hp
  | endPanic hp hc => exact ⟨h.small, h.fits⟩
  | @commit p c cs hp =>
    refine ⟨h.small, fun h1 => ?_⟩
    rw [active_update_of_ne (by simp [hp]) (by simp), hi.alone (hi.flag.mpr ⟨p, _, hp⟩)] at h1
    omega
  | @finish p hp =>
    refine ⟨h.small, fun h1 => ?_⟩
    rw [active_wakeup, active_update_of_ne (by simp [hp]) (by simp), hi.alone (hi.flag.mpr ⟨p, _, hp⟩)] at h1
    omega

omit [DecidableEq P] in
lemma Room.active_le (h : Room s) : active s.pc ≤ ∑ q, unused s.pc s.cur q := by
  calc active s.pc
      = ∑ q ∈ univ.filter (fun q => s.pc q = .inOp), 1 := card_eq_sum_ones _
    _ ≤ ∑ q ∈ univ.filter (fun q => s.pc q = .inOp), unused s.pc s.cur q := by
        refine sum_le_sum fun q hq => ?_
        have hsmall := h.small q
        rw [unused, if_pos (mem_filter.mp hq).2]
        omega
    _ ≤ ∑ q, unused s.pc s.cur q :=
        sum_le_sum_of_subset (filter_subset _ _)

lemma Room.logFits (hi : Inv mkfsLog s) (h : Room s) (hs : step s a = some s') : LogFits s a := by
  obtain ⟨-, hst⟩ := step_cases hs
  cases hst with
  | @write p b g new hp hg | @writePanic p b e hp he =>
    have hlen := hi.length_lh (hi.not_committing hp)
    have hfits := h.fits (active_pos hp)
    have hact := h.active_le
    have hpos := active_pos hp
    have hL := LOGSIZE_eq
    unfold LogFits
    split at hfits <;> omega
  | _ => trivial

omit [DecidableEq P] in
lemma room_init : Room (init mkfsLog : Group P) :=
  ⟨by simp [init, distinct], by simp [init, active]⟩

/-- When the log has room.  On the layout of `mkfs`: a run in which every `log_write` finds fewer
than `LOGSIZE - 1` distinct blocks logged since the last commit never reaches
`panic("too big a transaction")`; the first `log_write` that finds more reaches it, whether or not
its block would be absorbed; and operations of at most `MAXOPBLOCKS - 1` distinct blocks each always
find room. -/
theorem log_admission (acts : List (Act P)) (s : Group P) :
    (run (guarded LogFits step) (init mkfsLog) acts = some s → s.panicked ≠ some .tooBig) ∧
    (run step (init mkfsLog) acts = some s → ∀ p b s', step s (.write p b) = some s' →
      (s'.panicked = some .tooBig ↔ LOGSIZE - 1 ≤ distinct s.since)) ∧
    (run (guarded (OpFits (MAXOPBLOCKS - 1)) step) (init mkfsLog) acts = some s → s.panicked ≠ some .tooBig) := by
  refine ⟨fun h => ?_, fun h p b s' hs => ?_, fun h => ?_⟩
  · have hinv : Inv mkfsLog s ∧ s.panicked ≠ some .tooBig := by
      refine run_invariant (I := fun s => Inv mkfsLog s ∧ s.panicked ≠ some .tooBig)
        (fun s a s' hs hI => ?_) h ⟨inv_init _, by simp [init]⟩
      obtain ⟨hok, hs⟩ := guarded_eq_some.mp hs
      exact ⟨inv_step s a s' hs hI.1, fun hp => (hI.1.tooBig_iff hs).mp hp hok⟩
    exact hinv.2
  · rw [(inv_run h).tooBig_iff hs]
    exact not_lt
  · have hinv : Inv mkfsLog s ∧ Room s ∧ s.panicked ≠ some .tooBig := by
      refine run_invariant (I := fun s => Inv mkfsLog s ∧ Room s ∧ s.panicked ≠ some .tooBig)
        (fun s a s' hs hI => ?_) h ⟨inv_init _, room_init, by simp [init]⟩
      obtain ⟨hi, hr, -⟩ := hI
      obtain ⟨hok, hs⟩ := guarded_eq_some.mp hs
      exact ⟨inv_step s a s' hs hi, room_step hi hr hs hok, fun hp => (hi.tooBig_iff hs).mp hp (hr.logFits hi hs)⟩
    exact hinv.2.2

/-- The blocks `first, first + 1, …` logged one after the other by process `p`. -/
def writes (p : P) (first n : ℕ) : List (Act P) := (List.range n).map fun i => .write p (first + i)

/-- Three processes admitted together. -/
def threeOps : List (Act (Fin 3)) := [.call 0, .test 0, .call 1, .test 1, .call 2, .test 2]

theorem log_admission_twoOps : ∃ s, run (guarded LogFits step) (init mkfsLog)
        (threeOps ++ writes 0 46 10 ++ writes 1 56 10) = some s ∧ s.panicked ≠ some .tooBig := by
  have hsome : (run (guarded LogFits step) (init mkfsLog)
      (threeOps ++ writes 0 46 10 ++ writes 1 56 10)).isSome := by decide +kernel
  obtain ⟨s, hs⟩ := Option.isSome_iff_exists.mp hsome
  exact ⟨s, hs, (log_admission _ _).1 hs⟩

/-- Three operations of `MAXOPBLOCKS` distinct blocks each panic at the thirtieth block; so do
operations that log 29 distinct blocks together, when one of them logs a block again. -/
theorem log_admission_fails : (run (guarded (OpFits MAXOPBLOCKS) step) (init mkfsLog)
      (threeOps ++ writes 0 46 10 ++ writes 1 56 10 ++ writes 2 66 10)).map Group.panicked =
      some (some .tooBig) ∧
    (run (guarded (OpFits MAXOPBLOCKS) step) (init mkfsLog)
      (threeOps ++ writes 0 46 10 ++ writes 1 56 10 ++ writes 2 66 9 ++ [.write 2 66])).map
      Group.panicked = some (some .tooBig) := by
  constructor <;> decide +kernel

end Xv6.Log.Group
