import Xv6.Lib.Run
import Xv6.Log.Code

/-!
# Group commit: `begin_op`, `log_write`, `end_op` by any number of processes

The sections under `log.lock` are single steps, `commit` is a sequence of steps taken without
the lock.  A process is outside any operation, testing the condition of `begin_op`, asleep on
`&log` in it, inside an operation, or running `commit`.  The system also records, for the
statements only, which blocks the operations have logged.
-/

namespace Xv6.Log

open Lib Function

/-- The panics of `begin_op`, `end_op` and `log_write`. -/
inductive Panic where
  | logCommitting | tooBig | outsideTrans
  deriving DecidableEq

/-- `struct log`, less its lock and device; `lh` is `lh.block[0..n)`. -/
structure LogState where
  area : LogArea
  outstanding : ℤ
  committing : Bool
  lh : List ℕ

namespace LogState

/-- One pass through the loop of `begin_op`; `none` is `sleep(&log, &log.lock)`. -/
def beginOp (g : LogState) : Option LogState :=
  if g.committing then none
  else if (g.lh.length : ℤ) + (g.outstanding + 1) * MAXOPBLOCKS > LOGSIZE then none
  else some { g with outstanding := g.outstanding + 1 }

/-- The first critical section of `end_op`; the flag is `do_commit`. -/
def endOp (g : LogState) : Except Panic (LogState × Bool) :=
  let g := { g with outstanding := g.outstanding - 1 }
  if g.committing then .error .logCommitting
  else if g.outstanding = 0 then .ok ({ g with committing := true }, true)
  else .ok (g, false)

/-- `log_write` for a buffer of block `b`; the flag says that the block is new and was pinned.
When `b` is in the list already (absorption), the store `lh.block[i] = b` changes nothing. -/
def logWrite (g : LogState) (b : ℕ) : Except Panic (LogState × Bool) :=
  if LOGSIZE ≤ g.lh.length ∨ g.area.size - 1 ≤ g.lh.length then .error .tooBig
  else if g.outstanding < 1 then .error .outsideTrans
  else if b ∈ g.lh then .ok (g, false)
  else .ok ({ g with lh := g.lh ++ [b] }, true)

end LogState

/-- Where a process is. -/
inductive Pc where
  | outside | testing | asleep | inOp
  /-- In `commit`, with the rest of its code. -/
  | commit (code : List Cmd)
  deriving DecidableEq

/-- The log and the processes that use it. -/
structure Group (P : Type) where
  log : LogState
  pc : P → Pc
  panicked : Option Panic
  /-- The blocks logged by the operation a process is in. -/
  cur : P → List ℕ
  /-- The blocks logged by the operations that ended since the last commit. -/
  ended : List ℕ
  /-- All blocks logged since the last commit. -/
  since : List ℕ

/-- What a process can do next. -/
inductive Act (P : Type) where
  /-- Call `begin_op`. -/
  | call (p : P)
  /-- One pass through the loop of `begin_op`. -/
  | test (p : P)
  /-- `log_write` of block `b`. -/
  | write (p : P) (b : ℕ)
  /-- `end_op`, up to the call of `commit`. -/
  | endOp (p : P)
  /-- The next call that `commit` makes. -/
  | commit (p : P)
  /-- The end of `end_op` after `commit` returned. -/
  | finish (p : P)

namespace Group

variable {P : Type} [DecidableEq P]

/-- The state after `initlog`. -/
def init (L : LogArea) : Group P where
  log := ⟨L, 0, false, []⟩
  pc _ := .outside
  panicked := none
  cur _ := []
  ended := []
  since := []

/-- `wakeup(&log)`: the sleepers of `begin_op` test again. -/
def wakeup (pc : P → Pc) : P → Pc := fun q => if pc q = .asleep then .testing else pc q

/-- The effect of a call of `commit` on the in-memory log. -/
def execLog (g : LogState) : Cmd → LogState
  | .clear => { g with lh := [] }
  | _ => g

def step (s : Group P) (a : Act P) : Option (Group P) :=
  if s.panicked.isSome then none else
  match a with
  | .call p =>
    if s.pc p = .outside then some { s with pc := update s.pc p .testing } else none
  | .test p =>
    if s.pc p = .testing then
      match s.log.beginOp with
      | some g => some { s with log := g, pc := update s.pc p .inOp }
      | none => some { s with pc := update s.pc p .asleep }
    else none
  | .write p b =>
    if s.pc p = .inOp then
      match s.log.logWrite b with
      | .ok (g, _) => some { s with log := g, cur := update s.cur p (b :: s.cur p), since := b :: s.since }
      | .error e => some { s with panicked := some e }
    else none
  | .endOp p =>
    if s.pc p = .inOp then
      match s.log.endOp with
      | .ok (g, true) =>
        some { s with log := g, pc := update s.pc p (.commit (Log.commit g.area g.lh)),
                      cur := update s.cur p [], ended := s.cur p ++ s.ended }
      | .ok (g, false) =>
        some { s with log := g, pc := wakeup (update s.pc p .outside),
                      cur := update s.cur p [], ended := s.cur p ++ s.ended }
      | .error e => some { s with panicked := some e }
    else none
  | .commit p =>
    match s.pc p with
    | .commit (c :: cs) => some { s with log := execLog s.log c, pc := update s.pc p (.commit cs) }
    | _ => none
  | .finish p =>
    if s.pc p = .commit [] then
      some { s with log := { s.log with committing := false },
                    pc := wakeup (update s.pc p .outside), ended := [], since := [] }
    else none

/-! ### What a step can do -/

lemma beginOp_eq_some {g g' : LogState} (h : g.beginOp = some g') :
    g.committing = false ∧ (g.lh.length : ℤ) + (g.outstanding + 1) * MAXOPBLOCKS ≤ LOGSIZE ∧
      g' = { g with outstanding := g.outstanding + 1 } := by
  unfold LogState.beginOp at h
  split at h
  · cases h
  · split at h
    · cases h
    · rename_i h1 h2
      cases h
      exact ⟨by simpa using h1, by omega, rfl⟩

lemma logWrite_eq_ok {g g' : LogState} {b : ℕ} {new : Bool} (h : g.logWrite b = .ok (g', new)) :
    g.lh.length < LOGSIZE ∧ g.lh.length < g.area.size - 1 ∧ 1 ≤ g.outstanding ∧ ((b ∈ g.lh ∧ g' = g ∧ new = false) ∨
        (b ∉ g.lh ∧ g' = { g with lh := g.lh ++ [b] } ∧ new = true)) := by
  unfold LogState.logWrite at h
  split at h
  · cases h
  · split at h
    · cases h
    · rename_i h1 h2
      refine ⟨by omega, by omega, by omega, ?_⟩
      split at h
      · rename_i hb
        cases h
        exact .inl ⟨hb, rfl, rfl⟩
      · rename_i hb
        cases h
        exact .inr ⟨hb, rfl, rfl⟩

lemma logWrite_eq_error {g : LogState} {b : ℕ} {e : Panic} (h : g.logWrite b = .error e) :
    (e = .tooBig ∧ (LOGSIZE ≤ g.lh.length ∨ g.area.size - 1 ≤ g.lh.length)) ∨
      (e = .outsideTrans ∧ g.outstanding < 1) := by
  unfold LogState.logWrite at h
  split at h
  · rename_i hb
    cases h
    exact .inl ⟨rfl, hb⟩
  · split at h
    · rename_i hb
      cases h
      exact .inr ⟨rfl, hb⟩
    · split at h <;> cases h

/-- The cases of a step, each with the test it has passed. -/
inductive Step (s : Group P) : Act P → Group P → Prop where
  | call {p} (hp : s.pc p = .outside) :
    Step s (.call p) { s with pc := update s.pc p .testing }
  | enter {p} (hp : s.pc p = .testing) (hc : s.log.committing = false)
      (room : (s.log.lh.length : ℤ) + (s.log.outstanding + 1) * MAXOPBLOCKS ≤ LOGSIZE) :
    Step s (.test p) { s with log := { s.log with outstanding := s.log.outstanding + 1 }, pc := update s.pc p .inOp }
  | sleep {p} (hp : s.pc p = .testing) :
    Step s (.test p) { s with pc := update s.pc p .asleep }
  | write {p b g new} (hp : s.pc p = .inOp) (hg : s.log.logWrite b = .ok (g, new)) :
    Step s (.write p b) { s with log := g, cur := update s.cur p (b :: s.cur p), since := b :: s.since }
  | writePanic {p b e} (hp : s.pc p = .inOp) (he : s.log.logWrite b = .error e) :
    Step s (.write p b) { s with panicked := some e }
  | lastEnd {p} (hp : s.pc p = .inOp) (hc : s.log.committing = false)
      (hz : s.log.outstanding - 1 = 0) :
    Step s (.endOp p) { s with
      log := { s.log with outstanding := s.log.outstanding - 1, committing := true },
      pc := update s.pc p (.commit (Log.commit s.log.area s.log.lh)),
      cur := update s.cur p [], ended := s.cur p ++ s.ended }
  | innerEnd {p} (hp : s.pc p = .inOp) (hc : s.log.committing = false)
      (hz : s.log.outstanding - 1 ≠ 0) :
    Step s (.endOp p) { s with log := { s.log with outstanding := s.log.outstanding - 1 },
                               pc := wakeup (update s.pc p .outside),
                               cur := update s.cur p [], ended := s.cur p ++ s.ended }
  | endPanic {p} (hp : s.pc p = .inOp) (hc : s.log.committing = true) :
    Step s (.endOp p) { s with panicked := some .logCommitting }
  | commit {p c cs} (hp : s.pc p = .commit (c :: cs)) :
    Step s (.commit p) { s with log := execLog s.log c, pc := update s.pc p (.commit cs) }
  | finish {p} (hp : s.pc p = .commit []) :
    Step s (.finish p) { s with log := { s.log with committing := false }, pc := wakeup (update s.pc p .outside),
                                ended := [], since := [] }

lemma step_cases {s s' : Group P} {a : Act P} (hs : step s a = some s') : s.panicked = none ∧ Step s a s' := by
  simp only [step] at hs
  split at hs
  · cases hs
  rename_i hnone
  refine ⟨by simpa using hnone, ?_⟩
  cases a with
  | call p =>
    simp only at hs
    split at hs <;> cases hs
    exact .call ‹_›
  | test p =>
    simp only at hs
    split at hs
    · split at hs
      · rename_i hg
        cases hs
        obtain ⟨hc, room, rfl⟩ := beginOp_eq_some hg
        exact .enter ‹_› hc room
      · cases hs
        exact .sleep ‹_›
    · cases hs
  | write p b =>
    simp only at hs
    split at hs
    · split at hs <;> cases hs
      · exact .write ‹_› ‹_›
      · exact .writePanic ‹_› ‹_›
    · cases hs
  | endOp p =>
    simp only [LogState.endOp] at hs
    split at hs
    · by_cases hc : s.log.committing = true
      · rw [if_pos hc] at hs
        cases hs
        exact .endPanic ‹_› hc
      · by_cases hz : s.log.outstanding - 1 = 0
        · rw [if_neg hc, if_pos hz] at hs
          cases hs
          exact .lastEnd ‹_› (by simpa using hc) hz
        · rw [if_neg hc, if_neg hz] at hs
          cases hs
          exact .innerEnd ‹_› (by simpa using hc) hz
    · cases hs
  | commit p =>
    simp only at hs
    split at hs <;> cases hs
    exact .commit ‹_›
  | finish p =>
    simp only at hs
    split at hs <;> cases hs
    exact .finish ‹_›

end Group

end Xv6.Log
