import Xv6.Log.Group

/-!
# Group commit is isolated

The invariant links the counter `outstanding`, the flag `committing` and where the processes are:
`outstanding` counts the processes inside an operation, at most one process runs `commit`, and it
does so with the flag set and the counter at 0.
-/

namespace Xv6.Log

open Lib Function List

/-- The process is running `commit`. -/
def Pc.IsCommit (c : Pc) : Prop := ∃ code, c = .commit code

namespace Group

variable {L : LogArea} {code : List Cmd}

lemma wakeup_eq {P : Type} {pc : P → Pc} {q : P} {c : Pc} (h1 : c ≠ .testing) (h2 : c ≠ .asleep) :
    wakeup pc q = c ↔ pc q = c := by
  unfold wakeup
  split
  · rename_i h
    simp [h, h1.symm, h2.symm]
  · rfl

section Active

variable {P : Type} [DecidableEq P] [Fintype P]

/-- The number of processes inside an operation. -/
def active (pc : P → Pc) : ℕ := (Finset.univ.filter fun q => pc q = .inOp).card

variable {p : P} {pc : P → Pc} {c : Pc}

lemma active_update_in (h : pc p ≠ .inOp) : active (update pc p .inOp) = active pc + 1 := by
  unfold active
  rw [← Finset.card_insert_of_notMem (a := p) (by simp [h])]
  congr 1
  ext q
  by_cases hq : q = p
  · simp [hq]
  · simp [hq]

lemma active_update_of_ne (h : pc p ≠ .inOp) (hc : c ≠ .inOp) : active (update pc p c) = active pc := by
  unfold active
  congr 1
  ext q
  by_cases hq : q = p
  · simp [hq, h, hc]
  · simp [hq]

lemma active_update_out (h : pc p = .inOp) (hc : c ≠ .inOp) : active (update pc p c) + 1 = active pc := by
  have h1 : active (update (update pc p c) p .inOp) = _ :=
    active_update_in (by simpa using hc)
  rw [update_idem, ← h, update_eq_self] at h1
  exact h1.symm

omit [DecidableEq P] in
lemma active_wakeup (pc : P → Pc) : active (wakeup pc) = active pc := by
  unfold active
  congr 1
  ext q
  simp [wakeup_eq]

omit [DecidableEq P] in
lemma active_eq_zero (h : active pc = 0) (q : P) : pc q ≠ .inOp := by
  intro hq
  have : q ∈ Finset.univ.filter fun q => pc q = .inOp := by simp [hq]
  rw [Finset.card_eq_zero.mp h] at this
  simp at this

omit [DecidableEq P] in
lemma active_pos (h : pc q = .inOp) : 0 < active pc := by
  rcases Nat.eq_zero_or_pos (active pc) with h0 | h0
  · exact absurd h (active_eq_zero h0 q)
  · exact h0

end Active

variable {P : Type} [DecidableEq P] [Fintype P]

/-- What holds between any two steps. -/
structure Inv (L : LogArea) (s : Group P) : Prop where
  area : s.log.area = L
  count : s.log.outstanding = active s.pc
  /-- The flag is set exactly while some process is in `commit`. -/
  flag : s.log.committing = true ↔ ∃ p, (s.pc p).IsCommit
  unique : ∀ p q, (s.pc p).IsCommit → (s.pc q).IsCommit → p = q
  alone : s.log.committing = true → active s.pc = 0
  cur : ∀ p, s.pc p ≠ .inOp → s.cur p = []
  since : ∀ b, b ∈ s.since ↔ b ∈ s.ended ∨ ∃ p, b ∈ s.cur p
  nodup : s.log.lh.Nodup
  /-- Outside `commit` the header lists what was logged. -/
  header : s.log.committing = false → ∀ b, b ∈ s.log.lh ↔ b ∈ s.since
  /-- Inside `commit` the rest of the code is a suffix of `commit` for the blocks of the operations
  that ended; the header lists these until `commit` clears it. -/
  code : ∀ p code, s.pc p = .commit code → ∃ blocks done, commit L blocks = done ++ code ∧
    (∀ b, b ∈ blocks ↔ b ∈ s.ended) ∧ s.log.lh = if .clear ∈ done then [] else blocks
  /-- Between transactions nothing is logged. -/
  idle : s.log.committing = false → active s.pc = 0 → s.since = []
  calm : s.panicked ≠ some .logCommitting

omit [DecidableEq P] in
lemma inv_init (L : LogArea) : Inv L (init L : Group P) where
  area := rfl
  count := by simp [init, active]
  flag := by simp [init, Pc.IsCommit]
  unique := by simp [init, Pc.IsCommit]
  alone := by simp [init]
  cur := by simp [init]
  since := by simp [init]
  nodup := by simp [init]
  header := by simp [init]
  code := by simp [init]
  idle := by simp [init]
  calm := by simp [init]

variable {s s' : Group P} {p : P} {a : Act P}

section

variable (h : Inv L s)

include h

/-- A step of a process outside operations and `commit` that stays so changes nothing the
invariant speaks of. -/
lemma Inv.move (hp : s.pc p ≠ .inOp) (hp' : ¬ (s.pc p).IsCommit) (hc : c ≠ .inOp) (hc' : ¬ c.IsCommit) :
    Inv L { s with pc := update s.pc p c } := by
  have hcommit : ∀ q, (update s.pc p c q).IsCommit ↔ (s.pc q).IsCommit := by
    intro q
    by_cases hq : q = p
    · subst hq
      simp [hc', hp']
    · rw [update_of_ne hq]
  have hact := active_update_of_ne hp hc
  refine ⟨h.area, ?_, ?_, ?_, ?_, ?_, h.since, h.nodup, h.header, ?_, ?_, h.calm⟩
  · rw [hact]; exact h.count
  · rw [h.flag]
    exact exists_congr fun q => (hcommit q).symm
  · intro q r hq hr
    exact h.unique q r ((hcommit q).mp hq) ((hcommit r).mp hr)
  · rw [hact]; exact h.alone
  · intro q hq
    by_cases hqp : q = p
    · exact hqp ▸ h.cur p hp
    · exact h.cur q (by simpa [hqp] using hq)
  · intro q code hq
    by_cases hqp : q = p
    · subst hqp
      exact absurd ⟨code, by simpa using hq⟩ hc'
    · exact h.code q code (by simpa [hqp] using hq)
  · rw [hact]; exact h.idle

omit [DecidableEq P] in
lemma Inv.no_commit (hcm : s.log.committing = false) (q : P) : ¬ (s.pc q).IsCommit := by
  intro hq
  have := h.flag.mpr ⟨q, hq⟩
  simp [hcm] at this

omit [DecidableEq P] in
lemma Inv.not_committing (hp : s.pc p = .inOp) : s.log.committing = false := by
  by_contra hc
  have h0 := h.alone (by simpa using hc)
  exact active_eq_zero h0 p hp

lemma inv_enter (hp : s.pc p = .testing) (hcm : s.log.committing = false) :
    Inv L { s with log := { s.log with outstanding := s.log.outstanding + 1 }, pc := update s.pc p .inOp } := by
  have hno := h.no_commit hcm
  have hno' : ∀ q, ¬ (update s.pc p .inOp q).IsCommit := by
    intro q
    by_cases hq : q = p
    · subst hq
      simp [Pc.IsCommit]
    · rw [update_of_ne hq]
      exact hno q
  have hact : active (update s.pc p .inOp) = active s.pc + 1 :=
    active_update_in (by simp [hp])
  refine ⟨h.area, ?_, ?_, ?_, ?_, ?_, h.since, h.nodup, h.header, ?_, ?_, h.calm⟩
  · simp only [hact, h.count]
    push_cast
    rfl
  · simp [hcm, hno']
  · intro q r hq
    exact absurd hq (hno' q)
  · simp [hcm]
  · intro q hq
    by_cases hqp : q = p
    · subst hqp
      simp at hq
    · exact h.cur q (by simpa [hqp] using hq)
  · intro q code hq
    exact absurd ⟨code, hq⟩ (hno' q)
  · intro _ h0
    rw [hact] at h0
    omega

omit [DecidableEq P] in
lemma Inv.panic (he : e ≠ .logCommitting) : Inv L { s with panicked := some e } :=
  ⟨h.area, h.count, h.flag, h.unique, h.alone, h.cur, h.since, h.nodup, h.header, h.code, h.idle, by simpa using he⟩

lemma inv_write {new : Bool} (hp : s.pc p = .inOp) (hg : s.log.logWrite b = .ok (g, new)) :
    Inv L { s with log := g, cur := update s.cur p (b :: s.cur p), since := b :: s.since } := by
  have hcm := h.not_committing hp
  have hno := h.no_commit hcm
  -- the header lists `b` and what it listed before, and nothing else changed in the log
  obtain ⟨-, -, -, hcase⟩ := logWrite_eq_ok hg
  have hg' : g.area = s.log.area ∧ g.outstanding = s.log.outstanding ∧
      g.committing = s.log.committing ∧ g.lh.Nodup ∧ ∀ x, x ∈ g.lh ↔ x = b ∨ x ∈ s.log.lh := by
    rcases hcase with ⟨hb, rfl, -⟩ | ⟨hb, rfl, -⟩
    · refine ⟨rfl, rfl, rfl, h.nodup, fun x => ⟨.inr, ?_⟩⟩
      rintro (rfl | hx)
      · exact hb
      · exact hx
    · refine ⟨rfl, rfl, rfl, ?_, fun x => ?_⟩
      · rw [nodup_append]
        refine ⟨h.nodup, by simp, fun x hx y hy => ?_⟩
        rw [mem_singleton] at hy
        rintro rfl
        exact hb (hy ▸ hx)
      · simp [or_comm]
  obtain ⟨ga, go, gc, gn, gm⟩ := hg'
  refine ⟨ga.trans h.area, go.trans h.count, gc ▸ h.flag, h.unique, gc ▸ h.alone, ?_, ?_, gn, ?_, ?_, ?_, h.calm⟩
  · intro q hq
    have hqp : q ≠ p := by
      rintro rfl
      exact hq hp
    simpa [hqp] using h.cur q hq
  · intro x
    simp only [mem_cons, h.since x]
    constructor
    · rintro (rfl | hx | ⟨q, hq⟩)
      · exact .inr ⟨p, by simp⟩
      · exact .inl hx
      · refine .inr ⟨q, ?_⟩
        by_cases hqp : q = p
        · subst hqp
          simp [hq]
        · simpa [hqp] using hq
    · rintro (hx | ⟨q, hq⟩)
      · exact .inr (.inl hx)
      · by_cases hqp : q = p
        · subst hqp
          rw [update_self, mem_cons] at hq
          exact hq.imp id fun hq => .inr ⟨q, hq⟩
        · exact .inr (.inr ⟨q, by simpa [hqp] using hq⟩)
  · intro _ x
    rw [gm x, h.header hcm x, mem_cons]
  · intro q code hq
    exact absurd ⟨code, hq⟩ (hno q)
  · intro _ h0
    exact absurd hp (active_eq_zero h0 p)

lemma Inv.since_end (p : P) (x : ℕ) :
    x ∈ s.since ↔ x ∈ s.cur p ++ s.ended ∨ ∃ q, x ∈ update s.cur p [] q := by
  rw [h.since x, mem_append]
  constructor
  · rintro (hx | ⟨q, hq⟩)
    · exact .inl (.inr hx)
    · by_cases hqp : q = p
      · exact .inl (.inl (hqp ▸ hq))
      · exact .inr ⟨q, by simpa [hqp] using hq⟩
  · rintro ((hx | hx) | ⟨q, hq⟩)
    · exact .inr ⟨p, hx⟩
    · exact .inl hx
    · by_cases hqp : q = p
      · subst hqp
        simp at hq
      · exact .inr ⟨q, by simpa [hqp] using hq⟩

end

omit [Fintype P] in
lemma cur_end {pc : P → Pc} (h : ∀ q, q ≠ p → pc q ≠ .inOp → s.cur q = []) :
    ∀ q, pc q ≠ .inOp → update s.cur p [] q = [] := by
  intro q hq
  by_cases hqp : q = p
  · subst hqp
    simp
  · simpa [hqp] using h q hqp hq

lemma inv_lastEnd (h : Inv L s) (hp : s.pc p = .inOp) (hzero : s.log.outstanding - 1 = 0) : Inv L { s with
      log := { s.log with outstanding := s.log.outstanding - 1, committing := true },
      pc := update s.pc p (.commit (commit s.log.area s.log.lh)),
      cur := update s.cur p [], ended := s.cur p ++ s.ended } := by
  have hcm := h.not_committing hp
  have hno := h.no_commit hcm
  have hact : active (update s.pc p (.commit (commit s.log.area s.log.lh))) = 0 := by
    have h1 := active_update_out (c := .commit (commit s.log.area s.log.lh)) hp (by simp)
    have h2 := h.count
    omega
  have hothers : ∀ q, q ≠ p → s.pc q ≠ .inOp := fun q hq => by
    simpa [hq] using active_eq_zero hact q
  refine ⟨h.area, ?_, ?_, ?_, fun _ => hact, ?_, h.since_end p, h.nodup, by simp, ?_, by simp, h.calm⟩
  · simp only [hact]
    omega
  · simp only [true_iff]
    exact ⟨p, by simp [Pc.IsCommit]⟩
  · have key : ∀ q, (update s.pc p (.commit (commit s.log.area s.log.lh)) q).IsCommit → q = p := by
      intro q hq
      by_contra hqp
      rw [update_of_ne hqp] at hq
      exact hno q hq
    intro q r hq hr
    rw [key q hq, key r hr]
  · exact cur_end fun q hq _ => h.cur q (hothers q hq)
  · intro q code hq
    have hqp : q = p := by
      by_contra hqp
      exact hno q ⟨code, by simpa [hqp] using hq⟩
    subst hqp
    simp only [update_self, Pc.commit.injEq] at hq
    refine ⟨s.log.lh, [], by rw [← hq, h.area]; rfl, fun x => ?_, by simp⟩
    rw [h.header hcm x, h.since_end q x, or_iff_left]
    rintro ⟨r, hr⟩
    by_cases hrq : r = q
    · subst hrq
      simp at hr
    · rw [update_of_ne hrq, h.cur r (hothers r hrq)] at hr
      simp at hr

lemma inv_innerEnd (h : Inv L s) (hp : s.pc p = .inOp) (hzero : s.log.outstanding - 1 ≠ 0) :
    Inv L { s with log := { s.log with outstanding := s.log.outstanding - 1 }, pc := wakeup (update s.pc p .outside),
                   cur := update s.cur p [], ended := s.cur p ++ s.ended } := by
  have hcm := h.not_committing hp
  have hno := h.no_commit hcm
  have hact := active_update_out (c := .outside) hp (by simp)
  have hno' : ∀ q, ¬ (wakeup (update s.pc p .outside) q).IsCommit := by
    rintro q ⟨code, hq⟩
    rw [wakeup_eq (by simp) (by simp)] at hq
    by_cases hqp : q = p
    · subst hqp
      simp at hq
    · exact hno q ⟨code, by simpa [hqp] using hq⟩
  have hcount := h.count
  refine ⟨h.area, ?_, ?_, ?_, ?_, ?_, h.since_end p, h.nodup, fun _ => h.header hcm, ?_, ?_, h.calm⟩
  · simp only [active_wakeup]
    omega
  · simp [hcm, hno']
  · intro q r hq
    exact absurd hq (hno' q)
  · simp [hcm]
  · refine cur_end fun q hq hpc => h.cur q ?_
    rw [Ne, wakeup_eq (by simp) (by simp)] at hpc
    simpa [hq] using hpc
  · intro q code hq
    exact absurd ⟨code, hq⟩ (hno' q)
  · intro _ h0
    simp only [active_wakeup] at h0
    omega

lemma inv_commit (h : Inv L s) {cs : List Cmd} (hp : s.pc p = .commit (c :: cs)) :
    Inv L { s with log := execLog s.log c, pc := update s.pc p (.commit cs) } := by
  have hcm : s.log.committing = true := h.flag.mpr ⟨p, c :: cs, hp⟩
  have hkeep : ∀ q, (update s.pc p (.commit cs) q).IsCommit ↔ (s.pc q).IsCommit := by
    intro q
    by_cases hq : q = p
    · subst hq
      simp [Pc.IsCommit, hp]
    · rw [update_of_ne hq]
  have hact : active (update s.pc p (.commit cs)) = active s.pc :=
    active_update_of_ne (by simp [hp]) (by simp)
  have hexec : (execLog s.log c).area = s.log.area ∧ (execLog s.log c).outstanding = s.log.outstanding ∧
      (execLog s.log c).committing = s.log.committing ∧
      (execLog s.log c).lh = if c = .clear then [] else s.log.lh := by
    cases c <;> simp [execLog]
  obtain ⟨ea, eo, ec, el⟩ := hexec
  refine ⟨ea.trans h.area, ?_, ?_, ?_, ?_, ?_, h.since, ?_, ?_, ?_, ?_, h.calm⟩
  · simp only [eo, hact]
    exact h.count
  · simp only [ec, h.flag]
    exact exists_congr fun q => (hkeep q).symm
  · intro q r hq hr
    exact h.unique q r ((hkeep q).mp hq) ((hkeep r).mp hr)
  · intro _
    rw [hact]
    exact h.alone hcm
  · intro q hq
    refine h.cur q fun hin => ?_
    exact active_eq_zero (h.alone hcm) q hin
  · simp only [el]
    split
    · exact nodup_nil
    · exact h.nodup
  · simp [ec, hcm]
  · intro q code hq
    have hqp : q = p := h.unique q p ((hkeep q).mp ⟨code, hq⟩) ⟨_, hp⟩
    subst hqp
    simp only [update_self, Pc.commit.injEq] at hq
    subst hq
    obtain ⟨blocks, done, hcode, hmem, hlh⟩ := h.code q _ hp
    refine ⟨blocks, done ++ [c], by simp [hcode], hmem, ?_⟩
    simp only [el, hlh, mem_append, mem_singleton]
    by_cases hd : Cmd.clear ∈ done
    · simp [hd]
    · simp only [hd, if_false, false_or]
      by_cases hc : c = .clear
      · simp [hc]
      · simp [hc, Ne.symm hc]
  · simp [ec, hcm]

lemma clear_mem_commit {blocks : List ℕ} (h : blocks ≠ []) : Cmd.clear ∈ commit L blocks := by
  rw [commit, if_pos (length_pos_iff.mpr h)]
  simp

omit [DecidableEq P] in
lemma Inv.lh_of_done (h : Inv L s) (hp : s.pc p = .commit []) : s.log.lh = [] := by
  obtain ⟨blocks, done, hcode, -, hlh⟩ := h.code p _ hp
  rw [append_nil] at hcode
  rw [hlh, ← hcode]
  by_cases hb : blocks = []
  · simp [hb]
  · rw [if_pos (clear_mem_commit hb)]

lemma inv_finish (h : Inv L s) (hp : s.pc p = .commit []) :
    Inv L { s with log := { s.log with committing := false },
                   pc := wakeup (update s.pc p .outside), ended := [], since := [] } := by
  have hcm : s.log.committing = true := h.flag.mpr ⟨p, [], hp⟩
  have h0 := h.alone hcm
  have hlh := h.lh_of_done hp
  have hact : active (wakeup (update s.pc p .outside)) = 0 := by
    rw [active_wakeup, active_update_of_ne (by simp [hp]) (by simp), h0]
  have hno' : ∀ q, ¬ (wakeup (update s.pc p .outside) q).IsCommit := by
    rintro q ⟨code, hq⟩
    rw [wakeup_eq (by simp) (by simp)] at hq
    by_cases hqp : q = p
    · subst hqp
      simp at hq
    · rw [update_of_ne hqp] at hq
      exact hqp (h.unique q p ⟨code, hq⟩ ⟨_, hp⟩)
  have hcur : ∀ q, s.cur q = [] := fun q => h.cur q (active_eq_zero h0 q)
  refine ⟨h.area, ?_, ?_, ?_, by simp, fun q _ => hcur q, by simp [hcur], h.nodup, ?_, ?_, by simp, h.calm⟩
  · simp only [hact]
    rw [h.count, h0]
  · simp [hno']
  · intro q r hq
    exact absurd hq (hno' q)
  · simp [hlh]
  · intro q code hq
    exact absurd ⟨code, hq⟩ (hno' q)

lemma inv_step (s : Group P) (a : Act P) (s' : Group P) (hs : step s a = some s') (h : Inv L s) : Inv L s' := by
  obtain ⟨-, hst⟩ := step_cases hs
  cases hst with
  | call hp => exact h.move (by simp [hp]) (by simp [hp, Pc.IsCommit]) (by simp) (by simp [Pc.IsCommit])
  | enter hp hc room => exact inv_enter h hp hc
  | sleep hp => exact h.move (by simp [hp]) (by simp [hp, Pc.IsCommit]) (by simp) (by simp [Pc.IsCommit])
  | write hp hg => exact inv_write h hp hg
  | writePanic hp he => exact h.panic (by rcases logWrite_eq_error he with ⟨rfl, -⟩ | ⟨rfl, -⟩ <;> simp)
  | lastEnd hp hc hz => exact inv_lastEnd h hp hz
  | innerEnd hp hc hz => exact inv_innerEnd h hp hz
  | endPanic hp hc => exact absurd (h.not_committing hp) (by simp [hc])
  | commit hp => exact inv_commit h hp
  | finish hp => exact inv_finish h hp

lemma inv_run {acts : List (Act P)} (h : run step (init L) acts = some s) :
    Inv L s := run_invariant inv_step h (inv_init L)

end Group

end Xv6.Log
