import Xv6.Pipe.Steps

/-!
# Nobody sleeps through its condition

A process that sleeps on `&pi->nread` waits for a byte or for the end of the writers, and one on
`&pi->nwrite` for room or for the end of the readers.  What makes a wait pointless is done under the
lock, and its holder still has the `wakeup` before it (`Code.rouses`), with one exception: a
`pipewrite` that finds itself killed returns without it.
-/

namespace Xv6.Pipe

open Lib Function

variable {P : Type}

/-- What a process that sleeps on the channel waits for has not happened. -/
def State.waits (s : State P) : Chan → Prop
  | .nread => s.nread = s.nwrite ∧ s.writeopen = true
  | .nwrite => s.full ∧ s.readopen = true

/-- The holder of the lock will wake the sleepers on the channel. -/
def Code.rouses (s : State P) : Chan → Code → Prop
  | .nread, .wloop _ _ => s.readopen = true ∧ s.writeopen = true
  | .nread, .wfull _ _ | .nread, .wend _ _ | .nread, .cwake true => True
  | .nwrite, .rcopy _ _ | .nwrite, .rend _ _ | .nwrite, .cwake false => True
  | _, _ => False

/-- A process about to sleep has just seen that it has to. -/
def Code.Tired (s : State P) : Code → Prop
  | .wfull _ _ | .wsleep _ _ => s.waits .nwrite
  | .rsleep _ => s.waits .nread
  | _ => True

structure Watched (s : State P) : Prop where
  locked : Locked s
  tired : ∀ p, (s.code p).Tired s
  sleepers : ∀ q chan, s.asleep q = some chan → s.waits chan ∨ ∃ p, s.lock = some p ∧ (s.code p).rouses s chan

/-- The process is not in a `pipewrite` that returns because it was killed, with bytes in the pipe and a reader asleep. -/
def Code.rousing (s : State P) (p : P) : Code → Prop
  | .wloop w i => (i : ℤ) < w.n → s.killed p = true → ∀ q, s.asleep q = some .nread → s.nread = s.nwrite
  | _ => True

/-- The step is not such a return. -/
def Rousing (s : State P) : Act P → Prop
  | .go p => (s.code p).rousing s p
  | _ => True

instance [Fintype P] (s : State P) (p : P) (k : Code) : Decidable (k.rousing s p) := by
  unfold Code.rousing
  split <;> infer_instance

instance [Fintype P] (s : State P) (a : Act P) : Decidable (Rousing s a) := by
  unfold Rousing
  split <;> infer_instance

variable {s s' : State P} {k : Code} {chan : Chan}

lemma Code.Tired.congr (h : k.Tired s) (hw : ∀ chan, s.waits chan → s'.waits chan) : k.Tired s' := by
  cases k with
  | wfull | wsleep => exact hw .nwrite h
  | rsleep => exact hw .nread h
  | _ => trivial

lemma Code.tired_of_not_critical (h : k.critical = false) : k.Tired s := by
  cases k with
  | wfull | wsleep | rsleep => cases h
  | _ => trivial

lemma Code.rouses_congr (hr : s'.readopen = s.readopen) (hw : s'.writeopen = s.writeopen) :
    k.rouses s' chan ↔ k.rouses s chan := by
  simp only [Code.rouses, hr, hw]

section

variable [DecidableEq P] {s s' : State P} {p : P} {k : Code} {es : List (Event P)}

omit [DecidableEq P] in
lemma Watched.rouses (h : Watched s) (hp : (s.code p).critical = true) (hq : s.asleep q = some chan) :
    s.waits chan ∨ (s.code p).rouses s chan := by
  refine (h.sleepers q chan hq).imp_right ?_
  rintro ⟨o, ho, hr⟩
  cases ho.symm.trans ((h.locked.lock p).mpr hp)
  exact hr

lemma Watched.inside (h : Watched s) (hs : Locked s') (hp : (s.code p).critical = true)
    (hl : s'.lock = s.lock) (hc : s'.code = update s.code p k) (hk : k.Tired s')
    (ha : ∀ q chan, s'.asleep q = some chan →
      s.asleep q = some chan ∧ (s.waits chan ∨ (s.code p).rouses s chan → s'.waits chan ∨ k.rouses s' chan)) :
    Watched s' := by
  have hown := (h.locked.lock p).mpr hp
  refine ⟨hs, fun q => ?_, fun q chan hq => ?_⟩
  · by_cases hqp : q = p
    · subst hqp
      rwa [hc, update_self]
    · refine Code.tired_of_not_critical (Bool.eq_false_iff.mpr fun hcrit => ?_)
      have hq := (hs.lock q).mpr hcrit
      rw [hl, hown] at hq
      exact hqp (Option.some.inj hq).symm
  · obtain ⟨hq0, himp⟩ := ha q chan hq
    refine (himp (h.rouses hp hq0)).imp_right fun hr => ⟨p, hl.trans hown, ?_⟩
    rwa [hc, update_self]

lemma Watched.edge (h : Watched s) (hs : Locked s') (hc : s'.code = update s.code p k) (hk : k.Tired s')
    (hw : ∀ chan, s'.waits chan ↔ s.waits chan)
    (ha : ∀ q chan, s'.asleep q = some chan → s.waits chan) : Watched s' := by
  refine ⟨hs, fun q => ?_, fun q chan hq => .inl ((hw chan).mpr (ha q chan hq))⟩
  by_cases hqp : q = p
  · subst hqp
    rwa [hc, update_self]
  · rw [hc, update_of_ne hqp]
    exact (h.tired q).congr fun chan => (hw chan).mpr

lemma Move.watched (hm : Move s p es s') (hok : Rousing s (.go p)) (h : Watched s) : Watched s' := by
  have hs := hm.locked h.locked
  have hself := h.tired p
  cases hm with
  | @enter k hk _ hl =>
    have hkt : k.Tired s := by
      generalize s.code p = k0 at hk
      cases hk <;> trivial
    refine h.edge hs rfl (hkt.congr fun _ hw => hw) (fun chan => by cases chan <;> rfl) fun q chan hq => ?_
    refine (h.sleepers q chan hq).resolve_right ?_
    rintro ⟨o, ho, -⟩
    cases hl.symm.trans ho
  | leave hk hl =>
    have hcrit := (h.locked.lock p).mp hl
    refine h.edge hs rfl trivial (fun chan => by cases chan <;> rfl) fun q chan hq => ?_
    refine (h.rouses hcrit hq).resolve_right ?_
    generalize s.code p = k0 at hk
    cases hk <;> cases chan <;> exact id
  | @doze chan k hk hl =>
    have hcrit := (h.locked.lock p).mp hl
    have hkt : k.Tired s ∧ s.waits chan ∧ ∀ chan', ¬ (s.code p).rouses s chan' := by
      generalize s.code p = k0 at hk hself
      cases hk <;> exact ⟨trivial, hself, fun chan' => by cases chan' <;> exact id⟩
    refine h.edge hs rfl (hkt.1.congr fun _ hw => hw) (fun chan => by cases chan <;> rfl) fun q chan' hq => ?_
    simp only [State.goto] at hq
    by_cases hqp : q = p
    · subst hqp
      rw [update_self] at hq
      cases hq
      exact hkt.2.1
    · rw [update_of_ne hqp] at hq
      exact (h.rouses hcrit hq).resolve_right (hkt.2.2 chan')
  | @wake chan k hk =>
    have hkt : k.Tired s ∧ ∀ chan', chan' ≠ chan → ¬ (s.code p).rouses s chan' := by
      generalize s.code p = k0 at hk hself
      cases hk with
      | wfull => exact ⟨hself, fun chan' hne => by cases chan' <;> first | exact id | exact absurd rfl hne⟩
      | _ => exact ⟨trivial, fun chan' hne => by cases chan' <;> first | exact id | exact absurd rfl hne⟩
    refine h.inside hs hk.critical.1 rfl rfl (hkt.1.congr fun _ hw => hw) fun q chan' hq => ?_
    simp only [State.goto, State.wakeup] at hq
    split at hq
    · cases hq
    next hne =>
      refine ⟨hq, fun hw => .inl ?_⟩
      exact hw.resolve_right (hkt.2 chan' (by rintro rfl; exact hne hq))
  | @turn k hk =>
    refine h.inside hs hk.critical.1 rfl rfl ?_ fun q chan hq => ⟨hq, fun hw => ?_⟩
    · generalize s.code p = k0 at hk
      cases hk with
      | wfull w i ho hf => exact ⟨hf, ho⟩
      | rsleep r he ho => exact ⟨he, ho⟩
      | _ => trivial
    · -- only a `pipewrite` that returns early gives up its `wakeup`
      simp only [Rousing] at hok
      generalize s.code p = k0 at hk hw hok
      cases hk with
      | wquit w i hn hq' =>
        refine .inl (hw.elim id fun hr => ?_)
        cases chan with
        | nwrite => exact hr.elim
        | nread =>
          obtain ⟨hro, hwo⟩ := hr
          have hkill : s.killed p = true := by
            rcases hq' with hc | hc
            · rw [hro] at hc; cases hc
            · exact hc
          exact ⟨hok hn hkill q hq, hwo⟩
      | wfull | wend | rend => exact hw.imp_right fun hr => by cases chan <;> trivial
      | _ => exact .inl (hw.elim id fun hr => by cases chan <;> exact hr.elim)
  | put hk ho hf =>
    refine h.inside hs (by rw [hk]; rfl) rfl rfl trivial fun q chan hq => ⟨hq, fun hw => ?_⟩
    rw [hk] at hw
    cases chan with
    | nread => exact .inr (hw.elim (fun hw => ⟨ho, hw.2⟩) id)
    | nwrite => exact (hw.elim (fun hw => hf hw.1) id).elim
  | take hk hne =>
    refine h.inside hs (by rw [hk]; rfl) rfl rfl trivial fun q chan hq => ⟨hq, fun hw => ?_⟩
    rw [hk] at hw
    cases chan with
    | nread => exact (hw.elim (fun hw => hne hw.1) id).elim
    | nwrite => exact .inr trivial
  | lose hk hne =>
    refine h.inside hs (by rw [hk]; rfl) rfl rfl trivial fun q chan hq => ⟨hq, fun hw => ?_⟩
    rw [hk] at hw
    cases chan with
    | nread => exact (hw.elim (fun hw => hne hw.1) id).elim
    | nwrite => exact .inr trivial
  | shutWrite hk =>
    refine h.inside hs (by rw [hk]; rfl) rfl rfl trivial fun q chan hq => ⟨hq, fun hw => ?_⟩
    rw [hk] at hw
    cases chan with
    | nread => exact .inr trivial
    | nwrite => exact .inl (hw.elim id False.elim)
  | shutRead hk =>
    refine h.inside hs (by rw [hk]; rfl) rfl rfl trivial fun q chan hq => ⟨hq, fun hw => ?_⟩
    rw [hk] at hw
    cases chan with
    | nread => exact .inl (hw.elim id False.elim)
    | nwrite => exact .inr trivial

lemma step_watched (hst : step s a = some s') (hok : Rousing s a) (h : Watched s) : Watched s' := by
  have hs := step_locked hst h.locked
  have hc := step_cases hst
  generalize emit s a = es at hc
  cases hc with
  | move hm => exact hm.watched hok h
  | @call p a k hp hk =>
    have hkt : k.Tired s := by cases hk <;> trivial
    refine ⟨hs, fun q => ?_, fun q chan hq => ?_⟩
    · by_cases hqp : q = p
      · subst hqp
        simp only [State.goto, update_self]
        exact hkt.congr fun _ hw => hw
      · simp only [State.goto, update_of_ne hqp]
        exact (h.tired q).congr fun _ hw => hw
    · refine (h.sleepers q chan hq).imp id ?_
      rintro ⟨o, ho, hr⟩
      have hop : o ≠ p := by
        rintro rfl
        have hcrit := (h.locked.lock o).mp ho
        rw [hp] at hcrit
        cases hcrit
      refine ⟨o, ho, ?_⟩
      simp only [State.goto, update_of_ne hop]
      exact (Code.rouses_congr rfl rfl).mpr hr
  | @kill p =>
    refine ⟨hs, fun q => (h.tired q).congr fun _ hw => hw, fun q chan hq => ?_⟩
    have hqp : q ≠ p := by
      rintro rfl
      simp [kill] at hq
    simp only [kill, update_of_ne hqp] at hq
    exact h.sleepers q chan hq

omit [DecidableEq P] in
lemma init_watched : Watched (init P) := ⟨init_locked, fun _ => trivial, fun _ _ hq => by cases hq⟩

/-- A killed writer that leaves bytes to a sleeping reader: it releases the lock and the reader sleeps on. -/
lemma quit_strands (h : Watched s) (hbad : ¬ Rousing s (.go p)) :
    ∃ s' q, run step s [.go p, .go p] = some s' ∧ s'.lock = none ∧ s'.asleep q = some .nread ∧ s'.nread ≠ s'.nwrite := by
  simp only [Rousing, Code.rousing] at hbad
  split at hbad
  next w i hk =>
    have hlock : s.lock = some p := (h.locked.lock p).mpr (by rw [hk]; rfl)
    simp only [not_forall] at hbad
    obtain ⟨hn, hkill, q, hq, hne⟩ := hbad
    have h1 : step s (.go p) = some (s.goto p (.wret w i (-1))) := by
      simp only [step, go, hk, wloop, if_pos hn, hkill, or_true, if_true]
    have h2 : step (s.goto p (.wret w i (-1))) (.go p) =
        some ({ s.goto p (.wret w i (-1)) with lock := none }.goto p .idle) := by
      simp only [step, go, State.goto, update_self, State.release, hlock, if_true]
    exact ⟨_, q, run_cons_eq_some.mpr ⟨_, h1, run_cons_eq_some.mpr ⟨_, h2, rfl⟩⟩, rfl, hq, hne⟩
  next => exact absurd trivial hbad

/-- **No reader or writer sleeps through its condition**: in a run in which no `pipewrite` that was
killed returns with a reader asleep and bytes in the pipe, whoever sleeps while the lock is free has to
wait.  After such a return the reader sleeps with bytes to read. -/
theorem sleepers_wait [∀ (s : State P) a, Decidable (Rousing s a)] {as : List (Act P)}
    (h : run (guarded Rousing step) (init P) as = some s) :
    (s.lock = none → (∀ q, s.asleep q = some .nread → s.nread = s.nwrite ∧ s.writeopen = true) ∧
      ∀ q, s.asleep q = some .nwrite → s.nwrite = s.nread + BitVec.ofNat 32 PIPESIZE ∧ s.readopen = true) ∧
    ∀ p, ¬ Rousing s (.go p) →
      ∃ s' q, run step s [.go p, .go p] = some s' ∧ s'.lock = none ∧ s'.asleep q = some .nread ∧ s'.nread ≠ s'.nwrite := by
  have hw : Watched s := by
    refine run_invariant (fun s a s' hs hw => ?_) h init_watched
    obtain ⟨hok, hs⟩ := guarded_eq_some.mp hs
    exact step_watched hs hok hw
  refine ⟨fun hl => ?_, fun p hbad => quit_strands hw hbad⟩
  have hfree : ∀ q chan, s.asleep q = some chan → s.waits chan := by
    intro q chan hq
    refine (hw.sleepers q chan hq).resolve_right ?_
    rintro ⟨o, ho, -⟩
    cases hl.symm.trans ho
  exact ⟨fun q hq => hfree q .nread hq, fun q hq => hfree q .nwrite hq⟩

end

/-- A write of the bytes 1, 2, 3, … -/
def count (n : ℤ) : Write := ⟨fun i => some (BitVec.ofNat 8 (i + 1)), n⟩

/-- A read into valid memory. -/
def fetch (n : ℤ) : Read := ⟨n, fun _ => true⟩

/-- Process 0 calls `piperead` on the empty pipe, up to its `sleep`. -/
def readRun (n : ℤ) : List (Act (Fin 2)) := .read 0 (fetch n) :: List.replicate 3 (.go 0)

theorem sleepers_wait_readRun : ∃ s, run (guarded Rousing step) (init (Fin 2)) (readRun 1) = some s ∧ s.lock = none ∧
    s.asleep 0 = some .nread ∧ s.nread = s.nwrite ∧ s.writeopen = true := by
  have hrun : ((run (guarded Rousing step) (init (Fin 2)) (readRun 1)).map fun s =>
      decide (s.lock = none ∧ s.asleep 0 = some .nread)) = some true := by decide +kernel
  obtain ⟨s, hs, hst⟩ := Option.map_eq_some_iff.mp hrun
  obtain ⟨hl, hq⟩ := of_decide_eq_true hst
  exact ⟨s, hs, hl, hq, ((sleepers_wait hs).1 hl).1 0 hq⟩

/-- Process 0 sleeps in `piperead`; process 1 writes a byte of two, is killed and returns -1. -/
def killRun : List (Act (Fin 2)) :=
  readRun 1 ++ [.write 1 (count 2), .go 1, .go 1, .kill 1, .go 1, .go 1]

/-- The reader sleeps with the lock free and a byte in the pipe. -/
theorem sleepers_wait_fails : ∃ s, run step (init (Fin 2)) killRun = some s ∧ s.lock = none ∧
    s.asleep 0 = some .nread ∧ s.nread ≠ s.nwrite := by
  have hrun : ((run step (init (Fin 2)) killRun).map fun s =>
      decide (s.lock = none ∧ s.asleep 0 = some .nread ∧ s.nread ≠ s.nwrite)) = some true := by decide +kernel
  obtain ⟨s, hs, hst⟩ := Option.map_eq_some_iff.mp hrun
  exact ⟨s, hs, of_decide_eq_true hst⟩

end Xv6.Pipe
