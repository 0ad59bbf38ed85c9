import Xv6.Pipe.Model

/-!
# The kinds of steps on a pipe

`step_cases` says once what a step can do; every invariant of the pipe is proved by its cases.
-/

namespace Xv6.Pipe

open Lib Function

/-- Between `acquire(&pi->lock)` and `release(&pi->lock)`. -/
def Code.critical : Code → Bool
  | .idle | .write _ | .wasleep _ _ | .read _ | .rasleep _ | .close _ => false
  | _ => true

/-- The channel of the call of `sleep` that the process is in. -/
def Code.chan : Code → Option Chan
  | .wasleep _ _ => some .nwrite
  | .rasleep _ => some .nread
  | _ => none

/-- The first step of a call, and the last one of `sleep`. -/
inductive Enter : Code → Code → Prop
  | write (w : Write) : Enter (.write w) (.wloop w 0)
  | wback (w : Write) (i : ℕ) : Enter (.wasleep w i) (.wloop w i)
  | read (r : Read) : Enter (.read r) (.rloop r)
  | rback (r : Read) : Enter (.rasleep r) (.rloop r)
  | close (writable : Bool) : Enter (.close writable) (.cset writable)

inductive Doze : Code → Chan → Code → Prop
  | write (w : Write) (i : ℕ) : Doze (.wsleep w i) .nwrite (.wasleep w i)
  | read (r : Read) : Doze (.rsleep r) .nread (.rasleep r)

inductive Wake : Code → Chan → Code → Prop
  | wfull (w : Write) (i : ℕ) : Wake (.wfull w i) .nread (.wsleep w i)
  | wend (w : Write) (i : ℕ) : Wake (.wend w i) .nread (.wret w i i)
  | rend (r : Read) (got : List Byte) : Wake (.rend r got) .nwrite (.rret r got got.length)
  | writer : Wake (.cwake true) .nread .crel
  | reader : Wake (.cwake false) .nwrite .crel

/-- The last step of a call, and what it shows. -/
inductive Leave {P : Type} (p : P) : Code → List (Event P) → Prop
  | write (w : Write) (i : ℕ) (v : ℤ) : Leave p (.wret w i v) [.wret p w i v]
  | read (r : Read) (got : List Byte) (v : ℤ) : Leave p (.rret r got v) [.rret p r got v]
  | close : Leave p .crel []

inductive Entry {P : Type} (p : P) : Act P → Code → Prop
  | write (w : Write) : Entry p (.write p w) (.write w)
  | read (r : Read) : Entry p (.read p r) (.read r)
  | close (writable : Bool) : Entry p (.close p writable) (.close writable)

section

variable {P : Type}

/-- A branch taken by the holder of the lock that changes nothing else. -/
inductive Turn (s : State P) (p : P) : Code → Code → Prop
  | wquit (w : Write) (i : ℕ) : (i : ℤ) < w.n → s.readopen = false ∨ s.killed p = true →
      Turn s p (.wloop w i) (.wret w i (-1))
  | wfull (w : Write) (i : ℕ) : s.readopen = true → s.full → Turn s p (.wloop w i) (.wfull w i)
  | wend (w : Write) (i : ℕ) : ((i : ℤ) < w.n → s.readopen = true) → Turn s p (.wloop w i) (.wend w i)
  | rquit (r : Read) : Turn s p (.rloop r) (.rret r [] (-1))
  | rsleep (r : Read) : s.nread = s.nwrite → s.writeopen = true → Turn s p (.rloop r) (.rsleep r)
  | rcopy (r : Read) : (s.nread = s.nwrite → s.writeopen = false) → Turn s p (.rloop r) (.rcopy r [])
  | rend (r : Read) (got : List Byte) : ((got.length : ℤ) < r.n → s.nread = s.nwrite) →
      Turn s p (.rcopy r got) (.rend r got)

variable [DecidableEq P]

/-- A step of process `p`, with what it shows. -/
inductive Move (s : State P) (p : P) : List (Event P) → State P → Prop
  | enter : Enter (s.code p) k → (s.code p).chan = none ∨ s.asleep p = none → s.lock = none →
      Move s p [] ({ s with lock := some p }.goto p k)
  | leave : Leave p (s.code p) es → s.lock = some p → Move s p es ({ s with lock := none }.goto p .idle)
  | doze : Doze (s.code p) chan k → s.lock = some p →
      Move s p [] ({ s with asleep := update s.asleep p (some chan), lock := none }.goto p k)
  | wake : Wake (s.code p) chan k → Move s p [] ((s.wakeup chan).goto p k)
  | turn : Turn s p (s.code p) k → Move s p [] (s.goto p k)
  | put : s.code p = .wloop w i → s.readopen = true → ¬ s.full →
      w.src i = some b → Move s p [.append p b] ((s.put b).goto p (.wloop w (i + 1)))
  | take : s.code p = .rcopy r got → s.nread ≠ s.nwrite →
      Move s p [.take p s.head] ({ s with nread := s.nread + 1 }.goto p (.rcopy r (got ++ [s.head])))
  /-- `copyout` fails: the byte is lost. -/
  | lose : s.code p = .rcopy r got → s.nread ≠ s.nwrite → (got.length : ℤ) < r.n → r.ok got.length = false →
      Move s p [.take p s.head] ({ s with nread := s.nread + 1 }.goto p (.rend r got))
  | shutWrite : s.code p = .cset true → Move s p [] ({ s with writeopen := false }.goto p (.cwake true))
  | shutRead : s.code p = .cset false → Move s p [] ({ s with readopen := false }.goto p (.cwake false))

variable {s s' : State P} {p : P} {es : List (Event P)} {a : Act P}

lemma acquire_move (hk : Enter (s.code p) k) (hs : (s.code p).chan = none ∨ s.asleep p = none)
    (h : s.acquire p k = some s') : Move s p [] s' := by
  obtain ⟨hl, h⟩ := Option.ite_none_right_eq_some.mp h
  cases h
  exact .enter hk hs hl

lemma release_move (hk : Leave p (s.code p) es) (h : s.release p .idle = some s') : Move s p es s' := by
  obtain ⟨hl, h⟩ := Option.ite_none_right_eq_some.mp h
  cases h
  exact .leave hk hl

lemma sleep_move {chan : Chan} (hk : Doze (s.code p) chan k) (h : s.sleep p chan k = some s') :
    Move s p [] s' := by
  obtain ⟨hl, h⟩ := Option.ite_none_right_eq_some.mp h
  cases h
  exact .doze hk hl

lemma resume_move (hk : Enter (s.code p) k) (h : s.resume p k = some s') : Move s p [] s' := by
  obtain ⟨hs, h⟩ := Option.ite_none_right_eq_some.mp h
  exact acquire_move hk (.inr hs) h

lemma wloop_move (hk : s.code p = .wloop w i) : Move s p (emit s (.go p)) (wloop s p w i) := by
  have hturn : ∀ {k}, Turn s p (.wloop w i) k → Move s p [] (s.goto p k) := fun h => .turn (hk ▸ h)
  simp only [emit, hk, wloop]
  by_cases hn : (i : ℤ) < w.n
  · by_cases hq : s.readopen = false ∨ s.killed p = true
    · rw [if_neg (by grind), if_pos hn, if_pos hq]
      exact hturn (.wquit w i hn hq)
    · have ho : s.readopen = true ∧ s.killed p = false := by grind
      rw [if_pos hn, if_neg hq]
      by_cases hf : s.full
      · rw [if_neg (by grind), if_pos hf]
        exact hturn (.wfull w i ho.1 hf)
      · rw [if_pos ⟨hn, ho.1, ho.2, hf⟩, if_neg hf]
        cases hb : w.src i with
        | none => exact hturn (.wend w i fun _ => ho.1)
        | some b => exact .put hk ho.1 hf hb
  · rw [if_neg (by grind), if_neg hn]
    exact hturn (.wend w i fun h => absurd h hn)

lemma rloop_move (hk : s.code p = .rloop r) : Move s p [] (rloop s p r) := by
  have hturn : ∀ {k}, Turn s p (.rloop r) k → Move s p [] (s.goto p k) := fun h => .turn (hk ▸ h)
  unfold rloop
  split
  next he =>
    split
    · exact hturn (.rquit r)
    · exact hturn (.rsleep r he.1 he.2)
  next he => exact hturn (.rcopy r (by grind))

lemma rcopy_move {got : List Byte} (hk : s.code p = .rcopy r got) :
    Move s p (emit s (.go p)) (rcopy s p r got) := by
  simp only [emit, hk, rcopy]
  by_cases hn : (got.length : ℤ) < r.n ∧ s.nread ≠ s.nwrite
  · rw [if_pos hn, if_pos hn]
    cases ho : r.ok got.length with
    | true => exact .take hk hn.2
    | false => exact .lose hk hn.2 hn.1 ho
  · rw [if_neg hn, if_neg hn]
    have ht : Turn s p (s.code p) (.rend r got) := hk ▸ .rend r got (by grind)
    exact .turn ht

lemma go_move (h : go s p = some s') : Move s p (emit s (.go p)) s' := by
  unfold go at h
  split at h
  case h_1 => cases h
  case h_2 w hk =>
    simp only [emit, hk]
    exact acquire_move (hk ▸ .write w) (by simp [hk, Code.chan]) h
  case h_3 w i hk => cases h; exact wloop_move hk
  case h_4 w i hk =>
    cases h
    simp only [emit, hk]
    exact .wake (hk ▸ .wfull w i)
  case h_5 w i hk => simp only [emit, hk]; exact sleep_move (hk ▸ .write w i) h
  case h_6 w i hk => simp only [emit, hk]; exact resume_move (hk ▸ .wback w i) h
  case h_7 w i hk =>
    cases h
    simp only [emit, hk]
    exact .wake (hk ▸ .wend w i)
  case h_8 w i v hk => simp only [emit, hk]; exact release_move (hk ▸ .write w i v) h
  case h_9 r hk =>
    simp only [emit, hk]
    exact acquire_move (hk ▸ .read r) (by simp [hk, Code.chan]) h
  case h_10 r hk =>
    cases h
    simp only [emit, hk]
    exact rloop_move hk
  case h_11 r hk => simp only [emit, hk]; exact sleep_move (hk ▸ .read r) h
  case h_12 r hk => simp only [emit, hk]; exact resume_move (hk ▸ .rback r) h
  case h_13 r got hk => cases h; exact rcopy_move hk
  case h_14 r got hk =>
    cases h
    simp only [emit, hk]
    exact .wake (hk ▸ .rend r got)
  case h_15 r got v hk => simp only [emit, hk]; exact release_move (hk ▸ .read r got v) h
  case h_16 b hk =>
    simp only [emit, hk]
    exact acquire_move (hk ▸ .close b) (by simp [hk, Code.chan]) h
  case h_17 hk => cases h; simp only [emit, hk]; exact .shutWrite hk
  case h_18 hk => cases h; simp only [emit, hk]; exact .shutRead hk
  case h_19 hk => cases h; simp only [emit, hk]; exact .wake (hk ▸ .writer)
  case h_20 hk => cases h; simp only [emit, hk]; exact .wake (hk ▸ .reader)
  case h_21 hk => simp only [emit, hk]; exact release_move (hk ▸ .close) h

/-- **What a step can do.** -/
inductive Cases (s : State P) : Act P → List (Event P) → State P → Prop
  | move {p : P} {es : List (Event P)} {s' : State P} : Move s p es s' → Cases s (.go p) es s'
  | call {p : P} {a : Act P} {k : Code} : s.code p = .idle → Entry p a k → Cases s a [] (s.goto p k)
  | kill {p : P} : Cases s (.kill p) [] (kill s p)

lemma call_cases (hk : Entry p a k) (h : call s p k = some s') : Cases s a [] s' := by
  unfold call at h
  split at h
  · cases h
    exact .call ‹_› hk
  · cases h

lemma step_cases (h : step s a = some s') : Cases s a (emit s a) s' := by
  cases a with
  | go p => exact .move (go_move h)
  | write p w => exact call_cases (.write w) h
  | read p r => exact call_cases (.read r) h
  | close p b => exact call_cases (.close b) h
  | kill p =>
    cases h
    exact .kill

/-! ### The lock -/

/-- The lock is held by the process that is inside, and a process that sleeps is in `sleep`. -/
structure Locked (s : State P) : Prop where
  lock : ∀ p, s.lock = some p ↔ (s.code p).critical = true
  asleep : ∀ p chan, s.asleep p = some chan → (s.code p).chan = some chan

section

variable {s : State P} {p : P} {k : Code}

omit [DecidableEq P] in
lemma Code.chan_of_critical (h : k.critical = true) : k.chan = none := by
  cases k <;> first | rfl | cases h

omit [DecidableEq P] in
lemma Turn.critical (h : Turn s p (s.code p) k) : (s.code p).critical = true ∧ k.critical = true := by
  generalize s.code p = k0 at h
  cases h <;> exact ⟨rfl, rfl⟩

lemma Wake.critical {chan : Chan} (h : Wake k0 chan k) : k0.critical = true ∧ k.critical = true := by
  cases h <;> exact ⟨rfl, rfl⟩

lemma Locked.inside (h : Locked s) (hp : (s.code p).critical = true) (hk : k.critical = true) (hl : s'.lock = s.lock)
    (hc : s'.code = update s.code p k) (ha : ∀ q chan, s'.asleep q = some chan → s.asleep q = some chan) :
    Locked s' := by
  have hown := (h.lock p).mpr hp
  refine ⟨fun q => ?_, fun q chan hq => ?_⟩
  · rw [hl, hc]
    by_cases hqp : q = p
    · subst hqp
      simp [hown, hk]
    · rw [update_of_ne hqp]
      exact h.lock q
  · have hq' := h.asleep q chan (ha q chan hq)
    have hqp : q ≠ p := by
      rintro rfl
      rw [Code.chan_of_critical hp] at hq'
      cases hq'
    rwa [hc, update_of_ne hqp]

lemma Move.locked (hm : Move s p es s') (h : Locked s) : Locked s' := by
  -- a step that takes or gives up the lock
  have hedge : ∀ {s' : State P} {k : Code}, s'.code = update s.code p k →
      (s'.lock = some p ∧ s.lock = none ∧ k.critical = true ∨ s'.lock = none ∧ s.lock = some p ∧ k.critical = false) →
      (∀ chan, s'.asleep p = some chan → k.chan = some chan) → (∀ q, q ≠ p → s'.asleep q = s.asleep q) → Locked s' := by
    intro s' k hc hl ha ho
    refine ⟨fun q => ?_, fun q chan hq => ?_⟩
    · have hq := h.lock q
      rw [hc]
      by_cases hqp : q = p
      · subst hqp
        grind
      · rw [update_of_ne hqp, ← hq]
        grind
    · rw [hc]
      by_cases hqp : q = p
      · subst hqp
        rw [update_self]
        exact ha chan hq
      · rw [update_of_ne hqp]
        exact h.asleep q chan (ho q hqp ▸ hq)
  have hawake : (s.code p).chan = none → ∀ chan, s.asleep p ≠ some chan := by
    intro hn chan hs
    rw [h.asleep p chan hs] at hn
    cases hn
  cases hm with
  | @enter k hk hs hl =>
    have hcrit : k.critical = true := by
      generalize s.code p = k0 at hk
      cases hk <;> rfl
    refine hedge rfl (.inl ⟨rfl, hl, hcrit⟩) (fun chan hp => ?_) fun q _ => rfl
    obtain hs | hs := hs
    · exact absurd hp (hawake hs chan)
    · cases hs.symm.trans hp
  | leave hk hl =>
    have hcrit := (h.lock p).mp hl
    exact hedge rfl (.inr ⟨rfl, hl, rfl⟩) (fun chan hp => absurd hp (hawake (Code.chan_of_critical hcrit) chan)) fun q _ => rfl
  | @doze chan k hk hl =>
    have hcrit : k.critical = false ∧ k.chan = some chan := by
      generalize s.code p = k0 at hk
      cases hk <;> exact ⟨rfl, rfl⟩
    refine hedge rfl (.inr ⟨rfl, hl, hcrit.1⟩) (fun chan' hp => ?_) fun q hq => update_of_ne hq _ _
    simp only [State.goto, update_self] at hp
    rw [← hp]
    exact hcrit.2
  | wake hk =>
    refine h.inside hk.critical.1 hk.critical.2 rfl rfl fun q chan hq => ?_
    simp only [State.goto, State.wakeup] at hq
    split at hq
    · cases hq
    · exact hq
  | turn hk => exact h.inside hk.critical.1 hk.critical.2 rfl rfl fun _ _ hq => hq
  | put hk | take hk | lose hk | shutWrite hk | shutRead hk => exact h.inside (by rw [hk]; rfl) rfl rfl rfl fun _ _ hq => hq

lemma step_locked (hs : step s a = some s') (h : Locked s) : Locked s' := by
  have hc := step_cases hs
  generalize emit s a = es at hc
  cases hc with
  | move hm => exact hm.locked h
  | @call p a k hp hk =>
    have hcrit : k.critical = false := by cases hk <;> rfl
    have hown := h.lock p
    refine ⟨fun q => ?_, fun q chan hq => ?_⟩
    · by_cases hqp : q = p
      · subst hqp
        have hidle : (s.code q).critical = false := by rw [hp]; rfl
        simp [State.goto, hown, hidle, hcrit]
      · simp only [State.goto, update_of_ne hqp]
        exact h.lock q
    · have hq' := h.asleep q chan hq
      have hqp : q ≠ p := by
        rintro rfl
        rw [hp] at hq'
        cases hq'
      simpa only [State.goto, update_of_ne hqp] using hq'
  | @kill p =>
    refine ⟨h.lock, fun q chan hq => h.asleep q chan ?_⟩
    simp only [kill] at hq
    by_cases hqp : q = p
    · subst hqp
      simp at hq
    · rwa [update_of_ne hqp] at hq

omit [DecidableEq P] in
lemma init_locked : Locked (init P) := by constructor <;> simp [init, Code.critical]

end

end

end Xv6.Pipe
