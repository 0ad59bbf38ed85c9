import Xv6.Pipe.Fifo

/-!
# What a read takes out of the pipe

`piperead` steps `nread` before it calls `copyout`.  A call in its copying loop holds the lock until it returns.
-/

namespace Xv6.Pipe

open Lib Function List Option

variable {P : Type} [DecidableEq P]

/-- The bytes that `p` took out. -/
def takenBy (p : P) (es : List (Event P)) : List Byte :=
  es.filterMap fun
    | .take q b => if q = p then some b else none
    | _ => none

variable {took : List Byte}

section

variable {s s' : State P} {es es' : List (Event P)} {p q : P} {a : Act P} {r : Read}

@[simp]
lemma takenBy_append : takenBy p (es ++ es') = takenBy p es ++ takenBy p es' := filterMap_append

lemma Locked.alone (hl : Locked s) (hp : (s.code p).critical = true) (hm : Move s q es s') : q = p := by
  have hlock := (hl.lock p).mpr hp
  have hinside : (s.code q).critical = true → q = p := by
    intro hq
    exact some.inj (((hl.lock q).mpr hq).symm.trans hlock)
  cases hm with
  | enter _ _ hfree => rw [hlock] at hfree; cases hfree
  | leave _ hq | doze _ hq => exact some.inj (hq.symm.trans hlock)
  | wake hk => exact hinside hk.critical.1
  | turn hk => exact hinside hk.critical.1
  | put hk | take hk | lose hk | shutWrite hk | shutRead hk => exact hinside (by rw [hk]; rfl)

/-- What others do while `p` is in a call. -/
lemma step_else (hl : Locked s) (hs : step s a = some s') (hp : s.code p ≠ .idle) (ha : a ≠ .go p) :
    s'.code p = s.code p ∧ takenBy p (emit s a) = [] ∧ ((s.code p).critical = true →
      s'.nread = s.nread ∧ s'.nwrite = s.nwrite ∧ s'.writeopen = s.writeopen) := by
  have hc := step_cases hs
  generalize emit s a = es at hc
  cases hc with
  | @move q _ _ hm =>
    have hq : q ≠ p := fun hq => ha (by rw [hq])
    refine ⟨?_, ?_, fun hcr => absurd (hl.alone hcr hm) hq⟩
    · cases hm <;> simp [State.goto, State.wakeup, State.put, Ne.symm hq]
    · cases hm with
      | leave hk _ =>
        generalize s.code q = k at hk
        cases hk <;> simp [takenBy]
      | take | lose => simp [takenBy, hq]
      | _ => simp [takenBy]
  | @call q _ k hidle hk =>
    have hq : p ≠ q := by
      rintro rfl
      exact hp hidle
    exact ⟨update_of_ne hq .., rfl, fun _ => ⟨rfl, rfl, rfl⟩⟩
  | kill => exact ⟨rfl, rfl, fun _ => ⟨rfl, rfl, rfl⟩⟩

/-! ### Before the copying loop -/

/-- A call of `piperead` that waits for the lock or for something to read. -/
inductive Waiting (r : Read) : Code → Prop
  | read : Waiting r (.read r)
  | rloop : Waiting r (.rloop r)
  | rsleep : Waiting r (.rsleep r)
  | rasleep : Waiting r (.rasleep r)

/-- The call begins to copy: the pipe is not empty, or the write end is closed. -/
def Begins (p : P) (r : Read) (t : State P) : Prop := t.code p = .rcopy r [] ∧ (t.nread = t.nwrite → t.writeopen = false)

lemma go_waiting (hs : go s p = some s') (hw : Waiting r (s.code p)) : takenBy p (emit s (.go p)) = [] ∧
    (Waiting r (s'.code p) ∨ Begins p r s' ∨ s'.code p = .rret r [] (-1)) := by
  unfold go at hs
  generalize hk : s.code p = k at hw hs
  cases hw with
  | read =>
    obtain ⟨-, hs⟩ := ite_none_right_eq_some.mp hs
    cases hs
    simp only [emit, hk, takenBy, filterMap_nil, State.goto, update_self]
    exact ⟨trivial, .inl .rloop⟩
  | rloop =>
    cases hs
    simp only [emit, hk, takenBy, filterMap_nil, rloop, true_and]
    by_cases he : s.nread = s.nwrite ∧ s.writeopen = true
    · rw [if_pos he]
      by_cases hkill : s.killed p = true
      · rw [if_pos hkill]
        exact .inr (.inr (update_self ..))
      · rw [if_neg hkill]
        simp only [State.goto, update_self]
        exact .inl .rsleep
    · rw [if_neg he]
      refine .inr (.inl ⟨update_self .., fun hempty => ?_⟩)
      exact Bool.eq_false_iff.mpr fun ho => he ⟨hempty, ho⟩
  | rsleep =>
    obtain ⟨-, hs⟩ := ite_none_right_eq_some.mp hs
    cases hs
    simp only [emit, hk, takenBy, filterMap_nil, State.goto, update_self]
    exact ⟨trivial, .inl .rasleep⟩
  | rasleep =>
    obtain ⟨-, hs⟩ := ite_none_right_eq_some.mp hs
    obtain ⟨-, hs⟩ := ite_none_right_eq_some.mp hs
    cases hs
    simp only [emit, hk, takenBy, filterMap_nil, State.goto, update_self]
    exact ⟨trivial, .inl .rloop⟩

lemma step_waiting (hl : Locked s) (hs : step s a = some s') (hw : Waiting r (s.code p)) : takenBy p (emit s a) = [] ∧
    (Waiting r (s'.code p) ∨ Begins p r s' ∨ s'.code p = .rret r [] (-1)) := by
  by_cases ha : a = .go p
  · subst ha
    exact go_waiting hs hw
  · obtain ⟨hcode, hnone, -⟩ := step_else hl hs (by rintro hk; rw [hk] at hw; cases hw) ha
    exact ⟨hnone, .inl (by rwa [hcode])⟩

/-- A call that is about to return stays so until it does. -/
lemma run_returning {as : List (Act P)} {got : List Byte} {v : ℤ} (hl : Locked s) (hrun : run step s as = some s')
    (hk : s.code p = .rret r got v) (hcall : ∀ r got v, .rret p r got v ∉ trace step emit s as) :
    s'.code p = .rret r got v := by
  induction as generalizing s with
  | nil =>
    cases hrun
    exact hk
  | cons a as ih =>
    obtain ⟨t, ht, hrun⟩ := run_cons_eq_some.mp hrun
    rw [trace, ht] at hcall
    have ha : a ≠ .go p := by
      rintro rfl
      exact hcall r got v (mem_append_left _ (by simp [emit, hk]))
    obtain ⟨hcode, -⟩ := step_else (p := p) hl ht (by simp [hk]) ha
    exact ih (step_locked ht hl) hrun (hcode.trans hk) fun r got v hm => hcall r got v (mem_append_right _ hm)

/-- A call that does not return -1 has begun to copy at some state of the run. -/
lemma run_begins {as : List (Act P)} {r' : Read} {got : List Byte} {v : ℤ} (hl : Locked s)
    (hrun : run step s as = some s') (hw : Waiting r (s.code p))
    (hcall : ∀ r got v, .rret p r got v ∉ trace step emit s as) (hret : s'.code p = .rret r' got v) (hv : 0 ≤ v) :
    ∃ as₁ as₂ t, as = as₁ ++ as₂ ∧ run step s as₁ = some t ∧ run step t as₂ = some s' ∧ Begins p r t ∧ Locked t ∧
      takenBy p (trace step emit s as) = takenBy p (trace step emit t as₂) ∧
      ∀ r got v, .rret p r got v ∉ trace step emit t as₂ := by
  induction as generalizing s with
  | nil =>
    cases hrun
    rw [hret] at hw
    cases hw
  | cons a as ih =>
    obtain ⟨t, ht, hrun⟩ := run_cons_eq_some.mp hrun
    obtain ⟨hnone, hcase⟩ := step_waiting hl ht hw
    have htrace : trace step emit s (a :: as) = emit s a ++ trace step emit t as := by rw [trace, ht]; rfl
    have hcall' : ∀ r got v, .rret p r got v ∉ trace step emit t as := fun r got v hm =>
      hcall r got v (by rw [htrace]; exact mem_append_right _ hm)
    have hsame : takenBy p (trace step emit s (a :: as)) = takenBy p (trace step emit t as) := by
      rw [htrace, takenBy_append, hnone, nil_append]
    have hlt := step_locked ht hl
    obtain hw' | hbegin | hdead := hcase
    · obtain ⟨as₁, as₂, u, rfl, h₁, h₂, hbegin, hlu, htook, hno⟩ := ih hlt hrun hw' hcall'
      exact ⟨a :: as₁, as₂, u, rfl, run_cons_eq_some.mpr ⟨t, ht, h₁⟩, h₂, hbegin, hlu, hsame.trans htook, hno⟩
    · exact ⟨[a], as, t, rfl, run_cons_eq_some.mpr ⟨t, ht, rfl⟩, hrun, hbegin, hlt, hsame, hcall'⟩
    · have hend := run_returning hlt hrun hdead hcall'
      rw [hret] at hend
      cases hend
      exact absurd hv (by decide)

/-! ### The copying loop -/

/-- How a call that began to copy in state `t` has left its copying loop: with all that it took, or with one byte
lost. -/
inductive Copied (t s : State P) (r : Read) (got took : List Byte) : Prop
  | all : took = got → got.length = min r.n.toNat t.ring.length → (∀ i < got.length, r.ok i = true) →
      s.ring.length + got.length = t.ring.length → s.writeopen = t.writeopen → Copied t s r got took
  | lost (b : Byte) : took = got ++ [b] → got.length < min r.n.toNat t.ring.length → r.ok got.length = false →
      Copied t s r got took

/-- Where a call stands that began to copy in state `t` and has taken `took` out. -/
def InCopy (t s : State P) (r : Read) (took : List Byte) : Code → Prop
  | .rcopy r' got => r' = r ∧ took = got ∧ got.length ≤ r.n.toNat ∧ (∀ i < got.length, r.ok i = true) ∧
      s.ring.length + got.length = t.ring.length ∧ s.writeopen = t.writeopen
  | .rend r' got => r' = r ∧ Copied t s r got took
  | .rret r' got v => r' = r ∧ v = got.length ∧ Copied t s r got took
  | _ => False

variable {t : State P}

omit [DecidableEq P] in
lemma ring_length (s : State P) : s.ring.length = (s.nwrite - s.nread).toNat := Ring.length_contents ..

omit [DecidableEq P] in
lemma Copied.congr {got : List Byte} (h : Copied t s r got took) (hring : s'.ring.length = s.ring.length)
    (ho : s'.writeopen = s.writeopen) : Copied t s' r got took := by
  cases h with
  | all ht hlen hok hr hw => exact .all ht hlen hok (by rwa [hring]) (ho.trans hw)
  | lost b ht hlt hno => exact .lost b ht hlt hno

omit [DecidableEq P] in
lemma InCopy.critical (h : InCopy t s r took k) : k.critical = true := by
  cases k with
  | rcopy | rend | rret => rfl
  | _ => exact h.elim

omit [DecidableEq P] in
lemma InCopy.congr (h : InCopy t s r took k) (hring : s'.ring.length = s.ring.length)
    (ho : s'.writeopen = s.writeopen) : InCopy t s' r took k := by
  cases k with
  | rcopy r' got =>
    obtain ⟨hr, ht, hle, hok, hlen, hw⟩ := h
    exact ⟨hr, ht, hle, hok, by rwa [hring], ho.trans hw⟩
  | rend r' got => exact ⟨h.1, h.2.congr hring ho⟩
  | rret r' got v => exact ⟨h.1, h.2.1, h.2.2.congr hring ho⟩
  | _ => exact h.elim

omit [DecidableEq P] in
lemma ring_tail (hne : s.nread ≠ s.nwrite) (hr : s'.nread = s.nread + 1) (hw : s'.nwrite = s.nwrite) :
    s'.ring.length + 1 = s.ring.length := by
  rw [ring_length, hr, hw, State.ring, Ring.contents_pop _ _ _ hne, length_cons, Ring.length_contents]

lemma rcopy_inCopy {got : List Byte} (hk : s.code p = .rcopy r got) (h : InCopy t s r took (.rcopy r got)) :
    InCopy t (rcopy s p r got) r (took ++ takenBy p (emit s (.go p))) ((rcopy s p r got).code p) := by
  obtain ⟨-, rfl, hle, hok, hlen, hw⟩ := h
  simp only [emit, hk, rcopy]
  by_cases hn : (took.length : ℤ) < r.n ∧ s.nread ≠ s.nwrite
  · rw [if_pos hn, if_pos hn]
    cases hb : r.ok took.length with
    | true =>
      simp only [if_true, State.goto, update_self]
      refine ⟨rfl, by simp [takenBy], ?_, fun i hi => ?_, ?_, hw⟩
      · rw [length_append, length_singleton]
        omega
      · rw [length_append, length_singleton] at hi
        obtain hi | rfl := Nat.lt_succ_iff_lt_or_eq.mp hi
        · exact hok i hi
        · exact hb
      · have htail : (rcopy s p r took).ring.length + 1 = s.ring.length :=
          ring_tail hn.2 (by simp [rcopy, hn, hb, State.goto]) (by simp [rcopy, hn, hb, State.goto])
        simp only [rcopy, if_pos hn, hb, if_true, State.goto] at htail
        rw [length_append, length_singleton]
        omega
    | false =>
      simp only [Bool.false_eq_true, if_false, State.goto, update_self]
      refine ⟨rfl, .lost s.head (by simp [takenBy]) ?_ hb⟩
      have hpos : 0 < s.ring.length := by
        rw [State.ring, Ring.contents_pop _ _ _ hn.2, length_cons]
        exact Nat.succ_pos _
      omega
  · rw [if_neg hn, if_neg hn]
    simp only [State.goto, update_self]
    refine ⟨rfl, .all (by simp [takenBy]) ?_ hok hlen hw⟩
    by_cases hempty : s.nread = s.nwrite
    · have h0 : s.ring.length = 0 := by
        rw [State.ring, hempty, Ring.contents_self]
        rfl
      omega
    · have hge : ¬ (took.length : ℤ) < r.n := fun hlt => hn ⟨hlt, hempty⟩
      omega

lemma go_inCopy (hs : go s p = some s') (h : InCopy t s r took (s.code p))
    (hret : ∀ r' got v, s.code p ≠ .rret r' got v) :
    InCopy t s' r (took ++ takenBy p (emit s (.go p))) (s'.code p) := by
  unfold go at hs
  cases hk : s.code p with
  | rcopy r' got =>
    rw [hk] at hs h
    obtain rfl := h.1
    cases hs
    exact rcopy_inCopy hk h
  | rend r' got =>
    rw [hk] at hs h
    cases hs
    simp only [emit, hk, takenBy, filterMap_nil, append_nil, State.goto, State.wakeup, update_self]
    exact ⟨h.1, rfl, h.2.congr rfl rfl⟩
  | rret r' got v => exact absurd hk (hret r' got v)
  | _ =>
    rw [hk] at h
    exact h.elim

lemma step_inCopy (hl : Locked s) (hs : step s a = some s') (h : InCopy t s r took (s.code p))
    (hret : ∀ r' got v, .rret p r' got v ∉ emit s a) : InCopy t s' r (took ++ takenBy p (emit s a)) (s'.code p) := by
  by_cases ha : a = .go p
  · subst ha
    refine go_inCopy hs h fun r' got v hk => hret r' got v ?_
    simp [emit, hk]
  · obtain ⟨hcode, hnone, hsame⟩ := step_else hl hs (by rintro hk; rw [hk] at h; exact h) ha
    obtain ⟨hr, hw, ho⟩ := hsame h.critical
    rw [hcode, hnone, append_nil]
    exact h.congr (by rw [ring_length, ring_length, hr, hw]) ho

/-- The whole copying loop, up to the return. -/
lemma run_inCopy {as : List (Act P)} (hl : Locked t) (hb : Begins p r t) (hrun : run step t as = some s')
    (hcall : ∀ r got v, .rret p r got v ∉ trace step emit t as) :
    InCopy t s' r (takenBy p (trace step emit t as)) (s'.code p) := by
  let I : State P → List (Event P) → Prop := fun s es => Locked s ∧
    ((∀ r got v, .rret p r got v ∉ es) → InCopy t s r (takenBy p es) (s.code p))
  have hstep : ∀ s es a s', True → step s a = some s' → I s es → I s' (es ++ emit s a) := by
    rintro s es a s' - hs ⟨hl, h⟩
    refine ⟨step_locked hs hl, fun hno => ?_⟩
    rw [takenBy_append]
    refine step_inCopy hl hs (h fun r got v hm => hno r got v (mem_append_left _ hm)) fun r got v hm => ?_
    exact hno r got v (mem_append_right _ hm)
  have hstart : I t [] := by
    refine ⟨hl, fun _ => ?_⟩
    rw [hb.1]
    exact ⟨rfl, rfl, Nat.zero_le _, fun i hi => absurd hi (Nat.not_lt_zero i), rfl, rfl⟩
  exact (run_trace_invariant (I := I) hstep hrun (fun _ _ => trivial) hstart).2 hcall

lemma step_nread (hs : step s a = some s') : s'.nread = s.nread + BitVec.ofNat 32 (taken (emit s a)).length := by
  have hc := step_cases hs
  generalize emit s a = es' at hc
  cases hc with
  | move hm =>
    cases hm with
    | leave hk _ =>
      generalize s.code _ = k at hk
      cases hk <;> simp [taken, State.goto]
    | _ => simp [taken, State.goto, State.wakeup, State.put]
  | call => simp [taken, State.goto]
  | kill => simp [taken, kill]

end

section

variable {s s' : State P} {p : P} {r r' : Read} {got : List Byte} {v : ℤ}

/-- A call of `piperead` that took `took` out and returns `v` with `got` copied out has consumed what it delivers. -/
def Consumed (s' : State P) (r : Read) (took got : List Byte) (v : ℤ) : Prop :=
  took = got ∧ (took.length : ℤ) = v ∧ (v = 0 → 0 < r.n → s'.ring = [] ∧ s'.writeopen = false)

/-- **A read consumes what it delivers, as long as `copyout` succeeds.**  In every run from the call of `piperead` to
its return with a value that is not negative there is a state `t` in which the call begins to copy.  It consumes what
it delivers exactly if the destination of each byte that is asked for and unread in `t` is mapped, and otherwise one
byte more. -/
theorem piperead_consumes {as : List (Act P)} (hl : Locked s) (hk : s.code p = .read r) (hrun : run step s as = some s')
    (hcall : ∀ r got v, .rret p r got v ∉ trace step emit s as) (hret : s'.code p = .rret r' got v) (hv : 0 ≤ v) :
    s'.nread = s.nread + BitVec.ofNat 32 (taken (trace step emit s as)).length ∧
    ∃ as₁ as₂ t, as = as₁ ++ as₂ ∧ run step s as₁ = some t ∧ run step t as₂ = some s' ∧ t.code p = .rcopy r [] ∧
      (Consumed s' r (takenBy p (trace step emit s as)) got v ↔ ∀ i < min r.n.toNat t.ring.length, r.ok i = true) ∧
      ((∃ i < min r.n.toNat t.ring.length, r.ok i = false) →
        ((takenBy p (trace step emit s as)).length : ℤ) = v + 1) := by
  have hn : s'.nread = s.nread + BitVec.ofNat 32 (taken (trace step emit s as)).length := by
    have hstart : s.nread = s.nread + BitVec.ofNat 32 (taken (P := P) []).length := by simp [taken]
    refine run_trace_invariant (I := fun t es => t.nread = s.nread + BitVec.ofNat 32 (taken es).length) ?_ hrun
      (fun _ _ => trivial) hstart
    rintro t es a t' - hs hn
    rw [step_nread hs, hn, taken_append, length_append, BitVec.ofNat_add, BitVec.add_assoc]
  obtain ⟨as₁, as₂, t, has, h₁, h₂, hb, hlt, htook, hno⟩ := run_begins hl hrun (by rw [hk]; exact .read) hcall hret hv
  refine ⟨hn, as₁, as₂, t, has, h₁, h₂, hb.1, ?_⟩
  have h := run_inCopy hlt hb h₂ hno
  rw [htook]
  rw [hret] at h
  generalize takenBy p (trace step emit t as₂) = took at h ⊢
  obtain ⟨-, rfl, ⟨rfl, hlen, hok, hring, hopen⟩ | ⟨b, rfl, hlt, hbad⟩⟩ := h
  · rw [hlen] at hok
    refine ⟨iff_of_true ⟨rfl, rfl, fun h0 hpos => ?_⟩ hok, fun hex => ?_⟩
    · have hempty : t.ring.length = 0 := by omega
      have hrw : t.nread = t.nwrite := by
        by_contra hne
        rw [State.ring, Ring.contents_pop _ _ _ hne] at hempty
        cases hempty
      exact ⟨length_eq_zero_iff.mp (by omega), hopen.trans (hb.2 hrw)⟩
    · obtain ⟨i, hi, hbad⟩ := hex
      rw [hok i hi] at hbad
      cases hbad
  · rw [length_append, length_singleton]
    refine ⟨iff_of_false (fun hc => ?_) fun hall => ?_, fun _ => by push_cast; rfl⟩
    · have := congrArg length hc.1
      simp at this
    · rw [hall _ hlt] at hbad
      cases hbad

end

/-- Process 1 has written three bytes, and process 0 calls `piperead` for two. -/
def filledRun : List (Act (Fin 2)) :=
  [.write 1 (count 3)] ++ List.replicate 7 (.go 1) ++ [.read 0 (fetch 2)]

/-- What the two codes and the events of that call are. -/
def filled (k k' : Code) (es : List (Event (Fin 2))) : Bool :=
  (match k with | .read r => decide (r.n = 2) && r.ok 0 && r.ok 1 | _ => false) &&
    (match k' with | .rret _ got v => decide (v = 2 ∧ got = [1, 2]) | _ => false) && decide (takenBy 0 es = [1, 2]) &&
    es.all fun | .rret _ _ _ _ => false | _ => true

theorem piperead_consumes_filledRun : ∃ s s' r r' got, run step (init (Fin 2)) filledRun = some s ∧ s.code 0 = .read r ∧
    r.n = 2 ∧ run step s (List.replicate 6 (.go 0)) = some s' ∧ s'.code 0 = .rret r' got 2 ∧ got = [1, 2] ∧
    takenBy 0 (trace step emit s (List.replicate 6 (.go 0))) = got := by
  have hboth : ((run step (init (Fin 2)) filledRun).bind fun s => (run step s (List.replicate 6 (.go 0))).map fun s' =>
      filled (s.code 0) (s'.code 0) (trace step emit s (List.replicate 6 (.go 0)))) = some true := by
    decide +kernel
  obtain ⟨s, hs, hrest⟩ := bind_eq_some_iff.mp hboth
  obtain ⟨s', hs', hrest⟩ := map_eq_some_iff.mp hrest
  simp only [filled, Bool.and_eq_true] at hrest
  obtain ⟨⟨⟨hread, hret⟩, -⟩, hno⟩ := hrest
  have hl : Locked s := run_invariant (fun _ _ _ hs h => step_locked hs h) hs init_locked
  split at hret
  next r got v hk' =>
    obtain ⟨rfl, rfl⟩ := of_decide_eq_true hret
    split at hread
    next r₀ hk =>
      simp only [Bool.and_eq_true] at hread
      have hn : r₀.n = 2 := of_decide_eq_true hread.1.1
      refine ⟨s, s', r₀, r, _, hs, hk, hn, hs', hk', rfl, ?_⟩
      obtain ⟨-, _, _, t, -, -, -, -, hiff, -⟩ := piperead_consumes hl hk hs' (fun r got v hm => by
        cases all_eq_true.mp hno _ hm) hk' (by decide)
      refine (hiff.mpr fun i hi => ?_).1
      rw [hn] at hi
      obtain rfl | rfl : i = 0 ∨ i = 1 := by omega
      · exact hread.1.2
      · exact hread.2
    next => cases hread
  next => cases hret

/-- Process 1 has written a byte, and process 0 reads it to an address where `copyout` fails. -/
def unmappedRun : List (Act (Fin 2)) :=
  [.write 1 (count 1)] ++ List.replicate 5 (.go 1) ++ [.read 0 ⟨1, fun _ => false⟩] ++ List.replicate 4 (.go 0)

/-- The read returns 0 with the write end open, and the byte is gone. -/
theorem piperead_loses : ∃ s r, run step (init (Fin 2)) unmappedRun = some s ∧ s.code 0 = .rret r [] 0 ∧ 0 < r.n ∧
    s.nread = 1 ∧ s.ring = [] ∧ s.writeopen = true := by
  have hrun : ((run step (init (Fin 2)) unmappedRun).map fun s =>
      (match s.code 0 with | .rret r got v => decide (got = [] ∧ v = 0 ∧ 0 < r.n) | _ => false) &&
        decide (s.nread = 1 ∧ s.ring = [] ∧ s.writeopen = true)) = some true := by
    decide +kernel
  obtain ⟨s, hs, hst⟩ := map_eq_some_iff.mp hrun
  rw [Bool.and_eq_true] at hst
  obtain ⟨hret, hst⟩ := hst
  split at hret
  next r got v hk =>
    obtain ⟨rfl, rfl, hn⟩ := of_decide_eq_true hret
    exact ⟨s, r, hs, hk, hn, of_decide_eq_true hst⟩
  next => cases hret

end Xv6.Pipe
