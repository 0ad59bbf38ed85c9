import Xv6.Pipe.Wakeups

/-!
# A pipe is a bounded queue

Bytes are taken out by the holder of the lock, who returns them before it releases the lock, so that
reads return them in order.  A writer lets go of the lock while it sleeps, but keeps its counter.
-/

namespace Xv6.Pipe

open Lib Function List

variable {P : Type}

/-! ### What the runs show -/

/-- The first `i` bytes of a write. -/
def Write.sent (w : Write) (i : ℕ) : List Byte := (List.range i).filterMap w.src

/-- `copyout` succeeds. -/
def Read.Valid (r : Read) : Prop := ∀ i : ℕ, (i : ℤ) < r.n → r.ok i = true

def Act.Valid : Act P → Prop
  | .read _ r => r.Valid
  | _ => True

/-- The bytes of the call of `pipewrite` that a process is in. -/
def Code.sent : Code → List Byte
  | .wloop w i | .wfull w i | .wsleep w i | .wasleep w i | .wend w i | .wret w i _ => w.sent i
  | _ => []

/-- The bytes that the call of `piperead` has taken out. -/
def Code.got : Code → List Byte
  | .rcopy _ got | .rend _ got | .rret _ got _ => got
  | _ => []

/-- The bytes taken out by the read that holds the lock. -/
def State.inflight (s : State P) : List Byte := s.lock.elim [] fun p => (s.code p).got

section

variable [DecidableEq P]

/-- The bytes that `p` appended. -/
def appendedBy (p : P) (es : List (Event P)) : List Byte := ((appended es).filter fun x => x.1 = p).map Prod.snd

/-- The bytes of the calls of `pipewrite` from which `p` has returned. -/
def writtenBy (p : P) (es : List (Event P)) : List Byte :=
  es.flatMap fun
    | .wret q w i _ => if q = p then w.sent i else []
    | _ => []

end

section

variable (es es' : List (Event P))

@[simp]
lemma appended_append : appended (es ++ es') = appended es ++ appended es' := filterMap_append

@[simp]
lemma taken_append : taken (es ++ es') = taken es ++ taken es' := filterMap_append

@[simp]
lemma returned_append : returned (es ++ es') = returned es ++ returned es' := flatMap_append

variable [DecidableEq P]

@[simp]
lemma appendedBy_append (p : P) : appendedBy p (es ++ es') = appendedBy p es ++ appendedBy p es' := by
  simp [appendedBy]

@[simp]
lemma writtenBy_append (p : P) : writtenBy p (es ++ es') = writtenBy p es ++ writtenBy p es' := flatMap_append

end

lemma Write.sent_succ {w : Write} {i : ℕ} {b : Byte} (h : w.src i = some b) : w.sent (i + 1) = w.sent i ++ [b] := by
  simp [Write.sent, range_succ, h]

variable [DecidableEq P] {s s' : State P} {p : P} {k : Code} {es es' : List (Event P)} {a : Act P}

/-! ### The ring -/

structure Buffered (s : State P) (es : List (Event P)) : Prop where
  len : (s.nwrite - s.nread).toNat ≤ PIPESIZE
  fifo : (appended es).map Prod.snd = taken es ++ s.ring

omit [DecidableEq P] in
lemma Buffered.congr (h : Buffered s es) (hd : s'.data = s.data) (hr : s'.nread = s.nread) (hw : s'.nwrite = s.nwrite)
    (ha : appended es' = []) (ht : taken es' = []) : Buffered s' (es ++ es') := by
  refine ⟨by rw [hr, hw]; exact h.len, ?_⟩
  rw [appended_append, taken_append, ha, ht, append_nil, append_nil, h.fifo, State.ring, State.ring, hd, hr, hw]

omit [DecidableEq P] in
lemma full_of_length (h : (s.nwrite - s.nread).toNat = PIPESIZE) : s.full := by
  rw [State.full, ← Ring.add_ofNat_sub s.nread s.nwrite, h]

omit [DecidableEq P] in
lemma Buffered.put (h : Buffered s es) (hf : ¬ s.full) (b : Byte) : Buffered (s.put b) (es ++ [.append p b]) := by
  have hlt : (s.nwrite - s.nread).toNat < PIPESIZE := lt_of_le_of_ne h.len fun he => hf (full_of_length he)
  have hlt32 : (s.nwrite - s.nread).toNat + 1 < 2 ^ 32 := lt_of_le_of_lt hlt (by decide)
  have hpush : (s.put b).ring = s.ring ++ [b] := Ring.contents_push (by decide) s.data s.nread s.nwrite b hlt hlt32
  constructor
  · have hlen := congrArg List.length hpush
    rw [State.ring, Ring.length_contents, length_append, State.ring, Ring.length_contents, length_singleton] at hlen
    rw [hlen]
    exact hlt
  · rw [appended_append, map_append, h.fifo, hpush, taken_append]
    simp [appended, taken]

omit [DecidableEq P] in
lemma Buffered.take (h : Buffered s es) (hne : s.nread ≠ s.nwrite) :
    Buffered { s with nread := s.nread + 1 } (es ++ [.take p s.head]) := by
  have hpop : s.ring = s.head :: { s with nread := s.nread + 1 }.ring := Ring.contents_pop s.data s.nread s.nwrite hne
  constructor
  · have hlen := congrArg List.length hpop
    rw [State.ring, Ring.length_contents, length_cons, State.ring, Ring.length_contents] at hlen
    have hle := h.len
    rw [hlen] at hle
    exact Nat.le_of_succ_le hle
  · rw [appended_append, map_append, h.fifo, hpop, taken_append]
    simp [appended, taken]

lemma step_buffered (hs : step s a = some s') (h : Buffered s es) : Buffered s' (es ++ emit s a) := by
  have hc := step_cases hs
  generalize emit s a = es' at hc
  cases hc with
  | call | kill => exact h.congr rfl rfl rfl rfl rfl
  | @move p es' s' hm =>
    cases hm with
    | enter | doze | wake | turn | shutWrite | shutRead => exact h.congr rfl rfl rfl rfl rfl
    | leave hk =>
      generalize s.code p = k0 at hk
      cases hk <;> exact h.congr rfl rfl rfl rfl rfl
    | @put w i b hk ho hf hb =>
      have hput := h.put (p := p) hf b
      exact ⟨hput.len, hput.fifo⟩
    | take hk hne | lose hk hne =>
      have htake := h.take (p := p) hne
      exact ⟨htake.len, htake.fifo⟩

/-! ### Writers -/

/-- The counter of a `pipewrite` counts the bytes it has appended; it returns the counter or -1. -/
def Code.Counts : Code → Prop
  | .wloop w i | .wfull w i | .wsleep w i | .wasleep w i | .wend w i => (w.sent i).length = i
  | .wret w i v => 0 ≤ v → v = (w.sent i).length
  | _ => True

structure Writes (s : State P) (es : List (Event P)) : Prop where
  sent : ∀ p, appendedBy p es = writtenBy p es ++ (s.code p).sent
  counts : ∀ p, (s.code p).Counts
  sound : ∀ p w i v, Event.wret p w i v ∈ es → 0 ≤ v → v = (w.sent i).length

/-- Process `p` goes on to `k` and shows `es`. -/
structure Sends (p : P) (k₀ k : Code) (es : List (Event P)) : Prop where
  others : ∀ q, q ≠ p → appendedBy q es = [] ∧ writtenBy q es = []
  sent : k₀.sent ++ appendedBy p es = writtenBy p es ++ k.sent
  counts : k₀.Counts → k.Counts
  sound : k₀.Counts → ∀ q w i v, Event.wret q w i v ∈ es → 0 ≤ v → v = (w.sent i).length

lemma Sends.quiet (hs : k.sent = k0.sent) (hc : k0.Counts → k.Counts) : Sends p k0 k [] :=
  ⟨fun _ _ => ⟨rfl, rfl⟩, by rw [hs]; exact append_nil _, hc, fun _ _ _ _ _ h => by cases h⟩

lemma Writes.step (h : Writes s es) (hc : s'.code = update s.code p k) (hs : Sends p (s.code p) k es') :
    Writes s' (es ++ es') := by
  refine ⟨fun q => ?_, fun q => ?_, fun q w i v hq hv => ?_⟩
  · rw [appendedBy_append, writtenBy_append, h.sent q, hc]
    by_cases hqp : q = p
    · subst hqp
      rw [update_self, append_assoc, append_assoc, hs.sent]
    · obtain ⟨ha, hw⟩ := hs.others q hqp
      rw [update_of_ne hqp, ha, hw, append_nil, append_nil]
  · rw [hc]
    by_cases hqp : q = p
    · subst hqp
      rw [update_self]
      exact hs.counts (h.counts q)
    · rw [update_of_ne hqp]
      exact h.counts q
  · obtain hq | hq := mem_append.mp hq
    · exact h.sound q w i v hq hv
    · exact hs.sound (h.counts p) q w i v hq hv

lemma Leave.sends (hk : Leave p k0 es) : Sends p k0 .idle es := by
  cases hk with
  | write w i v =>
    refine ⟨fun q hq => ⟨rfl, ?_⟩, ?_, fun _ => trivial, fun hcount q w' i' v' hmem hv => ?_⟩
    · simp [writtenBy, Ne.symm hq]
    · simp [writtenBy, appendedBy, appended, Code.sent]
    · cases mem_singleton.mp hmem
      exact hcount hv
  | read r got v => exact ⟨fun _ _ => ⟨rfl, rfl⟩, rfl, fun _ => trivial, fun _ q w i v hmem => by simp at hmem⟩
  | close => exact .quiet rfl fun _ => trivial

lemma Move.sends (hm : Move s p es s') : ∃ k, s'.code = update s.code p k ∧ Sends p (s.code p) k es := by
  cases hm with
  | @enter k hk =>
    refine ⟨k, rfl, ?_⟩
    generalize s.code p = k0 at hk
    cases hk with
    | write => exact .quiet rfl fun _ => rfl
    | _ => exact .quiet rfl id
  | leave hk => exact ⟨.idle, rfl, hk.sends⟩
  | @doze chan k hk =>
    refine ⟨k, rfl, ?_⟩
    generalize s.code p = k0 at hk
    cases hk <;> exact .quiet rfl id
  | @wake chan k hk =>
    refine ⟨k, rfl, ?_⟩
    generalize s.code p = k0 at hk
    cases hk with
    | wend w i => exact .quiet rfl fun (hc : _ = _) _ => by rw [hc]
    | _ => exact .quiet rfl id
  | @turn k hk =>
    refine ⟨k, rfl, ?_⟩
    generalize s.code p = k0 at hk
    cases hk with
    | wquit => exact .quiet rfl fun _ hv => absurd hv (by decide)
    | _ => exact .quiet rfl id
  | @put w i b hk ho hf hb =>
    refine ⟨.wloop w (i + 1), rfl, ?_⟩
    rw [hk]
    refine ⟨fun q hq => ⟨?_, rfl⟩, ?_, fun (hc : _ = _) => ?_, fun _ _ _ _ _ hmem => by simp at hmem⟩
    · simp [appendedBy, appended, Ne.symm hq]
    · simp [appendedBy, appended, writtenBy, Code.sent, Write.sent_succ hb]
    · simp [Code.Counts, Write.sent_succ hb, hc]
  | @take r got hk =>
    refine ⟨.rcopy r (got ++ [s.head]), rfl, ?_⟩
    rw [hk]
    exact ⟨fun _ _ => ⟨rfl, rfl⟩, rfl, fun _ => trivial, fun _ _ _ _ _ hmem => by simp at hmem⟩
  | @lose r got hk =>
    refine ⟨.rend r got, rfl, ?_⟩
    rw [hk]
    exact ⟨fun _ _ => ⟨rfl, rfl⟩, rfl, fun _ => trivial, fun _ _ _ _ _ hmem => by simp at hmem⟩
  | shutWrite hk => exact ⟨.cwake true, rfl, hk ▸ .quiet rfl id⟩
  | shutRead hk => exact ⟨.cwake false, rfl, hk ▸ .quiet rfl id⟩

lemma step_writes (hs : step s a = some s') (h : Writes s es) : Writes s' (es ++ emit s a) := by
  have hc := step_cases hs
  generalize emit s a = es' at hc
  cases hc with
  | move hm =>
    obtain ⟨k, hk, hsend⟩ := hm.sends
    exact h.step hk hsend
  | @call p a k hp hk =>
    refine h.step (p := p) rfl ?_
    rw [hp]
    cases hk <;> exact .quiet rfl id
  | kill => simpa only [append_nil] using (⟨h.sent, h.counts, h.sound⟩ : Writes (kill s _) es)

/-! ### Readers -/

/-- The reads are valid, and one that returns nothing has seen the end of the pipe. -/
def Code.Drains (s : State P) : Code → Prop
  | .read r | .rloop r | .rsleep r | .rasleep r => r.Valid
  | .rcopy r got => r.Valid ∧ (got = [] → s.nread = s.nwrite → s.writeopen = false)
  | .rend r got => got = [] → 0 < r.n → s.nread = s.nwrite ∧ s.writeopen = false
  | .rret r got v => (0 ≤ v → v = got.length) ∧ (v = 0 → 0 < r.n → s.nread = s.nwrite ∧ s.writeopen = false)
  | _ => True

structure Reads (s : State P) (es : List (Event P)) : Prop where
  locked : Locked s
  inflight : taken es = returned es ++ s.inflight
  drains : ∀ p, (s.code p).Drains s
  sound : ∀ p r got v, Event.rret p r got v ∈ es → 0 ≤ v → v = got.length

omit [DecidableEq P] in
lemma Code.Drains.congr (h : k.Drains s) (hk : k.critical = false) : k.Drains s' := by
  cases k with
  | rcopy | rend | rret => cases hk
  | _ => exact h

omit [DecidableEq P] in
lemma inflight_free (h : s.lock = none) : s.inflight = [] := by
  rw [State.inflight, h]
  rfl

omit [DecidableEq P] in
lemma inflight_held (h : s.lock = some p) : s.inflight = (s.code p).got := by
  rw [State.inflight, h]
  rfl

lemma inflight_goto (h : s.lock = some p) : (s.goto p k).inflight = k.got := by
  rw [inflight_held (s := s.goto p k) h]
  simp only [State.goto, update_self]

lemma Reads.step (h : Reads s es) (hl' : Locked s') (hc : s'.code = update s.code p k)
    (hp : s.lock = none ∨ s.lock = some p) {got : List Byte} (hin : s'.inflight = got)
    (hfl : s.inflight ++ taken es' = returned es' ++ got)
    (hk : (s.code p).Drains s → k.Drains s')
    (hsound : ∀ q r got v, Event.rret q r got v ∈ es' → 0 ≤ v → v = got.length) : Reads s' (es ++ es') := by
  refine ⟨hl', ?_, fun q => ?_, fun q r got v hq hv => ?_⟩
  · rw [taken_append, returned_append, h.inflight, append_assoc, append_assoc, hfl, hin]
  · rw [hc]
    by_cases hqp : q = p
    · subst hqp
      rw [update_self]
      exact hk (h.drains q)
    · rw [update_of_ne hqp]
      refine (h.drains q).congr (Bool.eq_false_iff.mpr fun hcrit => ?_)
      have hq := (h.locked.lock q).mpr hcrit
      obtain hp | hp := hp
      · cases hp.symm.trans hq
      · exact hqp (Option.some.inj (hp.symm.trans hq)).symm
  · obtain hq | hq := mem_append.mp hq
    · exact h.sound q r got v hq hv
    · exact hsound q r got v hq hv

lemma Move.reads (hm : Move s p es' s') (h : Reads s es) : Reads s' (es ++ es') := by
  have hl' := hm.locked h.locked
  have hown : (s.code p).critical = true → s.lock = some p := (h.locked.lock p).mpr
  -- the holder of the lock goes on and keeps what it has
  have hinside : ∀ {s' : State P} {k : Code}, Locked s' → s'.code = update s.code p k → s'.lock = s.lock →
      (s.code p).critical = true → k.got = (s.code p).got → ((s.code p).Drains s → k.Drains s') → Reads s' (es ++ []) := by
    intro s' k hl' hc hl hcrit hgot hk
    refine h.step hl' hc (.inr (hown hcrit)) (inflight_held (hl.trans (hown hcrit))) ?_ hk fun _ _ _ _ hmem => by cases hmem
    rw [inflight_held (hown hcrit), hc, update_self, hgot]
    exact append_nil _
  cases hm with
  | @enter k hk hs hl =>
    have hgot : k.got = [] := by
      generalize s.code p = k0 at hk
      cases hk <;> rfl
    refine h.step hl' rfl (.inl hl) (inflight_goto rfl) ?_ (fun hd => ?_) fun _ _ _ _ hmem => by cases hmem
    · rw [inflight_free hl, hgot]
      rfl
    · generalize s.code p = k0 at hk hd
      cases hk <;> exact hd
  | leave hk hl =>
    have hdr := h.drains p
    refine h.step hl' rfl (.inr hl) (inflight_free rfl) ?_ (fun _ => trivial) ?_
    · rw [inflight_held hl, append_nil]
      generalize s.code p = k0 at hk
      cases hk <;> simp [Code.got, taken, returned]
    · intro q r got v hmem hv
      generalize s.code p = k0 at hk hdr
      cases hk with
      | read => cases mem_singleton.mp hmem; exact hdr.1 hv
      | write | close => simp at hmem
  | @doze chan k hk hl =>
    refine h.step hl' rfl (.inr hl) (inflight_free rfl) ?_ (fun hd => ?_) fun _ _ _ _ hmem => by cases hmem
    · rw [inflight_held hl]
      generalize s.code p = k0 at hk
      cases hk <;> rfl
    · generalize s.code p = k0 at hk hd
      cases hk <;> exact hd
  | @wake chan k hk =>
    refine hinside hl' rfl rfl hk.critical.1 ?_ fun hd => ?_
    · generalize s.code p = k0 at hk
      cases hk <;> rfl
    · generalize s.code p = k0 at hk hd
      cases hk with
      | rend r got =>
        refine ⟨fun _ => rfl, fun hv hn => hd ?_ hn⟩
        exact length_eq_zero_iff.mp (by exact_mod_cast hv)
      | _ => trivial
  | @turn k hk =>
    refine hinside hl' rfl rfl hk.critical.1 ?_ fun hd => ?_
    · generalize s.code p = k0 at hk
      cases hk <;> rfl
    · generalize s.code p = k0 at hk hd
      cases hk with
      | rquit => exact ⟨fun hv => absurd hv (by decide), fun hv => absurd hv (by decide)⟩
      | rsleep => exact hd
      | rcopy r he => exact ⟨hd, fun _ => he⟩
      | rend r got he =>
        intro hgot hn
        have hemp := he (by rwa [hgot])
        exact ⟨hemp, hd.2 hgot hemp⟩
      | wquit | wfull | wend => trivial
  | put hk =>
    have hl := hown (by rw [hk]; rfl)
    refine h.step hl' rfl (.inr hl) (inflight_goto hl) ?_ (fun _ => trivial) fun _ _ _ _ hmem => by simp at hmem
    rw [inflight_held hl, hk]
    rfl
  | take hk =>
    have hl := hown (by rw [hk]; rfl)
    refine h.step hl' rfl (.inr hl) (inflight_goto hl) ?_ (fun hd => ?_) fun _ _ _ _ hmem => by simp at hmem
    · rw [inflight_held hl, hk]
      rfl
    · rw [hk] at hd
      exact ⟨hd.1, fun hnil => by simp at hnil⟩
  | lose hk _ hn ho =>
    have hd := h.drains p
    rw [hk] at hd
    rw [hd.1 _ hn] at ho
    cases ho
  | shutWrite hk | shutRead hk => exact hinside hl' rfl rfl (by rw [hk]; rfl) (by rw [hk]; rfl) fun _ => trivial

lemma step_reads (hv : a.Valid) (hs : step s a = some s') (h : Reads s es) : Reads s' (es ++ emit s a) := by
  have hl' := step_locked hs h.locked
  have hc := step_cases hs
  generalize emit s a = es' at hc
  cases hc with
  | move hm => exact hm.reads h
  | @call p a k hp hk =>
    rw [append_nil]
    refine ⟨hl', ?_, fun q => ?_, h.sound⟩
    · rw [h.inflight]
      cases hl : s.lock with
      | none => rw [inflight_free hl, inflight_free (s := s.goto p k) hl]
      | some o =>
        have hop : o ≠ p := by
          rintro rfl
          have hcrit := (h.locked.lock o).mp hl
          rw [hp] at hcrit
          cases hcrit
        rw [inflight_held hl, inflight_held (s := s.goto p k) hl]
        simp [State.goto, hop]
    · by_cases hqp : q = p
      · subst hqp
        simp only [State.goto, update_self]
        cases hk <;> exact hv
      · simp only [State.goto, update_of_ne hqp]
        exact h.drains q
  | kill =>
    rw [append_nil]
    exact ⟨hl', h.inflight, h.drains, h.sound⟩

/-! ### The queue -/

/-- **A pipe is a bounded queue.**  In every run of any number of readers and writers: at most `PIPESIZE` bytes are
unread; what reads have returned, what the read that holds the lock has taken and what is in the ring are what writes
appended; each writer's bytes are those of its calls, in order; and a read of at least one byte that returns 0 does so
when nothing is left and the write end is closed. -/
theorem pipe_is_queue {as : List (Act P)} (h : run step (init P) as = some s) (hv : ∀ a ∈ as, a.Valid)
    (hes : trace step emit (init P) as = es) :
    (s.nwrite - s.nread).toNat ≤ PIPESIZE ∧
    returned es <+: (appended es).map Prod.snd ∧
    (appended es).map Prod.snd = returned es ++ s.inflight ++ s.ring ∧
    (s.lock = none → (appended es).map Prod.snd = returned es ++ s.ring) ∧
    (∀ p, appendedBy p es = writtenBy p es ++ (s.code p).sent) ∧
    (∀ p w i v, Event.wret p w i v ∈ es → 0 ≤ v → v = (w.sent i).length) ∧
    (∀ p r got v, Event.rret p r got v ∈ es → 0 ≤ v → v = got.length) ∧
    ∀ p r got, s.code p = .rret r got 0 → 0 < r.n → s.ring = [] ∧ s.writeopen = false := by
  subst hes
  have hinit : Buffered (init P) [] ∧ Writes (init P) [] ∧ Reads (init P) [] := by
    refine ⟨⟨by simp [init], (Ring.contents_self _ _).symm⟩, ⟨fun _ => rfl, fun _ => trivial, fun _ _ _ _ hm => by cases hm⟩,
      ⟨init_locked, rfl, fun _ => trivial, fun _ _ _ _ hm => by cases hm⟩⟩
  have hstep : ∀ (s : State P) es a s', Act.Valid a → step s a = some s' → Buffered s es ∧ Writes s es ∧ Reads s es →
      Buffered s' (es ++ emit s a) ∧ Writes s' (es ++ emit s a) ∧ Reads s' (es ++ emit s a) :=
    fun s es a s' ha hs hi => ⟨step_buffered hs hi.1, step_writes hs hi.2.1, step_reads ha hs hi.2.2⟩
  obtain ⟨hb, hw, hr⟩ := run_trace_invariant hstep h hv hinit
  rw [nil_append] at hb hw hr
  have hall := hb.fifo
  rw [hr.inflight] at hall
  refine ⟨hb.len, ?_, hall, fun hl => ?_, hw.sent, hw.sound, hr.sound, fun p r got hk hn => ?_⟩
  · rw [hall, append_assoc]
    exact prefix_append _ _
  · rw [hall, inflight_free hl, append_nil]
  · have hd := hr.drains p
    rw [hk] at hd
    obtain ⟨he, ho⟩ := hd.2 rfl hn
    refine ⟨?_, ho⟩
    rw [State.ring, he]
    exact Ring.contents_self _ _

/-- Process 1 writes three bytes, of which process 0 reads two. -/
def copyRun : List (Act (Fin 2)) :=
  [.write 1 (count 3)] ++ List.replicate 7 (.go 1) ++ [.read 0 (fetch 2)] ++ List.replicate 7 (.go 0)

theorem pipe_is_queue_copyRun : ∃ s, run step (init (Fin 2)) copyRun = some s ∧ s.lock = none ∧
    returned (trace step emit (init (Fin 2)) copyRun) = [1, 2] ∧
    (appended (trace step emit (init (Fin 2)) copyRun)).map Prod.snd = [1, 2] ++ s.ring := by
  have hrun : ((run step (init (Fin 2)) copyRun).map fun s => decide (s.lock = none)) = some true := by decide +kernel
  have hret : returned (trace step emit (init (Fin 2)) copyRun) = [1, 2] := by decide +kernel
  obtain ⟨s, hs, hl⟩ := Option.map_eq_some_iff.mp hrun
  have hl := of_decide_eq_true hl
  have hv : ∀ a ∈ copyRun, a.Valid := by
    intro a ha
    simp only [copyRun, mem_append, mem_singleton, mem_replicate] at ha
    rcases ha with ((rfl | ⟨-, rfl⟩) | rfl) | ⟨-, rfl⟩
    · exact True.intro
    · exact True.intro
    · exact fun _ _ => rfl
    · exact True.intro
  refine ⟨s, hs, hl, hret, ?_⟩
  rw [(pipe_is_queue hs hv rfl).2.2.2.1 hl, hret]

/-- Process 1 writes a byte and closes the write end, and process 0 reads 0 bytes. -/
def emptyRun : List (Act (Fin 2)) :=
  [.write 1 (count 1)] ++ List.replicate 5 (.go 1) ++ [.close 1 true] ++ List.replicate 4 (.go 1) ++ [.read 0 (fetch 0)] ++
    List.replicate 4 (.go 0)

/-- The read returns 0, with a byte left. -/
theorem pipe_drained_fails : ∃ s r got, run step (init (Fin 2)) emptyRun = some s ∧ s.writeopen = false ∧
    s.code 0 = .rret r got 0 ∧ s.ring = [1] := by
  have hrun : ((run step (init (Fin 2)) emptyRun).map fun s =>
      decide (s.writeopen = false ∧ (match s.code 0 with | .rret _ _ v => v == 0 | _ => false) = true ∧ s.ring = [1])) =
        some true := by
    decide +kernel
  obtain ⟨s, hs, hst⟩ := Option.map_eq_some_iff.mp hrun
  obtain ⟨ho, hk, hr⟩ := of_decide_eq_true hst
  split at hk
  next r got v hk' =>
    cases eq_of_beq hk
    exact ⟨s, r, got, hs, ho, hk', hr⟩
  next => cases hk

end Xv6.Pipe
