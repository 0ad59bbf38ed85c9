import Xv6.Sched.Steps

/-!
# UNUSED slots

`freeproc` clears a slot, and `exit` has closed the files before; `allocproc` relies on that.
-/

namespace Xv6.Sched

open Lib Option

variable {C : Type} {s s' : State C} {c : C} {p q w : Slot} {k k' : Code} {e : Eff} {a : Act}

/-- No open files and no current directory. -/
structure Proc.Closed (x : Proc) : Prop where
  ofile : ∀ fd, x.ofile fd = none
  cwd : x.cwd = none

/-- Nothing is left of an earlier process. -/
structure Proc.Clean (x : Proc) : Prop extends x.Closed where
  killed : x.killed = false
  chan : x.chan = .null
  parent : x.parent = none
  sz : x.sz = 0
  pagetable : x.pagetable = false
  trapframe : x.trapframe = false
  pid : x.pid = 0

/-- The slot and the pid that `kill` compares. -/
def Code.compares : Code → Option (Slot × BitVec 32)
  | .act q (.kill pid _) => some (q, pid)
  | _ => none

/-- The slot that `allocproc` looks at. -/
def Code.tries : Code → Option Slot
  | .act q (.alloc _) => some q
  | _ => none

mutual

/-- The argument of the call of `kill` that a thread is in. -/
def Code.kills : Code → Option (BitVec 32)
  | .kill pid _ => some pid
  | .lock _ o | .act _ o => o.kills
  | .unlock _ k | .save k | .load k | .wakeup _ _ k => k.kills
  | _ => none

def Op.kills : Op → Option (BitVec 32)
  | .kill pid _ => some pid
  | .yield k | .wake _ k => k.kills
  | _ => none

end

/-- The step is neither one by which `kill(0)` looks at an UNUSED slot, nor one by which a new process gets a pid
that a call of `kill` is looking for. -/
def Regular (s : State C) (a : C × Act) : Prop :=
  ∀ w ∈ s.exec a.1, (∀ x ∈ (s.code w).compares, x.2 = 0 → (s.proc x.1).state ≠ .unused) ∧
    ∀ q ∈ (s.code w).tries, (s.proc q).state = .unused → ∀ p, (s.code p).kills ≠ some s.nextpid

instance (s : State C) (a : C × Act) : Decidable (Regular s a) :=
  decidable_of_iff
    (((s.exec a.1).all fun w =>
      ((s.code w).compares.all fun x => decide (x.2 = 0 → (s.proc x.1).state ≠ .unused)) &&
        (s.code w).tries.all fun q =>
          decide ((s.proc q).state = .unused → ∀ p, (s.code p).kills ≠ some s.nextpid)) = true)
    (by simp only [all_eq_true, Bool.and_eq_true, decide_eq_true_eq, Regular, mem_def])

/-- UNUSED slots are clean; the slots that `fork` has taken and those of processes in `exit` have no
files. -/
structure Tidy (s : State C) : Prop where
  unused : ∀ q, (s.proc q).state = .unused → (s.proc q).Clean
  setup : ∀ p q, s.code p = .act q .mem ∨ s.code p = .act q .copy → (s.proc q).Closed
  exiting : ∀ p, (s.code p).exiting = true → (s.proc p).Closed

lemma closed_fn {u : Upd} {x : Proc} (hx : x.Closed) (hcopy : ∀ q y, u ≠ .copy q y)
    (hown : ∀ q sz ofile cwd, u ≠ .own q sz ofile cwd) : (u.fn x).Closed := by
  obtain ⟨h1, h2⟩ := hx
  cases u with
  | wake q chan =>
    simp only [Upd.fn]
    split
    · exact ⟨h1, h2⟩
    · exact ⟨h1, h2⟩
  | close q => exact ⟨fun _ => rfl, rfl⟩
  | copy q y => exact absurd rfl (hcopy q y)
  | own q sz ofile cwd => exact absurd rfl (hown q sz ofile cwd)
  | _ => exact ⟨h1, h2⟩

lemma Cause.copy (h : Cause s c (.copy q x)) : ∃ w, s.exec c = some w ∧ s.code w = .act q .copy := by
  obtain @⟨w, k', -, hw, hm⟩ := h
  refine ⟨w, hw, ?_⟩
  generalize s.code w = k at hm
  cases hm with
  | stay hk hk' hch hmem he =>
    obtain he | ⟨l, he⟩ | ⟨l, he⟩ | ⟨u, he, hu⟩ := he <;> cases he
    cases hu
    rfl

lemma Cause.own {sz : ℕ} {ofile : Fin NOFILE → Option ℕ} {cwd : Option ℕ} (h : Cause s c (.own q sz ofile cwd)) :
    s.exec c = some q ∧ ∃ lks, s.code q = .run lks := by
  obtain @⟨w, k', -, hw, hm⟩ := h
  generalize hk : s.code w = k at hm
  cases hm with
  | stay hk hk' hch hmem he =>
    obtain he | ⟨l, he⟩ | ⟨l, he⟩ | ⟨u, he, hu⟩ := he <;> cases he
    cases hu
    exact ⟨hw, _, ‹_›⟩

lemma closed_step [DecidableEq C] (h : Inv s) (hs : step s (c, a) = some s') (hq : (s.proc q).Closed)
    (hcopy : ∀ w, s.exec c = some w → s.code w ≠ .act q .copy)
    (hown : s.exec c = some q → ∀ lks, s.code q ≠ .run lks) : (s'.proc q).Closed := by
  obtain hp | ⟨u, rfl, hp, hu⟩ := slot_cases h hs q
  · rwa [hp]
  · rw [hp]
    refine closed_fn hq ?_ ?_
    · rintro r y rfl
      obtain ⟨w, hw, hk⟩ := hu.copy
      exact hcopy w hw hk
    · rintro r sz ofile cwd rfl
      obtain ⟨hw, lks, hk⟩ := hu.own
      exact hown hw lks hk

namespace Tidy

lemma clean_step [DecidableEq C] (ht : Tidy s) (h : Inv s) (hs : step s (c, a) = some s') (hreg : Regular s (c, a))
    (hq : (s'.proc q).state = .unused) : (s'.proc q).Clean := by
  obtain hp | ⟨u, rfl, hp, hu⟩ := slot_cases h hs q
  · rw [hp] at hq ⊢
    exact ht.unused q hq
  rw [hp] at hq ⊢
  have hwake : ∀ chan r, u = .wake r chan → (u.fn (s.proc u.slot)).Clean := by
    rintro chan r rfl
    simp only [Upd.fn] at hq ⊢
    split at hq
    · cases hq
    · rename_i hno
      rw [if_neg hno]
      exact ht.unused r hq
  cases hu with
  | pick hc hk hst => cases hq
  | wake hc hk => exact hwake _ _ rfl
  | @thread w k' u hw hm =>
    have hon := (h.on w ⟨c, hw⟩).alive.1
    generalize hk : s.code w = k at hm
    have hch : ∀ r, k.child = some r → (s.proc r).state ≠ .unused := by
      intro r hr hst
      rw [h.child w r (hk ▸ hr)] at hst
      cases hst
    cases hm with
    | stay hsw hk' _ hmem he =>
      obtain he | ⟨l, he⟩ | ⟨l, he⟩ | ⟨u', he, hu⟩ := he <;> cases he
      cases hu with
      | tidy | setkilled | close | own => exact absurd hq hon
      | reparent hpar => cases hpar.symm.trans (ht.unused _ hq).parent
      | copy | parent => exact absurd hq (hch _ rfl)
    | wake => exact hwake _ _ rfl
    | @kill r pid l hpid =>
      have hq' : (s.proc r).state = .unused := by
        simp only [Upd.fn] at hq
        split at hq
        · cases hq
        · exact hq
      have hz : pid = 0 := hpid.symm.trans (ht.unused r hq').pid
      refine absurd hq' ((hreg w hw).1 (r, pid) ?_ hz)
      rw [hk]
      rfl
    | mem => exact absurd hq (hch _ rfl)
    | @fail o r ho =>
      have hcl : (s.proc r).Closed := ht.setup w r (by obtain rfl | rfl := ho <;> simp [hk])
      exact ⟨⟨hcl.1, hcl.2⟩, rfl, rfl, rfl, rfl, rfl, rfl, rfl⟩
    | @reap r l hz =>
      have hoff := h.act_off hw hk (by rw [hk]; rfl) (by simp [hz])
      have hcl : (s.proc r).Closed := ht.exiting r (by rw [(h.off r hoff).dead hz]; rfl)
      exact ⟨⟨hcl.1, hcl.2⟩, rfl, rfl, rfl, rfl, rfl, rfl, rfl⟩
    | _ => cases hq

lemma next_setup (h : next s p a k = some (e, k')) (hwf : k.Wf p) (hk' : k' = .act q .mem ∨ k' = .act q .copy) :
    (s.proc q).state = .unused ∨ k = .act q .mem := by
  cases next_cases h with
  | call h =>
    unfold call at h
    split at h <;> (try split at h) <;> cases h <;> obtain hk' | hk' := hk' <;> cases hk'
  | alloc hq =>
    obtain hk' | hk' := hk' <;> cases hk'
    exact .inl hq
  | mem =>
    obtain hk' | hk' := hk' <;> cases hk'
    exact .inr rfl
  | lock => obtain hk' | hk' := hk' <;> cases hk' <;> cases hwf.2
  | unlock | woken => obtain rfl | rfl := hk' <;> cases hwf.2
  | relock => obtain rfl | rfl := hk' <;> cases hwf.2.2.entry
  | load => obtain rfl | rfl := hk' <;> obtain h | h := hwf.2.2 <;> cases h
  | _ => obtain hk' | hk' := hk' <;> cases hk'

lemma step [DecidableEq C] (ht : Tidy s) (h : Inv s) (hs : step s (c, a) = some s') (hreg : Regular s (c, a)) :
    Tidy s' := by
  refine ⟨fun q => ht.clean_step h hs hreg, ?_, ?_⟩
  · intro p q hk
    -- a process that sets up `q` is the only one, and is not past the copy
    have key : (s.proc q).Closed → (∀ w, s.exec c = some w → s.code w ≠ .act q .copy) → (s.proc q).state ≠ .running →
        (s'.proc q).Closed := by
      intro hq hcopy hst
      refine closed_step h hs hq hcopy fun hw lks hk => hst ?_
      exact (h.on_self hw (by rw [hk]; rfl)).1
    have hold : (s.code p = .act q .mem ∨ s.code p = .act q .copy) → (∀ w, s.exec c = some w → w ≠ p) →
        (s'.proc q).Closed := by
      intro hk hne
      have hch : (s.code p).child = some q := by obtain hk | hk := hk <;> rw [hk] <;> rfl
      refine key (ht.setup p q hk) (fun w hw hkw => hne w hw ?_) (by simp [h.child p q hch])
      exact h.child_inj w p q (by rw [hkw]; rfl) hch
    obtain ⟨w, e, k', hw, hn, hproc, hcode⟩ | ⟨hc, hcode, -⟩ := step_cases hs
    · by_cases hpw : p = w
      · subst hpw
        rw [hcode, Function.update_self] at hk
        obtain hst | hmem := next_setup hn (h.wf p) hk
        · refine key (ht.unused q hst).toClosed (fun w hw hkw => ?_) (by simp [hst])
          have := h.child w q (by rw [hkw]; rfl)
          rw [hst] at this
          cases this
        · have hch : (s.code p).child = some q := by rw [hmem]; rfl
          refine key (ht.setup p q (.inl hmem)) (fun w' hw' hkw => ?_) (by simp [h.child p q hch])
          rw [hw] at hw'
          cases hw'
          rw [hmem] at hkw
          cases hkw
      · obtain hsame | ⟨-, hsame, -⟩ := code_step h hn hpw
        · rw [hcode, hsame] at hk
          refine hold hk fun w' hw' => ?_
          rw [hw] at hw'
          cases hw'
          exact Ne.symm hpw
        · rw [hcode, hsame] at hk
          obtain hk | hk := hk <;> cases hk
    · rw [hcode] at hk
      refine hold hk fun w' hw' => ?_
      rw [hc] at hw'
      cases hw'
  · intro p hk
    have key : (s.code p).exiting = true → (s'.proc p).Closed := by
      intro hk
      refine closed_step h hs (ht.exiting p hk) (fun w hw hkw => ?_) fun hw lks hkr => ?_
      · have hch : (s.code w).child = some p := by rw [hkw]; rfl
        have hrd := (h.child_ready w p hch (by rw [hkw]; exact nofun)).2
        rw [hrd] at hk
        cases hk
      · rw [hkr] at hk
        cases hk
    obtain ⟨w, e, k', hw, hn, hproc, hcode⟩ | ⟨-, hcode, -⟩ := step_cases hs
    · by_cases hpw : p = w
      · subst hpw
        rw [hcode, Function.update_self] at hk
        obtain hk | rfl := next_exiting hn hk
        · exact key hk
        · rw [hproc]
          have hself : Eff.proc s (.upd (.close p)) p = (Upd.close p).fn (s.proc p) := Inv.upd_proc_self (.close p)
          rw [hself]
          exact ⟨fun _ => rfl, rfl⟩
      · obtain hsame | ⟨-, hsame, -⟩ := code_step h hn hpw <;> rw [hcode, hsame] at hk
        · exact key hk
        · cases hk
    · rw [hcode] at hk
      exact key hk

end Tidy

lemma init_tidy : Tidy (init C) where
  unused q hq := by
    by_cases hi : q = initproc
    · simp [init, hi] at hq
    · simp only [init, hi, if_false]
      exact ⟨⟨fun _ => rfl, rfl⟩, rfl, rfl, rfl, rfl, rfl, rfl, rfl⟩
  setup p q hk := by
    simp only [init] at hk
    split at hk <;> simp at hk
  exiting p hk := by
    by_cases hi : p = initproc
    · simp [init, hi, Code.exiting, Code.toReparent] at hk
    · simp only [init, hi, if_false]
      exact ⟨fun _ => rfl, rfl⟩

lemma run_tidy [DecidableEq C] {acts : List (C × Act)} (h : run (guarded Regular step) (init C) acts = some s) :
    Inv s ∧ Tidy s := by
  refine run_invariant (I := fun s => Inv s ∧ Tidy s) ?_ h ⟨init_inv, init_tidy⟩
  rintro s ⟨c, a⟩ s' hs ⟨hi, ht⟩
  obtain ⟨hreg, hs⟩ := guarded_eq_some.mp hs
  exact ⟨step_inv hi hs, ht.step hi hs hreg⟩

/-! ### A new process starts fresh -/

/-- In a fatal trap of the process. -/
def Code.traps : Code → Bool
  | .act _ .setkilled => true
  | _ => false

/-- The argument of a call of `kill`. -/
def Act.kills : Act → Option (BitVec 32)
  | .kill pid => some pid
  | _ => none

/-- The step is neither a call `kill(pid)` nor a fatal trap of `q`. -/
def Spares (q : Slot) (pid : BitVec 32) (s : State C) (a : C × Act) : Prop :=
  Regular s a ∧ a.2.kills ≠ some pid ∧ ¬ (s.exec a.1 = some q ∧ (s.code q).traps = true)
  deriving Decidable

lemma next_kills {pid : BitVec 32} (h : next s p a k = some (e, k')) (hwf : k.Wf p) (hk' : k'.kills = some pid) :
    k.kills = some pid ∨ a.kills = some pid := by
  cases next_cases h with
  | call h =>
    unfold call at h
    split at h <;> (try split at h) <;> cases h <;> cases hk'
    exact .inr rfl
  | relock => obtain ⟨lks, rfl⟩ | rfl := hwf.2.2 <;> cases hk'
  | tick | intr | lock | unlock | save | load | woken | wakeSelf | wakeNext | killNext | killNot | yield | wake =>
    exact .inl hk'
  | _ => cases hk'

lemma kills_step [DecidableEq C] {pid : BitVec 32} (h : Inv s) (hs : step s (c, a) = some s') (ha : a.kills ≠ some pid)
    (hno : ∀ p, (s.code p).kills ≠ some pid) (p : Slot) : (s'.code p).kills ≠ some pid := by
  intro hk
  obtain ⟨-, hcode⟩ | ⟨e, -, hn, -⟩ | ⟨hcode, -⟩ := code_cases h hs p
  · exact hno p (hcode ▸ hk)
  · exact (next_kills hn (h.wf p) hk).elim (hno p) ha
  · rw [hcode] at hk
    cases hk

lemma killed_step [DecidableEq C] {pid : BitVec 32} (h : Inv s) (ht : Tidy s) (hs : step s (c, a) = some s')
    (hno : ∀ p, (s.code p).kills ≠ some pid) (htrap : ¬ (s.exec c = some q ∧ (s.code q).traps = true))
    (hq : (s.proc q).pid = pid → (s.proc q).killed = false) (hpid : (s'.proc q).pid = pid) :
    (s'.proc q).killed = false := by
  obtain hp | ⟨u, rfl, hp, hu⟩ := slot_cases h hs q
  · rw [hp] at hpid ⊢
    exact hq hpid
  rw [hp] at hpid ⊢
  have hwake : ∀ chan r, u = .wake r chan → (u.fn (s.proc u.slot)).killed = false := by
    rintro chan r rfl
    simp only [Upd.fn] at hpid ⊢
    split at hpid <;> split <;> exact hq hpid
  cases hu with
  | pick hc hk hst => exact hq hpid
  | wake hc hk => exact hwake _ _ rfl
  | @thread w k' u hw hm =>
    have hno := hno w
    generalize hk : s.code w = k at hm hno
    cases hm with
    | stay hsw hk' _ hmem he =>
      obtain he | ⟨l, he⟩ | ⟨l, he⟩ | ⟨u', he, hu⟩ := he <;> cases he
      cases hu with
      | setkilled => exact absurd ⟨hw, by rw [Upd.slot, hk]; rfl⟩ htrap
      | _ => exact hq hpid
    | wake => exact hwake _ _ rfl
    | kill hfound => exact absurd (congrArg some (hfound.symm.trans hpid)) hno
    | alloc hun => exact (ht.unused _ hun).killed
    | fail | reap => rfl
    | _ => exact hq hpid

lemma alloc_cases [DecidableEq C] (h : Inv s) (hs : step s (c, a) = some s') (hst : (s.proc q).state = .unused)
    (hst' : (s'.proc q).state = .used) : ∃ w l, s.exec c = some w ∧ s.code w = .act q (.alloc l) ∧
      s'.proc q = (Upd.alloc q s.nextpid).fn (s.proc q) := by
  obtain hp | ⟨u, rfl, hp, hu⟩ := slot_cases h hs q
  · cases (hp ▸ hst').symm.trans hst
  have hkeep : (u.fn (s.proc u.slot)).state ≠ (s.proc u.slot).state := by
    rw [← hp, hst, hst']
    decide
  rw [hp] at hst'
  cases hu with
  | pick hc hk hr => cases hst'
  | wake hc hk =>
    refine absurd ?_ hkeep
    simp only [Upd.fn]
    rw [if_neg]
    exact fun hsl => by cases hst.symm.trans hsl.1
  | @thread w k' u hw hm =>
    generalize hk : s.code w = k at hm
    cases hm with
    | stay _ _ _ _ he =>
      obtain he | ⟨l, he⟩ | ⟨l, he⟩ | ⟨u', he, hu⟩ := he <;> cases he
      refine absurd ?_ hkeep
      cases hu <;> rfl
    | wake =>
      refine absurd ?_ hkeep
      simp only [Upd.fn]
      rw [if_neg]
      exact fun hsl => by cases hst.symm.trans hsl.1
    | kill =>
      refine absurd ?_ hkeep
      simp only [Upd.fn]
      rw [if_neg]
      exact fun hsl => by cases hst.symm.trans hsl
    | mem => exact absurd rfl hkeep
    | alloc => exact ⟨w, _, hw, hk, hp⟩
    | _ => cases hst'

lemma kill_unused [DecidableEq C] {ok : Bool} {x : Slot × BitVec 32} (ht : Tidy s) (hw : s.exec c = some w)
    (hx : x ∈ (s.code w).compares) (hz : x.2 = 0) (hst : (s.proc x.1).state = .unused) :
    ∃ s', step s (c, .go ok) = some s' ∧ (s'.proc x.1).state = .unused ∧ (s'.proc x.1).killed = true := by
  generalize hk : s.code w = k at hx
  cases k with
  | act q o =>
    cases o with
    | kill pid l =>
      obtain rfl : (q, pid) = x := some.inj hx
      obtain rfl : pid = 0 := hz
      have hpid : (s.proc q).pid = 0 := (ht.unused q hst).pid
      have hself : (s.upd (.kill q)).proc q = (Upd.kill q).fn (s.proc q) := Inv.upd_proc_self (.kill q)
      refine ⟨(s.upd (.kill q)).setCode w (.unlock q (.killRet 0)), ?_, ?_, ?_⟩
      · simp [step, hw, procStep, next, hk, go, actStep, hpid, State.effect]
      · change ((s.upd (.kill q)).proc q).state = _
        rw [hself]
        exact (if_neg (by simp [hst])).trans hst
      · change ((s.upd (.kill q)).proc q).killed = _
        rw [hself]
        rfl
    | _ => cases hx
  | _ => cases hx

/-- **UNUSED slots are clean**, as long as no `kill(0)` looks at an UNUSED slot and no process gets a pid that a
`kill` is looking for; then `kill(pid)` returns 0 only when it finds `pid` in a slot that is not UNUSED, and a new
process is not killed until `kill` is called with its pid, or it takes a fatal trap. -/
theorem unused_slots_clean [DecidableEq C] {acts : List (C × Act)}
    (h : run (guarded Regular step) (init C) acts = some s) :
    (∀ q, (s.proc q).state = .unused → (s.proc q).Clean) ∧
    (∀ c a s' w, guarded Regular step s (c, a) = some s' → s.exec c = some w → (s'.code w).result = some (.kill 0) →
      (s.code w).result = some (.kill 0) ∨ ∃ q l, s.code w = .act q (.kill (s.proc q).pid l) ∧
        (s.proc q).state ≠ .unused) ∧
    (∀ q a s₁ as s₂, (s.proc q).state = .unused → guarded Regular step s a = some s₁ → (s₁.proc q).state = .used →
      run (guarded (Spares q (s₁.proc q).pid) step) s₁ as = some s₂ → (s₂.proc q).pid = (s₁.proc q).pid →
      (s₂.proc q).killed = false) ∧
    ∀ c ok, ∀ w ∈ s.exec c, ∀ x ∈ (s.code w).compares, x.2 = 0 → (s.proc x.1).state = .unused →
      ∃ s', step s (c, .go ok) = some s' ∧ (s'.proc x.1).state = .unused ∧ (s'.proc x.1).killed = true := by
  obtain ⟨hi, ht⟩ := run_tidy h
  refine ⟨ht.unused, ?_, ?_, fun c ok w hw x hx hz hst => kill_unused ht hw hx hz hst⟩
  · intro c a s' w hs hw hres
    obtain ⟨hreg, hs⟩ := guarded_eq_some.mp hs
    have hreg := (hreg w hw).1
    obtain ⟨hne, -⟩ | ⟨e, -, hn, -⟩ | ⟨hcode, -⟩ := code_cases hi hs w
    · exact absurd hw hne
    · refine (next_result hn (hi.wf w) hres).imp_right fun hd => ?_
      generalize s.code w = k at hd hreg
      cases hd with
      | kill hq =>
        subst hq
        exact ⟨_, _, rfl, fun hst => hreg _ rfl (ht.unused _ hst).pid hst⟩
    · rw [hcode] at hres
      cases hres
  · rintro q ⟨c, a⟩ s₁ as s₂ hst hs hst' hrun
    obtain ⟨hreg, hs⟩ := guarded_eq_some.mp hs
    obtain ⟨w, l, hw, hk, hp⟩ := alloc_cases hi hs hst hst'
    have hno := (hreg w hw).2 q (by rw [hk]; rfl) hst
    have hpid : (s₁.proc q).pid = s.nextpid := by rw [hp]; rfl
    have hno₁ : ∀ p, (s₁.code p).kills ≠ some s.nextpid := by
      refine kills_step hi hs (fun ha => ?_) hno
      obtain ⟨x, e, k', hx, hn, -⟩ | ⟨hc, -⟩ := step_cases hs
      · cases hw.symm.trans hx
        rw [hk] at hn
        cases a with
        | kill pid => cases hn
        | _ => cases ha
      · cases hw.symm.trans hc
    refine (run_invariant (I := fun s => (Inv s ∧ Tidy s) ∧ (∀ p, (s.code p).kills ≠ some (s₁.proc q).pid) ∧
      ((s.proc q).pid = (s₁.proc q).pid → (s.proc q).killed = false)) ?_ hrun ⟨⟨step_inv hi hs, ht.step hi hs hreg⟩, ?_, ?_⟩).2.2
    · rintro s ⟨c, a⟩ s' hs ⟨⟨hi, ht⟩, hno, hq⟩
      obtain ⟨⟨hreg, ha, htrap⟩, hs⟩ := guarded_eq_some.mp hs
      exact ⟨⟨step_inv hi hs, ht.step hi hs hreg⟩, kills_step hi hs ha hno, killed_step hi ht hs hno htrap hq⟩
    · rwa [hpid]
    · intro _
      rw [hp]
      exact (ht.unused q hst).killed

/-- `init` forks; until the child has its slot. -/
def forkRun : List (Fin 1 × Act) := List.replicate 4 (0, .go true) ++ [(0, .fork)] ++ List.replicate 6 (0, .go true)

theorem unused_slots_clean_forkRun :
    ∃ s s₁ : State (Fin 1), run (guarded Regular step) (init (Fin 1)) forkRun = some s ∧ (s.proc 1).state = .unused ∧
      (s.proc 1).Clean ∧ guarded Regular step s (0, .go true) = some s₁ ∧ (s₁.proc 1).state = .used ∧
      (s₁.proc 1).killed = false := by
  have hrun : ((run (guarded Regular step) (init (Fin 1)) forkRun).bind fun s =>
      (guarded Regular step s (0, .go true)).map fun s₁ =>
        decide ((s.proc 1).state = .unused ∧ (s₁.proc 1).state = .used)) = some true := by decide +kernel
  simp only [bind_eq_some_iff, map_eq_some_iff, decide_eq_true_eq] at hrun
  obtain ⟨s, hs, s₁, hs₁, hst, hst₁⟩ := hrun
  obtain ⟨hclean, -, hfork, -⟩ := unused_slots_clean hs
  exact ⟨s, s₁, hs, hst, hclean 1 hst, hs₁, hst₁, hfork 1 _ s₁ [] s₁ hst hs₁ hst₁ (run_nil s₁) rfl⟩

/-- `init` calls `kill(0)`. -/
def killRun : List (Fin 1 × Act) := List.replicate 4 (0, .go true) ++ [(0, .kill 0)] ++ List.replicate 8 (0, .go true)

/-- Whether `kill` returns 0. -/
def succeeds : Code → Bool
  | .killRet v => v == 0
  | _ => false

/-- `kill(0)` returns 0 with no process that has pid 0, and the next process that `fork` creates is killed. -/
theorem unused_slots_clean_fails :
    ∃ s s' : State (Fin 1), run step (init (Fin 1)) killRun = some s ∧ s.code 0 = .killRet 0 ∧
      (∀ q, (s.proc q).state ≠ .unused → (s.proc q).pid ≠ 0) ∧ (s.proc 1).state = .unused ∧ (s.proc 1).killed = true ∧
      run step s ((0, .go true) :: (0, .fork) :: List.replicate 16 (0, .go true)) = some s' ∧
      (s'.proc 1).state = .runnable ∧ (s'.proc 1).pid = 2 ∧ (s'.proc 1).killed = true := by
  have hrun : ((run step (init (Fin 1)) killRun).bind fun s =>
      (run step s ((0, .go true) :: (0, .fork) :: List.replicate 16 (0, .go true))).map fun s' =>
        decide (succeeds (s.code 0) = true ∧ (∀ q, (s.proc q).state ≠ .unused → (s.proc q).pid ≠ 0) ∧
          (s.proc 1).state = .unused ∧ (s.proc 1).killed = true ∧
          (s'.proc 1).state = .runnable ∧ (s'.proc 1).pid = 2 ∧ (s'.proc 1).killed = true)) = some true := by
    decide +kernel
  simp only [bind_eq_some_iff, map_eq_some_iff, decide_eq_true_eq] at hrun
  obtain ⟨s, hs, s', hs', hk, hpid, hst, hkilled, hrest⟩ := hrun
  refine ⟨s, s', hs, ?_, hpid, hst, hkilled, hs', hrest⟩
  unfold succeeds at hk
  split at hk
  · rename_i v hv
    rw [hv, eq_of_beq hk]
  · cases hk

end Xv6.Sched
