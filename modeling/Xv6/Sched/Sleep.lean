import Xv6.Sched.Steps

/-!
# `sleep` and `wakeup`

A process in `sleep(chan, lk)` holds its own lock from before it releases `lk` until it is SLEEPING
and off its CPU.  A `wakeup(chan)` that starts after the release takes that lock on its way through
the table, and so finds the process SLEEPING, or already woken.
-/

namespace Xv6.Sched

open Lib

variable {C : Type} {s s' : State C} {c : C} {p q w : Slot} {chan : Chan} {k k' kr : Code} {e : Eff} {a : Act}

/-- The process is SLEEPING on `chan`, or has released the lock and is about to be. -/
def Sleepy (s : State C) (p : Slot) (chan : Chan) : Prop :=
  (s.proc p).state = .sleeping ∧ (s.proc p).chan = chan ∨ ∃ lk k, s.code p = .act p (.doze chan lk k)

/-- At the release of the lock in `sleep`. -/
def Code.sleeps : Code → Bool
  | .act _ (.sleep _ _ _) => true
  | _ => false

/-- The step is not one by which `p` releases the lock in a call of `sleep`. -/
def Resting (p : Slot) (s : State C) (a : C × Act) : Prop := ¬ (s.exec a.1 = some p ∧ (s.code p).sleeps = true)
  deriving Decidable

lemma next_doze {lk : Lock} (h : next s p a k = some (e, .act q (.doze chan lk k0))) (hwf : k.Wf p) :
    k.sleeps = true := by
  cases next_cases h with
  | call h =>
    unfold call at h
    split at h <;> (try split at h) <;> cases h
  | sleep => rfl
  | lock | unlock | woken => cases hwf.2
  | relock => cases hwf.2.2.entry
  | load => obtain h | h := hwf.2.2 <;> cases h

lemma proc_sleepy (h : Inv s) (hw : s.exec c = some w) (hn : next s w a (s.code w) = some (e, k'))
    (hst : (e.proc s p).state = .sleeping) (hch : (e.proc s p).chan = chan) : Sleepy s p chan := by
  have hm := next_move hn (h.wf w)
  have hon := h.on w ⟨c, hw⟩
  generalize hk : s.code w = k at hm hon
  -- an update of another slot does not concern `p`
  have hother : ∀ u : Upd, e = .upd u → u.slot ≠ p → Sleepy s p chan := by
    rintro u rfl hu
    have hp : Eff.proc s (.upd u) p = s.proc p := Inv.upd_proc_of_ne (Ne.symm hu)
    rw [hp] at hst hch
    exact .inl ⟨hst, hch⟩
  have hself : ∀ u : Upd, e = .upd u → u.slot = p → (u.fn (s.proc p)).state = .sleeping ∧ (u.fn (s.proc p)).chan = chan := by
    rintro u rfl rfl
    have hp : Eff.proc s (.upd u) u.slot = u.fn (s.proc u.slot) := Inv.upd_proc_self u
    rw [hp] at hst hch
    exact ⟨hst, hch⟩
  cases hm with
  | stay hsw hk' hch' hmem he =>
    obtain rfl | ⟨l, rfl⟩ | ⟨l, rfl⟩ | ⟨u, rfl, hu⟩ := he
    · exact .inl ⟨hst, hch⟩
    · exact .inl ⟨hst, hch⟩
    · exact .inl ⟨hst, hch⟩
    · by_cases hup : u.slot = p
      · obtain ⟨h1, h2⟩ := hself u rfl hup
        cases hu with
        | tidy =>
          -- the thread is RUNNING when it clears `p->chan`
          obtain rfl : w = p := hup
          rw [onCpu_iff hsw] at hon
          rw [show ((Upd.tidy w).fn (s.proc w)).state = (s.proc w).state from rfl, hon.2] at h1
          cases h1
        | _ => exact .inl ⟨h1, h2⟩
      · exact hother u rfl hup
  | @wake q ch k =>
    by_cases hup : q = p
    · obtain ⟨h1, h2⟩ := hself (.wake q ch) rfl hup
      simp only [Upd.fn] at h1 h2
      split at h1
      · cases h1
      · rename_i hno
        rw [if_neg hno] at h2
        exact .inl ⟨h1, h2⟩
    · exact hother (.wake q ch) rfl hup
  | @kill q pid l hq =>
    by_cases hup : q = p
    · obtain ⟨h1, h2⟩ := hself (.kill q) rfl hup
      simp only [Upd.fn] at h1 h2
      split at h1
      · cases h1
      · exact .inl ⟨h1, h2⟩
    · exact hother (.kill q) rfl hup
  | @doze ch lk k =>
    by_cases hup : w = p
    · subst hup
      obtain ⟨-, h2⟩ := hself (.doze w ch) rfl rfl
      obtain rfl : ch = chan := h2
      exact .inr ⟨lk, k, hk⟩
    · exact hother (.doze w ch) rfl hup
  | save | load | exitRel => exact .inl ⟨hst, hch⟩
  | @mem q =>
    by_cases hup : q = p
    · exact .inl (hself (.mem q) rfl hup)
    · exact hother (.mem q) rfl hup
  | yield | zombie =>
    by_cases hup : w = p
    · cases (hself _ rfl hup).1
    · exact hother _ rfl hup
  | @alloc q | @fail _ q | @runnable q | @reap q =>
    by_cases hup : q = p
    · cases (hself _ rfl hup).1
    · exact hother _ rfl hup

lemma sleepy_step [DecidableEq C] (h : Inv s) (hs : step s (c, a) = some s') (hrest : Resting p s (c, a))
    (hsl : Sleepy s' p chan) : Sleepy s p chan := by
  obtain ⟨w, e, k', hw, hn, hproc, hcode⟩ | ⟨-, hcode, hm⟩ := step_cases hs
  · obtain ⟨hst, hch⟩ | ⟨lk, k, hk⟩ := hsl
    · rw [hproc] at hst hch
      exact proc_sleepy h hw hn hst hch
    · rw [hcode] at hk
      by_cases hpw : p = w
      · subst hpw
        rw [Function.update_self] at hk
        subst hk
        exact absurd ⟨hw, next_doze hn (h.wf p)⟩ hrest
      · obtain hsame | ⟨-, hsame, -⟩ := code_step h hn hpw
        · exact .inr ⟨lk, k, hsame ▸ hk⟩
        · rw [hsame] at hk
          cases hk
  · obtain ⟨hst, hch⟩ | ⟨lk, k, hk⟩ := hsl
    · cases hm with
      | stay hp =>
        rw [hp] at hst hch
        exact .inl ⟨hst, hch⟩
      | @pick i hk hr hp =>
        rw [hp] at hst hch
        by_cases hpi : p = i
        · subst hpi
          have := Inv.upd_proc_self (s := s) (.running p)
          rw [show (Upd.running p).slot = p from rfl] at this
          rw [this] at hst
          cases hst
        · rw [Inv.upd_proc_of_ne (u := .running i) hpi] at hst hch
          exact .inl ⟨hst, hch⟩
      | @wake q i ch l hk hp =>
        rw [hp] at hst hch
        by_cases hpq : p = q
        · subst hpq
          have := Inv.upd_proc_self (s := s) (.wake p ch)
          rw [show (Upd.wake p ch).slot = p from rfl] at this
          rw [this] at hst hch
          simp only [Upd.fn] at hst hch
          split at hst
          · cases hst
          · rename_i hno
            rw [if_neg hno] at hch
            exact .inl ⟨hst, hch⟩
        · rw [Inv.upd_proc_of_ne (u := .wake q ch) hpq] at hst hch
          exact .inl ⟨hst, hch⟩
    · exact .inr ⟨lk, k, hcode ▸ hk⟩

/-! ### The way of `wakeup` through the table -/

mutual

/-- A call of `wakeup(chan)` that returns to `kr` has still to look at slot `p`. -/
def Code.Pending (chan : Chan) (p : Slot) (kr : Code) : Code → Prop
  | .wakeup ch l k => ch = chan ∧ p ∈ l ∧ k = kr ∨ Code.Pending chan p kr k
  | .lock q o | .act q o => Op.Pending chan p kr q o
  | .unlock _ k | .save k | .load k | .relock _ k => Code.Pending chan p kr k
  | _ => False

def Op.Pending (chan : Chan) (p : Slot) (kr : Code) (q : Slot) : Op → Prop
  | .wake ch k => (q = p ∧ ch = chan ∧ ∃ l, k = .wakeup chan l kr) ∨ Code.Pending chan p kr k
  | .yield k | .sleep _ _ k | .doze _ _ k | .tidy _ k => Code.Pending chan p kr k
  | _ => False

end

mutual

lemma Code.Pending.sizeOf_lt : (k : Code) → Code.Pending chan p kr k → sizeOf kr < sizeOf k
  | .wakeup ch l k, h => by
    obtain ⟨-, -, rfl⟩ | h := h
    · simp only [Code.wakeup.sizeOf_spec]
      omega
    · have := Code.Pending.sizeOf_lt k h
      simp only [Code.wakeup.sizeOf_spec]
      omega
  | .lock q o, h => by
    have := Op.Pending.sizeOf_lt q o h
    simp only [Code.lock.sizeOf_spec]
    omega
  | .act q o, h => by
    have := Op.Pending.sizeOf_lt q o h
    simp only [Code.act.sizeOf_spec]
    omega
  | .unlock q k, h => by
    have := Code.Pending.sizeOf_lt k h
    simp only [Code.unlock.sizeOf_spec]
    omega
  | .save k, h => by
    have := Code.Pending.sizeOf_lt k h
    simp only [Code.save.sizeOf_spec]
    omega
  | .load k, h => by
    have := Code.Pending.sizeOf_lt k h
    simp only [Code.load.sizeOf_spec]
    omega
  | .relock lk k, h => by
    have := Code.Pending.sizeOf_lt k h
    simp only [Code.relock.sizeOf_spec]
    omega
  | .run _, h | .kill _ _, h | .killRet _, h | .exitWait _, h | .reparent _ _, h | .fork _, h | .forkWait _, h | .forkParent _, h
  | .forkRelWait _, h | .waitLock, h | .scan _ _, h | .waitRet _, h | .dead, h => h.elim

lemma Op.Pending.sizeOf_lt (q : Slot) : (o : Op) → Op.Pending chan p kr q o → sizeOf kr < sizeOf o
  | .wake ch k, h => by
    obtain ⟨-, -, l, rfl⟩ | h := h
    · simp only [Op.wake.sizeOf_spec, Code.wakeup.sizeOf_spec]
      omega
    · have := Code.Pending.sizeOf_lt k h
      simp only [Op.wake.sizeOf_spec]
      omega
  | .yield k, h => by
    have := Code.Pending.sizeOf_lt k h
    simp only [Op.yield.sizeOf_spec]
    omega
  | .sleep ch lk k, h => by
    have := Code.Pending.sizeOf_lt k h
    simp only [Op.sleep.sizeOf_spec]
    omega
  | .doze ch lk k, h => by
    have := Code.Pending.sizeOf_lt k h
    simp only [Op.doze.sizeOf_spec]
    omega
  | .tidy lk k, h => by
    have := Code.Pending.sizeOf_lt k h
    simp only [Op.tidy.sizeOf_spec]
    omega
  | .kill _ _, h | .setkilled, h | .zombie _, h | .exitRel, h | .alloc _, h | .mem, h | .copy, h | .runnable, h
  | .reap _, h | .killed, h => h.elim

end

lemma not_pending_self : ¬ Code.Pending chan p kr kr := fun h => lt_irrefl _ (Code.Pending.sizeOf_lt kr h)

lemma next_pending (h : next s w a k = some (e, k')) (hk : Code.Pending chan p kr k) (hw : w ≠ p) :
    Code.Pending chan p kr k' ∨ ∃ k0, k = .act p (.wake chan k0) ∧ e = .upd (.wake p chan) := by
  cases next_cases h with
  | intr => exact .inl (.inr hk)
  | tick | lock | unlock | save | load | relock | yield | sleep | doze | tidy => exact .inl hk
  | wake =>
    obtain ⟨rfl, rfl, -⟩ | hk := hk
    · exact .inr ⟨_, rfl, rfl⟩
    · exact .inl hk
  | woken =>
    obtain ⟨-, hp, -⟩ | hk := hk
    · cases hp
    · exact .inl hk
  | wakeSelf hq =>
    obtain ⟨hch, hp, hk⟩ | hk := hk
    · exact .inl (.inl ⟨hch, (List.mem_cons.mp hp).resolve_left (hq ▸ Ne.symm hw), hk⟩)
    · exact .inl (.inr hk)
  | wakeNext =>
    obtain ⟨rfl, hp, rfl⟩ | hk := hk
    · obtain rfl | hp := List.mem_cons.mp hp
      · exact .inl (.inl ⟨rfl, rfl, _, rfl⟩)
      · exact .inl (.inr (.inl ⟨rfl, hp, rfl⟩))
    · exact .inl (.inr (.inr hk))
  | fail ho => obtain rfl | rfl := ho <;> exact hk.elim
  | _ => exact hk.elim

lemma not_dozing (h : Inv s) (hw : s.exec c = some w) (hlock : .proc p ∈ s.held c) (hwp : w ≠ p) {lk : Lock} :
    s.code p ≠ .act p (.doze chan lk k) := by
  intro hk
  by_cases hon : s.On p
  · obtain ⟨c', hc'⟩ := hon
    have hp : .proc p ∈ s.held c' := by
      rw [Inv.held_on hc', hk]
      exact List.mem_cons_self
    obtain rfl := h.locks.eq_of_mem hp hlock
    exact hwp (Option.some.inj (hw.symm.trans hc'))
  · obtain hd | hr := h.off_code hon
    · rw [hk] at hd
      cases hd
    · rw [hk] at hr
      exact hr

lemma woken [DecidableEq C] (h : Inv s) (hw : s.exec c = some w) (hwp : w ≠ p) (hk : s.code w = .act p (.wake chan k0))
    (hproc : s'.proc = Eff.proc s (.upd (.wake p chan))) (hcode : s'.code p = s.code p) : ¬ Sleepy s' p chan := by
  have hlock : .proc p ∈ s.held c := by
    rw [Inv.held_on hw, hk]
    exact List.mem_cons_self
  rintro (⟨hst, hch⟩ | ⟨lk, k, hd⟩)
  · rw [hproc] at hst hch
    have hself : Eff.proc s (.upd (.wake p chan)) p = (Upd.wake p chan).fn (s.proc p) := Inv.upd_proc_self (.wake p chan)
    rw [hself] at hst hch
    simp only [Upd.fn] at hst hch
    split at hst
    · cases hst
    · rename_i hno
      rw [if_neg hno] at hch
      exact hno ⟨hst, hch⟩
  · rw [hcode] at hd
    exact not_dozing h hw hlock hwp hd

/-- **One step** while `w` is in `wakeup(chan)`: slot `p` is left to be looked at, or is not asleep. -/
lemma pending_step [DecidableEq C] (h : Inv s) (hs : step s (c, a) = some s') (hrest : Resting p s (c, a)) (hwp : w ≠ p)
    (hpd : Code.Pending chan p kr (s.code w) ∨ ¬ Sleepy s p chan) : Code.Pending chan p kr (s'.code w) ∨ ¬ Sleepy s' p chan := by
  obtain hpd | hpd := hpd
  · obtain ⟨x, e, k', hx, hn, hproc, hcode⟩ | ⟨-, hcode, -⟩ := step_cases hs
    · rw [hcode]
      by_cases hwx : w = x
      · subst hwx
        rw [Function.update_self]
        obtain hpd | ⟨k0, hk, rfl⟩ := next_pending hn hpd hwp
        · exact .inl hpd
        · refine .inr (woken h hx hwp hk hproc ?_)
          rw [hcode, Function.update_of_ne (Ne.symm hwp)]
          rfl
      · obtain hsame | ⟨-, -, hidle⟩ := code_step h hn hwx
        · rw [hsame]
          exact .inl hpd
        · obtain hi | hi := hidle <;> rw [hi] at hpd <;> exact hpd.elim
    · rw [hcode]
      exact .inl hpd
  · exact .inr fun hsl => hpd (sleepy_step h hs hrest hsl)

/-- **A whole call** of `wakeup(chan)` that does not overlap the start of a sleep of `p`. -/
lemma pending_run [DecidableEq C] {as : List (C × Act)} (h : Inv s) (hwp : w ≠ p)
    (hrun : run (guarded (Resting p) step) s as = some s')
    (hpd : Code.Pending chan p kr (s.code w) ∨ ¬ Sleepy s p chan) : Code.Pending chan p kr (s'.code w) ∨ ¬ Sleepy s' p chan := by
  refine (run_invariant (I := fun s => Inv s ∧ (Code.Pending chan p kr (s.code w) ∨ ¬ Sleepy s p chan)) ?_ hrun ⟨h, hpd⟩).2
  rintro s ⟨c, a⟩ s' hs ⟨hi, hpd⟩
  obtain ⟨hrest, hs⟩ := guarded_eq_some.mp hs
  exact ⟨step_inv hi hs, pending_step hi hs hrest hwp hpd⟩

/-! ### No lost wakeup -/

section

variable [DecidableEq C]

/-- In its call of `sleep(chan, lk)` process `p` releases `lk`. -/
structure Releases (s : State C) (p : Slot) (chan : Chan) (lk : Lock) (s' : State C) : Prop where
  code : ∃ k, s.code p = .act p (.sleep chan lk k)
  step : ∃ c ok, s.exec c = some p ∧ step s (c, .go ok) = some s'

/-- Process `w` acquires `lk`. -/
structure Acquires (s : State C) (w : Slot) (lk : Lock) (s' : State C) : Prop where
  free : s.lock lk = none
  step : ∃ c a, s.exec c = some w ∧ step s (c, a) = some s' ∧ s'.lock lk = some c

/-- In `wakeup(chan)`. -/
def Code.InWakeup (chan : Chan) : Code → Prop
  | .wakeup ch _ _ | .lock _ (.wake ch _) | .act _ (.wake ch _) | .unlock _ (.wakeup ch _ _) => ch = chan
  | _ => False

def SCode.InWakeup (chan : Chan) : SCode → Prop
  | .wakeup ch _ _ | .wake ch _ _ _ | .wakeRel ch _ _ _ => ch = chan
  | _ => False

/-- CPU `c` is in `wakeup(chan)`, called by a process or by an interrupt handler. -/
def State.InWakeup (s : State C) (c : C) (chan : Chan) : Prop :=
  match s.exec c with
  | some w => (s.code w).InWakeup chan
  | none => (s.scode c).InWakeup chan

lemma wake_fn_other (hx : ¬ (x.state = .sleeping ∧ x.chan = chan)) : (Upd.wake q chan).fn x = x := if_neg hx

omit [DecidableEq C] in
lemma upd_wake_other (hr : ¬ ((s.proc r).state = .sleeping ∧ (s.proc r).chan = chan)) :
    (s.upd (.wake q chan)).proc r = s.proc r := by
  by_cases hq : r = q
  · subst hq
    exact (Inv.upd_proc_self (.wake r chan)).trans (wake_fn_other hr)
  · exact Inv.upd_proc_of_ne hq

lemma inWakeup_step (hin : s.InWakeup c chan) (hs : step s (c, a) = some s')
    (hr : ¬ ((s.proc r).state = .sleeping ∧ (s.proc r).chan = chan)) : s'.proc r = s.proc r := by
  obtain ⟨w, e, k', hw, hn, hproc, -⟩ | ⟨hc, -, hm⟩ := step_cases hs
  · rw [State.InWakeup, hw] at hin
    change (s.code w).InWakeup chan at hin
    rw [hproc]
    have key : e = .none ∨ (∃ l, e = .acquire l) ∨ (∃ l, e = .release l) ∨ ∃ q, e = .upd (.wake q chan) := by
      generalize s.code w = k at hin hn
      cases next_cases hn with
      | tick | intr | woken | wakeSelf | wakeNext => exact .inl rfl
      | lock => exact .inr (.inl ⟨_, rfl⟩)
      | unlock => exact .inr (.inr (.inl ⟨_, rfl⟩))
      | @wake _ q ch =>
        obtain rfl : ch = chan := hin
        exact .inr (.inr (.inr ⟨q, rfl⟩))
      | fail ho => obtain rfl | rfl := ho <;> exact hin.elim
      | _ => exact hin.elim
    obtain rfl | ⟨l, rfl⟩ | ⟨l, rfl⟩ | ⟨q, rfl⟩ := key
    · rfl
    · rfl
    · rfl
    · exact upd_wake_other hr
  · rw [State.InWakeup, hc] at hin
    change (s.scode c).InWakeup chan at hin
    cases hm with
    | stay hp => rw [hp]
    | pick hk hst hp =>
      rw [hk] at hin
      exact hin.elim
    | wake hk hp =>
      rw [hk] at hin
      obtain rfl : _ = chan := hin
      rw [hp]
      exact upd_wake_other hr

/-- **No wakeup is lost.**  Process `p` has called `sleep(chan, lk)`; after it has released `lk`
another process `w` acquires `lk`, and then calls `wakeup(chan)` and returns from it.  If `p` makes no
further call of `sleep` meanwhile, it is not SLEEPING on `chan`.  And `wakeup(chan)` changes no
process that is not SLEEPING on `chan`. -/
theorem wakeup_not_lost {s₀ : State C} {acts : List (C × Act)} (h : run step (init C) acts = some s₀) :
    (∀ {p w : Slot} {chan : Chan} {lk : Lock} {kr : Code} {s₁ s₂ s₃ s₄ s₅ : State C} {as₁ as₂ as₃ : List (C × Act)},
      w ≠ p → Releases s₀ p chan lk s₁ → run (guarded (Resting p) step) s₁ as₁ = some s₂ → Acquires s₂ w lk s₃ →
      run (guarded (Resting p) step) s₃ as₂ = some s₄ → s₄.code w = .wakeup chan slots kr →
      run (guarded (Resting p) step) s₄ as₃ = some s₅ → s₅.code w = kr →
      ¬ ((s₅.proc p).state = .sleeping ∧ (s₅.proc p).chan = chan)) ∧
    ∀ {c : C} {a : Act} {chan : Chan} {s₁ : State C}, s₀.InWakeup c chan → step s₀ (c, a) = some s₁ →
      ∀ r, ¬ ((s₀.proc r).state = .sleeping ∧ (s₀.proc r).chan = chan) → s₁.proc r = s₀.proc r := by
  refine ⟨?_, fun hin hs r hr => inWakeup_step hin hs hr⟩
  intro p w chan lk kr s₁ s₂ s₃ s₄ s₅ as₁ as₂ as₃ hwp hrel hrun₁ hacq hrun₂ hcall hrun₃ hret hst
  have hinv {s s' : State C} {as : List (C × Act)} (hi : Inv s) (hr : run (guarded (Resting p) step) s as = some s') :
      Inv s' := run_invariant (fun _ _ _ hs h => step_inv h hs) (run_of_guarded hr) hi
  obtain ⟨c₁, ok, -, hs₁⟩ := hrel.step
  obtain ⟨c₂, a, -, hs₂, -⟩ := hacq.step
  have hi₄ : Inv s₄ := hinv (step_inv (hinv (step_inv (run_inv h) hs₁) hrun₁) hs₂) hrun₂
  have hpd : Code.Pending chan p kr (s₄.code w) := by
    rw [hcall]
    exact .inl ⟨rfl, List.mem_finRange p, rfl⟩
  obtain hpd' | hsl := pending_run hi₄ hwp hrun₃ (.inl hpd)
  · rw [hret] at hpd'
    exact not_pending_self hpd'
  · exact hsl (.inl hst)

end

/-- What can be seen of a thread: the locks that code outside `proc.c` holds, a call of `sleep`, or a
call of `wakeup`. -/
def Code.inRun : Code → Option (List ℕ)
  | .run lks => some lks
  | _ => none

def Code.inSleep : Code → Option (Slot × Chan × Lock)
  | .act q (.sleep chan lk _) => some (q, chan, lk)
  | _ => none

def Code.inWakeup : Code → Option (Chan × List Slot × Option (List ℕ))
  | .wakeup chan l k => some (chan, l, k.inRun)
  | _ => none

lemma eq_of_inRun {lks : List ℕ} (h : k.inRun = some lks) : k = .run lks := by
  cases k <;> cases h
  rfl

lemma eq_of_inSleep {lk : Lock} (h : k.inSleep = some (q, chan, lk)) : ∃ k0, k = .act q (.sleep chan lk k0) := by
  cases k with
  | act x o =>
    cases o <;> cases h
    exact ⟨_, rfl⟩
  | _ => cases h

lemma eq_of_inWakeup {lks : List ℕ} (h : k.inWakeup = some (chan, l, some lks)) :
    k = .wakeup chan l (.run lks) := by
  cases k with
  | wakeup ch l' k =>
    simp only [Code.inWakeup, Option.some.injEq, Prod.mk.injEq] at h
    rw [h.1, h.2.1, eq_of_inRun h.2.2]
  | _ => cases h

/-- CPU `c` goes on for `n` steps. -/
def goes (c : Fin 2) (n : ℕ) : List (Fin 2 × Act) := List.replicate n (c, .go true)

/-- `init` forks; the child runs on the second CPU, and `init` calls `sleep`. -/
def sleepRun : List (Fin 2 × Act) :=
  goes 0 4 ++ [(0, .fork)] ++ goes 0 16 ++ goes 1 7 ++ [(0, .acquire 0), (0, .sleep 0 0)] ++ goes 0 1

theorem wakeup_not_lost_sleepRun : ∃ s₀ s₁ s₂ s₃ s₄ : State (Fin 2), run step (init (Fin 2)) sleepRun = some s₀ ∧
      Releases s₀ 0 (.other 0) (.other 0) s₁ ∧ Acquires s₁ 1 (.other 0) s₂ ∧
      s₃.code 1 = .wakeup (.other 0) slots (.run [0]) ∧ s₄.code 1 = .run [0] ∧
      ¬ ((s₄.proc 0).state = .sleeping ∧ (s₄.proc 0).chan = .other 0) := by
  have hrun : ((run step (init (Fin 2)) sleepRun).bind fun s₀ => (step s₀ (0, .go true)).bind fun s₁ =>
      (step s₁ (1, .acquire 0)).bind fun s₂ => (run (guarded (Resting 0) step) s₂ [(1, .wakeup 0)]).bind fun s₃ =>
      (run (guarded (Resting 0) step) s₃ (goes 0 5 ++ goes 1 254)).map fun s₄ =>
        decide ((s₀.code 0).inSleep = some (0, .other 0, .other 0) ∧ s₀.exec 0 = some 0 ∧
          s₁.lock (.other 0) = none ∧ s₁.exec 1 = some 1 ∧ s₂.lock (.other 0) = some 1 ∧
          (s₃.code 1).inWakeup = some (.other 0, slots, some [0]) ∧ (s₄.code 1).inRun = some [0])) = some true := by
    decide +kernel
  simp only [Option.bind_eq_some_iff, Option.map_eq_some_iff, decide_eq_true_eq] at hrun
  obtain ⟨s₀, h₀, s₁, h₁, s₂, h₂, s₃, h₃, s₄, h₄, hk₀, he₀, hl₁, he₁, hl₂, hk₃, hk₄⟩ := hrun
  replace hk₃ := eq_of_inWakeup hk₃
  replace hk₄ := eq_of_inRun hk₄
  have hrel : Releases s₀ 0 (.other 0) (.other 0) s₁ := ⟨eq_of_inSleep hk₀, 0, true, he₀, h₁⟩
  have hacq : Acquires s₁ 1 (.other 0) s₂ := ⟨hl₁, 1, _, he₁, h₂, hl₂⟩
  exact ⟨s₀, s₁, s₂, s₃, s₄, h₀, hrel, hacq, hk₃, hk₄,
    (wakeup_not_lost h₀).1 (by decide) hrel (run_nil s₁) hacq h₃ hk₃ h₄ hk₄⟩

end Xv6.Sched
