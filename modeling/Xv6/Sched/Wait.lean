import Xv6.Sched.Family

/-!
# `wait` and `exit`

`wait_lock` is held from the first look at a slot in `wait` until the process sleeps, and from before
`exit` wakes the parent until the child is a ZOMBIE.  So a process that goes to sleep in `wait` has no
ZOMBIE child, and a child that becomes a ZOMBIE, or that `init` inherits, finds its parent awake.
-/

namespace Xv6.Sched

open Lib List

variable {C : Type} {s s' : State C} {c : C} {p q r w z : Slot} {k k' : Code} {e : Eff} {a : Act}

/-! ### The loop of `wait` -/

/-- What `wait` knows: whether it has seen a child, which slots are left, and at which child it is. -/
structure View where
  havekids : Bool
  left : List Slot
  child : Option Slot

mutual

def Code.view : Code → Option View
  | .scan b l => some ⟨b, l, none⟩
  | .lock q o | .act q o => o.view q
  | .unlock _ k | .save k | .load k | .wakeup _ _ k => k.view
  | _ => none

def Op.view (q : Slot) : Op → Option View
  | .reap l => some ⟨true, q :: l, some q⟩
  | .killed | .sleep (.proc _) _ _ => some ⟨true, [], none⟩
  | .yield k | .wake _ k => k.view
  | _ => none

end

mutual

lemma wait_mem_of_view : (k : Code) → k.Wf p → k.view = some v → .wait ∈ k.held p
  | .scan _ _, _, _ => mem_singleton_self _
  | .lock q o, hwf, h => op_wait_mem_of_view q o hwf.1 h
  | .act q o, hwf, h => mem_cons_of_mem _ (op_wait_mem_of_view q o hwf h)
  | .unlock _ k, hwf, h => mem_cons_of_mem _ (wait_mem_of_view k hwf.1 h)
  | .save k, hwf, h | .load k, hwf, h => by
    have := wait_mem_of_view k hwf.2.1 h
    rw [hwf.1] at this
    cases mem_singleton.mp this
  | .wakeup _ _ k, hwf, h => wait_mem_of_view k hwf.1 h

lemma op_wait_mem_of_view (q : Slot) : (o : Op) → o.Wf p q → o.view q = some v → .wait ∈ o.held p
  | .reap _, _, _ => mem_singleton_self _
  | .killed, _, _ => mem_singleton_self _
  | .sleep (.proc x) lk k, hwf, _ => by
    obtain ⟨-, rfl⟩ := hwf.2.2 x rfl
    exact mem_singleton_self _
  | .yield k, hwf, h => by
    have := wait_mem_of_view k hwf.2.2.1 h
    rw [hwf.2.1] at this
    cases this
  | .wake _ k, hwf, h => wait_mem_of_view k hwf.1 h

end

/-- The updates that change a parent or make a ZOMBIE. -/
def Eff.Kin : Eff → Prop
  | .upd (.reparent _) | .upd (.parent _ _) | .upd (.zombie _ _) | .upd (.free _) => True
  | _ => False

lemma next_view (h : next s p a k = some (e, k')) (hwf : k.Wf p) (hv : k'.view = some v) :
    ¬ e.Kin ∧ (k.view = some v ∨ v = ⟨false, slots, none⟩ ∨ ∃ v0, k.view = some v0 ∧
        ((v0.havekids = true → v.havekids = true) ∧ (v0.left = v.left ∨ ∃ q, v0.left = q :: v.left ∧
            ((s.proc q).parent ≠ some p ∨ (s.proc q).state ≠ .zombie ∧ v.havekids = true))) ∧
        ∀ q, v.child = some q → (s.proc q).parent = some p) := by
  cases next_cases h with
  | call h =>
    unfold call at h
    split at h <;> (try split at h) <;> cases h <;> cases hv
  | tick | intr | lock | unlock | save | load | woken | wakeSelf | wakeNext | yield | wake | killedNot =>
    exact ⟨nofun, .inl hv⟩
  | @reapNot q _ _ hz =>
    cases hv
    exact ⟨nofun, .inr (.inr ⟨_, rfl, ⟨fun _ => rfl, .inr ⟨q, rfl, .inr ⟨hz, rfl⟩⟩⟩, nofun⟩)⟩
  | scanKids =>
    cases hv
    exact ⟨nofun, .inr (.inr ⟨_, rfl, ⟨fun _ => rfl, .inl rfl⟩, nofun⟩)⟩
  | scan hq =>
    cases hv
    refine ⟨nofun, .inr (.inr ⟨_, rfl, ⟨fun _ => rfl, .inl rfl⟩, ?_⟩)⟩
    rintro q ⟨⟩
    exact hq
  | @scanNot q _ _ _ hq =>
    cases hv
    exact ⟨nofun, .inr (.inr ⟨_, rfl, ⟨id, .inr ⟨q, rfl, .inl hq⟩⟩, nofun⟩)⟩
  | waitLock =>
    cases hv
    exact ⟨nofun, .inr (.inl rfl)⟩
  | relock =>
    obtain ⟨lks, rfl⟩ | rfl := hwf.2.2 <;> cases hv
    exact ⟨nofun, .inr (.inl rfl)⟩
  | _ => cases hv

/-! ### The wakeups of `exit` -/

/-- The thread `r` is on its way to wake `p`, with `wait_lock` held. -/
def Code.Rouses (r p : Slot) : Code → Prop
  | .wakeup ch l k | .unlock _ (.wakeup ch l k) => ch = .proc p ∧ p ∈ l ∧ k.held r = [.wait]
  | .lock q (.wake ch (.wakeup ch' l k)) | .act q (.wake ch (.wakeup ch' l k)) =>
    ch = .proc p ∧ ch' = .proc p ∧ (p = q ∨ p ∈ l) ∧ k.held r = [.wait]
  | _ => False

lemma wait_mem_of_rouses (h : k.Rouses r p) : .wait ∈ k.held r := by
  cases k with
  | wakeup ch l k => simp [Code.held, h.2.2]
  | lock q o =>
    cases o with
    | wake ch k =>
      cases k with
      | wakeup ch' l k => simp [Code.held, Op.held, h.2.2.2]
      | _ => exact h.elim
    | _ => exact h.elim
  | act q o =>
    cases o with
    | wake ch k =>
      cases k with
      | wakeup ch' l k => simp [Code.held, Op.held, h.2.2.2]
      | _ => exact h.elim
    | _ => exact h.elim
  | unlock q k =>
    cases k with
    | wakeup ch l k => simp [Code.held, h.2.2]
    | _ => exact h.elim
  | _ => exact h.elim

lemma next_rouses (h : next s r a k = some (e, k')) (hk : k.Rouses r p) (hrp : r ≠ p) :
    k'.Rouses r p ∨ ∃ k0, k = .act p (.wake (.proc p) k0) ∧ e = .upd (.wake p (.proc p)) := by
  have hwait := wait_mem_of_rouses hk
  cases next_cases h with
  | tick hheld | intr hheld =>
    rw [hheld] at hwait
    cases hwait
  | woken => cases hk.2.1
  | wakeSelf hq => exact .inl ⟨hk.1, (mem_cons.mp hk.2.1).resolve_left (hq ▸ Ne.symm hrp), hk.2.2⟩
  | wakeNext => exact .inl ⟨hk.1, hk.1, mem_cons.mp hk.2.1, hk.2.2⟩
  | @lock _ q o =>
    cases o with
    | wake ch k =>
      cases k with
      | wakeup => exact .inl hk
      | _ => exact hk.elim
    | _ => exact hk.elim
  | @wake _ q ch k =>
    cases k with
    | wakeup =>
      obtain ⟨rfl, rfl, rfl | hp, hheld⟩ := hk
      · exact .inr ⟨_, rfl, rfl⟩
      · exact .inl ⟨rfl, hp, hheld⟩
    | _ => exact hk.elim
  | unlock =>
    cases k' with
    | wakeup => exact .inl hk
    | _ => exact hk.elim
  | fail ho => obtain rfl | rfl := ho <;> exact hk.elim
  | _ => exact hk.elim

mutual

/-- In `exit` after `reparent`, before the process is a ZOMBIE. -/
def Code.tail : Code → Bool
  | .lock _ o | .act _ o => o.tail
  | .unlock _ k | .wakeup _ _ k => k.tail
  | _ => false

def Op.tail : Op → Bool
  | .zombie _ => true
  | .wake _ k => k.tail
  | _ => false

end

mutual

lemma wait_mem_of_tail : (k : Code) → k.tail = true → .wait ∈ k.held r
  | .lock _ o, h => op_wait_mem_of_tail o h
  | .act _ o, h => mem_cons_of_mem _ (op_wait_mem_of_tail o h)
  | .unlock _ k, h => mem_cons_of_mem _ (wait_mem_of_tail k h)
  | .wakeup _ _ k, h => wait_mem_of_tail k h

lemma op_wait_mem_of_tail : (o : Op) → o.tail = true → .wait ∈ o.held r
  | .zombie _, _ => mem_singleton_self _
  | .wake _ k, h => wait_mem_of_tail k h

end

lemma next_tail (h : next s r a k = some (e, k')) (hwf : k.Wf r) (hk' : k'.tail = true) : ¬ e.Kin ∧ (k.tail = true ∨
      ∃ status, k' = .wakeup (parentChan (s.proc r).parent) slots (.lock r (.zombie status)) ∧ e = .none) := by
  cases next_cases h with
  | call h =>
    unfold call at h
    split at h <;> (try split at h) <;> cases h <;> cases hk'
  | intr | lock | unlock | woken | wakeSelf | wakeNext | wake => exact ⟨nofun, .inl hk'⟩
  | reparented => exact ⟨nofun, .inr ⟨_, rfl, rfl⟩⟩
  | relock => obtain ⟨lks, rfl⟩ | rfl := hwf.2.2 <;> cases hk'
  | load =>
    -- what `swtch` comes back to holds no lock but its own
    have hmem := wait_mem_of_tail (r := r) _ hk'
    rw [hwf.1] at hmem
    cases mem_singleton.mp hmem
  | _ => cases hk'

/-! ### What holds while `wait_lock` is held -/

lemma Inv.off_held (h : Inv s) (hp : ¬ s.On p) : (s.code p).held p = [.proc p] := by
  have hoff := h.off p hp
  have hidle : (s.proc p).state = .unused ∨ (s.proc p).state = .used → (s.code p).held p = [.proc p] := by
    intro hst
    obtain hk | hk := hoff.idle hst <;> rw [hk] <;> rfl
  cases hst : (s.proc p).state with
  | unused => exact hidle (.inl hst)
  | used => exact hidle (.inr hst)
  | zombie => rw [hoff.dead hst]; rfl
  | runnable => exact (hoff.ready (.inl hst)).2.1
  | sleeping => exact (hoff.ready (.inr (.inl hst))).2.1
  | running => exact (hoff.ready (.inr (.inr hst))).2.1

lemma Inv.on_of_wait (h : Inv s) (hp : .wait ∈ (s.code p).held p) : ∃ c, s.exec c = some p ∧ .wait ∈ s.held c := by
  by_cases hon : s.On p
  · obtain ⟨c, hc⟩ := hon
    exact ⟨c, hc, Inv.held_on hc ▸ hp⟩
  · rw [h.off_held hon] at hp
    cases mem_singleton.mp hp

lemma Inv.wait_unique (h : Inv s) (hp : .wait ∈ (s.code p).held p) (hq : .wait ∈ (s.code q).held q) : p = q := by
  obtain ⟨c, hc, hm⟩ := h.on_of_wait hp
  obtain ⟨c', hc', hm'⟩ := h.on_of_wait hq
  obtain rfl := h.locks.eq_of_mem hm hm'
  exact Option.some.inj (hc.symm.trans hc')

lemma wait_frame [DecidableEq C] (h : Inv s) (hs : step s (c, a) = some s') (hp : .wait ∈ (s.code p).held p)
    (hne : s.exec c ≠ some p) (z : Slot) :
    ((s'.proc z).parent = (s.proc z).parent ∨ (s'.proc z).parent = none ∧ (s'.proc z).state = .unused) ∧
      ((s'.proc z).state = .zombie → (s.proc z).state = .zombie) := by
  constructor
  · obtain hz | ⟨w, st, l, hw, hk, -⟩ | ⟨w, hw, hk, -⟩ | hz := parent_step h hs z
    · exact .inl hz
    · have := h.wait_unique hp (q := w) (by rw [hk]; exact mem_singleton_self _)
      exact absurd (this ▸ hw) hne
    · have := h.wait_unique hp (q := w) (by rw [hk]; exact mem_singleton_self _)
      exact absurd (this ▸ hw) hne
    · exact .inr hz
  · intro hz
    obtain hz | ⟨hw, st, hk⟩ := zombie_step h hs hz
    · exact hz
    · have := h.wait_unique hp (q := z) (by rw [hk]; exact mem_cons_of_mem _ (mem_singleton_self _))
      exact absurd (this ▸ hw) hne

lemma kin_frame (he : ¬ e.Kin) (z : Slot) :
    (e.proc s z).parent = (s.proc z).parent ∧ ((e.proc s z).state = .zombie → (s.proc z).state = .zombie) := by
  cases e with
  | upd u =>
    by_cases hz : z = u.slot
    · subst hz
      have hself : Eff.proc s (.upd u) u.slot = u.fn (s.proc u.slot) := Inv.upd_proc_self u
      rw [hself]
      cases u with
      | wake q chan =>
        simp only [Upd.fn]
        split
        · exact ⟨rfl, by rintro ⟨⟩⟩
        · exact ⟨rfl, id⟩
      | kill q =>
        simp only [Upd.fn]
        split
        · exact ⟨trivial, by rintro ⟨⟩⟩
        · exact ⟨trivial, id⟩
      | reparent q | parent q r | zombie q st | free q => exact absurd trivial he
      | runnable q | running q | doze q ch | alloc q pid => exact ⟨rfl, by rintro ⟨⟩⟩
      | _ => exact ⟨rfl, id⟩
    · have hne : Eff.proc s (.upd u) z = s.proc z := Inv.upd_proc_of_ne hz
      rw [hne]
      exact ⟨rfl, id⟩
  | _ => exact ⟨rfl, id⟩

/-! ### The invariant -/

structure Waits (s : State C) : Prop where
  /-- What `wait` knows is true: the children that it may still have to collect are left. -/
  view : ∀ p v, (s.code p).view = some v →
    (∀ z, (s.proc z).parent = some p → v.havekids = false ∨ (s.proc z).state = .zombie → z ∈ v.left) ∧
    ∀ q, v.child = some q → (s.proc q).parent = some p
  /-- A process asleep in `wait` with a ZOMBIE child is about to be woken. -/
  rouse : ∀ p z, (s.proc z).parent = some p → (s.proc z).state = .zombie → Sleepy s p (.proc p) →
    ∃ r, (s.code r).Rouses r p
  /-- So is the parent of a process that is about to become a ZOMBIE. -/
  tail : ∀ r p, (s.code r).tail = true → (s.proc r).parent = some p → Sleepy s p (.proc p) → (s.code r).Rouses r p

namespace Waits

section

variable [DecidableEq C]

lemma step_view (hv : Waits s) (hf : Family s) (h : Inv s) (hs : step s (c, a) = some s')
    (hk : (s'.code p).view = some v) :
    (∀ z, (s'.proc z).parent = some p → v.havekids = false ∨ (s'.proc z).state = .zombie → z ∈ v.left) ∧
      ∀ q, v.child = some q → (s'.proc q).parent = some p := by
  -- a step of another thread
  have hother : s.exec c ≠ some p → (s.code p).view = some v →
      (∀ z, (s'.proc z).parent = some p → v.havekids = false ∨ (s'.proc z).state = .zombie → z ∈ v.left) ∧
        ∀ q, v.child = some q → (s'.proc q).parent = some p := by
    intro hne hk
    have hwait := wait_mem_of_view _ (h.wf p) hk
    obtain ⟨hleft, hchild⟩ := hv.view p v hk
    refine ⟨fun z hz hzz => ?_, fun q hq => ?_⟩
    · obtain ⟨hpar | ⟨hpar, -⟩, hzom⟩ := wait_frame h hs hwait hne z
      · exact hleft z (hpar ▸ hz) (hzz.imp_right hzom)
      · cases hpar.symm.trans hz
    · obtain ⟨hpar | ⟨-, hst⟩, -⟩ := wait_frame h hs hwait hne q
      · exact hpar.trans (hchild q hq)
      · -- nobody else frees a child of `p`
        obtain hst | ⟨-, w, hw, ho | ⟨-, l, hkw⟩⟩ := unused_step h hs hst
        · cases (hf.unused q hst).symm.trans (hchild q hq)
        · cases (hf.orphan_parent w q ho).symm.trans (hchild q hq)
        · have := h.wait_unique hwait (q := w) (by rw [hkw]; exact mem_cons_of_mem _ (mem_singleton_self _))
          exact absurd (this ▸ hw) hne
  obtain hsame | ⟨e, hw, hn, hproc⟩ | ⟨hsame, -⟩ := code_cases h hs p
  · exact hother hsame.1 (hsame.2 ▸ hk)
  · obtain ⟨hkin, hcases⟩ := next_view hn (h.wf p) hk
    rw [hproc]
    have hpar : ∀ z, (e.proc s z).parent = (s.proc z).parent := fun z => (kin_frame hkin z).1
    have hzom : ∀ z, (e.proc s z).state = .zombie → (s.proc z).state = .zombie := fun z => (kin_frame hkin z).2
    obtain hk0 | rfl | ⟨v0, hk0, ⟨hb, hl⟩, hchild⟩ := hcases
    · obtain ⟨hleft, hchild⟩ := hv.view p v hk0
      exact ⟨fun z hz hzz => hleft z (hpar z ▸ hz) (hzz.imp_right (hzom z)), fun q hq => (hpar q).trans (hchild q hq)⟩
    · exact ⟨fun z _ _ => mem_finRange z, nofun⟩
    · obtain ⟨hleft, -⟩ := hv.view p v0 hk0
      refine ⟨fun z hz hzz => ?_, fun q hq => (hpar q).trans (hchild q hq)⟩
      rw [hpar] at hz
      have hzz' : v.havekids = false ∨ (s.proc z).state = .zombie := hzz.imp_right (hzom z)
      have hmem : z ∈ v0.left := by
        refine hleft z hz (hzz'.imp_left fun hf => ?_)
        cases hv0 : v0.havekids with
        | false => rfl
        | true => cases (hb hv0).symm.trans hf
      obtain hl | ⟨q, hl, hq⟩ := hl
      · exact hl ▸ hmem
      · rw [hl] at hmem
        obtain rfl | hmem := mem_cons.mp hmem
        · obtain hq | ⟨hq, hk⟩ := hq
          · exact absurd hz hq
          · obtain hf | hz' := hzz'
            · cases hk.symm.trans hf
            · exact absurd hz' hq
        · exact hmem
  · rw [hsame] at hk
    cases hk

lemma sleeps_step (h : Inv s) (hs : step s (c, a) = some s') (hw : s.exec c = some p)
    (hsl : (s.code p).sleeps = true) (hsy : Sleepy s' p (.proc p)) :
    s'.proc = s.proc ∧ (s.code p).view = some ⟨true, [], none⟩ := by
  obtain ⟨w, e, k', hw', hn, hproc, hcode⟩ | ⟨hc, -, -⟩ := step_cases hs
  · rw [hw] at hw'
    cases hw'
    have hwf := h.wf p
    have hrun := h.on_self hw
    generalize s.code p = k at hsl hn hwf hrun
    cases next_cases hn with
    | sleep =>
      obtain ⟨rfl, -⟩ := hwf
      refine ⟨hproc, ?_⟩
      obtain ⟨hst, -⟩ | ⟨lk', k', hk⟩ := hsy
      · rw [hproc] at hst
        cases (hrun rfl).1.symm.trans hst
      · rw [hcode, Function.update_self] at hk
        cases hk
        rfl
    | @tick k hk | @intr _ k hk =>
      cases k with
      | act => cases hk
      | _ => cases hsl
    | fail ho => obtain rfl | rfl := ho <;> cases hsl
    | _ => cases hsl
  · rw [hw] at hc
    cases hc

omit [DecidableEq C] in
lemma rouses_ne (h : Inv s) (hr : (s.code r).Rouses r p) (hsy : Sleepy s p (.proc p)) : r ≠ p := by
  rintro rfl
  obtain ⟨c, hc, -⟩ := h.on_of_wait (wait_mem_of_rouses hr)
  obtain ⟨hst, -⟩ | ⟨lk, k, hk⟩ := hsy
  · have hsw : (s.code r).switching = false := by
      generalize s.code r = k at hr
      cases k with
      | act q o => cases o <;> first | rfl | exact hr.elim
      | save k | load k | dead => exact hr.elim
      | _ => rfl
    cases (h.on_self hc hsw).1.symm.trans hst
  · rw [hk] at hr
    exact hr

lemma rouses_step (h : Inv s) (hs : step s (c, a) = some s') (hr : (s.code r).Rouses r p) (hsy : Sleepy s p (.proc p))
    (hsy' : Sleepy s' p (.proc p)) : (s'.code r).Rouses r p := by
  have hrp := rouses_ne h hr hsy
  obtain ⟨-, hk⟩ | ⟨e, hw, hn, hproc⟩ | ⟨-, hidle⟩ := code_cases h hs r
  · rwa [hk]
  · obtain hr' | ⟨k0, hk, rfl⟩ := next_rouses hn hr hrp
    · exact hr'
    · refine absurd hsy' (woken h hw hrp hk hproc ?_)
      obtain ⟨-, hk'⟩ | ⟨e', hw', -, -⟩ | ⟨hk', -⟩ := code_cases h hs p
      · exact hk'
      · exact absurd (Option.some.inj (hw.symm.trans hw')) hrp
      · -- `p` is not a new process
        obtain ⟨w, e, k', hw', hn', -, hcode⟩ | ⟨hc, -, -⟩ := step_cases hs
        · rw [hw] at hw'
          cases hw'
          rw [hcode]
          obtain hsame | ⟨hmem, -, -⟩ := code_step h hn' (Ne.symm hrp)
          · exact hsame
          · rw [hk] at hmem
            cases hmem
        · rw [hw] at hc
          cases hc
  · obtain hi | hi := hidle <;> rw [hi] at hr <;> exact hr.elim

lemma step_rouse (hv : Waits s) (h : Inv s) (hs : step s (c, a) = some s') (hpar : (s'.proc z).parent = some p)
    (hz : (s'.proc z).state = .zombie) (hsy : Sleepy s' p (.proc p)) : ∃ r, (s'.code r).Rouses r p := by
  by_cases hsl : s.exec c = some p ∧ (s.code p).sleeps = true
  · -- `p` goes to sleep in this step: it has no ZOMBIE child
    obtain ⟨hproc, hview⟩ := sleeps_step h hs hsl.1 hsl.2 hsy
    rw [hproc] at hpar hz
    cases (hv.view p _ hview).1 z hpar (.inr hz)
  have hsy0 : Sleepy s p (.proc p) := sleepy_step h hs hsl hsy
  obtain hp | ⟨w, st, l, -, -, -, hp, hk⟩ | ⟨w, -, hk, -⟩ | ⟨hp, -⟩ := parent_step h hs z
  · have hpar0 : (s.proc z).parent = some p := hp ▸ hpar
    obtain hz0 | ⟨hw, st, hk⟩ := zombie_step h hs hz
    · obtain ⟨r, hr⟩ := hv.rouse p z hpar0 hz0 hsy0
      exact ⟨r, rouses_step h hs hr hsy0 hsy⟩
    · -- `z` becomes a ZOMBIE after it has woken its parent
      have hr := hv.tail z p (by rw [hk]; rfl) hpar0 hsy0
      rw [hk] at hr
      exact hr.elim
  · -- `init` inherits `z`
    cases hp.symm.trans hpar
    refine ⟨w, ?_⟩
    rw [hk]
    exact ⟨rfl, mem_finRange _, rfl⟩
  · -- a slot that is being set up is not a ZOMBIE
    have hu := h.child w z (by rw [hk]; rfl)
    obtain hz0 | ⟨-, st, hkz⟩ := zombie_step h hs hz
    · cases hu.symm.trans hz0
    · have := h.child_idle (r := w) (q := z) (by rw [hk]; rfl)
      rw [hkz] at this
      obtain hi | hi := this <;> cases hi
  · cases hp.symm.trans hpar

section

variable (hv : Waits s) (hf : Family s) (h : Inv s) (hs : step s (c, a) = some s')

include hv hf h hs

lemma step_tail (hk : (s'.code r).tail = true) (hpar : (s'.proc r).parent = some p) (hsy : Sleepy s' p (.proc p)) :
    (s'.code r).Rouses r p := by
  -- `p` does not go to sleep in this step, since `r` holds `wait_lock`
  have hold : .wait ∈ (s.code r).held r → r ≠ p → Sleepy s p (.proc p) := by
    intro hwait hrp
    refine sleepy_step h hs (fun hsl => hrp ?_) hsy
    have hview := (sleeps_step h hs hsl.1 hsl.2 hsy).2
    exact h.wait_unique hwait (wait_mem_of_view _ (h.wf p) hview)
  obtain ⟨hne, hsame⟩ | ⟨e, hw, hn, hproc⟩ | ⟨hsame, -⟩ := code_cases h hs r
  · rw [hsame] at hk
    have hwait := wait_mem_of_tail (r := r) _ hk
    obtain hp | ⟨hp, -⟩ := (wait_frame h hs hwait hne r).1
    · have hpar0 := hp ▸ hpar
      have hsy0 := hold hwait fun hrp => hf.ne_self r (hrp ▸ hpar0)
      exact rouses_step h hs (hv.tail r p hk hpar0 hsy0) hsy0 hsy
    · cases hp.symm.trans hpar
  · obtain ⟨hkin, hk0⟩ := next_tail hn (h.wf r) hk
    rw [hproc, (kin_frame hkin r).1] at hpar
    obtain hk0 | ⟨st, hk', -⟩ := hk0
    · have hsy0 := hold (wait_mem_of_tail _ hk0) fun hrp => hf.ne_self r (hrp ▸ hpar)
      exact rouses_step h hs (hv.tail r p hk0 hpar hsy0) hsy0 hsy
    · rw [hk', hpar]
      exact ⟨rfl, mem_finRange _, rfl⟩
  · rw [hsame] at hk
    cases hk

lemma step : Waits s' where
  view _ _ := hv.step_view hf h hs
  rouse _ _ := hv.step_rouse h hs
  tail _ _ := hv.step_tail hf h hs

end

end

end Waits

lemma init_waits : Waits (init C) where
  view p v hk := by
    simp only [init] at hk
    split at hk <;> cases hk
  rouse p z hpar := by
    simp only [init] at hpar
    split at hpar <;> cases hpar
  tail r p hk := by
    simp only [init] at hk
    split at hk <;> cases hk

lemma run_waits [DecidableEq C] {acts : List (C × Act)} (h : run step (init C) acts = some s) :
    Inv s ∧ Family s ∧ Waits s := by
  refine run_invariant (I := fun s => Inv s ∧ Family s ∧ Waits s) ?_ h ⟨init_inv, init_family, init_waits⟩
  rintro s ⟨c, a⟩ s' hs ⟨hi, hf, hv⟩
  exact ⟨step_inv hi hs, hf.step hi hs, hv.step hf hi hs⟩

/-! ### Delivery -/

/-- What is observed: a process exits in slot `q`, `w` collects the child in slot `q`, `wait` returns.  A pair is a
pid and an exit status. -/
inductive Event where
  | exit (q : Slot) (x : BitVec 32 × BitVec 32)
  | reap (w q : Slot) (x : BitVec 32 × BitVec 32)
  | wait (w : Slot) (r : Option (BitVec 32 × BitVec 32))

/-- What a step of process `w` shows. -/
def emits (s : State C) (w : Slot) : Eff → Code → List Event
  | .upd (.zombie q status), _ => [.exit q ((s.proc q).pid, status)]
  | .upd (.free q), .act _ (.reap _) => [.reap w q ((s.proc q).pid, (s.proc q).xstate)]
  | .release _, .waitRet r => [.wait w r]
  | _, _ => []

def emit (s : State C) (a : C × Act) : List Event :=
  (s.exec a.1).elim [] fun w => (next s w a.2 (s.code w)).elim [] fun x => emits s w x.1 (s.code w)

section

variable (q : Slot) (es : List Event)

/-- The exits in slot `q`. -/
def exits : List (BitVec 32 × BitVec 32) :=
  es.filterMap fun
    | .exit r x => if r = q then some x else none
    | _ => none

/-- The children collected from slot `q`. -/
def reaps : List (BitVec 32 × BitVec 32) :=
  es.filterMap fun
    | .reap _ r x => if r = q then some x else none
    | _ => none

/-- The children that process `q` has collected. -/
def collected : List (BitVec 32 × BitVec 32) :=
  es.filterMap fun
    | .reap r _ x => if r = q then some x else none
    | _ => none

/-- What `wait` has returned to process `q`, but for -1. -/
def returned : List (BitVec 32 × BitVec 32) :=
  es.filterMap fun
    | .wait r (some x) => if r = q then some x else none
    | _ => none

end

/-- What a ZOMBIE has for its parent. -/
def Proc.died (x : Proc) : List (BitVec 32 × BitVec 32) := if x.state = .zombie then [(x.pid, x.xstate)] else []

/-- What `wait` has collected and not yet returned. -/
def Code.pending (k : Code) : List (BitVec 32 × BitVec 32) :=
  match k.result with
  | some (.wait (some x)) => [x]
  | _ => []

lemma died_of_ne {x : Proc} (h : x.state ≠ .zombie) : x.died = [] := if_neg h

lemma died_fn {u : Upd} {x : Proc} (h : x.state ≠ .zombie) (h' : (u.fn x).state ≠ .zombie) : (u.fn x).died = x.died := by
  rw [died_of_ne h, died_of_ne h']

lemma died_upd {u : Upd} (hu : (u.fn (s.proc u.slot)).died = (s.proc u.slot).died) (z : Slot) :
    (Eff.proc s (.upd u) z).died = (s.proc z).died := by
  by_cases hz : z = u.slot
  · subst hz
    have hself : Eff.proc s (.upd u) u.slot = u.fn (s.proc u.slot) := Inv.upd_proc_self u
    rw [hself, hu]
  · have hne : Eff.proc s (.upd u) z = s.proc z := Inv.upd_proc_of_ne hz
    rw [hne]

lemma died_wake (chan : Chan) (r : Slot) (x : Proc) : ((Upd.wake r chan).fn x).died = x.died := by
  simp only [Upd.fn]
  split
  · rename_i h
    simp [Proc.died, h.1]
  · rfl

lemma died_kill (r : Slot) (x : Proc) : ((Upd.kill r).fn x).died = x.died := by
  simp only [Upd.fn, Proc.died]
  split <;> simp_all

/-- **What has exited is collected, or still a ZOMBIE.** -/
lemma next_exits (h : next s p a k = some (e, k')) (hwf : k.Wf p)
    (hrun : k.switching = false → (s.proc p).state = .running) (hch : ∀ q, k.child = some q → (s.proc q).state = .used)
    (z : Slot) : (s.proc z).died ++ exits z (emits s p e k) = reaps z (emits s p e k) ++ (e.proc s z).died := by
  have quiet : exits z (emits s p e k) = [] → reaps z (emits s p e k) = [] → (e.proc s z).died = (s.proc z).died →
      (s.proc z).died ++ exits z (emits s p e k) = reaps z (emits s p e k) ++ (e.proc s z).died := by
    intro hx hr hd
    rw [hx, hr, hd, List.append_nil, List.nil_append]
  cases next_move h hwf with
  | stay _ _ _ _ he =>
    obtain rfl | ⟨l, rfl⟩ | ⟨l, rfl⟩ | ⟨u, rfl, hu⟩ := he
    · exact quiet rfl rfl rfl
    · exact quiet rfl rfl rfl
    · cases k <;> exact quiet rfl rfl rfl
    · cases hu <;> exact quiet rfl rfl (died_upd rfl z)
  | wake => exact quiet rfl rfl (died_upd (died_wake _ _ _) z)
  | kill => exact quiet rfl rfl (died_upd (died_kill _ _) z)
  | yield | doze => exact quiet rfl rfl (died_upd (died_fn (by simp [Upd.slot, hrun rfl]) (by simp [Upd.fn])) z)
  | exitRel | save | load => exact quiet rfl rfl rfl
  | alloc hq => exact quiet rfl rfl (died_upd (died_fn (by simp [Upd.slot, hq]) (by simp [Upd.fn])) z)
  | mem => exact quiet rfl rfl (died_upd rfl z)
  | @fail o q ho =>
    obtain rfl | rfl := ho <;>
      exact quiet rfl rfl (died_upd (died_fn (by simp [Upd.slot, hch q rfl]) (by simp [Upd.fn, freeproc])) z)
  | @runnable q => exact quiet rfl rfl (died_upd (died_fn (by simp [Upd.slot, hch q rfl]) (by simp [Upd.fn])) z)
  | @zombie status =>
    by_cases hz : z = p
    · subst hz
      have hself : Eff.proc s (.upd (.zombie z status)) z = (Upd.zombie z status).fn (s.proc z) := Inv.upd_proc_self _
      rw [hself, died_of_ne (by simp [hrun rfl])]
      simp [emits, exits, reaps, Proc.died, Upd.fn]
    · have hne : Eff.proc s (.upd (.zombie p status)) z = s.proc z := Inv.upd_proc_of_ne hz
      rw [hne]
      simp [emits, exits, reaps, Ne.symm hz]
  | @reap q l hq =>
    by_cases hz : z = q
    · subst hz
      have hself : Eff.proc s (.upd (.free z)) z = (Upd.free z).fn (s.proc z) := Inv.upd_proc_self (.free z)
      rw [hself]
      simp [emits, exits, reaps, Proc.died, Upd.fn, freeproc, hq]
    · have hne : Eff.proc s (.upd (.free q)) z = s.proc z := Inv.upd_proc_of_ne hz
      rw [hne]
      simp [emits, exits, reaps, Ne.symm hz]

/-- **What a process has collected `wait` returns.** -/
lemma next_returned (h : next s p a k = some (e, k')) (hwf : k.Wf p) :
    k.pending ++ collected p (emits s p e k) = returned p (emits s p e k) ++ k'.pending := by
  cases next_cases h with
  | call h =>
    unfold call at h
    split at h <;> (try split at h) <;> cases h <;> rfl
  | relock => obtain ⟨lks, rfl⟩ | rfl := hwf.2.2 <;> rfl
  | fail ho => obtain rfl | rfl := ho <;> rfl
  | reap => simp [Code.pending, Code.result, Op.result, emits, collected, returned]
  | @waitRet _ r => cases r <;> simp [Code.pending, Code.result, emits, collected, returned]
  | _ => exact List.append_nil _

section

variable [DecidableEq C]

lemma zombie_kept (h : Inv s) (hv : Waits s) (hs : step s (c, a) = some s') (hz : (s.proc q).state = .zombie) :
    (s'.proc q).state = .zombie ∧ (s'.proc q).pid = (s.proc q).pid ∧ (s'.proc q).xstate = (s.proc q).xstate ∨
    ∃ w l, s.exec c = some w ∧ s.code w = .act q (.reap l) ∧ (s.proc q).parent = some w ∧
      s'.proc q = freeproc (s.proc q) := by
  cases state_step h hs q with
  | same hst hx => exact .inl ⟨hst.trans hz, hx⟩
  | @reap w l _ hw hk hp =>
    have hpar := (hv.view w ⟨true, q :: l, some q⟩ (by rw [hk]; rfl)).2 q rfl
    exact .inr ⟨w, l, hw, hk, hpar, hp⟩
  | ready hold => obtain hold | hold := hold <;> cases hold.symm.trans hz
  | pick hold | off hold | zombie hold | alloc hold | fail hold => cases hold.symm.trans hz

/-- At the point of `exit` where the process becomes a ZOMBIE. -/
def Code.dies : Code → Bool
  | .act _ (.zombie _) => true
  | _ => false

omit [DecidableEq C] in
/-- The step is not one by which `q` becomes a ZOMBIE. -/
def Lives (q : Slot) (s : State C) (a : C × Act) : Prop := ¬ (s.exec a.1 = some q ∧ (s.code q).dies = true)
  deriving Decidable

lemma lives_run {as : List (C × Act)} (h : Inv s) (hz : (s.proc q).state ≠ .zombie)
    (hrun : run (guarded (Lives q) step) s as = some s') : (s'.proc q).state ≠ .zombie := by
  refine (run_invariant (I := fun s => Inv s ∧ (s.proc q).state ≠ .zombie) ?_ hrun ⟨h, hz⟩).2
  rintro s ⟨c, a⟩ s' hs ⟨hi, hz⟩
  obtain ⟨hl, hs⟩ := guarded_eq_some.mp hs
  refine ⟨step_inv hi hs, fun hz' => ?_⟩
  obtain hz0 | ⟨hw, st, hk⟩ := zombie_step hi hs hz'
  · exact hz hz0
  · exact hl ⟨hw, by rw [hk]; rfl⟩

/-- What `wait` returns: the pid and the exit status of a child that it frees, or -1, when there is none, the
process is killed, or `copyout` has failed and nothing is changed. -/
lemma wait_returns {r : Option (BitVec 32 × BitVec 32)} (h : Inv s) (hv : Waits s) (hs : step s (c, a) = some s')
    (hw : s.exec c = some w) (hk' : (s'.code w).result = some (.wait r)) :
    (s.code w).result = some (.wait r) ∨
    (∃ q l, s.code w = .act q (.reap l) ∧ (s.proc q).state = .zombie ∧ (s.proc q).parent = some w ∧
      s'.proc q = freeproc (s.proc q) ∧ r = some ((s.proc q).pid, (s.proc q).xstate)) ∨
    r = none ∧ s'.proc = s.proc ∧ ((∀ z, (s.proc z).parent ≠ some w) ∨ (s.proc w).killed = true ∨
      ∃ q l, s.code w = .act q (.reap l) ∧ (s.proc q).state = .zombie ∧ a = .go false) := by
  obtain ⟨hne, -⟩ | ⟨e, -, hn, hproc⟩ | ⟨hsame, -⟩ := code_cases h hs w
  · exact absurd hw hne
  · refine (next_result hn (h.wf w) hk').imp_right fun hd => ?_
    generalize hk : s.code w = k at hd
    cases hd with
    | childless =>
      refine .inr ⟨rfl, hproc, .inl fun z hz => ?_⟩
      cases (hv.view w ⟨false, [], none⟩ (by rw [hk]; rfl)).1 z hz (.inl rfl)
    | killed hkl => exact .inr ⟨rfl, hproc, .inr (.inl hkl)⟩
    | @reap l q hz =>
      have hpar := (hv.view w ⟨true, q :: l, some q⟩ (by rw [hk]; rfl)).2 q rfl
      refine .inl ⟨q, l, rfl, hz, hpar, ?_, rfl⟩
      rw [hproc]
      exact Inv.upd_proc_self (.free q)
    | @reapFail l q hz => exact .inr ⟨rfl, hproc, .inr (.inr ⟨q, l, rfl, hz, rfl⟩)⟩
  · rw [hsame] at hk'
    cases hk'

omit [DecidableEq C] in
lemma emit_eq (hw : s.exec c = some w) (hn : next s w a (s.code w) = some (e, k')) :
    emit s (c, a) = emits s w e (s.code w) := by simp [emit, hw, hn]

omit [DecidableEq C] in
lemma emit_nil (hc : s.exec c = none) : emit s (c, a) = [] := by simp [emit, hc]

omit [DecidableEq C] in
/-- A process collects and returns for itself. -/
lemma emits_of_ne (hr : r ≠ w) : collected r (emits s w e k) = [] ∧ returned r (emits s w e k) = [] := by
  unfold emits
  split <;> simp [collected, returned, Ne.symm hr]
  rename_i x
  cases x <;> simp [Ne.symm hr]

lemma exits_step (h : Inv s) (hs : step s (c, a) = some s') (z : Slot) :
    (s.proc z).died ++ exits z (emit s (c, a)) = reaps z (emit s (c, a)) ++ (s'.proc z).died := by
  obtain ⟨w, e, k', hw, hn, hproc, -⟩ | ⟨hc, -, hm⟩ := step_cases hs
  · rw [emit_eq hw hn, hproc]
    exact next_exits hn (h.wf w) (fun hk => (h.on_self hw hk).1) (fun q hq => h.child w q hq) z
  · rw [emit_nil hc]
    have hd : (s'.proc z).died = (s.proc z).died := by
      cases hm with
      | stay hproc => rw [hproc]
      | pick hk hst hproc =>
        rw [hproc]
        exact died_upd (died_fn (by simp [Upd.slot, hst]) (by simp [Upd.fn])) z
      | wake hk hproc =>
        rw [hproc]
        exact died_upd (died_wake _ _ _) z
    rw [hd]
    exact List.append_nil _

lemma returned_step (h : Inv s) (hs : step s (c, a) = some s') (r : Slot) :
    (s.code r).pending ++ collected r (emit s (c, a)) = returned r (emit s (c, a)) ++ (s'.code r).pending := by
  obtain ⟨w, e, k', hw, hn, -, hcode⟩ | ⟨hc, hcode, -⟩ := step_cases hs
  · rw [emit_eq hw hn, hcode]
    by_cases hr : r = w
    · subst hr
      rw [Function.update_self]
      exact next_returned hn (h.wf r)
    · obtain ⟨hcol, hret⟩ := emits_of_ne (s := s) (e := e) (k := s.code w) hr
      rw [hcol, hret, List.append_nil, List.nil_append]
      obtain hsame | ⟨-, hsame, hold | hold⟩ := code_step h hn hr
      · rw [hsame]
      · rw [hsame, hold]
        rfl
      · rw [hsame, hold]
  · rw [emit_nil hc, hcode]
    exact List.append_nil _

/-- Over a whole run, each exit in a slot is collected from it once or its process is still a ZOMBIE, and each
child that a process has collected `wait` has returned to it once, or is about to. -/
lemma run_delivered {acts : List (C × Act)} (h : run step (init C) acts = some s) :
    (∀ q, exits q (trace step emit (init C) acts) = reaps q (trace step emit (init C) acts) ++ (s.proc q).died) ∧
    ∀ w, collected w (trace step emit (init C) acts) =
      returned w (trace step emit (init C) acts) ++ (s.code w).pending := by
  have hinit : Inv (init C) ∧ (∀ q, exits q [] = reaps q [] ++ ((init C).proc q).died) ∧
      ∀ w, collected w [] = returned w [] ++ ((init C).code w).pending := by
    refine ⟨init_inv, fun q => ?_, fun w => ?_⟩ <;> simp only [init] <;> split <;> rfl
  refine (run_trace_invariant (I := fun s es => Inv s ∧ (∀ q, exits q es = reaps q es ++ (s.proc q).died) ∧
    ∀ w, collected w es = returned w es ++ (s.code w).pending) ?_ h (fun _ _ => trivial) hinit).2
  rintro s es ⟨c, a⟩ s' - hs ⟨hi, hx, hr⟩
  refine ⟨step_inv hi hs, fun q => ?_, fun w => ?_⟩
  · have hstep := exits_step hi hs q
    simp only [exits, reaps, List.filterMap_append] at hx hstep ⊢
    rw [hx, List.append_assoc, hstep, List.append_assoc]
  · have hstep := returned_step hi hs w
    simp only [collected, returned, List.filterMap_append] at hr hstep ⊢
    rw [hr, List.append_assoc, hstep, List.append_assoc]

/-- **Exit and wait.**  In every state reached: a ZOMBIE stays until its parent collects it; a parent changes only to
`init`, in `exit`; every process but `init` and one that `fork` sets up has a living parent; nobody sleeps in `wait`
beside a ZOMBIE child; `wait` returns what it frees, or -1 for one of its three reasons; and over the run each exit is
collected once, and returned once. -/
theorem exit_wait_delivers {acts : List (C × Act)} (h : run step (init C) acts = some s) :
    (∀ c a s' q, step s (c, a) = some s' → (s.proc q).state = .zombie →
      (s'.proc q).state = .zombie ∧ (s'.proc q).pid = (s.proc q).pid ∧ (s'.proc q).xstate = (s.proc q).xstate ∨
      ∃ w l, s.exec c = some w ∧ s.code w = .act q (.reap l) ∧ (s.proc q).parent = some w ∧
        s'.proc q = freeproc (s.proc q)) ∧
    (∀ c a s' q x, step s (c, a) = some s' → (s.proc q).parent = some x →
      (s'.proc q).parent = some x ∨ (s'.proc q).state = .unused ∨
      (s'.proc q).parent = some initproc ∧ s.exec c = some x ∧ ∃ status l, s.code x = .reparent status (q :: l)) ∧
    (∀ a s₁ q as s₂, step s a = some s₁ → (s₁.proc q).state ≠ .zombie →
      run (guarded (Lives q) step) s₁ as = some s₂ → (s₂.proc q).state ≠ .zombie) ∧
    (∀ q, (s.proc q).state ≠ .unused → q ≠ initproc → (∀ p, (s.code p).child ≠ some q) →
      ∃ r, (s.proc q).parent = some r ∧ (s.proc r).state ≠ .unused ∧ (s.proc r).state ≠ .zombie) ∧
    (s.lock .wait = none → ∀ p z, (s.proc p).state = .sleeping → (s.proc p).chan = .proc p →
      (s.proc z).parent = some p → (s.proc z).state ≠ .zombie) ∧
    (∀ c a s' w r, step s (c, a) = some s' → s.exec c = some w → (s'.code w).result = some (.wait r) →
      (s.code w).result = some (.wait r) ∨
      (∃ q l, s.code w = .act q (.reap l) ∧ (s.proc q).state = .zombie ∧ (s.proc q).parent = some w ∧
        s'.proc q = freeproc (s.proc q) ∧ r = some ((s.proc q).pid, (s.proc q).xstate)) ∨
      r = none ∧ s'.proc = s.proc ∧ ((∀ z, (s.proc z).parent ≠ some w) ∨ (s.proc w).killed = true ∨
        ∃ q l, s.code w = .act q (.reap l) ∧ (s.proc q).state = .zombie ∧ a = .go false)) ∧
    (∀ q, exits q (trace step emit (init C) acts) = reaps q (trace step emit (init C) acts) ++ (s.proc q).died) ∧
    ∀ w, collected w (trace step emit (init C) acts) =
      returned w (trace step emit (init C) acts) ++ (s.code w).pending := by
  obtain ⟨hi, hf, hv⟩ := run_waits h
  refine ⟨fun c a s' q hs hz => zombie_kept hi hv hs hz, ?_, ?_, ?_, ?_,
    fun c a s' w r hs hw hk' => wait_returns hi hv hs hw hk', run_delivered h⟩
  · intro c a s' q x hs hx
    obtain hp | ⟨w, st, l, hw, hk, hpar, hp, -⟩ | ⟨w, -, hk, -⟩ | ⟨-, hst⟩ := parent_step hi hs q
    · exact .inl (hp.trans hx)
    · cases hpar.symm.trans hx
      exact .inr (.inr ⟨hp, hw, st, l, hk⟩)
    · cases (hf.orphan_parent w q (by rw [hk]; rfl)).symm.trans hx
    · exact .inr (.inl hst)
  · rintro ⟨c, a⟩ s₁ q as s₂ hs hz hrun
    exact lives_run (step_inv hi hs) hz hrun
  · intro q hst hq hch
    cases hp : (s.proc q).parent with
    | none =>
      obtain ⟨p, ho⟩ := hf.orphan q hst hq hp
      exact absurd (child_of_orphan _ ho) (hch p)
    | some r => exact ⟨r, rfl, (hf.alive q r hp).unused, (hf.alive q r hp).zombie⟩
  · intro hfree p z hst hch hpar hz
    obtain ⟨r, hr⟩ := hv.rouse p z hpar hz (.inl ⟨hst, hch⟩)
    obtain ⟨c, -, hm⟩ := hi.on_of_wait (wait_mem_of_rouses hr)
    exact hi.locks.notMem_of_none hfree c hm

end

/-- The child exits on the second CPU, and `init` finds it in `wait`. -/
def exitRun : List (Fin 2 × Act) :=
  goes 0 4 ++ [(0, .fork)] ++ goes 0 16 ++ goes 1 7 ++ [(1, .exit 7)] ++ goes 1 327 ++ [(0, .wait)] ++ goes 0 4

theorem exit_wait_delivers_exitRun :
    ∃ s s' : State (Fin 2), run step (init (Fin 2)) exitRun = some s ∧ (s.proc 1).state = .zombie ∧
      (s.proc 1).xstate = 7 ∧ step s (0, .go true) = some s' ∧ (s'.proc 1).state = .unused ∧
      (s.proc 1).parent = some initproc := by
  have hrun : ((run step (init (Fin 2)) exitRun).bind fun s => (step s (0, .go true)).map fun s' =>
      decide ((s.proc 1).state = .zombie ∧ (s.proc 1).xstate = 7 ∧ s.exec 0 = some initproc ∧
        (s'.proc 1).state = .unused)) = some true := by decide +kernel
  simp only [Option.bind_eq_some_iff, Option.map_eq_some_iff, decide_eq_true_eq] at hrun
  obtain ⟨s, hs, s', hs', hz, hx, hw, hu⟩ := hrun
  refine ⟨s, s', hs, hz, hx, hs', hu, ?_⟩
  obtain ⟨hz', -⟩ | ⟨w, l, hw', -, hp, -⟩ := (exit_wait_delivers hs).1 0 _ s' 1 hs' hz
  · rw [hu] at hz'
    cases hz'
  · cases hw.symm.trans hw'
    exact hp

end Xv6.Sched
