import Xv6.Sched.Switch

/-!
# What a step does to the process table

A step of a thread changes the table by its effect; a step of `scheduler()` by choosing a process or
by the `wakeup` of an interrupt handler.
-/

namespace Xv6.Sched

open Lib Function Option

variable {C : Type} {s s' : State C} {c : C} {p q w : Slot} {k k' : Code} {e : Eff} {a : Act}

/-- The process table after an effect. -/
def Eff.proc (s : State C) : Eff → Slot → Proc
  | .upd u => (s.upd u).proc
  | _ => s.proc

/-- The code of the other threads after an effect. -/
def Eff.code (s : State C) : Eff → Slot → Code
  | .upd u => (s.upd u).code
  | _ => s.code

lemma effect_table [DecidableEq C] (he : s.effect c w e = some s1) :
    s1.proc = e.proc s ∧ s1.code = e.code s := by
  cases e with
  | none | upd u | save | load =>
    cases he
    exact ⟨rfl, rfl⟩
  | acquire l | release l =>
    cases (ite_none_right_eq_some.mp he).2
    exact ⟨rfl, rfl⟩

/-- What a step of `scheduler()` does to the table. -/
inductive SchedMove (s : State C) (c : C) (s' : State C) : Prop
  | stay (hproc : s'.proc = s.proc)
  | pick {i : Slot} (hk : s.scode c = .test i) (hst : (s.proc i).state = .runnable)
      (hproc : s'.proc = (s.upd (.running i)).proc)
  | wake {q i : Slot} {chan : Chan} {l : List Slot} (hk : s.scode c = .wake chan q l i)
      (hproc : s'.proc = (s.upd (.wake q chan)).proc)

lemma sched_move [DecidableEq C] (hs : schedStep s c a = some s') : SchedMove s c s' ∧ s'.code = s.code := by
  cases a with
  | go ok =>
    simp only [schedStep, schedGo] at hs
    split at hs
    · cases (ite_none_right_eq_some.mp hs).2
      exact ⟨.stay rfl, rfl⟩
    · rename_i i hk
      obtain ⟨hst, hs⟩ | ⟨-, hs⟩ := ite_eq_iff.mp hs <;> cases hs
      · exact ⟨.pick hk hst rfl, rfl⟩
      · exact ⟨.stay rfl, rfl⟩
    · cases hs
      exact ⟨.stay rfl, rfl⟩
    · cases hs
      exact ⟨.stay rfl, rfl⟩
    · cases (ite_none_right_eq_some.mp hs).2
      exact ⟨.stay rfl, rfl⟩
    · cases hs
      exact ⟨.stay rfl, rfl⟩
    · cases (ite_none_right_eq_some.mp hs).2
      exact ⟨.stay rfl, rfl⟩
    · rename_i chan q l i hk
      cases hs
      exact ⟨.wake hk rfl, rfl⟩
    · cases (ite_none_right_eq_some.mp hs).2
      exact ⟨.stay rfl, rfl⟩
  | intr chan =>
    simp only [schedStep] at hs
    split at hs <;> cases hs
    exact ⟨.stay rfl, rfl⟩
  | _ => cases hs

/-- **A step** is one of a thread or one of `scheduler()`. -/
lemma step_cases [DecidableEq C] (hs : step s (c, a) = some s') :
    (∃ w e k', s.exec c = some w ∧ next s w a (s.code w) = some (e, k') ∧ s'.proc = e.proc s ∧
      s'.code = update (e.code s) w k') ∨
    s.exec c = none ∧ s'.code = s.code ∧ SchedMove s c s' := by
  simp only [step] at hs
  split at hs
  · rename_i w hc
    obtain ⟨⟨e, k'⟩, hn, hs⟩ := bind_eq_some_iff.mp hs
    obtain ⟨s1, he, rfl⟩ := map_eq_some_iff.mp hs
    obtain ⟨hp, hk⟩ := effect_table he
    refine .inl ⟨w, e, k', hc, hn, hp, ?_⟩
    rw [← hk]
    rfl
  · rename_i hc
    obtain ⟨hm, hk⟩ := sched_move hs
    exact .inr ⟨hc, hk, hm⟩

lemma code_step (h : Inv s) (hn : next s w a (s.code w) = some (e, k')) (hpw : p ≠ w) :
    update (e.code s) w k' p = s.code p ∨ s.code w = .act p .mem ∧ update (e.code s) w k' p = .unlock p (.run []) ∧
      (s.code p = .dead ∨ s.code p = .unlock p (.run [])) := by
  rw [update_of_ne hpw]
  have hm := next_move hn (h.wf w)
  generalize hk : s.code w = k at hm
  cases hm with
  | @mem q =>
    by_cases hq : p = q
    · subst hq
      have hch : (s.code w).child = some p := by rw [hk]; rfl
      exact .inr ⟨rfl, update_self _ _ _, h.child_idle hch⟩
    · exact .inl (update_of_ne hq _ _)
  | stay hk hk' hch hmem he =>
    obtain rfl | ⟨l, rfl⟩ | ⟨l, rfl⟩ | ⟨u, rfl, hu⟩ := he
    · exact .inl rfl
    · exact .inl rfl
    · exact .inl rfl
    · cases hu <;> exact .inl rfl
  | _ => exact .inl rfl

lemma Inv.off_code (h : Inv s) (hp : ¬ s.On p) : s.code p = .dead ∨ (s.code p).Resumes p := by
  have hoff := h.off p hp
  cases hst : (s.proc p).state with
  | unused =>
    obtain hk | hk := hoff.idle (.inl hst)
    · exact .inl hk
    · exact .inr (hk ▸ rfl)
  | used =>
    obtain hk | hk := hoff.idle (.inr hst)
    · exact .inl hk
    · exact .inr (hk ▸ rfl)
  | zombie => exact .inl (hoff.dead hst)
  | runnable => exact .inr (hoff.ready (.inl hst)).2.2
  | sleeping => exact .inr (hoff.ready (.inr (.inl hst))).2.2
  | running => exact .inr (hoff.ready (.inr (.inr hst))).2.2

/-- Why a step makes the update `u`. -/
inductive Cause (s : State C) (c : C) : Upd → Prop
  | thread {w : Slot} {k' : Code} {u : Upd} (hw : s.exec c = some w) (hm : Move s w (s.code w) (.upd u) k') : Cause s c u
  | pick {i : Slot} (hc : s.exec c = none) (hk : s.scode c = .test i) (hst : (s.proc i).state = .runnable) :
      Cause s c (.running i)
  | wake {q i : Slot} {chan : Chan} {l : List Slot} (hc : s.exec c = none) (hk : s.scode c = .wake chan q l i) :
      Cause s c (.wake q chan)

/-- **How a step changes a slot.** -/
lemma slot_cases [DecidableEq C] (h : Inv s) (hs : step s (c, a) = some s') (q : Slot) :
    s'.proc q = s.proc q ∨ ∃ u, u.slot = q ∧ s'.proc q = u.fn (s.proc q) ∧ Cause s c u := by
  have key : ∀ u, s'.proc = (s.upd u).proc → Cause s c u →
      s'.proc q = s.proc q ∨ ∃ u, u.slot = q ∧ s'.proc q = u.fn (s.proc q) ∧ Cause s c u := by
    intro u hp hu
    by_cases hq : q = u.slot
    · subst hq
      exact .inr ⟨u, rfl, by rw [hp, Inv.upd_proc_self], hu⟩
    · exact .inl (by rw [hp, Inv.upd_proc_of_ne hq])
  obtain ⟨w, e, k', hw, hn, hp, -⟩ | ⟨hc, -, hm⟩ := step_cases hs
  · cases e with
    | upd u => exact key u hp (.thread hw (next_move hn (h.wf w)))
    | _ => exact .inl (congrFun hp q)
  · cases hm with
    | stay hp => exact .inl (congrFun hp q)
    | pick hk hst hp => exact key _ hp (.pick hc hk hst)
    | wake hk hp => exact key _ hp (.wake hc hk)

/-! ### Where a thread stands in `exit` -/

mutual

/-- In `exit`, after the files are closed: the slots at which `reparent` has still to look. -/
def Code.toReparent : Code → Option (List Slot)
  | .exitWait _ => some slots
  | .reparent _ l => some l
  | .dead => some []
  | .lock _ o | .act _ o => o.toReparent
  | .unlock _ k | .save k | .load k | .relock _ k | .wakeup _ _ k => k.toReparent
  | _ => none

def Op.toReparent : Op → Option (List Slot)
  | .zombie _ | .exitRel => some []
  | .yield k | .sleep _ _ k | .doze _ _ k | .tidy _ k | .wake _ k => k.toReparent
  | _ => none

end

lemma next_toReparent (h : next s p a k = some (e, k')) (hk' : k'.toReparent = some l) :
    k.toReparent = some l ∨
    (∃ q, k.toReparent = some (q :: l) ∧ ((s.proc q).parent ≠ some p ∨ e = .upd (.reparent q))) ∨
    l = slots ∧ e = .upd (.close p) ∧ p ≠ initproc := by
  cases next_cases h with
  | call h =>
    cases a with
    | exit st =>
      obtain ⟨hp, h⟩ := ite_none_right_eq_some.mp h
      cases h
      cases hk'
      exact .inr (.inr ⟨rfl, rfl, hp.2⟩)
    | _ =>
      simp only [call] at h
      (try split at h) <;> cases h <;> cases hk'
  | @reparent q _ _ _ _ =>
    cases hk'
    exact .inr (.inl ⟨q, rfl, .inr rfl⟩)
  | @reparentNot q _ _ _ hq =>
    cases hk'
    exact .inr (.inl ⟨q, rfl, .inl hq⟩)
  | tick | intr | lock | unlock | save | load | relock | woken | wakeSelf | wakeNext | exitWait | reparented | yield
  | sleep | doze | tidy | wake | zombie | exitRel => exact .inl hk'
  | _ => cases hk'

/-- In `exit`, after the files are closed. -/
def Code.exiting (k : Code) : Bool := k.toReparent.isSome

lemma next_exiting (h : next s p a k = some (e, k')) (hk' : k'.exiting = true) :
    k.exiting = true ∨ e = .upd (.close p) := by
  obtain ⟨l, hl⟩ := isSome_iff_exists.mp hk'
  obtain hk | ⟨q, hk, -⟩ | ⟨-, he, -⟩ := next_toReparent h hl
  · exact .inl (isSome_iff_exists.mpr ⟨_, hk⟩)
  · exact .inl (isSome_iff_exists.mpr ⟨_, hk⟩)
  · exact .inr he

lemma code_cases [DecidableEq C] (h : Inv s) (hs : step s (c, a) = some s') (r : Slot) :
    s.exec c ≠ some r ∧ s'.code r = s.code r ∨
    (∃ e, s.exec c = some r ∧ next s r a (s.code r) = some (e, s'.code r) ∧ s'.proc = e.proc s) ∨
    s'.code r = .unlock r (.run []) ∧ (s.code r = .dead ∨ s.code r = .unlock r (.run [])) := by
  obtain ⟨w, e, k', hw, hn, hproc, hcode⟩ | ⟨hc, hcode, -⟩ := step_cases hs
  · by_cases hr : r = w
    · subst hr
      have hk : s'.code r = k' := by rw [hcode, Function.update_self]
      exact .inr (.inl ⟨e, hw, hk ▸ hn, hproc⟩)
    · have hne : s.exec c ≠ some r := by
        rw [hw]
        rintro ⟨⟩
        exact hr rfl
      obtain hsame | ⟨-, hsame, hidle⟩ := code_step h hn hr <;> rw [hcode]
      · exact .inl ⟨hne, hsame⟩
      · exact .inr (.inr ⟨hsame, hidle⟩)
  · refine .inl ⟨?_, congrFun hcode r⟩
    rw [hc]
    exact nofun

/-! ### What `wait` and `kill` return -/

inductive Ret where
  | wait (r : Option (BitVec 32 × BitVec 32))
  | kill (v : BitVec 32)

mutual

/-- What a call is about to return, once that is decided. -/
def Code.result : Code → Option Ret
  | .waitRet r => some (.wait r)
  | .killRet v => some (.kill v)
  | .lock _ o | .act _ o => o.result
  | .unlock _ k | .save k | .load k | .wakeup _ _ k => k.result
  | _ => none

def Op.result : Op → Option Ret
  | .yield k | .wake _ k => k.result
  | _ => none

end

/-- The steps by which a call decides what it returns. -/
inductive Decides (s : State C) (p : Slot) : Act → Code → Eff → Ret → Prop
  | childless {a : Act} : Decides s p a (.scan false []) .none (.wait none)
  | killed {a : Act} (hq : (s.proc p).killed = true) : Decides s p a (.act p .killed) .none (.wait none)
  | reap {q : Slot} (hq : (s.proc q).state = .zombie) : Decides s p (.go true) (.act q (.reap l)) (.upd (.free q))
      (.wait (some ((s.proc q).pid, (s.proc q).xstate)))
  | reapFail {q : Slot} (hq : (s.proc q).state = .zombie) : Decides s p (.go false) (.act q (.reap l)) .none (.wait none)
  | kill {a : Act} {q : Slot} (hq : (s.proc q).pid = pid) :
      Decides s p a (.act q (.kill pid l)) (.upd (.kill q)) (.kill 0)
  | killNone {a : Act} : Decides s p a (.kill pid []) .none (.kill (-1))

lemma next_result {r : Ret} (h : next s p a k = some (e, k')) (hwf : k.Wf p) (hk' : k'.result = some r) :
    k.result = some r ∨ Decides s p a k e r := by
  cases next_cases h with
  | call h =>
    unfold call at h
    split at h <;> (try split at h) <;> cases h <;> cases hk'
  | tick | intr | lock | unlock | save | load | woken | wakeSelf | wakeNext | yield | wake => exact .inl hk'
  | relock => obtain ⟨lks, rfl⟩ | rfl := hwf.2.2 <;> cases hk'
  | scanNone => cases hk'; exact .inr .childless
  | reap hq => cases hk'; exact .inr (.reap hq)
  | reapFail hq => cases hk'; exact .inr (.reapFail hq)
  | kill hq => cases hk'; exact .inr (.kill hq)
  | killNone => cases hk'; exact .inr .killNone
  | @killed q _ hq =>
    obtain rfl : q = p := hwf
    cases hk'
    exact .inr (.killed hq)
  | _ => cases hk'

end Xv6.Sched
