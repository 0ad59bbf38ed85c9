import Xv6.Sched.Inv

/-!
# Context switches

The steps of `scheduler()`, and what holds of every run.
-/

namespace Xv6.Sched

open Lib Option

variable {C : Type} {s s' : State C} {p : Slot} {k k' : Code} {e : Eff} {a : Act}

namespace Inv

variable {c c' : C} {q r : Slot}

lemma sched_update (h : Inv s) (hc : s.exec c = none) (hexec : s'.exec = s.exec) (hcode : s'.code = s.code)
    (hsaved : s'.saved = s.saved) (hscode : ∀ d, d ≠ c → s'.scode d = s.scode d)
    (hcproc : ∀ d, d ≠ c → s'.cproc d = s.cproc d) (hcur : s'.cproc c = (s'.scode c).cur)
    (hcuroff : ∀ r, (s'.scode c).cur = some r → ¬ s.On r) (hlocks : Holds s'.lock s'.held)
    (hon : ∀ r, s.On r → (s'.proc r).state = (s.proc r).state)
    (hoff : ∀ r, ¬ s.On r → (s.code r).OffCpu r (s'.proc r).state (s.saved r) (s'.Picked r))
    (hused : ∀ r, (s.proc r).state = .used → (s'.proc r).state = .used) : Inv s' := by
  have hOn : ∀ r, s'.On r ↔ s.On r := fun r => by rw [State.On, State.On, hexec]
  have hne : ∀ d r, s.exec d = some r → d ≠ c := by
    rintro d r hd rfl
    rw [hc] at hd
    cases hd
  refine ⟨hlocks, ?_, ?_, ?_, ?_, ?_, ?_, ?_, ?_, ?_, ?_⟩
  · rw [hcode]
    exact h.wf
  · rw [hexec]
    exact h.exec_inj
  · intro d r hd
    rw [hexec] at hd
    rw [hcproc d (hne d r hd), hscode d (hne d r hd)]
    exact h.cpu_on d r hd
  · intro d hd
    by_cases hdc : d = c
    · exact hdc ▸ hcur
    · rw [hexec] at hd
      rw [hcproc d hdc, hscode d hdc]
      exact h.cpu_off d hd
  · intro d r hd hr
    rw [hOn]
    by_cases hdc : d = c
    · exact hcuroff r (hdc ▸ hr)
    · rw [hexec] at hd
      rw [hscode d hdc] at hr
      exact h.cur_off d r hd hr
  · intro r hr
    rw [hOn] at hr
    rw [hcode, hsaved, hon r hr]
    exact h.on r hr
  · intro r hr
    rw [hOn] at hr
    rw [hcode, hsaved]
    exact hoff r hr
  · intro r np hch
    rw [hcode] at hch
    exact hused np (h.child r np hch)
  · rw [hcode, hsaved]
    exact h.child_ready
  · rw [hcode]
    exact h.child_inj

lemma picked_congr (hexec : s'.exec = s.exec) (hscode : ∀ d, d ≠ c → s'.scode d = s.scode d)
    (h1 : s.scode c ≠ .swtch r) (h2 : s'.scode c ≠ .swtch r) : s'.Picked r ↔ s.Picked r := by
  constructor <;> rintro ⟨d, hd, hp⟩ <;> refine ⟨d, ?_⟩ <;> by_cases hdc : d = c
  · rw [hdc] at hp
    exact absurd hp h2
  · rw [hexec] at hd
    rw [hscode d hdc] at hp
    exact ⟨hd, hp⟩
  · rw [hdc] at hp
    exact absurd hp h1
  · rw [hexec, hscode d hdc]
    exact ⟨hd, hp⟩

lemma sched_stay (h : Inv s) (hc : s.exec c = none) (hexec : s'.exec = s.exec) (hcode : s'.code = s.code)
    (hsaved : s'.saved = s.saved) (hscode : ∀ d, d ≠ c → s'.scode d = s.scode d) (hcproc : s'.cproc = s.cproc)
    (hcur : (s.scode c).cur = none) (hcur' : (s'.scode c).cur = none) (hlocks : Holds s'.lock s'.held)
    (hproc : ∀ r, (s'.proc r).state = (s.proc r).state ∨
      ¬ s.On r ∧ (s.proc r).state = .sleeping ∧ (s'.proc r).state = .runnable) : Inv s' := by
  have hsw : ∀ (k : SCode) r, k.cur = none → k ≠ .swtch r := by
    rintro k r hk rfl
    cases hk
  have hPicked : ∀ r, s'.Picked r ↔ s.Picked r := fun r =>
    picked_congr hexec hscode (hsw _ r hcur) (hsw _ r hcur')
  refine h.sched_update hc hexec hcode hsaved hscode (fun d _ => congrFun hcproc d) ?_ ?_ hlocks ?_ ?_ ?_
  · rw [hcproc, h.cpu_off c hc, hcur, hcur']
  · intro r hr
    rw [hcur'] at hr
    cases hr
  · intro r hon
    obtain hst | ⟨hno, -⟩ := hproc r
    · exact hst
    · exact absurd hon hno
  · intro r hon
    rw [propext (hPicked r)]
    have hoff := h.off r hon
    obtain hst | ⟨-, hst, hst'⟩ := hproc r
    · rw [hst]
      exact hoff
    · rw [hst']
      have hrun := hoff.running
      rw [hst] at hrun
      exact ⟨fun _ => hoff.ready (.inr (.inl hst)), nofun, by simp, by simpa using hrun⟩
  · intro r hr
    obtain hst | ⟨-, hst, -⟩ := hproc r
    · rw [hst, hr]
    · rw [hr] at hst
      cases hst

section

variable [DecidableEq C]

lemma setScode_self (s : State C) (c : C) (k : SCode) : (s.setScode c k).scode c = k := Function.update_self _ _ _

lemma held_setScode (s1 : State C) (k : SCode) (hc : s.exec c = none) (hexec : s1.exec = s.exec)
    (hcode : s1.code = s.code) (hscode : s1.scode = s.scode) :
    (s1.setScode c k).held c = k.held ∧ ∀ d, d ≠ c → (s1.setScode c k).held d = s.held d := by
  have hexec' : (s1.setScode c k).exec = s.exec := hexec
  constructor
  · rw [held_off (hexec' ▸ hc)]
    exact congrArg SCode.held (Function.update_self _ _ _)
  · intro d hdc
    cases hd : s.exec d with
    | none =>
      rw [held_off (hexec' ▸ hd), held_off hd, ← hscode]
      exact congrArg SCode.held (Function.update_of_ne hdc _ _)
    | some r =>
      rw [held_on (hexec' ▸ hd), held_on hd, ← hcode]
      rfl

section

variable {k : SCode} (h : Inv s) (hc : s.exec c = none) (hcur : (s.scode c).cur = none) (hcur' : k.cur = none)

include h hc hcur hcur'

lemma sched_acquire (hk : k.held = .proc q :: (s.scode c).held) (hs : acquireStep s c q k = some s') : Inv s' := by
  obtain ⟨hl, hs⟩ := ite_none_right_eq_some.mp hs
  cases hs
  obtain ⟨hh, ho⟩ := held_setScode (s.setLock (.proc q) (some c)) k hc rfl rfl rfl
  refine h.sched_stay hc rfl rfl rfl (fun d hd => Function.update_of_ne hd _ _) rfl hcur ?_ ?_ fun r => .inl rfl
  · rw [setScode_self, hcur']
  · exact h.locks.acquire hl (by rw [hh, hk, held_off hc]) ho

lemma sched_release (hk : (s.scode c).held = .proc q :: k.held) (hs : releaseStep s c q k = some s') : Inv s' := by
  obtain ⟨hl, hs⟩ := ite_none_right_eq_some.mp hs
  cases hs
  obtain ⟨hh, ho⟩ := held_setScode (s.setLock (.proc q) none) k hc rfl rfl rfl
  refine h.sched_stay hc rfl rfl rfl (fun d hd => Function.update_of_ne hd _ _) rfl hcur ?_ ?_ fun r => .inl rfl
  · rw [setScode_self, hcur']
  · refine h.locks.release ?_ ho
    rw [held_off hc, hk, hh]

end

section

variable (h : Inv s) (hc : s.exec c = none)

include h hc

lemma holds_sched {s1 : State C} {k : SCode} (hexec : s1.exec = s.exec) (hcode : s1.code = s.code)
    (hscode : s1.scode = s.scode) (hlock : s1.lock = s.lock) (hk : k.held = (s.scode c).held) :
    Holds (s1.setScode c k).lock (s1.setScode c k).held := by
  obtain ⟨hh, ho⟩ := held_setScode s1 k hc hexec hcode hscode
  have hlocks : Holds (s1.setScode c k).lock s.held := hlock ▸ h.locks
  refine hlocks.congr fun d => ?_
  by_cases hdc : d = c
  · rw [hdc, hh, hk, held_off hc]
  · exact ho d hdc

lemma sched_wake {chan : Chan} {l : List Slot} {i : Slot} (hk : s.scode c = .wake chan q l i) :
    Inv ((s.upd (.wake q chan)).setScode c (.wakeRel chan q l i)) := by
  have hmem : .proc q ∈ s.held c := by
    rw [held_off hc, hk]
    exact List.mem_singleton_self _
  refine h.sched_stay hc rfl rfl rfl (fun d hd => Function.update_of_ne hd _ _) rfl (by rw [hk]; rfl) ?_ ?_ ?_
  · rw [setScode_self]
    rfl
  · exact h.holds_sched hc rfl rfl rfl rfl (by rw [hk]; rfl)
  · intro r
    change ((s.upd (.wake q chan)).proc r).state = _ ∨ _ ∧ _ ∧ ((s.upd (.wake q chan)).proc r).state = _
    by_cases hr : r = q
    · subst hr
      have hself : (s.upd (.wake r chan)).proc r = _ := upd_proc_self (.wake r chan)
      rw [hself]
      obtain hst | ⟨hst, hst'⟩ := (wake_state (.inl ⟨chan, rfl⟩) (s.proc r)).2
      · exact .inl hst
      · refine .inr ⟨h.not_on hmem (by rw [hc]; exact nofun) (by simp [hst]), hst, hst'⟩
    · rw [upd_proc_of_ne (u := .wake q chan) hr]
      exact .inl rfl

lemma sched_pick {i : Slot} (hk : s.scode c = .test i) (hst : (s.proc i).state = .runnable) :
    Inv (({ s with cproc := Function.update s.cproc c (some i) }.upd (.running i)).setScode c (.swtch i)) := by
  have hmem : .proc i ∈ s.held c := by
    rw [held_off hc, hk]
    exact List.mem_singleton_self _
  have hoff : ¬ s.On i := h.not_on hmem (by rw [hc]; exact nofun) (by simp [hst])
  have hlocks : Holds _ _ := h.holds_sched (k := .swtch i) hc rfl rfl rfl rfl (by rw [hk]; rfl)
  set s' := ({ s with cproc := Function.update s.cproc c (some i) }.upd (.running i)).setScode c (.swtch i)
  have hsc : s'.scode c = .swtch i := Function.update_self _ _ _
  have hsd : ∀ d, d ≠ c → s'.scode d = s.scode d := fun d hd => Function.update_of_ne hd _ _
  have hpi : (s'.proc i).state = .running := by
    change (Function.update s.proc i ((Upd.running i).fn (s.proc i)) i).state = _
    rw [Function.update_self]
    rfl
  have hpr : ∀ r, r ≠ i → s'.proc r = s.proc r := fun r hr => Function.update_of_ne hr _ _
  have hexec : s'.exec = s.exec := rfl
  refine h.sched_update hc hexec rfl rfl hsd ?_ ?_ ?_ ?_ ?_ ?_ ?_
  · exact fun d hd => Function.update_of_ne hd _ _
  · rw [hsc]
    exact Function.update_self _ _ _
  · intro r hr
    rw [hsc] at hr
    cases hr
    exact hoff
  · exact hlocks
  · intro r hon
    have hr : r ≠ i := by
      rintro rfl
      exact hoff hon
    rw [hpr r hr]
  · intro r hon
    have hoffr := h.off r hon
    by_cases hr : r = i
    · subst hr
      rw [hpi]
      exact ⟨fun _ => hoffr.ready (.inl hst), nofun, by simp, iff_of_true rfl ⟨c, by rw [hexec]; exact hc, hsc⟩⟩
    · have hp : s'.Picked r ↔ s.Picked r := by
        refine picked_congr hexec hsd (by rw [hk]; exact nofun) ?_
        rw [hsc]
        rintro ⟨⟩
        exact hr rfl
      rw [hpr r hr, propext hp]
      exact hoffr
  · intro r hr
    have hri : r ≠ i := by
      rintro rfl
      rw [hst] at hr
      cases hr
    rw [hpr r hri, hr]

lemma sched_back {i : Slot} (hk : s.scode c = .back i) :
    Inv ({ s with cproc := Function.update s.cproc c none }.setScode c (.rel i)) := by
  refine h.sched_update hc rfl rfl rfl (fun d hd => Function.update_of_ne hd _ _)
    (fun d hd => Function.update_of_ne hd _ _) ?_ ?_ ?_ (fun _ _ => rfl) ?_ (fun _ hr => hr)
  · rw [setScode_self]
    exact Function.update_self _ _ _
  · intro r hr
    rw [setScode_self] at hr
    cases hr
  · exact h.holds_sched hc rfl rfl rfl rfl (by rw [hk]; rfl)
  · intro r hon
    have hp : State.Picked ({ s with cproc := Function.update s.cproc c none }.setScode c (.rel i)) r ↔ s.Picked r := by
      refine picked_congr rfl (fun d hd => Function.update_of_ne hd _ _) (by rw [hk]; exact nofun) ?_
      rw [setScode_self]
      exact nofun
    rw [propext hp]
    exact h.off r hon

lemma sched_swtch (hk : s.scode c = .swtch i) : Inv ({ s with
      exec := Function.update s.exec c (some i)
      saved := Function.update s.saved i false }.setScode c (.back i)) := by
  have hoff := h.cur_off c i hc (by rw [hk]; rfl)
  have hst : (s.proc i).state = .running := (h.off i hoff).running.mpr ⟨c, hc, hk⟩
  obtain ⟨hsv, hheld, hres⟩ := (h.off i hoff).ready (.inr (.inr hst))
  have hmem : .proc i ∈ s.held c := by
    rw [held_off hc, hk]
    exact List.mem_singleton_self _
  -- no other scheduler has this process
  have hcur : ∀ d, s.exec d = none → (s.scode d).cur = some i → d = c := by
    intro d hd hcur
    refine h.locks.eq_of_mem ?_ hmem
    rw [held_off hd]
    generalize s.scode d = x at hcur
    cases x <;> cases hcur <;> exact List.mem_singleton_self _
  set s' := ({ s with
      exec := Function.update s.exec c (some i)
      saved := Function.update s.saved i false }.setScode c (.back i))
  have hec : s'.exec c = some i := Function.update_self _ _ _
  have heo : ∀ d, d ≠ c → s'.exec d = s.exec d := fun d hd => Function.update_of_ne hd _ _
  have hsc : s'.scode c = .back i := Function.update_self _ _ _
  have hso : ∀ d, d ≠ c → s'.scode d = s.scode d := fun d hd => Function.update_of_ne hd _ _
  have hsi : s'.saved i = false := Function.update_self _ _ _
  have hsr : ∀ r, r ≠ i → s'.saved r = s.saved r := fun r hr => Function.update_of_ne hr _ _
  have hcd : s'.code = s.code := rfl
  have hpr : s'.proc = s.proc := rfl
  have hcr : s'.cproc = s.cproc := rfl
  have hlk : s'.lock = s.lock := rfl
  have hOn : ∀ r, r ≠ i → (s'.On r ↔ s.On r) := by
    intro r hr
    constructor <;> rintro ⟨d, hd⟩ <;> refine ⟨d, ?_⟩ <;> by_cases hdc : d = c
    · rw [hdc, hec] at hd
      exact absurd (some.inj hd).symm hr
    · rwa [heo d hdc] at hd
    · rw [hdc, hc] at hd
      cases hd
    · rwa [heo d hdc]
  have hPicked : ∀ r, r ≠ i → (s'.Picked r ↔ s.Picked r) := by
    intro r hr
    constructor <;> rintro ⟨d, hd, hp⟩ <;> refine ⟨d, ?_⟩ <;> by_cases hdc : d = c
    · rw [hdc, hec] at hd
      cases hd
    · rw [heo d hdc] at hd
      rw [hso d hdc] at hp
      exact ⟨hd, hp⟩
    · rw [hdc, hk] at hp
      cases hp
      exact absurd rfl hr
    · rw [heo d hdc, hso d hdc]
      exact ⟨hd, hp⟩
  refine ⟨?_, ?_, ?_, ?_, ?_, ?_, ?_, ?_, ?_, ?_, ?_⟩
  · rw [hlk]
    refine h.locks.congr fun d => ?_
    by_cases hdc : d = c
    · rw [hdc, held_on hec, held_off hc, hk, hcd, hheld]
      rfl
    · cases hd : s.exec d with
      | none => rw [held_off hd, held_off ((heo d hdc).trans hd), hso d hdc]
      | some r => rw [held_on hd, held_on ((heo d hdc).trans hd), hcd]
  · rw [hcd]
    exact h.wf
  · intro d d' r hd hd'
    have key : ∀ x, s'.exec x = some r → x ≠ c → s.exec x = some r := fun x hx hxc => heo x hxc ▸ hx
    by_cases hdc : d = c <;> by_cases hdc' : d' = c
    · exact hdc.trans hdc'.symm
    · rw [hdc, hec] at hd
      cases hd
      exact absurd ⟨d', key d' hd' hdc'⟩ hoff
    · rw [hdc', hec] at hd'
      cases hd'
      exact absurd ⟨d, key d hd hdc⟩ hoff
    · exact h.exec_inj d d' r (key d hd hdc) (key d' hd' hdc')
  · intro d r hd
    rw [hcr]
    by_cases hdc : d = c
    · rw [hdc, hec] at hd
      cases hd
      rw [hdc, hsc, h.cpu_off c hc, hk]
      exact ⟨rfl, rfl⟩
    · rw [heo d hdc] at hd
      rw [hso d hdc]
      exact h.cpu_on d r hd
  · intro d hd
    have hdc : d ≠ c := by
      rintro rfl
      rw [hec] at hd
      cases hd
    rw [heo d hdc] at hd
    rw [hcr, hso d hdc]
    exact h.cpu_off d hd
  · intro d r hd hr
    have hdc : d ≠ c := by
      rintro rfl
      rw [hec] at hd
      cases hd
    rw [heo d hdc] at hd
    rw [hso d hdc] at hr
    have hri : r ≠ i := by
      rintro rfl
      exact hdc (hcur d hd hr)
    rw [hOn r hri]
    exact h.cur_off d r hd hr
  · intro r hon
    rw [hcd, hpr]
    by_cases hr : r = i
    · rw [hr, hsi, onCpu_iff (switching_of_resumes hres)]
      exact ⟨rfl, hst⟩
    · rw [hsr r hr]
      exact h.on r ((hOn r hr).mp hon)
  · intro r hon
    have hr : r ≠ i := by
      rintro rfl
      exact hon ⟨c, hec⟩
    rw [hcd, hpr, hsr r hr, propext (hPicked r hr)]
    exact h.off r fun hon' => hon ((hOn r hr).mpr hon')
  · rw [hcd, hpr]
    exact h.child
  · intro r np hch hmem'
    rw [hcd] at hch hmem'
    have hnp : np ≠ i := by
      rintro rfl
      rw [h.child r np hch] at hst
      cases hst
    rw [hcd, hsr np hnp]
    exact h.child_ready r np hch hmem'
  · rw [hcd]
    exact h.child_inj

lemma sched_step (hs : schedStep s c a = some s') : Inv s' := by
  cases a with
  | go ok =>
    simp only [schedStep, schedGo] at hs
    split at hs
    · rename_i i hk
      exact h.sched_acquire hc (by rw [hk]; rfl) rfl (by rw [hk]; rfl) hs
    · rename_i i hk
      obtain ⟨hst, hs⟩ | ⟨-, hs⟩ := ite_eq_iff.mp hs <;> cases hs
      · exact h.sched_pick hc hk hst
      · refine h.sched_stay hc rfl rfl rfl (fun d hd => Function.update_of_ne hd _ _) rfl (by rw [hk]; rfl) ?_ ?_
          fun _ => .inl rfl
        · rw [setScode_self]
          rfl
        · exact h.holds_sched hc rfl rfl rfl rfl (by rw [hk]; rfl)
    · rename_i i hk
      cases hs
      exact h.sched_swtch hc hk
    · rename_i i hk
      cases hs
      exact h.sched_back hc hk
    · rename_i i hk
      exact h.sched_release hc (by rw [hk]; rfl) rfl (by rw [hk]; rfl) hs
    · rename_i chan i hk
      cases hs
      refine h.sched_stay hc rfl rfl rfl (fun d hd => Function.update_of_ne hd _ _) rfl (by rw [hk]; rfl) ?_ ?_
        fun _ => .inl rfl
      · rw [setScode_self]
        rfl
      · exact h.holds_sched hc rfl rfl rfl rfl (by rw [hk]; rfl)
    · rename_i chan q l i hk
      exact h.sched_acquire hc (by rw [hk]; rfl) rfl (by rw [hk]; rfl) hs
    · rename_i chan q l i hk
      cases hs
      exact h.sched_wake hc hk
    · rename_i chan q l i hk
      exact h.sched_release hc (by rw [hk]; rfl) rfl (by rw [hk]; rfl) hs
  | intr chan =>
    simp only [schedStep] at hs
    split at hs
    · rename_i i hk
      cases hs
      refine h.sched_stay hc rfl rfl rfl (fun d hd => Function.update_of_ne hd _ _) rfl (by rw [hk]; rfl) ?_ ?_
        fun _ => .inl rfl
      · rw [setScode_self]
        rfl
      · exact h.holds_sched hc rfl rfl rfl rfl (by rw [hk]; rfl)
    · cases hs
  | _ => cases hs

end

end

end Inv

/-- **The invariant holds along every run.** -/
lemma step_inv [DecidableEq C] {a : C × Act} (h : Inv s) (hs : step s a = some s') : Inv s' := by
  simp only [step] at hs
  split at hs
  · exact h.proc_step ‹_› hs
  · exact h.sched_step ‹_› hs

lemma init_inv : Inv (init C) where
  locks := ⟨fun l c => by simp [init, State.held, SCode.held], fun c => by simp [init, State.held, SCode.held]⟩
  wf p := by
    simp only [init]
    split <;> simp [Code.Wf]
  exec_inj := by simp [init]
  cpu_on := by simp [init]
  cpu_off := by simp [init, SCode.cur]
  cur_off := by simp [init, SCode.cur]
  on p := by simp [State.On, init]
  off p := by
    intro _
    by_cases hp : p = initproc
    · refine ⟨fun _ => ?_, ?_, ?_, ?_⟩ <;> simp [init, hp, State.Picked, Code.held, Code.Resumes]
    · refine ⟨?_, ?_, ?_, ?_⟩ <;> simp [init, hp, State.Picked, Proc.zero]
  child p np := by
    simp only [init]
    split <;> simp [Code.child]
  child_ready p np := by
    simp only [init]
    split <;> simp [Code.child]
  child_inj p p' np := by
    simp only [init]
    split <;> simp [Code.child]

lemma run_inv [DecidableEq C] {acts : List (C × Act)} (h : run step (init C) acts = some s) : Inv s :=
  run_invariant (fun _ _ _ hs h => step_inv h hs) h init_inv

/-! ### No process runs on two CPUs -/

lemma step_exec [DecidableEq C] (hs : step s (c, a) = some s') : s'.exec = s.exec ∨ s'.proc = s.proc ∧
      (s'.exec = Function.update s.exec c none ∨
        ∃ i, s.exec c = none ∧ s.scode c = .swtch i ∧ s'.exec = Function.update s.exec c (some i)) := by
  simp only [step] at hs
  split at hs
  · obtain ⟨⟨e, k'⟩, -, hs⟩ := bind_eq_some_iff.mp hs
    obtain ⟨s1, he, rfl⟩ := map_eq_some_iff.mp hs
    cases e with
    | none | upd u | save =>
      cases he
      exact .inl rfl
    | acquire l | release l =>
      cases (ite_none_right_eq_some.mp he).2
      exact .inl rfl
    | load =>
      cases he
      exact .inr ⟨rfl, .inl rfl⟩
  · rename_i hc
    cases a with
    | go ok =>
      simp only [schedStep, schedGo] at hs
      split at hs
      · cases (ite_none_right_eq_some.mp hs).2
        exact .inl rfl
      · obtain ⟨-, hs⟩ | ⟨-, hs⟩ := ite_eq_iff.mp hs <;> cases hs <;> exact .inl rfl
      · rename_i i hk
        cases hs
        exact .inr ⟨rfl, .inr ⟨i, hc, hk, rfl⟩⟩
      · cases hs
        exact .inl rfl
      · cases (ite_none_right_eq_some.mp hs).2
        exact .inl rfl
      · cases hs
        exact .inl rfl
      · cases (ite_none_right_eq_some.mp hs).2
        exact .inl rfl
      · cases hs
        exact .inl rfl
      · cases (ite_none_right_eq_some.mp hs).2
        exact .inl rfl
    | intr chan =>
      simp only [schedStep] at hs
      split at hs <;> cases hs
      exact .inl rfl
    | _ => cases hs

namespace Inv

variable {c c' : C}

lemma cproc_inj (h : Inv s) (hc : s.cproc c = some p) (hc' : s.cproc c' = some p) : c = c' := by
  -- a CPU whose `c->proc` is `p` is on its stack, or its scheduler holds the lock of `p`
  have key : ∀ d, s.cproc d = some p → s.exec d = some p ∨ s.exec d = none ∧ (s.scode d).cur = some p := by
    intro d hd
    cases hx : s.exec d with
    | none => exact .inr ⟨rfl, (h.cpu_off d hx).symm.trans hd⟩
    | some r => exact .inl ((h.cpu_on d r hx).1.symm.trans hd)
  have hmem : ∀ d, s.exec d = none → (s.scode d).cur = some p → .proc p ∈ s.held d := by
    intro d hd hcur
    rw [held_off hd]
    generalize s.scode d = x at hcur
    cases x <;> cases hcur <;> exact List.mem_singleton_self _
  obtain h1 | ⟨h1, h1'⟩ := key c hc <;> obtain h2 | ⟨h2, h2'⟩ := key c' hc'
  · exact h.exec_inj c c' p h1 h2
  · exact absurd ⟨c, h1⟩ (h.cur_off c' p h2 h2')
  · exact absurd ⟨c', h2⟩ (h.cur_off c p h1 h1')
  · exact h.locks.eq_of_mem (hmem c h1 h1') (hmem c' h2 h2')

lemma cproc_of_running (h : Inv s) (hst : (s.proc p).state = .running) : ∃ c, s.cproc c = some p := by
  by_cases hon : s.On p
  · obtain ⟨c, hc⟩ := hon
    exact ⟨c, (h.cpu_on c p hc).1⟩
  · obtain ⟨c, hc, hk⟩ := (h.off p hon).running.mp hst
    exact ⟨c, by rw [h.cpu_off c hc, hk]; rfl⟩

lemma resumed [DecidableEq C] (h : Inv s) (hs : step s (c, a) = some s') (hp : s'.exec c' = some p)
    (hne : s.exec c' ≠ some p) : s.saved p = true ∧ ¬ s.On p := by
  obtain he | ⟨-, he | ⟨i, hc, hk, he⟩⟩ := step_exec hs <;> rw [he] at hp
  · exact absurd hp hne
  · by_cases hcc : c' = c
    · rw [hcc, Function.update_self] at hp
      cases hp
    · rw [Function.update_of_ne hcc] at hp
      exact absurd hp hne
  · by_cases hcc : c' = c
    · rw [hcc, Function.update_self] at hp
      cases hp
      have hoff := h.cur_off c p hc (by rw [hk]; rfl)
      have hst := (h.off p hoff).running.mpr ⟨c, hc, hk⟩
      exact ⟨((h.off p hoff).ready (.inr (.inr hst))).1, hoff⟩
    · rw [Function.update_of_ne hcc] at hp
      exact absurd hp hne

lemma freed [DecidableEq C] (h : Inv s) (hs : step s (c, a) = some s') (hst : (s.proc p).state ≠ .unused)
    (hst' : (s'.proc p).state = .unused) : ¬ s.On p := by
  obtain he | ⟨hp, -⟩ := step_exec hs
  · intro hon
    have hon' : s'.On p := by rwa [State.On, he]
    exact ((step_inv h hs).on p hon').alive.1 hst'
  · rw [hp] at hst'
    exact absurd hst' hst

end Inv

/-- **No process runs on two CPUs.**  In every state reached, a RUNNING process with its lock free is
`c->proc` of exactly one CPU, and no two CPUs have the same `c->proc`; and in the next step a CPU
enters the stack of a process only if its registers are all saved and no CPU is on that stack, and a
slot is freed only if no CPU is on its stack. -/
theorem no_process_on_two_cpus [DecidableEq C] {acts : List (C × Act)} (h : run step (init C) acts = some s) :
    (∀ p, (s.proc p).state = .running → s.lock (.proc p) = none → ∃! c, s.cproc c = some p) ∧
    (∀ c c' p, s.cproc c = some p → s.cproc c' = some p → c = c') ∧
    (∀ a s', step s a = some s' → ∀ c p, s'.exec c = some p → s.exec c ≠ some p →
      s.saved p = true ∧ ∀ c', s.exec c' ≠ some p) ∧
    (∀ a s', step s a = some s' → ∀ p, (s.proc p).state ≠ .unused → (s'.proc p).state = .unused →
      ∀ c, s.exec c ≠ some p) := by
  have hi := run_inv h
  refine ⟨fun p hst _ => ?_, fun c c' p => hi.cproc_inj, fun a s' hs c p hp hne => ?_,
    fun a s' hs p hst hst' c hc => hi.freed hs hst hst' ⟨c, hc⟩⟩
  · obtain ⟨c, hc⟩ := hi.cproc_of_running hst
    exact ⟨c, hc, fun c' hc' => hi.cproc_inj hc' hc⟩
  · obtain ⟨hsv, hoff⟩ := hi.resumed hs hp hne
    exact ⟨hsv, fun c' hc' => hoff ⟨c', hc'⟩⟩

/-- Two CPUs: the first runs `init`, the second looks at the first slot. -/
def startRun : List (Fin 2 × Act) := [(0, .go true), (0, .go true), (0, .go true), (0, .go true), (1, .go true)]

theorem no_process_on_two_cpus_startRun :
    ∃ s, run step (init (Fin 2)) startRun = some s ∧ (s.proc initproc).state = .running ∧
      (∀ c c' p, s.cproc c = some p → s.cproc c' = some p → c = c') ∧
      ∀ a s', step s a = some s' → ∀ c p, s'.exec c = some p → s.exec c ≠ some p →
        s.saved p = true ∧ ∀ c', s.exec c' ≠ some p := by
  have hrun : (run step (init (Fin 2)) startRun).map (fun s => (s.proc initproc).state) = some .running := by decide
  obtain ⟨s, hs, hst⟩ := map_eq_some_iff.mp hrun
  exact ⟨s, hs, hst, (no_process_on_two_cpus hs).2.1, (no_process_on_two_cpus hs).2.2.1⟩

end Xv6.Sched
