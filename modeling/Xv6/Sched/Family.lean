import Xv6.Sched.Sleep

/-!
# Parents and children

Who is whose parent, in every state: a parent is alive, and a process that has a parent keeps one.
`reparent` looks at every slot before the process becomes a ZOMBIE, so a ZOMBIE has no children.
-/

namespace Xv6.Sched

open Lib

variable {C : Type} {s s' : State C} {c : C} {p q r w : Slot} {k k' : Code} {e : Eff} {a : Act}

mutual

/-- The slot that a thread is setting up inside `fork` and that has no parent yet. -/
def Code.orphan : Code → Option Slot
  | .lock q o | .act q o => o.orphan q
  | .unlock _ k | .save k | .load k | .relock _ k | .wakeup _ _ k => k.orphan
  | .forkWait np | .forkParent np => some np
  | _ => none

def Op.orphan (q : Slot) : Op → Option Slot
  | .yield k | .sleep _ _ k | .doze _ _ k | .tidy _ k | .wake _ k => k.orphan
  | .mem | .copy => some q
  | _ => none

end

mutual

lemma child_of_orphan : (k : Code) → k.orphan = some q → k.child = some q
  | .lock x o, h | .act x o, h => op_child_of_orphan x o h
  | .unlock _ k, h | .save k, h | .load k, h | .relock _ k, h | .wakeup _ _ k, h => child_of_orphan k h
  | .forkWait _, h | .forkParent _, h => h

lemma op_child_of_orphan (x : Slot) : (o : Op) → o.orphan x = some q → o.child x = some q
  | .yield k, h | .sleep _ _ k, h | .doze _ _ k, h | .tidy _ k, h | .wake _ k, h => child_of_orphan k h
  | .mem, h | .copy, h => h

end

lemma next_orphan (h : next s p a k = some (e, k')) (hk : k.orphan = some q) :
    k'.orphan = some q ∨ e = .upd (.parent q p) ∨ e = .upd (.free q) := by
  cases next_cases h with
  | forkParent =>
    cases hk
    exact .inr (.inl rfl)
  | fail ho => obtain rfl | rfl := ho <;> cases hk <;> exact .inr (.inr rfl)
  | tick | intr | lock | unlock | save | load | relock | woken | wakeSelf | wakeNext | forkWait | mem | copy | yield
  | sleep | doze | tidy | wake => exact .inl hk
  | _ => cases hk

lemma orphan_old (h : next s p a k = some (e, k')) (hk' : k'.orphan = some q) :
    k.orphan = some q ∨ (s.proc q).state = .unused := by
  cases next_cases h with
  | call h =>
    unfold call at h
    split at h <;> (try split at h) <;> cases h <;> cases hk'
  | alloc hq =>
    cases hk'
    exact .inr hq
  | tick | intr | lock | unlock | save | load | relock | woken | wakeSelf | wakeNext | forkWait | mem | copy | yield
  | sleep | doze | tidy | wake => exact .inl hk'
  | _ => cases hk'

/-! ### How states and parents change -/

/-- How a step changes the state of a process. -/
inductive StateStep (s : State C) (c : C) (s' : State C) (q : Slot) : Prop
  | same (hst : (s'.proc q).state = (s.proc q).state)
      (hx : (s'.proc q).pid = (s.proc q).pid ∧ (s'.proc q).xstate = (s.proc q).xstate)
  | ready (hold : (s.proc q).state = .sleeping ∨ (s.proc q).state = .used) (hst : (s'.proc q).state = .runnable)
  | pick (hold : (s.proc q).state = .runnable) (hst : (s'.proc q).state = .running)
  | off (hold : (s.proc q).state = .running) (hst : (s'.proc q).state = .runnable ∨ (s'.proc q).state = .sleeping)
  | zombie {status : BitVec 32} (hold : (s.proc q).state = .running) (hw : s.exec c = some q)
      (hk : s.code q = .act q (.zombie status)) (hst : (s'.proc q).state = .zombie)
  | alloc {w : Slot} (hold : (s.proc q).state = .unused) (hst : (s'.proc q).state = .used) (hk : s'.code w = .act q .mem)
  | fail {w : Slot} (hold : (s.proc q).state = .used) (hw : s.exec c = some w) (hk : (s.code w).orphan = some q)
      (hp : s'.proc q = freeproc (s.proc q))
  | reap {w : Slot} {l : List Slot} (hold : (s.proc q).state = .zombie) (hw : s.exec c = some w)
      (hk : s.code w = .act q (.reap l)) (hp : s'.proc q = freeproc (s.proc q))

section

variable [DecidableEq C] (h : Inv s) (hs : step s (c, a) = some s')

include h hs

lemma state_step (q : Slot) : StateStep s c s' q := by
  obtain hp | ⟨u, rfl, hp, hu⟩ := slot_cases h hs q
  · exact .same (by rw [hp]) (by rw [hp]; exact ⟨rfl, rfl⟩)
  have hwake : (∃ chan r, u = .wake r chan) ∨ (∃ r, u = .kill r) → StateStep s c s' u.slot := by
    intro hu
    have hx : ∀ x : Proc, (u.fn x).state = x.state ∧ (u.fn x).pid = x.pid ∧ (u.fn x).xstate = x.xstate ∨
        x.state = .sleeping ∧ (u.fn x).state = .runnable := by
      intro x
      obtain ⟨chan, r, rfl⟩ | ⟨r, rfl⟩ := hu <;> simp only [Upd.fn] <;> split <;> simp_all
    obtain ⟨hst, hrest⟩ | ⟨hold, hst⟩ := hx (s.proc u.slot)
    · exact .same (by rwa [hp]) (by rwa [hp])
    · exact .ready (.inl hold) (by rwa [hp])
  cases hu with
  | pick hc hk hr => exact .pick hr (by rw [hp]; rfl)
  | wake => exact hwake (.inl ⟨_, _, rfl⟩)
  | @thread w k' u hw hm =>
    have hself := h.on_self hw
    have hch := h.child w
    generalize hk : s.code w = k at hm hself hch
    cases hm with
    | stay _ _ _ _ he =>
      obtain he | ⟨l, he⟩ | ⟨l, he⟩ | ⟨u', he, hu⟩ := he <;> cases he
      cases hu <;> exact .same (by rw [hp]; rfl) (by rw [hp]; exact ⟨rfl, rfl⟩)
    | wake => exact hwake (.inl ⟨_, _, rfl⟩)
    | kill => exact hwake (.inr ⟨_, rfl⟩)
    | yield => exact .off (hself rfl).1 (.inl (by rw [hp]; rfl))
    | doze => exact .off (hself rfl).1 (.inr (by rw [hp]; rfl))
    | zombie => exact .zombie (hself rfl).1 hw hk (by rw [hp]; rfl)
    | @alloc q l hq =>
      refine .alloc (w := w) hq (by rw [hp]; rfl) ?_
      obtain ⟨w', e, k'', hw', hn, -, hcode⟩ | ⟨hc, -, -⟩ := step_cases hs
      · rw [hw] at hw'
        cases hw'
        rw [hcode, Function.update_self]
        rw [hk] at hn
        cases next_cases hn with
        | alloc => rfl
        | allocNot hne => exact absurd hq hne
        | tick hk | intr hk => cases hk
        | fail ho => obtain ho | ho := ho <;> cases ho
      · rw [hw] at hc
        cases hc
    | mem => exact .same (by rw [hp]; rfl) (by rw [hp]; exact ⟨rfl, rfl⟩)
    | @fail o q ho =>
      refine .fail (hch q (by obtain rfl | rfl := ho <;> rfl)) hw ?_ hp
      rw [hk]
      obtain rfl | rfl := ho <;> rfl
    | @runnable q => exact .ready (.inr (hch q rfl)) (by rw [hp]; rfl)
    | reap hq => exact .reap hq hw hk hp

lemma zombie_step (hz : (s'.proc q).state = .zombie) :
    (s.proc q).state = .zombie ∨ s.exec c = some q ∧ ∃ status, s.code q = .act q (.zombie status) := by
  cases state_step h hs q with
  | same hst => exact .inl (hst.symm.trans hz)
  | zombie _ hw hk => exact .inr ⟨hw, _, hk⟩
  | ready _ hst | pick _ hst | alloc _ hst => cases hst.symm.trans hz
  | off _ hst => obtain hst | hst := hst <;> cases hst.symm.trans hz
  | fail _ _ _ hp | reap _ _ _ hp =>
    rw [hp] at hz
    cases hz

lemma parent_step (q : Slot) : (s'.proc q).parent = (s.proc q).parent ∨
    (∃ w status l, s.exec c = some w ∧ s.code w = .reparent status (q :: l) ∧ (s.proc q).parent = some w ∧
      (s'.proc q).parent = some initproc ∧ s'.code w = .wakeup (.proc initproc) slots (.reparent status l)) ∨
    (∃ w, s.exec c = some w ∧ s.code w = .forkParent q ∧ (s'.proc q).parent = some w) ∨
    (s'.proc q).parent = none ∧ (s'.proc q).state = .unused := by
  obtain hp | ⟨u, rfl, hp, hu⟩ := slot_cases h hs q
  · exact .inl (congrArg Proc.parent hp)
  rw [hp]
  have hwake : ∀ (x : Proc) chan r, ((Upd.wake r chan).fn x).parent = x.parent := by
    intro x chan r
    simp only [Upd.fn]
    split <;> rfl
  cases hu with
  | pick => exact .inl rfl
  | wake => exact .inl (hwake _ _ _)
  | @thread w k' u hw hm =>
    generalize hk : s.code w = k at hm
    cases hm with
    | stay _ _ _ _ he =>
      obtain he | ⟨l, he⟩ | ⟨l, he⟩ | ⟨u', he, hu⟩ := he <;> cases he
      cases hu with
      | @reparent q st l hq =>
        refine .inr (.inl ⟨w, st, l, hw, hk, hq, rfl, ?_⟩)
        obtain ⟨w', e, k', hw', hn, -, hcode⟩ | ⟨hc, -, -⟩ := step_cases hs
        · rw [hw] at hw'
          cases hw'
          rw [hcode, Function.update_self]
          rw [hk] at hn
          cases next_cases hn with
          | reparent => rfl
          | reparentNot hne => exact absurd hq hne
          | tick hk | intr hk => cases hk
        · rw [hw] at hc
          cases hc
      | @parent np => exact .inr (.inr (.inl ⟨w, hw, hk, rfl⟩))
      | _ => exact .inl rfl
    | wake => exact .inl (hwake _ _ _)
    | fail | reap => exact .inr (.inr (.inr ⟨rfl, rfl⟩))
    | _ => exact .inl rfl

lemma unused_step (hst : (s'.proc q).state = .unused) :
    (s.proc q).state = .unused ∨ s'.proc q = freeproc (s.proc q) ∧ ∃ w, s.exec c = some w ∧
      ((s.code w).orphan = some q ∨ (s.proc q).state = .zombie ∧ ∃ l, s.code w = .act q (.reap l)) := by
  cases state_step h hs q with
  | same hst' => exact .inl (hst'.symm.trans hst)
  | fail _ hw hk hp => exact .inr ⟨hp, _, hw, .inl hk⟩
  | reap hold hw hk hp => exact .inr ⟨hp, _, hw, .inr ⟨hold, _, hk⟩⟩
  | ready _ hst' | pick _ hst' | alloc _ hst' | zombie _ _ _ hst' => cases hst'.symm.trans hst
  | off _ hst' => obtain hst' | hst' := hst' <;> cases hst'.symm.trans hst

lemma alloc_step (hst : (s.proc q).state = .unused) (hst' : (s'.proc q).state ≠ .unused) :
    ∃ w, s'.code w = .act q .mem ∧ (s'.proc q).state = .used := by
  cases state_step h hs q with
  | same h' => exact absurd (h'.trans hst) hst'
  | alloc _ hused hk => exact ⟨_, hk, hused⟩
  | ready hold => obtain hold | hold := hold <;> cases hold.symm.trans hst
  | pick hold | off hold | zombie hold | fail hold | reap hold => cases hold.symm.trans hst

end

/-! ### The invariant -/

/-- A process that can have children. -/
structure Proc.Alive (x : Proc) : Prop where
  unused : x.state ≠ .unused
  used : x.state ≠ .used
  zombie : x.state ≠ .zombie

structure Family (s : State C) : Prop where
  init_alive : (s.proc initproc).Alive
  init_parent : (s.proc initproc).parent = none
  alive : ∀ q r, (s.proc q).parent = some r → (s.proc r).Alive
  exiting : ∀ r l, (s.code r).toReparent = some l → r ≠ initproc ∧ ∀ q, (s.proc q).parent = some r → q ∈ l
  orphan : ∀ q, (s.proc q).state ≠ .unused → q ≠ initproc → (s.proc q).parent = none → ∃ p, (s.code p).orphan = some q
  orphan_parent : ∀ p q, (s.code p).orphan = some q → (s.proc q).parent = none
  unused : ∀ q, (s.proc q).state = .unused → (s.proc q).parent = none
  ne_self : ∀ q, (s.proc q).parent ≠ some q

lemma alive_step [DecidableEq C] (h : Inv s) (hs : step s (c, a) = some s') (hr : (s.proc r).Alive) :
    (s'.proc r).Alive ∨ s.exec c = some r ∧ ∃ status, s.code r = .act r (.zombie status) := by
  by_cases hz : (s'.proc r).state = .zombie
  · exact .inr ((zombie_step h hs hz).resolve_left hr.zombie)
  refine .inl ⟨fun hu => ?_, fun hu => ?_, hz⟩
  · obtain hst | ⟨-, w, -, hch | ⟨hq, -⟩⟩ := unused_step h hs hu
    · exact hr.unused hst
    · exact hr.used (h.child w r (child_of_orphan _ hch))
    · exact hr.zombie hq
  · cases state_step h hs r with
    | same hst => exact hr.used (hst.symm.trans hu)
    | alloc hold => exact hr.unused hold
    | ready _ hst | pick _ hst | zombie _ _ _ hst => cases hst.symm.trans hu
    | off _ hst => obtain hst | hst := hst <;> cases hst.symm.trans hu
    | fail hold => exact hr.used hold
    | reap hold => exact hr.zombie hold

namespace Family

section

variable [DecidableEq C]

omit [DecidableEq C] in
lemma no_child_of_zombie (hf : Family s) {status : BitVec 32} (hk : s.code r = .act r (.zombie status)) :
    r ≠ initproc ∧ ∀ q, (s.proc q).parent ≠ some r := by
  obtain ⟨hne, hl⟩ := hf.exiting r [] (by rw [hk]; rfl)
  exact ⟨hne, fun q hq => List.not_mem_nil (hl q hq)⟩

lemma step_init_alive (hf : Family s) (h : Inv s) (hs : step s (c, a) = some s') : (s'.proc initproc).Alive := by
  obtain hal | ⟨-, st, hk⟩ := alive_step h hs hf.init_alive
  · exact hal
  · exact absurd rfl (hf.no_child_of_zombie hk).1

lemma step_alive (hf : Family s) (h : Inv s) (hs : step s (c, a) = some s') (hq : (s'.proc q).parent = some r) :
    (s'.proc r).Alive := by
  obtain hp | ⟨w, st, l, -, -, -, hp, -⟩ | ⟨w, hw, hk, hp⟩ | ⟨hp, -⟩ := parent_step h hs q <;> rw [hp] at hq
  · obtain hal | ⟨-, st, hk⟩ := alive_step h hs (hf.alive q r hq)
    · exact hal
    · exact absurd hq ((hf.no_child_of_zombie hk).2 q)
  · cases hq
    exact hf.step_init_alive h hs
  · cases hq
    have hrun := (h.on_self hw (by rw [hk]; rfl)).1
    have hal : (s.proc r).Alive := ⟨by simp [hrun], by simp [hrun], by simp [hrun]⟩
    obtain hal | ⟨-, st, hk'⟩ := alive_step h hs hal
    · exact hal
    · rw [hk] at hk'
      cases hk'
  · cases hq

lemma parent_old (h : Inv s) (hs : step s (c, a) = some s') (hr : r ≠ initproc) (hk : (s.code r).toReparent ≠ none)
    (hq : (s'.proc q).parent = some r) : (s.proc q).parent = some r := by
  obtain hp | ⟨w, st, l, -, -, -, hp, -⟩ | ⟨w, hw, hk', hp⟩ | ⟨hp, -⟩ := parent_step h hs q <;> rw [hp] at hq
  · exact hq
  · cases hq
    exact absurd rfl hr
  · cases hq
    rw [hk'] at hk
    exact absurd rfl hk
  · cases hq

section

variable (hf : Family s) (h : Inv s) (hs : step s (c, a) = some s')

include hf h hs

lemma step_exiting (hl : (s'.code r).toReparent = some l) :
    r ≠ initproc ∧ ∀ q, (s'.proc q).parent = some r → q ∈ l := by
  obtain ⟨-, hk⟩ | ⟨e, hw, hn, hproc⟩ | ⟨hk, -⟩ := code_cases h hs r
  · rw [hk] at hl
    obtain ⟨hne, hl'⟩ := hf.exiting r l hl
    exact ⟨hne, fun q hq => hl' q (parent_old h hs hne (by simp [hl]) hq)⟩
  · obtain hk | ⟨x, hk, hx⟩ | ⟨rfl, -, hne⟩ := next_toReparent hn hl
    · obtain ⟨hne, hl'⟩ := hf.exiting r l hk
      exact ⟨hne, fun q hq => hl' q (parent_old h hs hne (by simp [hk]) hq)⟩
    · obtain ⟨hne, hl'⟩ := hf.exiting r (x :: l) hk
      refine ⟨hne, fun q hq => ?_⟩
      have hold := parent_old h hs hne (by simp [hk]) hq
      obtain rfl | hq' := List.mem_cons.mp (hl' q hold)
      · -- the slot that this step looks at is no longer a child
        obtain hx | rfl := hx
        · exact absurd hold hx
        · rw [hproc] at hq
          have hself : Eff.proc s (.upd (.reparent q)) q = (Upd.reparent q).fn (s.proc q) := Inv.upd_proc_self (.reparent q)
          rw [hself] at hq
          exact absurd (Option.some.inj hq).symm hne
      · exact hq'
    · exact ⟨hne, fun q _ => List.mem_finRange q⟩
  · rw [hk] at hl
    cases hl

lemma step_orphan (hst : (s'.proc q).state ≠ .unused) (hq : q ≠ initproc) (hp : (s'.proc q).parent = none) :
    ∃ p, (s'.code p).orphan = some q := by
  by_cases hu : (s.proc q).state = .unused
  · obtain ⟨w, hk, -⟩ := alloc_step h hs hu hst
    exact ⟨w, by rw [hk]; rfl⟩
  have hold : (s.proc q).parent = none := by
    obtain hp' | ⟨w, st, l, -, -, -, hp', -⟩ | ⟨w, -, -, hp'⟩ | ⟨-, hst'⟩ := parent_step h hs q
    · exact hp' ▸ hp
    · cases hp'.symm.trans hp
    · cases hp'.symm.trans hp
    · exact absurd hst' hst
  obtain ⟨p, ho⟩ := hf.orphan q hu hq hold
  obtain ⟨-, hk⟩ | ⟨e, hw, hn, hproc⟩ | ⟨-, hidle⟩ := code_cases h hs p
  · exact ⟨p, hk ▸ ho⟩
  · obtain ho' | rfl | rfl := next_orphan hn ho
    · exact ⟨p, ho'⟩
    · have hself : Eff.proc s (.upd (.parent q p)) q = (Upd.parent q p).fn (s.proc q) := Inv.upd_proc_self (.parent q p)
      rw [hproc, hself] at hp
      cases hp
    · have hself : Eff.proc s (.upd (.free q)) q = (Upd.free q).fn (s.proc q) := Inv.upd_proc_self (.free q)
      rw [hproc, hself] at hst
      exact absurd rfl hst
  · obtain hi | hi := hidle <;> rw [hi] at ho <;> cases ho

lemma step_orphan_parent (ho : (s'.code p).orphan = some q) : (s'.proc q).parent = none := by
  -- as long as nobody is past the point where the parent is written
  have key : (s.proc q).parent = none → (∀ w, s.exec c = some w → s.code w ≠ .forkParent q) → (s'.proc q).parent = none := by
    intro hq hw
    obtain hp | ⟨w, st, l, -, -, hp, -, -⟩ | ⟨w, hw', hk, -⟩ | ⟨hp, -⟩ := parent_step h hs q
    · exact hp.trans hq
    · cases hp.symm.trans hq
    · exact absurd hk (hw w hw')
    · exact hp
  have hold : (s.code p).orphan = some q → (s.exec c = some p → s.code p ≠ .forkParent q) → (s'.proc q).parent = none := by
    intro ho hne
    refine key (hf.orphan_parent p q ho) fun w hw hk => ?_
    have hwp := h.child_inj w p q (by rw [hk]; rfl) (child_of_orphan _ ho)
    subst hwp
    exact hne hw hk
  obtain ⟨hne, hk⟩ | ⟨e, hw, hn, -⟩ | ⟨hk, -⟩ := code_cases h hs p
  · exact hold (hk ▸ ho) fun hw => absurd hw hne
  · obtain ho' | hst := orphan_old hn ho
    · refine hold ho' fun _ hfp => ?_
      rw [hfp] at hn
      generalize s'.code p = k' at hn ho
      cases next_cases hn with
      | forkParent => cases ho
      | tick hk | intr hk => cases hk
    · refine key (hf.unused q hst) fun w _ hk => ?_
      cases hst.symm.trans (h.child w q (by rw [hk]; rfl))
  · rw [hk] at ho
    cases ho

lemma step : Family s' where
  init_alive := hf.step_init_alive h hs
  init_parent := by
    obtain hp | ⟨w, st, l, -, -, hp, -, -⟩ | ⟨w, -, hk, -⟩ | ⟨hp, -⟩ := parent_step h hs initproc
    · exact hp.trans hf.init_parent
    · cases hp.symm.trans hf.init_parent
    · exact absurd (h.child w initproc (by rw [hk]; rfl)) hf.init_alive.used
    · exact hp
  alive q r := hf.step_alive h hs
  exiting r l := hf.step_exiting h hs
  orphan q := hf.step_orphan h hs
  orphan_parent p q := hf.step_orphan_parent h hs
  unused q hst := by
    obtain hu | ⟨hp, -⟩ := unused_step h hs hst
    · obtain hp | ⟨w, st, l, -, -, hp, -, -⟩ | ⟨w, -, hk, -⟩ | ⟨hp, -⟩ := parent_step h hs q
      · exact hp.trans (hf.unused q hu)
      · cases hp.symm.trans (hf.unused q hu)
      · cases hu.symm.trans (h.child w q (by rw [hk]; rfl))
      · exact hp
    · rw [hp]
      rfl
  ne_self q hq := by
    obtain hp | ⟨w, st, l, -, -, hp, hp', -⟩ | ⟨w, hw, hk, hp⟩ | ⟨hp, -⟩ := parent_step h hs q
    · exact hf.ne_self q (hp ▸ hq)
    · cases hp'.symm.trans hq
      cases hp.symm.trans hf.init_parent
    · cases hp.symm.trans hq
      exact h.child_not_on (r := q) (by rw [hk]; rfl) ⟨c, hw⟩
    · cases hp.symm.trans hq

end

end

end Family

lemma init_family : Family (init C) where
  init_alive := ⟨by simp [init], by simp [init], by simp [init]⟩
  init_parent := by simp [init, Proc.zero]
  alive q r := by
    simp only [init]
    split <;> simp [Proc.zero]
  exiting r l := by
    simp only [init]
    split
    · simp [Code.toReparent]
    · intro _
      refine ⟨‹_›, fun q => ?_⟩
      split <;> simp [Proc.zero]
  orphan q hst hq := by simp [init, hq, Proc.zero] at hst
  orphan_parent p q ho := by
    simp only [init] at ho
    split at ho <;> cases ho
  unused q := by
    simp only [init]
    split <;> simp [Proc.zero]
  ne_self q := by
    simp only [init]
    split <;> simp [Proc.zero]

end Xv6.Sched
