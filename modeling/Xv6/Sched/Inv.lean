import Xv6.Sched.Move
import Xv6.Lib.Spin

/-!
# Where each process is

A process is on a CPU, chosen by a scheduler that has not switched to it yet, or off every CPU with
its registers saved.  `p->lock` is handed over from the process to the scheduler and back.
-/

namespace Xv6.Sched

open Lib Option

variable {C : Type} {s : State C} {p : Slot} {k k' : Code} {e : Eff} {a : Act}

/-- The CPU executes on the stack of the process. -/
def State.On (s : State C) (p : Slot) : Prop := ∃ c, s.exec c = some p

/-- A scheduler has made the process RUNNING and has not switched to it yet. -/
def State.Picked (s : State C) (p : Slot) : Prop := ∃ c, s.exec c = none ∧ s.scode c = .swtch p

/-- The spinlocks that are held on a CPU. -/
def State.held (s : State C) (c : C) : List Lock :=
  match s.exec c with
  | none => (s.scode c).held
  | some p => (s.code p).held p

/-- `c->proc` in `scheduler()`. -/
def SCode.cur : SCode → Option Slot
  | .swtch i | .back i => some i
  | _ => none

/-- The state in which a process has called `sched()`, to go on with `k`. -/
def Code.Left (st : PState) (k : Code) : Prop :=
  k = .dead ∧ st = .zombie ∨ k ≠ .dead ∧ (st = .runnable ∨ st = .sleeping)

/-- A process on a CPU is RUNNING until it leaves. -/
def Code.OnCpu (st : PState) (saved : Bool) : Code → Prop
  | .save k => saved = false ∧ k.Left st
  | .load k => saved = true ∧ k.Left st
  | .dead => False
  | .act _ .exitRel => saved = false ∧ st = .zombie
  | _ => saved = false ∧ st = .running

structure Code.OffCpu (p : Slot) (st : PState) (saved : Bool) (picked : Prop) (k : Code) : Prop where
  ready : st = .runnable ∨ st = .sleeping ∨ st = .running → saved = true ∧ k.held p = [.proc p] ∧ k.Resumes p
  dead : st = .zombie → k = .dead
  idle : st = .unused ∨ st = .used → k = .dead ∨ k = .unlock p (.run [])
  running : st = .running ↔ picked

structure Inv (s : State C) : Prop where
  locks : Holds s.lock s.held
  wf : ∀ p, (s.code p).Wf p
  exec_inj : ∀ c c' p, s.exec c = some p → s.exec c' = some p → c = c'
  cpu_on : ∀ c p, s.exec c = some p → s.cproc c = some p ∧ s.scode c = .back p
  cpu_off : ∀ c, s.exec c = none → s.cproc c = (s.scode c).cur
  cur_off : ∀ c p, s.exec c = none → (s.scode c).cur = some p → ¬ s.On p
  on : ∀ p, s.On p → (s.code p).OnCpu (s.proc p).state (s.saved p)
  off : ∀ p, ¬ s.On p → (s.code p).OffCpu p (s.proc p).state (s.saved p) (s.Picked p)
  child : ∀ p np, (s.code p).child = some np → (s.proc np).state = .used
  child_ready : ∀ p np, (s.code p).child = some np → s.code p ≠ .act np .mem →
    s.saved np = true ∧ s.code np = .unlock np (.run [])
  child_inj : ∀ p p' np, (s.code p).child = some np → (s.code p').child = some np → p = p'

variable {st : PState} {saved : Bool} {u : Upd}

lemma onCpu_iff (hk : k.switching = false) : k.OnCpu st saved ↔ saved = false ∧ st = .running := by
  cases k with
  | act q o => cases o <;> first | rfl | cases hk
  | save k | load k | dead => cases hk
  | _ => rfl

lemma Code.OnCpu.alive (h : k.OnCpu st saved) : st ≠ .unused ∧ st ≠ .used := by
  cases hk : k.switching with
  | false => simp [((onCpu_iff hk).mp h).2]
  | true =>
    cases k with
    | act q o =>
      cases o with
      | exitRel =>
        obtain ⟨-, rfl⟩ := h
        exact ⟨nofun, nofun⟩
      | _ => cases hk
    | save k | load k => obtain ⟨-, ⟨-, rfl⟩ | ⟨-, rfl | rfl⟩⟩ := h <;> exact ⟨nofun, nofun⟩
    | dead => exact h.elim
    | _ => cases hk

lemma held_of_switching (hwf : k.Wf p) (hk : k.switching = true) : .proc p ∈ k.held p := by
  cases k with
  | act q o =>
    cases o with
    | exitRel =>
      obtain rfl : q = p := hwf
      exact List.mem_cons_self
    | _ => cases hk
  | save k | load k | dead => exact List.mem_singleton_self _
  | _ => cases hk

namespace Inv

variable {c c' : C} {q r : Slot}

lemma held_on (hc : s.exec c = some p) : s.held c = (s.code p).held p := by rw [State.held, hc]

lemma held_off (hc : s.exec c = none) : s.held c = (s.scode c).held := by rw [State.held, hc]

lemma on_running (h : Inv s) (hq : .proc q ∈ s.held c) (hc' : s.exec c' = some q) (hne : c' ≠ c) :
    (s.code q).switching = false ∧ (s.proc q).state = .running ∧ s.saved q = false := by
  have hk : (s.code q).switching = false := by
    rw [Bool.eq_false_iff]
    intro hk
    have hmem : .proc q ∈ s.held c' := held_on hc' ▸ held_of_switching (h.wf q) hk
    exact hne (h.locks.eq_of_mem hmem hq)
  have hon := (onCpu_iff hk).mp (h.on q ⟨c', hc'⟩)
  exact ⟨hk, hon.2, hon.1⟩

lemma on_self (h : Inv s) (hc : s.exec c = some p) (hk : (s.code p).switching = false) :
    (s.proc p).state = .running ∧ s.saved p = false :=
  ((onCpu_iff hk).mp (h.on p ⟨c, hc⟩)).symm

lemma not_on (h : Inv s) (hq : .proc q ∈ s.held c) (hc : s.exec c ≠ some q)
    (hst : (s.proc q).state ≠ .running) : ¬ s.On q := by
  rintro ⟨c', hc'⟩
  have hne : c' ≠ c := by
    rintro rfl
    exact hc hc'
  exact hst (h.on_running hq hc' hne).2.1

lemma child_not_on (h : Inv s) (hch : (s.code r).child = some q) : ¬ s.On q := by
  intro hon
  exact (h.on q hon).alive.2 (h.child r q hch)

lemma child_idle (h : Inv s) (hch : (s.code r).child = some q) : s.code q = .dead ∨ s.code q = .unlock q (.run []) :=
  (h.off q (h.child_not_on hch)).idle (.inr (h.child r q hch))

lemma update (h : Inv s) (hc : s.exec c = some p) (hexec : s'.exec = s.exec) (hscode : s'.scode = s.scode)
    (hcproc : s'.cproc = s.cproc) (hlocks : Holds s'.lock s'.held) (hwf : ∀ r, (s'.code r).Wf r)
    (hr : ∀ r, r ≠ p → r ≠ q → s'.code r = s.code r ∧ s'.saved r = s.saved r ∧ (s'.proc r).state = (s.proc r).state)
    (hp : (s'.code p).OnCpu (s'.proc p).state (s'.saved p))
    (hqon : q ≠ p → s.On q → (s'.code q).OnCpu (s'.proc q).state (s'.saved q))
    (hqoff : ¬ s.On q → (s'.code q).OffCpu q (s'.proc q).state (s'.saved q) (s.Picked q))
    (hqchild : q ≠ p → s'.code q = s.code q ∨ (s'.code q).child = none)
    (hused : ∀ r, r ≠ p → (s.code r).child = some q →
      (s'.proc q).state = .used ∧ s'.saved q = s.saved q ∧ s'.code q = s.code q)
    (hchild : ∀ np, (s'.code p).child = some np → (s'.proc np).state = .used ∧
      (s'.code p ≠ .act np .mem → s'.saved np = true ∧ s'.code np = .unlock np (.run [])) ∧
      ∀ r, r ≠ p → (s.code r).child ≠ some np) : Inv s' := by
  have hOn : ∀ r, s'.On r ↔ s.On r := fun r => by rw [State.On, State.On, hexec]
  have hPicked : ∀ r, s'.Picked r = s.Picked r := fun r => by rw [State.Picked, State.Picked, hexec, hscode]
  -- the code of a thread other than `p` that sets up a slot is as before
  have hold : ∀ r np, r ≠ p → (s'.code r).child = some np → (s.code r).child = some np ∧ s'.code r = s.code r := by
    intro r np hrp hch
    by_cases hrq : r = q
    · subst hrq
      obtain hsame | hnone := hqchild hrp
      · exact ⟨hsame ▸ hch, hsame⟩
      · rw [hnone] at hch
        cases hch
    · have := (hr r hrp hrq).1
      exact ⟨this ▸ hch, this⟩
  -- and the slot is as before
  have hslot : ∀ r np, r ≠ p → (s.code r).child = some np →
      (s'.proc np).state = .used ∧ s'.saved np = s.saved np ∧ s'.code np = s.code np := by
    intro r np hrp hch
    by_cases hq : np = q
    · subst hq
      exact hused r hrp hch
    · have hnp : np ≠ p := by
        rintro rfl
        exact h.child_not_on hch ⟨c, hc⟩
      obtain ⟨h1, h2, h3⟩ := hr np hnp hq
      exact ⟨h3.trans (h.child r np hch), h2, h1⟩
  refine ⟨hlocks, hwf, ?_, ?_, ?_, ?_, ?_, ?_, ?_, ?_, ?_⟩
  · rw [hexec]
    exact h.exec_inj
  · rw [hexec, hcproc, hscode]
    exact h.cpu_on
  · rw [hexec, hcproc, hscode]
    exact h.cpu_off
  · intro c' r hc' hcur
    rw [hOn]
    rw [hexec] at hc'
    rw [hscode] at hcur
    exact h.cur_off c' r hc' hcur
  · intro r hon
    rw [hOn] at hon
    by_cases hrp : r = p
    · exact hrp ▸ hp
    by_cases hrq : r = q
    · subst hrq
      exact hqon hrp hon
    obtain ⟨h1, h2, h3⟩ := hr r hrp hrq
    rw [h1, h2, h3]
    exact h.on r hon
  · intro r hon
    rw [hOn] at hon
    rw [hPicked]
    have hrp : r ≠ p := by
      rintro rfl
      exact hon ⟨c, hc⟩
    by_cases hrq : r = q
    · subst hrq
      exact hqoff hon
    obtain ⟨h1, h2, h3⟩ := hr r hrp hrq
    rw [h1, h2, h3]
    exact h.off r hon
  · intro r np hch
    by_cases hrp : r = p
    · subst hrp
      exact (hchild np hch).1
    · exact (hslot r np hrp (hold r np hrp hch).1).1
  · intro r np hch hmem
    by_cases hrp : r = p
    · subst hrp
      exact (hchild np hch).2.1 hmem
    · obtain ⟨hch', hsame⟩ := hold r np hrp hch
      obtain ⟨-, h2, h3⟩ := hslot r np hrp hch'
      rw [h2, h3]
      exact h.child_ready r np hch' (hsame ▸ hmem)
  · intro r r' np hch hch'
    by_cases hrp : r = p <;> by_cases hrp' : r' = p
    · exact hrp.trans hrp'.symm
    · subst hrp
      exact absurd (hold r' np hrp' hch').1 ((hchild np hch).2.2 r' hrp')
    · subst hrp'
      exact absurd (hold r np hrp hch).1 ((hchild np hch').2.2 r hrp)
    · exact h.child_inj r r' np (hold r np hrp hch).1 (hold r' np hrp' hch').1

/-! ### Steps of a process -/

section

variable {s1 s' : State C}

lemma held_setCode (h : Inv s) (s1 : State C) (k' : Code) (hc : s.exec c = some p) (hexec : s1.exec = s.exec)
    (hscode : s1.scode = s.scode) (hcode : ∀ r, r ≠ p → s.On r → s1.code r = s.code r) :
    (s1.setCode p k').held c = k'.held p ∧ ∀ c', c' ≠ c → (s1.setCode p k').held c' = s.held c' := by
  have hexec' : (s1.setCode p k').exec = s.exec := hexec
  constructor
  · rw [held_on (hexec' ▸ hc)]
    exact congrArg _ (Function.update_self _ _ _)
  · intro c' hne
    cases hc' : s.exec c' with
    | none =>
      rw [held_off (hexec' ▸ hc'), held_off hc']
      exact congrArg SCode.held (congrFun hscode c')
    | some r =>
      have hrp : r ≠ p := by
        rintro rfl
        exact hne (h.exec_inj _ _ _ hc' hc)
      rw [held_on (hexec' ▸ hc'), held_on hc', ← hcode r hrp ⟨c', hc'⟩]
      exact congrArg _ (Function.update_of_ne hrp _ _)

lemma holds_same (h : Inv s) (hc : s.exec c = some p) (hexec : s1.exec = s.exec) (hscode : s1.scode = s.scode)
    (hlock : s1.lock = s.lock) (hcode : ∀ r, r ≠ p → s.On r → s1.code r = s.code r) (hm : k'.held p = s.held c) :
    Holds (s1.setCode p k').lock (s1.setCode p k').held := by
  obtain ⟨hh, ho⟩ := h.held_setCode s1 k' hc hexec hscode hcode
  have hlocks : Holds (s1.setCode p k').lock s.held := hlock ▸ h.locks
  refine hlocks.congr fun c' => ?_
  by_cases hcc : c' = c
  · rw [hcc, hh, hm]
  · exact ho c' hcc

lemma holds_effect [DecidableEq C] (h : Inv s) (hc : s.exec c = some p) (hm : e.Moves ((s.code p).held p) (k'.held p))
    (hload : e ≠ .load) (hmem : ∀ q, e = .upd (.mem q) → ¬ s.On q) (he : s.effect c p e = some s1) :
    Holds (s1.setCode p k').lock (s1.setCode p k').held := by
  rw [← held_on hc] at hm
  cases e with
  | none | save =>
    cases he
    exact h.holds_same hc rfl rfl rfl (fun _ _ _ => rfl) hm
  | load => exact absurd rfl hload
  | acquire l =>
    obtain ⟨hl, he⟩ := ite_none_right_eq_some.mp he
    cases he
    obtain ⟨hh, ho⟩ := h.held_setCode (s.setLock l (some c)) k' hc rfl rfl fun _ _ _ => rfl
    exact h.locks.acquire hl (hh.trans hm) ho
  | release l =>
    obtain ⟨hl, he⟩ := ite_none_right_eq_some.mp he
    cases he
    obtain ⟨hh, ho⟩ := h.held_setCode (s.setLock l none) k' hc rfl rfl fun _ _ _ => rfl
    exact h.locks.release (hh ▸ hm) ho
  | upd u =>
    cases he
    refine h.holds_same hc rfl rfl rfl (fun r _ hr => ?_) hm
    cases u with
    | mem q =>
      have hrq : r ≠ q := by
        rintro rfl
        exact hmem r rfl hr
      exact Function.update_of_ne hrq _ _
    | _ => rfl

lemma upd_proc_of_ne (hr : r ≠ u.slot) : (s.upd u).proc r = s.proc r := Function.update_of_ne hr _ _

lemma upd_proc_self (u : Upd) : (s.upd u).proc u.slot = u.fn (s.proc u.slot) := Function.update_self _ _ _

lemma quiet_state (hu : Quiet s p k u k') (r : Slot) : ((s.upd u).proc r).state = (s.proc r).state := by
  by_cases hr : r = u.slot
  · subst hr
    rw [upd_proc_self]
    cases hu <;> rfl
  · rw [upd_proc_of_ne hr]

section

variable (h : Inv s) (hc : s.exec c = some p)

include h hc

lemma child_same (hch : k'.child = (s.code p).child) (hmem : ∀ q, s.code p ≠ .act q .mem) {np : Slot}
    (hnp : k'.child = some np) :
    np ≠ p ∧ (s.proc np).state = .used ∧ s.saved np = true ∧ s.code np = .unlock np (.run []) ∧
      ∀ r, r ≠ p → (s.code r).child ≠ some np := by
  rw [hch] at hnp
  have hnpp : np ≠ p := by
    rintro rfl
    exact h.child_not_on hnp ⟨c, hc⟩
  have hrd := h.child_ready p np hnp (hmem np)
  exact ⟨hnpp, h.child p np hnp, hrd.1, hrd.2, fun r hr hr' => hr (h.child_inj r p np hr' hnp)⟩

lemma stay (hp : k'.OnCpu (s.proc p).state (s1.saved p)) (hch : k'.child = (s.code p).child)
    (hmem : ∀ q, s.code p ≠ .act q .mem) (hwf : k'.Wf p) (hexec : s1.exec = s.exec) (hscode : s1.scode = s.scode)
    (hcproc : s1.cproc = s.cproc) (hcode : s1.code = s.code) (hsaved : ∀ r, r ≠ p → s1.saved r = s.saved r)
    (hst : ∀ r, (s1.proc r).state = (s.proc r).state) (hlocks : Holds (s1.setCode p k').lock (s1.setCode p k').held) :
    Inv (s1.setCode p k') := by
  have hcp : (s1.setCode p k').code p = k' := Function.update_self _ _ _
  have hne : ∀ r, r ≠ p → (s1.setCode p k').code r = s.code r := fun r hr =>
    (Function.update_of_ne hr _ _).trans (congrFun hcode r)
  have hsaved' : ∀ r, r ≠ p → (s1.setCode p k').saved r = s.saved r := hsaved
  have hst' : ∀ r, ((s1.setCode p k').proc r).state = (s.proc r).state := hst
  refine h.update (q := p) hc hexec hscode hcproc hlocks ?_ ?_ ?_ ?_ ?_ ?_ ?_ ?_
  · intro r
    by_cases hr : r = p
    · rw [hr, hcp]
      exact hwf
    · rw [hne r hr]
      exact h.wf r
  · exact fun r hr _ => ⟨hne r hr, hsaved' r hr, hst' r⟩
  · rw [hcp, hst']
    exact hp
  · exact fun hpp => absurd rfl hpp
  · exact fun hon => absurd ⟨c, hc⟩ hon
  · exact fun hpp => absurd rfl hpp
  · exact fun r _ hr => absurd ⟨c, hc⟩ (h.child_not_on hr)
  · intro np hnp
    rw [hcp] at hnp
    obtain ⟨hnpp, hused, hsv, hcd, hinj⟩ := h.child_same hc hch hmem hnp
    refine ⟨(hst' np).trans hused, fun _ => ?_, hinj⟩
    rw [hsaved' np hnpp, hne np hnpp]
    exact ⟨hsv, hcd⟩

lemma upd_step (hu : ∀ q, u ≠ .mem q) (hwf : k'.Wf p) (hm : k'.held p = (s.code p).held p)
    (hp : k'.OnCpu ((s.upd u).proc p).state (s.saved p)) (hqon : u.slot ≠ p → s.On u.slot →
      (s.code u.slot).OnCpu (u.fn (s.proc u.slot)).state (s.saved u.slot)) (hqoff : ¬ s.On u.slot →
      (s.code u.slot).OffCpu u.slot (u.fn (s.proc u.slot)).state (s.saved u.slot) (s.Picked u.slot))
    (hused : ∀ r, r ≠ p → (s.code r).child = some u.slot → (u.fn (s.proc u.slot)).state = .used)
    (hchild : ∀ np, k'.child = some np → np ≠ p ∧ ((s.upd u).proc np).state = .used ∧
      (k' ≠ .act np .mem → s.saved np = true ∧ s.code np = .unlock np (.run [])) ∧
      ∀ r, r ≠ p → (s.code r).child ≠ some np) : Inv ((s.upd u).setCode p k') := by
  have hcode : (s.upd u).code = s.code := by cases u <;> first | rfl | exact absurd rfl (hu _)
  have hsaved : (s.upd u).saved = s.saved := by cases u <;> first | rfl | exact absurd rfl (hu _)
  have hsaved' : ∀ r, ((s.upd u).setCode p k').saved r = s.saved r := congrFun hsaved
  have hcp : ((s.upd u).setCode p k').code p = k' := Function.update_self _ _ _
  have hne : ∀ r, r ≠ p → ((s.upd u).setCode p k').code r = s.code r := fun r hr =>
    (Function.update_of_ne hr _ _).trans (congrFun hcode r)
  have hslot : ((s.upd u).setCode p k').proc u.slot = u.fn (s.proc u.slot) := upd_proc_self u
  refine h.update (q := u.slot) hc rfl rfl rfl ?_ ?_ ?_ ?_ ?_ ?_ ?_ ?_ ?_
  · exact h.holds_same hc rfl rfl rfl (fun r _ _ => congrFun hcode r) (hm.trans (held_on hc).symm)
  · intro r
    by_cases hr : r = p
    · rw [hr, hcp]
      exact hwf
    · rw [hne r hr]
      exact h.wf r
  · exact fun r hr hru => ⟨hne r hr, hsaved' r, congrArg Proc.state (upd_proc_of_ne hru)⟩
  · rw [hcp, hsaved']
    exact hp
  · intro hq hon
    rw [hne _ hq, hsaved', hslot]
    exact hqon hq hon
  · intro hon
    have hq : u.slot ≠ p := by
      intro hq
      exact hon (hq ▸ ⟨c, hc⟩)
    rw [hne _ hq, hsaved', hslot]
    exact hqoff hon
  · exact fun hq => .inl (hne _ hq)
  · intro r hr hch
    have hq : u.slot ≠ p := by
      intro hq
      exact h.child_not_on hch (hq ▸ ⟨c, hc⟩)
    rw [hslot]
    exact ⟨hused r hr hch, hsaved' _, hne _ hq⟩
  · intro np hnp
    rw [hcp] at hnp ⊢
    obtain ⟨hnpp, hst, hrd, hinj⟩ := hchild np hnp
    rw [hsaved', hne np hnpp]
    exact ⟨hst, hrd, hinj⟩

end

lemma wake_state (hu : (∃ chan, u = .wake q chan) ∨ u = .kill q) (x : Proc) :
    u.slot = q ∧ ((u.fn x).state = x.state ∨ x.state = .sleeping ∧ (u.fn x).state = .runnable) := by
  obtain ⟨chan, rfl⟩ | rfl := hu
  · refine ⟨rfl, ?_⟩
    by_cases hx : x.state = .sleeping ∧ x.chan = chan
    · exact .inr ⟨hx.1, by simp [Upd.fn, hx]⟩
    · exact .inl (by simp [Upd.fn, hx])
  · refine ⟨rfl, ?_⟩
    by_cases hx : x.state = .sleeping
    · exact .inr ⟨hx, by simp [Upd.fn, hx]⟩
    · exact .inl (by simp [Upd.fn, hx])

section

variable (h : Inv s) (hc : s.exec c = some p)

include h hc

lemma wake_step (hcode : s.code p = .act q o) (hk' : k'.switching = false) (hch : k'.child = (Code.act q o).child)
    (hmem : o ≠ .mem) (hex : o ≠ .exitRel) (hu : (∃ chan, u = .wake q chan) ∨ u = .kill q) (hwf : k'.Wf p)
    (hm : k'.held p = (s.code p).held p) :
    Inv ((s.upd u).setCode p k') := by
  have hsw : (s.code p).switching = false := by
    rw [hcode]
    cases o <;> first | rfl | exact absurd rfl hex
  have hself := h.on_self hc hsw
  have hq : .proc q ∈ s.held c := by
    rw [held_on hc, hcode]
    exact List.mem_cons_self
  obtain ⟨rfl, hst⟩ := wake_state hu (s.proc q)
  have hrunning : (s.proc u.slot).state = .running → (u.fn (s.proc u.slot)).state = .running := by
    intro hr
    obtain hst | ⟨hst, -⟩ := hst
    · rw [hst, hr]
    · rw [hr] at hst
      cases hst
  have hpst : ((s.upd u).proc p).state = .running := by
    by_cases hpq : p = u.slot
    · subst hpq
      rw [upd_proc_self]
      exact hrunning hself.1
    · rw [upd_proc_of_ne hpq]
      exact hself.1
  have hkeep : (s.proc u.slot).state = .used → (u.fn (s.proc u.slot)).state = .used := by
    intro hr
    obtain hst | ⟨hst, -⟩ := hst
    · rw [hst, hr]
    · rw [hr] at hst
      cases hst
  have hnmem : ∀ x, s.code p ≠ .act x .mem := by
    intro x hx
    rw [hcode] at hx
    cases hx
    exact hmem rfl
  refine h.upd_step hc ?_ hwf hm ?_ ?_ ?_ ?_ ?_
  · intro x hx
    subst hx
    obtain ⟨chan, hx⟩ | hx := hu <;> cases hx
  · rw [onCpu_iff hk']
    exact ⟨hself.2, hpst⟩
  · rintro hne ⟨c', hc'⟩
    have hcc : c' ≠ c := by
      rintro rfl
      rw [hc] at hc'
      exact hne (some.inj hc').symm
    obtain ⟨hk, hrun, hsv⟩ := h.on_running hq hc' hcc
    rw [onCpu_iff hk]
    exact ⟨hsv, hrunning hrun⟩
  · intro hon
    have hoff := h.off _ hon
    obtain hst | ⟨hst, hst'⟩ := hst
    · rw [hst]
      exact hoff
    · rw [hst'] at ⊢
      have := hoff.running
      rw [hst] at this
      exact ⟨fun _ => hoff.ready (.inr (.inl hst)), nofun, by simp, by simpa using this⟩
  · exact fun r _ hr => hkeep (h.child r _ hr)
  · intro np hnp
    obtain ⟨hnpp, hused, hsv, hcd, hinj⟩ := h.child_same hc (hcode ▸ hch) hnmem hnp
    refine ⟨hnpp, ?_, fun _ => ⟨hsv, hcd⟩, hinj⟩
    by_cases hnq : np = u.slot
    · subst hnq
      rw [upd_proc_self]
      exact hkeep hused
    · rw [upd_proc_of_ne hnq]
      exact hused

lemma self_step (hu : ∀ q, u ≠ .mem q) (hslot : u.slot = p) (hwf : k'.Wf p) (hm : k'.held p = (s.code p).held p)
    (hp : k'.OnCpu (u.fn (s.proc p)).state (s.saved p)) (hch : k'.child = (s.code p).child)
    (hmem : ∀ q, s.code p ≠ .act q .mem) : Inv ((s.upd u).setCode p k') := by
  subst hslot
  refine h.upd_step hc hu hwf hm ?_ (fun hne => absurd rfl hne) (fun hon => absurd ⟨c, hc⟩ hon) ?_ ?_
  · rw [upd_proc_self]
    exact hp
  · exact fun r _ hr => absurd ⟨c, hc⟩ (h.child_not_on hr)
  · intro np hnp
    obtain ⟨hnpp, hused, hsv, hcd, hinj⟩ := h.child_same hc hch hmem hnp
    rw [upd_proc_of_ne hnpp]
    exact ⟨hnpp, hused, fun _ => ⟨hsv, hcd⟩, hinj⟩

lemma slot_step (hu : ∀ q, u ≠ .mem q) (hq : u.slot = q) (hwf : k'.Wf p) (hm : k'.held p = (s.code p).held p)
    (hsw : (s.code p).switching = false) (hk' : k'.switching = false) (hon : ¬ s.On q)
    (hrun : (s.proc q).state ≠ .running) (hrun' : (u.fn (s.proc q)).state ≠ .running)
    (hzombie : (u.fn (s.proc q)).state ≠ .zombie) (hidle : s.code q = .dead ∨ s.code q = .unlock q (.run []))
    (hready : (u.fn (s.proc q)).state = .runnable ∨ (u.fn (s.proc q)).state = .sleeping →
      s.saved q = true ∧ s.code q = .unlock q (.run [])) (hfree : ∀ r, r ≠ p → (s.code r).child ≠ some q)
    (hchild : ∀ np, k'.child = some np → np = q ∧ (u.fn (s.proc q)).state = .used ∧ k' = .act np .mem) :
    Inv ((s.upd u).setCode p k') := by
  subst hq
  have hself := h.on_self hc hsw
  have hpu : p ≠ u.slot := by
    intro hpu
    exact hon (hpu ▸ ⟨c, hc⟩)
  refine h.upd_step hc hu hwf hm ?_ (fun _ hon' => absurd hon' hon) ?_ ?_ ?_
  · rw [onCpu_iff hk', upd_proc_of_ne hpu]
    exact ⟨hself.2, hself.1⟩
  · intro _
    have hoff := h.off _ hon
    refine ⟨?_, fun hz => absurd hz hzombie, fun _ => hidle, iff_of_false hrun' fun hp => hrun (hoff.running.mpr hp)⟩
    intro hst
    obtain ⟨hsv, hcd⟩ := hready (hst.imp_right fun h => h.resolve_right hrun')
    rw [hcd]
    exact ⟨hsv, rfl, rfl⟩
  · exact fun r hr hch => absurd hch (hfree r hr)
  · intro np hnp
    obtain ⟨rfl, hst, hk⟩ := hchild np hnp
    rw [upd_proc_self]
    exact ⟨Ne.symm hpu, hst, fun hne => absurd hk hne, hfree⟩

lemma mem_step (hcode : s.code p = .act q .mem) :
    Inv ((s.upd (.mem q)).setCode p (.act q .copy)) := by
  set s' := (s.upd (.mem q)).setCode p (.act q .copy)
  have hch : (s.code p).child = some q := by rw [hcode]; rfl
  have hon := h.child_not_on hch
  have hused := h.child p q hch
  have hqp : q ≠ p := by
    rintro rfl
    exact hon ⟨c, hc⟩
  have hself := h.on_self hc (by rw [hcode]; rfl)
  have hcp : s'.code p = .act q .copy := Function.update_self _ _ _
  have hcq : s'.code q = .unlock q (.run []) :=
    (Function.update_of_ne hqp _ _).trans (Function.update_self _ _ _)
  have hne : ∀ r, r ≠ p → r ≠ q → s'.code r = s.code r := fun r hr hrq =>
    (Function.update_of_ne hr _ _).trans (Function.update_of_ne hrq _ _)
  have hsq : s'.saved q = true := Function.update_self _ _ _
  have hsv : ∀ r, r ≠ q → s'.saved r = s.saved r := fun r hr =>
    Function.update_of_ne hr _ _
  have hst : ∀ r, (s'.proc r).state = (s.proc r).state := by
    intro r
    by_cases hr : r = q
    · subst hr
      change ((s.upd (.mem r)).proc (Upd.mem r).slot).state = _
      rw [upd_proc_self]
      rfl
    · exact congrArg Proc.state (upd_proc_of_ne (u := .mem q) hr)
  refine h.update (q := q) hc rfl rfl rfl ?_ ?_ ?_ ?_ ?_ ?_ ?_ ?_ ?_
  · refine h.holds_same hc rfl rfl rfl (fun r _ hr => ?_) ?_
    · have hrq : r ≠ q := by
        rintro rfl
        exact hon hr
      exact Function.update_of_ne hrq _ _
    · rw [held_on hc, hcode]
      rfl
  · intro r
    by_cases hr : r = p
    · rw [hr, hcp]
      trivial
    · by_cases hrq : r = q
      · rw [hrq, hcq]
        exact ⟨trivial, rfl⟩
      · rw [hne r hr hrq]
        exact h.wf r
  · exact fun r hr hrq => ⟨hne r hr hrq, hsv r hrq, hst r⟩
  · rw [hcp, hst, hsv p (Ne.symm hqp)]
    exact hself.symm
  · exact fun _ hon' => absurd hon' hon
  · intro _
    rw [hcq, hst, hsq, hused]
    have hoff := (h.off q hon).running
    rw [hused] at hoff
    exact ⟨by simp, nofun, fun _ => .inr rfl, hoff⟩
  · exact fun _ => .inr (by rw [hcq]; rfl)
  · exact fun r hr hch' => absurd (h.child_inj r p q hch' hch) hr
  · intro np hnp
    rw [hcp] at hnp
    cases hnp
    exact ⟨(hst q).trans hused, fun _ => ⟨hsq, hcq⟩, fun r hr hch' => hr (h.child_inj r p q hch' hch)⟩

lemma load_step [DecidableEq C] (hcode : s.code p = .load k) :
    Inv (({ s with exec := Function.update s.exec c none }).setCode p k) := by
  have hwf := h.wf p
  rw [hcode] at hwf
  obtain ⟨hheld, hwf, hk⟩ := hwf
  have hon := h.on p ⟨c, hc⟩
  rw [hcode] at hon
  obtain ⟨hsv, hleft⟩ := hon
  set s' := ({ s with exec := Function.update s.exec c none }).setCode p k
  have hcp : s'.code p = k := Function.update_self _ _ _
  have hne : ∀ r, r ≠ p → s'.code r = s.code r := fun r hr => Function.update_of_ne hr _ _
  have hec : s'.exec c = none := Function.update_self _ _ _
  have heo : ∀ c', c' ≠ c → s'.exec c' = s.exec c' := fun c' hcc => Function.update_of_ne hcc _ _
  have hsc : s'.scode = s.scode := rfl
  have hcr : s'.cproc = s.cproc := rfl
  have hpr : s'.proc = s.proc := rfl
  have hsd : s'.saved = s.saved := rfl
  have hlk : s'.lock = s.lock := rfl
  have hback := (h.cpu_on c p hc).2
  have hOnp : ¬ s'.On p := by
    rintro ⟨c', hc'⟩
    by_cases hcc : c' = c
    · rw [hcc, hec] at hc'
      cases hc'
    · rw [heo c' hcc] at hc'
      exact hcc (h.exec_inj _ _ _ hc' hc)
  have hOn : ∀ r, r ≠ p → (s'.On r ↔ s.On r) := by
    intro r hr
    constructor <;> rintro ⟨c', hc'⟩ <;> refine ⟨c', ?_⟩ <;> by_cases hcc : c' = c
    · rw [hcc, hec] at hc'
      cases hc'
    · rwa [heo c' hcc] at hc'
    · rw [hcc, hc] at hc'
      exact absurd (some.inj hc').symm hr
    · rwa [heo c' hcc]
  have hPicked : ∀ r, s'.Picked r ↔ s.Picked r := by
    intro r
    constructor <;> rintro ⟨c', hc', hp'⟩ <;> refine ⟨c', ?_⟩ <;> by_cases hcc : c' = c
    · rw [hcc, hsc, hback] at hp'
      cases hp'
    · rw [hsc] at hp'
      rw [heo c' hcc] at hc'
      exact ⟨hc', hp'⟩
    · rw [hcc, hc] at hc'
      cases hc'
    · rw [hsc, heo c' hcc]
      exact ⟨hc', hp'⟩
  have hchild : ∀ r np, (s'.code r).child = some np → (s.code r).child = some np := by
    intro r np hch
    by_cases hr : r = p
    · rw [hr, hcp] at hch
      rw [hr, hcode]
      exact hch
    · rwa [hne r hr] at hch
  refine ⟨?_, ?_, ?_, ?_, ?_, ?_, ?_, ?_, ?_, ?_, ?_⟩
  · rw [hlk]
    refine h.locks.congr fun c' => ?_
    by_cases hcc : c' = c
    · rw [hcc, held_off hec, held_on hc, hsc, hback, hcode]
      rfl
    · cases hc' : s.exec c' with
      | none => rw [held_off hc', held_off ((heo c' hcc).trans hc'), hsc]
      | some r =>
        have hr : r ≠ p := by
          rintro rfl
          exact hcc (h.exec_inj _ _ _ hc' hc)
        rw [held_on hc', held_on ((heo c' hcc).trans hc'), hne r hr]
  · intro r
    by_cases hr : r = p
    · rw [hr, hcp]
      exact hwf
    · rw [hne r hr]
      exact h.wf r
  · intro d d' r hd hd'
    have : ∀ x, s'.exec x = some r → s.exec x = some r := by
      intro x hx
      by_cases hcc : x = c
      · rw [hcc, hec] at hx
        cases hx
      · rwa [heo x hcc] at hx
    exact h.exec_inj d d' r (this d hd) (this d' hd')
  · intro d r hd
    by_cases hcc : d = c
    · rw [hcc, hec] at hd
      cases hd
    · rw [heo d hcc] at hd
      rw [hcr, hsc]
      exact h.cpu_on d r hd
  · intro d hd
    rw [hcr, hsc]
    by_cases hcc : d = c
    · rw [hcc, (h.cpu_on c p hc).1, hback]
      rfl
    · rw [heo d hcc] at hd
      exact h.cpu_off d hd
  · intro d r hd hcur
    by_cases hr : r = p
    · exact hr ▸ hOnp
    · rw [hOn r hr]
      rw [hsc] at hcur
      by_cases hcc : d = c
      · rw [hcc, hback] at hcur
        exact absurd (some.inj hcur).symm hr
      · rw [heo d hcc] at hd
        exact h.cur_off d r hd hcur
  · intro r hon
    have hr : r ≠ p := by
      rintro rfl
      exact hOnp hon
    rw [hne r hr, hpr, hsd]
    exact h.on r ((hOn r hr).mp hon)
  · intro r hon
    rw [hpr, hsd, propext (hPicked r)]
    by_cases hr : r = p
    · subst hr
      rw [hcp]
      have hnp : ¬ s.Picked r := fun ⟨d, hd, hd'⟩ =>
        h.cur_off d r hd (by rw [hd']; rfl) ⟨c, hc⟩
      obtain ⟨rfl, hst⟩ | ⟨hk', hst⟩ := hleft
      · exact ⟨by simp [hst], fun _ => rfl, by simp [hst], iff_of_false (by simp [hst]) hnp⟩
      · have hres := hk.resolve_left hk'
        refine ⟨fun _ => ⟨hsv, hheld, hres⟩, ?_, ?_, iff_of_false ?_ hnp⟩ <;> obtain hst | hst := hst <;> simp [hst]
    · rw [hne r hr]
      exact h.off r fun hon' => hon ((hOn r hr).mpr hon')
  · intro r np hch
    rw [hpr]
    exact h.child r np (hchild r np hch)
  · intro r np hch hmem
    have hnp : np ≠ p := by
      rintro rfl
      exact h.child_not_on (hchild r np hch) ⟨c, hc⟩
    rw [hsd, hne np hnp]
    refine h.child_ready r np (hchild r np hch) ?_
    by_cases hr : r = p
    · rw [hr, hcode]
      exact nofun
    · rwa [← hne r hr]
  · exact fun r r' np hch hch' => h.child_inj r r' np (hchild r np hch) (hchild r' np hch')

lemma act_off (hk : s.code p = .act q o) (hsw : (s.code p).switching = false) (hst : (s.proc q).state ≠ .running) :
    ¬ s.On q := by
  refine h.not_on (c := c) ?_ ?_ hst
  · rw [held_on hc, hk]
    exact List.mem_cons_self
  · rw [hc]
    rintro ⟨⟩
    exact hst (h.on_self hc hsw).1

/-- **A step on the stack of a process** keeps the invariant. -/
lemma proc_step [DecidableEq C] (hs : procStep s c p a = some s') : Inv s' := by
  obtain ⟨⟨e, k'⟩, hn, hs⟩ := bind_eq_some_iff.mp hs
  obtain ⟨s1, he, rfl⟩ := map_eq_some_iff.mp hs
  obtain ⟨hm, hwf⟩ := next_spec hn (h.wf p)
  have hmv := next_move hn (h.wf p)
  have hon := h.on p ⟨c, hc⟩
  generalize hk : s.code p = k at hmv
  have hlocks : e ≠ .load → (∀ q, e = .upd (.mem q) → ¬ s.On q) → _ := fun h1 h2 => h.holds_effect hc hm h1 h2 he
  cases hmv with
  | stay hsw hk' hch hmem he' =>
    rw [hk, onCpu_iff hsw] at hon
    have hmem' : ∀ q, s.code p ≠ .act q .mem := hk ▸ hmem
    -- the table is as it was
    have key : ∀ lock, Holds lock ({ s with lock := lock }.setCode p k').held → Inv ({ s with lock := lock }.setCode p k') :=
      fun lock hl => h.stay hc ((onCpu_iff hk').mpr hon) (hk ▸ hch) hmem' hwf rfl rfl rfl rfl (fun _ _ => rfl)
        (fun _ => rfl) hl
    obtain rfl | ⟨l, rfl⟩ | ⟨l, rfl⟩ | ⟨u, rfl, hu⟩ := he'
    · cases he
      exact key _ (hlocks nofun nofun)
    · cases (ite_none_right_eq_some.mp he).2
      exact key _ (hlocks nofun nofun)
    · cases (ite_none_right_eq_some.mp he).2
      exact key _ (hlocks nofun nofun)
    · cases he
      have hcode : (s.upd u).code = s.code := by cases hu <;> rfl
      have hsaved : (s.upd u).saved = s.saved := by cases hu <;> rfl
      refine h.stay hc ((onCpu_iff hk').mpr (hsaved ▸ hon)) (hk ▸ hch) hmem' hwf rfl rfl rfl hcode
        (fun r _ => congrFun hsaved r) (quiet_state hu) (hlocks nofun ?_)
      rintro q hq
      cases hq
      cases hu
  | @wake q chan k =>
    cases he
    exact h.wake_step hc hk rfl rfl nofun nofun (.inl ⟨chan, rfl⟩) hwf hm
  | kill =>
    cases he
    exact h.wake_step hc hk rfl rfl nofun nofun (.inr rfl) hwf hm
  | yield | doze =>
    cases he
    rw [hk] at hon
    refine h.self_step hc nofun rfl hwf hm ?_ (by rw [hk]; rfl) (by rw [hk]; exact nofun)
    first
    | exact ⟨hon.1, .inr ⟨nofun, .inl rfl⟩⟩
    | exact ⟨hon.1, .inr ⟨nofun, .inr rfl⟩⟩
  | zombie =>
    cases he
    rw [hk] at hon
    exact h.self_step hc nofun rfl hwf hm ⟨hon.1, rfl⟩ (by rw [hk]; rfl) (by rw [hk]; exact nofun)
  | exitRel =>
    cases (ite_none_right_eq_some.mp he).2
    rw [hk] at hon
    exact h.stay hc ⟨hon.1, .inl ⟨rfl, hon.2⟩⟩ (by rw [hk]; rfl) (by rw [hk]; exact nofun) hwf rfl rfl rfl rfl
      (fun _ _ => rfl) (fun _ => rfl) (hlocks nofun nofun)
  | save =>
    cases he
    rw [hk] at hon
    exact h.stay hc ⟨Function.update_self _ _ _, hon.2⟩ (by rw [hk]; rfl) (by rw [hk]; exact nofun) hwf rfl rfl rfl rfl
      (fun r hr => Function.update_of_ne hr _ _) (fun _ => rfl) (hlocks nofun nofun)
  | load =>
    cases he
    exact h.load_step hc hk
  | mem =>
    cases he
    exact h.mem_step hc hk
  | @alloc q l hq =>
    cases he
    have hsw : (s.code p).switching = false := by rw [hk]; rfl
    have hoff := h.act_off hc hk hsw (by simp [hq])
    refine h.slot_step (q := q) hc nofun rfl hwf hm hsw rfl hoff (by simp [hq]) nofun nofun
      ((h.off q hoff).idle (.inl hq)) (fun hst => by obtain hst | hst := hst <;> cases hst) ?_ ?_
    · intro r _ hch
      rw [h.child r _ hch] at hq
      cases hq
    · rintro np ⟨⟩
      exact ⟨rfl, rfl, rfl⟩
  | @fail o q ho =>
    cases he
    have hch : (s.code p).child = some q := by obtain rfl | rfl := ho <;> rw [hk] <;> rfl
    refine h.slot_step (q := q) hc nofun rfl hwf hm (by obtain rfl | rfl := ho <;> rw [hk] <;> rfl) rfl (h.child_not_on hch)
      (by simp [h.child p q hch]) nofun nofun (h.child_idle hch) (fun hst => by obtain hst | hst := hst <;> cases hst) ?_ nofun
    exact fun r hr hch' => hr (h.child_inj r p q hch' hch)
  | @runnable q =>
    cases he
    have hch : (s.code p).child = some q := by rw [hk]; rfl
    refine h.slot_step (q := q) hc nofun rfl hwf hm (by rw [hk]; rfl) rfl (h.child_not_on hch) (by simp [h.child p q hch])
      nofun nofun (h.child_idle hch) (fun _ => ?_) ?_ nofun
    · exact h.child_ready p q hch (by rw [hk]; exact nofun)
    · exact fun r hr hch' => hr (h.child_inj r p q hch' hch)
  | @reap q l hq =>
    cases he
    have hsw : (s.code p).switching = false := by rw [hk]; rfl
    have hoff := h.act_off hc hk hsw (by simp [hq])
    refine h.slot_step (q := q) hc nofun rfl hwf hm hsw rfl hoff (by simp [hq]) nofun nofun
      (.inl ((h.off q hoff).dead hq)) (fun hst => by obtain hst | hst := hst <;> cases hst) ?_ nofun
    intro r _ hch
    rw [h.child r _ hch] at hq
    cases hq

end

end

end Inv

end Xv6.Sched
