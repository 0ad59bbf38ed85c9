import Xv6.Sched.Model

/-!
# Code and the spinlocks it holds

`Code.Wf` says that the places where a thread continues hold the locks that they are handed: a thread
that sleeps or yields is resumed with its `p->lock` held, and what is interrupted holds no spinlock.
-/

namespace Xv6.Sched

open Lib

/-- The thread has changed its state and is leaving the CPU, or has left it for ever. -/
def Code.switching : Code → Bool
  | .save _ | .load _ | .dead | .act _ .exitRel => true
  | _ => false

/-- A place in the code that can be returned to: not in a section, nor on the way off the CPU. -/
@[simp]
def Code.entry : Code → Bool
  | .act _ _ | .save _ | .load _ | .dead => false
  | _ => true

/-- What a section can start with. -/
def Op.first : Op → Bool
  | .doze _ _ _ | .tidy _ _ | .exitRel | .mem | .copy => false
  | _ => true

/-- What `sleep` returns to: code outside `proc.c`, or the loop of `wait`. -/
def Code.Rests (k : Code) : Prop := (∃ lks, k = .run lks) ∨ k = .scan false slots

/-- Where `swtch` comes back to: in `yield`, in `sleep`, or at the start of `forkret`. -/
def Code.Resumes (p : Slot) : Code → Prop
  | .unlock q _ | .act q (.tidy _ _) => q = p
  | _ => False

section

variable {p : Slot} {k : Code}

lemma Code.Rests.entry (h : k.Rests) : k.entry = true := by obtain ⟨lks, rfl⟩ | rfl := h <;> rfl

lemma switching_of_entry (hk : k.entry = true) : k.switching = false := by
  cases k <;> first | rfl | cases hk

lemma switching_of_resumes (hk : k.Resumes p) : k.switching = false := by
  cases k with
  | act q o => cases o <;> first | rfl | exact hk.elim
  | unlock q k => rfl
  | _ => exact hk.elim

end

mutual

/-- Code whose continuations can be returned to with the locks that are then held. -/
def Code.Wf (p : Slot) : Code → Prop
  | .lock q o => o.Wf p q ∧ o.first = true
  | .act q o => o.Wf p q
  | .unlock _ k => k.Wf p ∧ k.entry = true
  | .save k | .load k => k.held p = [.proc p] ∧ k.Wf p ∧ (k = .dead ∨ k.Resumes p)
  | .relock lk k => k.held p = [lk] ∧ k.Wf p ∧ k.Rests
  | .wakeup _ _ k => k.Wf p ∧ k.entry = true
  | _ => True

def Op.Wf (p q : Slot) : Op → Prop
  | .yield k => q = p ∧ k.held p = [] ∧ k.Wf p ∧ k.entry = true
  | .sleep chan lk k => q = p ∧ (k.held p = [lk] ∧ k.Wf p ∧ k.Rests) ∧ ∀ x, chan = .proc x → x = p ∧ lk = .wait
  | .doze _ lk k | .tidy lk k => q = p ∧ k.held p = [lk] ∧ k.Wf p ∧ k.Rests
  | .wake _ k => k.Wf p ∧ k.entry = true
  | .setkilled | .zombie _ | .exitRel | .killed => q = p
  | _ => True

end

/-- How an effect changes the locks that a thread holds. -/
def Eff.Moves : Eff → List Lock → List Lock → Prop
  | .acquire x, l, l' => l' = x :: l
  | .release x, l, l' => l.Perm (x :: l')
  | _, l, l' => l' = l

/-! ### The steps, one by one -/

/-- The steps of a thread. -/
inductive Next {C : Type} (s : State C) (p : Slot) : Act → Code → Eff → Code → Prop
  | call (h : call p lks a = some (e, k)) : Next s p a (.run lks) e k
  | tick (hk : k.held p = []) : Next s p .tick k .none (.lock p (.yield k))
  | intr (hk : k.held p = []) : Next s p (.intr ch) k .none (.wakeup (.other ch) slots k)
  | lock : Next s p (.go ok) (.lock q o) (.acquire (.proc q)) (.act q o)
  | unlock : Next s p (.go ok) (.unlock q k) (.release (.proc q)) k
  | save : Next s p (.go ok) (.save k) .save (.load k)
  | load : Next s p (.go ok) (.load k) .load k
  | relock : Next s p (.go ok) (.relock lk k) (.acquire lk) k
  | woken : Next s p (.go ok) (.wakeup ch [] k) .none k
  | wakeSelf (hq : q = p) : Next s p (.go ok) (.wakeup ch (q :: l) k) .none (.wakeup ch l k)
  | wakeNext : Next s p (.go ok) (.wakeup ch (q :: l) k) .none (.lock q (.wake ch (.wakeup ch l k)))
  | killNone : Next s p (.go ok) (.kill pid []) .none (.killRet (-1))
  | killNext : Next s p (.go ok) (.kill pid (q :: l)) .none (.lock q (.kill pid l))
  | killRet : Next s p (.go ok) (.killRet v) .none (.run [])
  | exitWait : Next s p (.go ok) (.exitWait st) (.acquire .wait) (.reparent st slots)
  | reparented : Next s p (.go ok) (.reparent st []) .none
      (.wakeup (parentChan (s.proc p).parent) slots (.lock p (.zombie st)))
  | reparent (hq : (s.proc q).parent = some p) : Next s p (.go ok) (.reparent st (q :: l)) (.upd (.reparent q))
      (.wakeup (.proc initproc) slots (.reparent st l))
  | reparentNot (hq : (s.proc q).parent ≠ some p) : Next s p (.go ok) (.reparent st (q :: l)) .none (.reparent st l)
  | forkNone : Next s p (.go ok) (.fork []) .none (.run [])
  | forkNext : Next s p (.go ok) (.fork (q :: l)) .none (.lock q (.alloc l))
  | forkWait : Next s p (.go ok) (.forkWait q) (.acquire .wait) (.forkParent q)
  | forkParent : Next s p (.go ok) (.forkParent q) (.upd (.parent q p)) (.forkRelWait q)
  | forkRelWait : Next s p (.go ok) (.forkRelWait q) (.release .wait) (.lock q .runnable)
  | waitLock : Next s p (.go ok) .waitLock (.acquire .wait) (.scan false slots)
  | scanNone : Next s p (.go ok) (.scan false []) .none (.waitRet none)
  | scanKids : Next s p (.go ok) (.scan true []) .none (.lock p .killed)
  | scan (hq : (s.proc q).parent = some p) : Next s p (.go ok) (.scan b (q :: l)) .none (.lock q (.reap l))
  | scanNot (hq : (s.proc q).parent ≠ some p) : Next s p (.go ok) (.scan b (q :: l)) .none (.scan b l)
  | waitRet : Next s p (.go ok) (.waitRet r) (.release .wait) (.run [])
  | yield : Next s p (.go ok) (.act q (.yield k)) (.upd (.runnable q)) (.save (.unlock q k))
  | sleep : Next s p (.go ok) (.act q (.sleep ch lk k)) (.release lk) (.act q (.doze ch lk k))
  | doze : Next s p (.go ok) (.act q (.doze ch lk k)) (.upd (.doze q ch)) (.save (.act q (.tidy lk k)))
  | tidy : Next s p (.go ok) (.act q (.tidy lk k)) (.upd (.tidy q)) (.unlock q (.relock lk k))
  | wake : Next s p (.go ok) (.act q (.wake ch k)) (.upd (.wake q ch)) (.unlock q k)
  | kill (hq : (s.proc q).pid = pid) : Next s p (.go ok) (.act q (.kill pid l)) (.upd (.kill q)) (.unlock q (.killRet 0))
  | killNot : Next s p (.go ok) (.act q (.kill pid l)) .none (.unlock q (.kill pid l))
  | setkilled : Next s p (.go ok) (.act q .setkilled) (.upd (.setkilled q)) (.unlock q (.run []))
  | zombie : Next s p (.go ok) (.act q (.zombie st)) (.upd (.zombie q st)) (.act q .exitRel)
  | exitRel : Next s p (.go ok) (.act q .exitRel) (.release .wait) (.save .dead)
  | alloc (hq : (s.proc q).state = .unused) :
      Next s p (.go ok) (.act q (.alloc l)) (.upd (.alloc q s.nextpid)) (.act q .mem)
  | allocNot (hq : (s.proc q).state ≠ .unused) : Next s p (.go ok) (.act q (.alloc l)) .none (.unlock q (.fork l))
  | mem : Next s p (.go ok) (.act q .mem) (.upd (.mem q)) (.act q .copy)
  | copy : Next s p (.go ok) (.act q .copy) (.upd (.copy q (s.proc p))) (.unlock q (.forkWait q))
  | fail (ho : o = .mem ∨ o = .copy) : Next s p (.go ok) (.act q o) (.upd (.free q)) (.unlock q (.run []))
  | runnable : Next s p (.go ok) (.act q .runnable) (.upd (.runnable q)) (.unlock q (.run []))
  | reap (hq : (s.proc q).state = .zombie) :
      Next s p (.go true) (.act q (.reap l)) (.upd (.free q))
        (.unlock q (.waitRet (some ((s.proc q).pid, (s.proc q).xstate))))
  | reapFail (hq : (s.proc q).state = .zombie) : Next s p (.go false) (.act q (.reap l)) .none (.unlock q (.waitRet none))
  | reapNot (hq : (s.proc q).state ≠ .zombie) : Next s p (.go ok) (.act q (.reap l)) .none (.unlock q (.scan true l))
  | killed (hq : (s.proc q).killed = true) : Next s p (.go ok) (.act q .killed) .none (.unlock q (.waitRet none))
  | killedNot (hq : (s.proc q).killed = false) : Next s p (.go ok) (.act q .killed) .none
      (.unlock q (.lock q (.sleep (.proc q) .wait (.scan false slots))))

variable {C : Type} {s : State C} {p : Slot} {k k' : Code} {e : Eff} {a : Act}

lemma entry_of_held (h : k.held p = []) : k.entry = true := by
  cases k with
  | act q o => simp [Code.held] at h
  | save k | load k => simp [Code.held] at h
  | dead => simp [Code.held] at h
  | _ => rfl

lemma next_act_cases {ok : Bool} (h : actStep s p ok q o = (e, k')) :
    Next s p (.go ok) (.act q o) e k' := by
  cases o with
  | kill =>
    obtain ⟨hq, h⟩ | ⟨-, h⟩ := ite_eq_iff.mp h <;> cases h
    · exact .kill hq
    · exact .killNot
  | alloc => obtain ⟨hq, h⟩ | ⟨hq, h⟩ := ite_eq_iff.mp h <;> cases h <;> constructor <;> exact hq
  | mem =>
    obtain h | h := ite_eq_iff.mp h <;> cases h.2
    · exact .mem
    · exact .fail (.inl rfl)
  | copy =>
    obtain h | h := ite_eq_iff.mp h <;> cases h.2
    · exact .copy
    · exact .fail (.inr rfl)
  | reap =>
    obtain ⟨hq, h⟩ | ⟨hq, h⟩ := ite_eq_iff.mp h
    · cases ok <;> cases h
      · exact .reapFail hq
      · exact .reap hq
    · cases h
      exact .reapNot hq
  | killed =>
    cases h
    cases hq : (s.proc q).killed
    · exact .killedNot hq
    · exact .killed hq
  | _ =>
    cases h
    constructor

/-- **Every step of a thread is one of these.** -/
lemma next_cases (h : next s p a k = some (e, k')) : Next s p a k e k' := by
  cases a with
  | tick | intr =>
    obtain ⟨hk, h⟩ := Option.ite_none_right_eq_some.mp h
    cases h
    constructor; exact hk
  | go ok =>
    cases k with
    | run | dead => cases h
    | act q o => exact next_act_cases (Option.some.inj h)
    | wakeup ch l k =>
      cases l with
      | nil => cases h; exact .woken
      | cons q l =>
        obtain ⟨hq, h⟩ | ⟨-, h⟩ := ite_eq_iff.mp h <;> cases h
        · exact .wakeSelf hq
        · exact .wakeNext
    | kill pid l | fork l => cases l <;> cases h <;> constructor
    | reparent st l =>
      cases l with
      | nil => cases h; exact .reparented
      | cons q l => obtain ⟨hq, h⟩ | ⟨hq, h⟩ := ite_eq_iff.mp h <;> cases h <;> constructor <;> exact hq
    | scan b l =>
      cases l with
      | nil => cases b <;> cases h <;> constructor
      | cons q l => obtain ⟨hq, h⟩ | ⟨hq, h⟩ := ite_eq_iff.mp h <;> cases h <;> constructor <;> exact hq
    | _ =>
      cases h
      constructor
  | _ =>
    cases k with
    | run lks => exact .call h
    | _ => cases h

lemma next_spec (h : next s p a k = some (e, k')) (hwf : k.Wf p) : e.Moves (k.held p) (k'.held p) ∧ k'.Wf p := by
  cases next_cases h with
  | tick hk => exact ⟨hk.symm, ⟨rfl, hk, hwf, entry_of_held hk⟩, rfl⟩
  | intr hk => exact ⟨rfl, hwf, entry_of_held hk⟩
  | call h =>
    unfold call at h
    split at h <;> (try split at h) <;> cases h <;>
      simp_all [Eff.Moves, Code.held, Op.held, Code.Wf, Op.Wf, Op.first, Code.Rests]
    exact ((List.perm_cons_erase ‹_›).map _)
  | save | wakeSelf | wake => exact ⟨rfl, hwf⟩
  | load | relock => exact ⟨hwf.1, hwf.2.1⟩
  | woken => exact ⟨rfl, hwf.1⟩
  | wakeNext => exact ⟨rfl, ⟨hwf, rfl⟩, rfl⟩
  | sleep => exact ⟨List.Perm.swap _ _ _, hwf.1, hwf.2.1⟩
  | @exitRel _ q =>
    obtain rfl : q = p := hwf
    exact ⟨List.Perm.swap _ _ _, rfl, trivial, .inl rfl⟩
  | yield =>
    obtain ⟨rfl, hk, hk'⟩ := hwf
    exact ⟨rfl, by rw [Code.held, hk], hk', .inr rfl⟩
  | doze =>
    obtain ⟨rfl, hk⟩ := hwf
    exact ⟨rfl, rfl, ⟨rfl, hk⟩, .inr rfl⟩
  | tidy => exact ⟨rfl, hwf.2, rfl⟩
  | @killedNot q =>
    obtain rfl : q = p := hwf
    simp [Eff.Moves, Code.held, Op.held, Code.Wf, Op.Wf, Op.first, Code.Rests]
  | fail ho => obtain rfl | rfl := ho <;> exact ⟨rfl, trivial, rfl⟩
  | _ => simp_all [Eff.Moves, Code.held, Op.held, Code.Wf, Op.Wf, Op.first]

end Xv6.Sched
