import Xv6.Sched.Locks

/-!
# What a step of a thread can do

`Move` lists what one step does to the states of processes; every step of a thread is one of them.
-/

namespace Xv6.Sched

open Lib

mutual

/-- The slot that a thread is setting up inside `fork`. -/
def Code.child : Code → Option Slot
  | .lock q o | .act q o => o.child q
  | .unlock _ k | .save k | .load k | .relock _ k | .wakeup _ _ k => k.child
  | .forkWait np | .forkParent np | .forkRelWait np => some np
  | _ => none

def Op.child (q : Slot) : Op → Option Slot
  | .yield k | .sleep _ _ k | .doze _ _ k | .tidy _ k | .wake _ k => k.child
  | .mem | .copy | .runnable => some q
  | _ => none

end

/-- The updates by process `p` that leave the states of processes alone. -/
inductive Quiet {C : Type} (s : State C) (p : Slot) : Code → Upd → Code → Prop
  | tidy : Quiet s p (.act p (.tidy lk k)) (.tidy p) (.unlock p (.relock lk k))
  | setkilled : Quiet s p (.act p .setkilled) (.setkilled p) (.unlock p (.run []))
  | close (hp : p ≠ initproc) : Quiet s p (.run []) (.close p) (.exitWait status)
  | own : Quiet s p (.run lks) (.own p sz ofile cwd) (.run lks)
  | reparent (hq : (s.proc q).parent = some p) :
      Quiet s p (.reparent status (q :: l)) (.reparent q) (.wakeup (.proc initproc) slots (.reparent status l))
  | copy : Quiet s p (.act q .copy) (.copy q (s.proc p)) (.unlock q (.forkWait q))
  | parent : Quiet s p (.forkParent np) (.parent np p) (.forkRelWait np)

/-- What a step of a thread does to the states of processes. -/
inductive Move {C : Type} (s : State C) (p : Slot) : Code → Eff → Code → Prop
  | stay (hk : k.switching = false) (hk' : k'.switching = false)
      (hch : k'.child = k.child) (hmem : ∀ q, k ≠ .act q .mem)
      (he : e = .none ∨ (∃ l, e = .acquire l) ∨ (∃ l, e = .release l) ∨ ∃ u, e = .upd u ∧ Quiet s p k u k') :
      Move s p k e k'
  | wake : Move s p (.act q (.wake chan k)) (.upd (.wake q chan)) (.unlock q k)
  | kill (hq : (s.proc q).pid = pid) : Move s p (.act q (.kill pid l)) (.upd (.kill q)) (.unlock q (.killRet 0))
  | yield : Move s p (.act p (.yield k)) (.upd (.runnable p)) (.save (.unlock p k))
  | doze : Move s p (.act p (.doze chan lk k)) (.upd (.doze p chan)) (.save (.act p (.tidy lk k)))
  | zombie : Move s p (.act p (.zombie status)) (.upd (.zombie p status)) (.act p .exitRel)
  | exitRel : Move s p (.act p .exitRel) (.release .wait) (.save .dead)
  | alloc (hq : (s.proc q).state = .unused) : Move s p (.act q (.alloc l)) (.upd (.alloc q s.nextpid)) (.act q .mem)
  | mem : Move s p (.act q .mem) (.upd (.mem q)) (.act q .copy)
  | fail (ho : o = .mem ∨ o = .copy) : Move s p (.act q o) (.upd (.free q)) (.unlock q (.run []))
  | runnable : Move s p (.act q .runnable) (.upd (.runnable q)) (.unlock q (.run []))
  | reap (hq : (s.proc q).state = .zombie) : Move s p (.act q (.reap l)) (.upd (.free q))
      (.unlock q (.waitRet (some ((s.proc q).pid, (s.proc q).xstate))))
  | save : Move s p (.save k) .save (.load k)
  | load : Move s p (.load k) .load k

variable {C : Type} {s : State C} {p : Slot} {k k' : Code} {e : Eff} {a : Act}

/-- **What a step of a thread can do.** -/
lemma next_move (h : next s p a k = some (e, k')) (hwf : k.Wf p) : Move s p k e k' := by
  cases next_cases h with
  | tick hk | intr hk =>
    refine .stay (switching_of_entry (entry_of_held hk)) rfl rfl ?_ (.inl rfl)
    rintro q rfl
    cases hk
  | call h =>
    cases a with
    | exit status =>
      obtain ⟨⟨rfl, hp⟩, hr⟩ := Option.ite_none_right_eq_some.mp h
      cases hr
      exact .stay rfl rfl rfl nofun (.inr (.inr (.inr ⟨_, rfl, .close hp⟩)))
    | own sz ofile cwd =>
      cases h
      exact .stay rfl rfl rfl nofun (.inr (.inr (.inr ⟨_, rfl, .own⟩)))
    | _ =>
      simp only [call] at h
      (try split at h) <;> cases h <;> exact .stay rfl rfl rfl nofun (by simp)
  | @lock _ q o =>
    refine .stay rfl ?_ rfl nofun (.inr (.inl ⟨_, rfl⟩))
    cases o <;> first | rfl | cases hwf.2
  | unlock => exact .stay rfl (switching_of_entry hwf.2) rfl nofun (.inr (.inr (.inl ⟨_, rfl⟩)))
  | relock => exact .stay rfl (switching_of_entry hwf.2.2.entry) rfl nofun (.inr (.inl ⟨_, rfl⟩))
  | woken => exact .stay rfl (switching_of_entry hwf.2) rfl nofun (.inl rfl)
  | exitWait | forkWait | waitLock => exact .stay rfl rfl rfl nofun (.inr (.inl ⟨_, rfl⟩))
  | forkRelWait | waitRet | sleep => exact .stay rfl rfl rfl nofun (.inr (.inr (.inl ⟨_, rfl⟩)))
  | forkParent => exact .stay rfl rfl rfl nofun (.inr (.inr (.inr ⟨_, rfl, .parent⟩)))
  | reparent hq => exact .stay rfl rfl rfl nofun (.inr (.inr (.inr ⟨_, rfl, .reparent hq⟩)))
  | copy => exact .stay rfl rfl rfl nofun (.inr (.inr (.inr ⟨_, rfl, .copy⟩)))
  | tidy =>
    obtain ⟨rfl, -⟩ := hwf
    exact .stay rfl rfl rfl nofun (.inr (.inr (.inr ⟨_, rfl, .tidy⟩)))
  | @setkilled _ q =>
    obtain rfl : q = p := hwf
    exact .stay rfl rfl rfl nofun (.inr (.inr (.inr ⟨_, rfl, .setkilled⟩)))
  | yield =>
    obtain ⟨rfl, -⟩ := hwf
    exact .yield
  | doze =>
    obtain ⟨rfl, -⟩ := hwf
    exact .doze
  | @zombie _ q _ =>
    obtain rfl : q = p := hwf
    exact .zombie
  | @exitRel _ q =>
    obtain rfl : q = p := hwf
    exact .exitRel
  | save => exact .save
  | load => exact .load
  | wake => exact .wake
  | mem => exact .mem
  | runnable => exact .runnable
  | kill hq => exact .kill hq
  | alloc hq => exact .alloc hq
  | fail ho => exact .fail ho
  | reap hq => exact .reap hq
  | _ => exact .stay rfl rfl rfl nofun (.inl rfl)

end Xv6.Sched
