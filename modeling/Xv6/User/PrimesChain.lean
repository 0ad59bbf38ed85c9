import Xv6.User.PrimesFlow

/-!
# The chain of processes of `primes`

Where a process of the chain can be, with its descriptors (`At`), and what holds of the chain in every state (`Inv`).
-/

namespace Xv6.User.Primes

open Lib List

/-- Process `x` of `L` can be at a call with these descriptors.  Only the last process has not forked. -/
inductive At (N L : ℕ) : ℕ → Code → List (ℕ × Bool) → Prop
  | mainPipe : L = 1 → At N L 0 .mainPipe []
  | mainFork : L = 1 → At N L 0 (.mainFork 0) [(0, false), (0, true)]
  | mainClose0 : 1 < L → At N L 0 (.mainClose0 0) [(0, false), (0, true)]
  | mainWrite : 1 < L → i.toNat ≤ N → At N L 0 (.mainWrite 0 i 0) [(0, true)]
  | mainClose1 : 1 < L → At N L 0 (.mainClose1 0) [(0, true)]
  | childMain : L = 2 → At N L 1 (.child 0 none) [(0, false), (0, true)]
  | child : L = y + 3 → At N L (y + 2) (.child (y + 1) (some y)) [(y, false), (y + 1, false), (y + 1, true)]
  | childFd : L = y + 3 → At N L (y + 2) (.childFd (y + 1) y) [(y, false), (y + 1, false)]
  | first : L = y + 2 → At N L (y + 1) (.first y) [(y, false)]
  | closeFirst : L = y + 2 → At N L (y + 1) (.closeFirst y) [(y, false)]
  | print : L = y + 2 → At N L (y + 1) (.print y num) [(y, false)]
  | pipe : L = y + 2 → At N L (y + 1) (.pipe y num) [(y, false)]
  | fork : L = y + 2 → At N L (y + 1) (.fork y num (y + 1)) [(y, false), (y + 1, false), (y + 1, true)]
  | close0 : y + 2 < L → At N L (y + 1) (.close0 y num (y + 1)) [(y, false), (y + 1, false), (y + 1, true)]
  | read : y + 2 < L → At N L (y + 1) (.read y num (y + 1) tmp) [(y, false), (y + 1, true)]
  | write : y + 2 < L → At N L (y + 1) (.write y num (y + 1) tmp 0) [(y, false), (y + 1, true)]
  | close1 : y + 2 < L → At N L (y + 1) (.close1 y (y + 1)) [(y, false), (y + 1, true)]
  | closeFd : y + 2 < L → At N L (y + 1) (.closeFd y) [(y, false)]
  | wait : x + 1 < L → At N L x .wait []
  | exited : At N L x .exited []

/-- The process has closed its write end. -/
def Code.past : Code → Bool
  | .closeFd _ | .wait | .exited => true
  | _ => false

/-- The process has seen the end of its input. -/
def Code.closing : Code → Bool
  | .closeFirst _ | .close1 _ _ | .closeFd _ | .wait | .exited => true
  | _ => false

/-- The process has made its pipe and not yet forked. -/
def Code.forking : Code → Bool
  | .mainFork _ | .fork _ _ _ => true
  | _ => false

structure Inv (N : ℕ) (s : Sys) : Prop where
  /-- The processes are a chain. -/
  procs : 0 < s.procs.length
  place : ∀ (x : ℕ) (q : Proc), s.procs[x]? = some q → At N s.procs.length x q.code q.fds
  parent : ∀ (x : ℕ) (q : Proc), s.procs[x]? = some q → ∀ y, q.parent = some y ↔ x = y + 1
  /-- The pipes lead from one to the next; the last process may have a new one. -/
  pipes : s.pipes.length = s.procs.length - 1 + if (s.code (s.procs.length - 1)).forking then 1 else 0
  fresh : (s.code (s.procs.length - 1)).forking = true → s.pipes[s.procs.length - 1]? = some ⟨[], [], []⟩
  whole : ∀ (k : ℕ) (pi : Pipe), s.pipes[k]? = some pi → pi.Whole
  /-- A process that has seen the end of its input has read all, and no more will come. -/
  ends : ∀ x, x + 1 < s.procs.length → (s.code (x + 1)).closing = true → s.inp N (x + 1) = [] ∧ (s.code x).past = true
  eof : ∀ (k : ℕ) (pi : Pipe), s.pipes[k]? = some pi → [] ∈ pi.got → (s.code (k + 1)).closing = true
  /-- What has been printed and what is still to be printed. -/
  lines : s.out ++ left N (s.code (s.procs.length - 1)) (s.inp N (s.procs.length - 1)) = sieve divides (count N 2)

/-- The invariant holds after a step, and there are fewer steps to come. -/
structure After (N : ℕ) (s s' : Sys) : Prop where
  inv : Inv N s'
  cost : s'.cost N < s.cost N

variable {k y : ℕ} {pi : Pipe} {s1 : Sys}

section

variable {N L : ℕ} {s s' : Sys} {x : ℕ} {q : Proc} {code : Code} {fds : List (ℕ × Bool)}

lemma At.grow (h : At N L x code fds) (hx : x + 1 < L) : At N (L + 1) x code fds := by
  cases h with
  | mainPipe h | mainFork h | childMain h | child h | childFd h | first h | closeFirst h | print h | pipe h | fork h => omega
  | mainClose0 h => exact .mainClose0 (by omega)
  | mainWrite h hi => exact .mainWrite (by omega) hi
  | mainClose1 h => exact .mainClose1 (by omega)
  | close0 h => exact .close0 (by omega)
  | read h => exact .read (by omega)
  | write h => exact .write (by omega)
  | close1 h => exact .close1 (by omega)
  | closeFd h => exact .closeFd (by omega)
  | wait h => exact .wait (by omega)
  | exited => exact .exited

lemma At.writeEnd (h : At N L x code fds) (hk : (k, true) ∈ fds) :
    x = k ∧ code.past = false ∨ x = k + 1 ∧ ∃ fd, code = .child k fd := by
  cases h with
  | mainPipe | childFd | first | closeFirst | print | pipe | closeFd | wait | exited => simp at hk
  | childMain | child =>
    simp at hk
    exact .inr ⟨by omega, _, by rw [hk]⟩
  | mainFork | mainClose0 | mainWrite | mainClose1 | fork | close0 | read | write | close1 =>
    simp at hk
    exact .inl ⟨by omega, rfl⟩

lemma At.has_writeEnd (h : At N L x code fds) (hx : x + 1 < L) (hp : code.past = false) : (x, true) ∈ fds := by
  cases h with
  | mainPipe h | mainFork h | childMain h | child h | childFd h | first h | closeFirst h | print h | pipe h | fork h => omega
  | closeFd | wait | exited => cases hp
  | mainClose0 | mainWrite | mainClose1 | close0 | read | write | close1 => simp

lemma At.has_readEnd (h : At N L (x + 1) code fds) (hp : code ≠ .wait ∧ code ≠ .exited) : (x, false) ∈ fds := by
  cases h with
  | wait => exact absurd rfl hp.1
  | exited => exact absurd rfl hp.2
  | childMain | child | childFd | first | closeFirst | print | pipe | fork | close0 | read | write | close1 | closeFd => simp

lemma code_goto (hx : x < s.procs.length) (y : ℕ) :
    (s.goto x q code fds).code y = if y = x then code else s.code y := by
  unfold Sys.code Sys.goto
  by_cases hy : y = x
  · subst hy
    rw [if_pos rfl, List.getElem?_set_self hx]
    rfl
  · rw [if_neg hy, getElem?_set_ne (Ne.symm hy)]

lemma queue_goto (k : ℕ) : (s.goto x q code fds).queue k = s.queue k := rfl

lemma queue_setPipe (pi : Pipe) (hk : k < s.pipes.length) (y : ℕ) :
    (s.setPipe k pi).queue y = if y = k then decode pi.buf else s.queue y := by
  unfold Sys.queue Sys.setPipe
  by_cases hy : y = k
  · subst hy
    rw [if_pos rfl, List.getElem?_set_self hk]
    rfl
  · rw [if_neg hy, getElem?_set_ne (Ne.symm hy)]

lemma queue_eq (h : s.pipes[k]? = some pi) : s.queue k = decode pi.buf := by
  unfold Sys.queue
  rw [h]
  rfl

/-! ### Steps of one process -/

lemma Inv.lt (_ : Inv N s) (hq : s.procs[x]? = some q) : x < s.procs.length := (List.getElem?_eq_some_iff.mp hq).1

lemma code_goto_of (code : Code) (fds : List (ℕ × Bool)) (hq : s.procs[x]? = some q) (hprocs : s1.procs = s.procs)
    (y : ℕ) :
    (s1.goto x q code fds).code y = if y = x then code else s.code y := by
  rw [code_goto (by rw [hprocs]; exact (List.getElem?_eq_some_iff.mp hq).1)]
  unfold Sys.code
  rw [hprocs]

lemma goto_same {β : Type} (hq : s.procs[x]? = some q) (hprocs : s1.procs = s.procs) (f : Code → β)
    (hf : f code = f q.code) (y : ℕ) : f ((s1.goto x q code fds).code y) = f (s.code y) := by
  rw [code_goto_of _ _ hq hprocs]
  split
  · rename_i hy
    rw [hy, Sys.code_eq hq, hf]
  · rfl

lemma inp_goto_same (N : ℕ) (fds : List (ℕ × Bool)) (hq : s.procs[x]? = some q) (hprocs : s1.procs = s.procs)
    (hqueue : ∀ k, s1.queue k = s.queue k) (hwill : will N code = will N q.code) (y : ℕ) :
    (s1.goto x q code fds).inp N y = s.inp N y := by
  induction y with
  | zero => rfl
  | succ y ih => rw [Sys.inp, Sys.inp, ih, queue_goto, hqueue, goto_same hq hprocs (will N) hwill]

lemma Inv.goto (h : Inv N s) (hq : s.procs[x]? = some q) (hprocs : s1.procs = s.procs)
    (hat : At N s.procs.length x code fds) (hpipes : s1.pipes.length = s.procs.length - 1 +
      if ((s1.goto x q code fds).code (s.procs.length - 1)).forking then 1 else 0)
    (hfresh : ((s1.goto x q code fds).code (s.procs.length - 1)).forking = true →
      s1.pipes[s.procs.length - 1]? = some ⟨[], [], []⟩)
    (hwhole : ∀ (k : ℕ) (pi : Pipe), s1.pipes[k]? = some pi → pi.Whole)
    (hinp : ∀ y, y ≠ x → (s1.goto x q code fds).inp N y = s.inp N y)
    (hself : ∀ y, x = y + 1 → code.closing = true → (s1.goto x q code fds).inp N x = [] ∧ (s.code y).past = true)
    (hpast : q.code.past = true → code.past = true)
    (heof : ∀ (k : ℕ) (pi : Pipe), s1.pipes[k]? = some pi → [] ∈ pi.got →
      ((s1.goto x q code fds).code (k + 1)).closing = true)
    (hlines : s1.out ++ left N ((s1.goto x q code fds).code (s.procs.length - 1))
      ((s1.goto x q code fds).inp N (s.procs.length - 1)) =
        s.out ++ left N (s.code (s.procs.length - 1)) (s.inp N (s.procs.length - 1)))
    (hcost : cost N code ((s1.goto x q code fds).inp N x) < cost N q.code (s.inp N x)) :
    After N s (s1.goto x q code fds) := by
  have hx := h.lt hq
  have hlen : (s1.goto x q code fds).procs.length = s.procs.length := by
    rw [Sys.goto, List.length_set, hprocs]
  have hcode := code_goto_of code fds hq hprocs
  have hget : ∀ y r, (s1.goto x q code fds).procs[y]? = some r →
      y = x ∧ r = { q with code := code, fds := fds } ∨ y ≠ x ∧ s.procs[y]? = some r := by
    intro y r hr
    rw [Sys.goto, hprocs] at hr
    by_cases hy : y = x
    · subst hy
      rw [List.getElem?_set_self hx] at hr
      cases hr
      exact .inl ⟨rfl, rfl⟩
    · rw [getElem?_set_ne (Ne.symm hy)] at hr
      exact .inr ⟨hy, hr⟩
  refine ⟨⟨by rw [hlen]; exact h.procs, fun y r hr => ?_, fun y r hr => ?_, ?_, ?_, hwhole, fun y hy hc => ?_, heof, ?_⟩,
    ?_⟩
  · rw [hlen]
    rcases hget y r hr with ⟨rfl, rfl⟩ | ⟨-, hr⟩
    · exact hat
    · exact h.place y r hr
  · rcases hget y r hr with ⟨rfl, rfl⟩ | ⟨-, hr⟩
    · exact h.parent y q hq
    · exact h.parent y r hr
  · rw [hlen]
    exact hpipes
  · rw [hlen]
    exact hfresh
  · rw [hlen] at hy
    -- the process before has closed its end, and stays past that
    have hprev : (s.code y).past = true → ((s1.goto x q code fds).code y).past = true := by
      intro hp
      rw [hcode]
      split
      · rename_i hyx
        subst hyx
        exact hpast (by rwa [← Sys.code_eq hq])
      · exact hp
    rw [hcode] at hc
    by_cases hyx : y + 1 = x
    · rw [if_pos hyx] at hc
      obtain ⟨hi, hp⟩ := hself y hyx.symm hc
      exact ⟨hyx ▸ hi, hprev hp⟩
    · rw [if_neg hyx] at hc
      obtain ⟨hi, hp⟩ := h.ends y hy hc
      exact ⟨by rw [hinp _ hyx]; exact hi, hprev hp⟩
  · rw [hlen, ← h.lines]
    exact hlines
  · -- the other processes are where they were
    have hself : cost N ((s1.goto x q code fds).code x) ((s1.goto x q code fds).inp N x) < cost N (s.code x) (s.inp N x) := by
      rw [hcode, if_pos rfl, Sys.code_eq hq]
      exact hcost
    unfold Sys.cost
    rw [hlen]
    refine Finset.sum_lt_sum (fun y _ => ?_) ⟨x, Finset.mem_range.mpr hx, hself⟩
    by_cases hy : y = x
    · rw [hy]
      exact hself.le
    · rw [hcode, if_neg hy, hinp y hy]

lemma Inv.quiet (h : Inv N s) (hq : s.procs[x]? = some q) (hat : At N s.procs.length x code fds)
    (hfork : code.forking = q.code.forking) (hwill : will N code = will N q.code) (hleft : left N code = left N q.code)
    (hclosing : x ≠ 0 → code.closing = q.code.closing) (hpast : q.code.past = true → code.past = true)
    (hcost : ∀ inp, cost N code inp < cost N q.code inp) : After N s (s.goto x q code fds) := by
  have hx := h.lt hq
  have hqc := Sys.code_eq hq
  have hinp := inp_goto_same N fds hq rfl (fun _ => rfl) hwill
  refine h.goto hq rfl hat ?_ ?_ h.whole (fun y _ => hinp y) (fun y hy hc => ?_) hpast (fun k pi hpi hgot => ?_) ?_
    (by rw [hinp]; exact hcost _)
  · rw [goto_same hq rfl Code.forking hfork]
    exact h.pipes
  · rw [goto_same hq rfl Code.forking hfork]
    exact h.fresh
  · rw [hinp]
    subst hy
    exact h.ends y hx (by rwa [hqc, ← hclosing (Nat.succ_ne_zero y)])
  · have hold := h.eof k pi hpi hgot
    rw [code_goto_of _ _ hq rfl]
    split
    · rename_i hk
      rw [hclosing (by omega), ← hqc, ← hk]
      exact hold
    · exact hold
  · rw [goto_same hq rfl (left N) hleft, hinp]

lemma code_ne_last (hx : x + 1 < s.procs.length) (hq : s.procs[x]? = some q) (hprocs : s1.procs = s.procs) :
    (s1.goto x q code fds).code (s.procs.length - 1) = s.code (s.procs.length - 1) := by
  rw [code_goto_of _ _ hq hprocs, if_neg (by omega)]

lemma Inv.print (h : Inv N s) {num : Int32} (hq : s.procs[y + 1]? = some q) (hc : q.code = .print y num)
    (hL : s.procs.length = y + 2) (hfds : q.fds = [(y, false)]) :
    After N s ({ s with out := s.out ++ [num] }.goto (y + 1) q (.pipe y num) q.fds) := by
  have hqc := (Sys.code_eq hq).trans hc
  have hp : ({ s with out := s.out ++ [num] } : Sys).procs = s.procs := rfl
  have hinp := inp_goto_same N q.fds hq hp (fun _ => rfl)
    (show will N (.pipe y num) = will N q.code by rw [hc]; rfl)
  have hfork : Code.forking (.pipe y num) = q.code.forking := by rw [hc]; rfl
  have hlast : s.procs.length - 1 = y + 1 := by omega
  refine h.goto hq hp (by rw [hfds]; exact .pipe hL) ?_ ?_ h.whole (fun z _ => hinp z) (fun z _ hcl => (by cases hcl)) ?_
    (fun k pi hpi hgot => ?_) ?_ (by rw [hinp, hc]; exact Nat.lt_succ_self _)
  · rw [goto_same hq hp Code.forking hfork]
    exact h.pipes
  · rw [goto_same hq hp Code.forking hfork]
    exact h.fresh
  · rw [hc]
    exact fun hp => by cases hp
  · have hold := h.eof k pi hpi hgot
    rw [code_goto_of _ _ hq hp]
    split
    · rename_i hk
      rw [hk, hqc] at hold
      cases hold
    · exact hold
  · rw [hinp, code_goto_of _ _ hq hp, hlast, if_pos rfl, hqc, append_assoc]
    rfl

lemma Inv.addPipe (h : Inv N s) (hq : s.procs[x]? = some q) (hL : s.procs.length = x + 1) (hold : q.code.forking = false)
    (hnew : code.forking = true) (hat : At N s.procs.length x code fds) (hwill : will N code = will N q.code)
    (hleft : left N code = left N q.code) (hclosing : code.closing = false ∧ q.code.closing = false)
    (hpast : q.code.past = false) (hcost : ∀ inp, cost N code inp < cost N q.code inp) :
    After N s (s.addPipe.goto x q code fds) := by
  have hqc := Sys.code_eq hq
  have hp : s.addPipe.procs = s.procs := rfl
  have hlast : s.procs.length - 1 = x := by omega
  have hcount : s.pipes.length = x := by
    have := h.pipes
    rw [hlast, hqc, hold] at this
    simpa using this
  have hnth : ∀ (k : ℕ) (pi : Pipe), s.addPipe.pipes[k]? = some pi → s.pipes[k]? = some pi ∨ k = x ∧ pi = ⟨[], [], []⟩ := by
    intro k pi hpi
    rw [Sys.addPipe, getElem?_append] at hpi
    split at hpi
    · exact .inl hpi
    · obtain ⟨hk, hpi'⟩ := List.getElem?_eq_some_iff.mp hpi
      rw [List.length_singleton] at hk
      refine .inr ⟨by omega, ?_⟩
      rw [← hpi']
      exact getElem_singleton _
  have hqueue : ∀ k, s.addPipe.queue k = s.queue k := by
    intro k
    unfold Sys.queue
    rcases Nat.lt_trichotomy k s.pipes.length with hk | hk | hk
    · rw [Sys.addPipe, getElem?_append_left hk]
    · rw [Sys.addPipe, getElem?_append_right (by omega), getElem?_eq_none (l := s.pipes) (by omega), hk, Nat.sub_self]
      rfl
    · rw [Sys.addPipe, getElem?_append_right (by omega), getElem?_eq_none (l := s.pipes) (by omega),
        getElem?_eq_none (by simp; omega)]
  have hinp := inp_goto_same N fds hq hp hqueue hwill
  have hself : (s.addPipe.goto x q code fds).code x = code := by rw [code_goto_of _ _ hq hp, if_pos rfl]
  refine h.goto hq hp hat ?_ ?_ (fun k pi hpi => ?_) (fun z _ => hinp z) (fun z _ hcl => ?_) ?_ (fun k pi hpi hgot => ?_) ?_
    (by rw [hinp]; exact hcost _)
  · rw [hlast, hself, hnew]
    simp [Sys.addPipe, hcount]
  · intro _
    rw [hlast, Sys.addPipe, getElem?_append_right (by omega), hcount, Nat.sub_self]
    rfl
  · rcases hnth k pi hpi with hpi | ⟨-, rfl⟩
    · exact h.whole k pi hpi
    · exact Pipe.whole_empty
  · rw [hclosing.1] at hcl
    cases hcl
  · intro hold
    rw [hpast] at hold
    cases hold
  · rcases hnth k pi hpi with hpi | ⟨-, rfl⟩
    · have hprev := h.eof k pi hpi hgot
      rw [code_goto_of _ _ hq hp]
      split
      · rename_i hk
        rw [hk, hqc, hclosing.2] at hprev
        cases hprev
      · exact hprev
    · cases hgot
  · rw [hinp, goto_same hq hp (left N) hleft]
    rfl

lemma code_addProc (r : Proc) (y : ℕ) : (s.addProc r).code y = if y = s.procs.length then r.code else s.code y := by
  unfold Sys.code Sys.addProc
  rcases Nat.lt_trichotomy y s.procs.length with hy | hy | hy
  · rw [getElem?_append_left hy, if_neg (by omega)]
  · rw [getElem?_append_right (by omega), if_pos hy, hy, Nat.sub_self]
    rfl
  · rw [getElem?_append_right (by omega), if_neg (by omega), getElem?_eq_none (l := s.procs) (by omega),
      getElem?_eq_none (by simp; omega)]

lemma Inv.fork (h : Inv N s) (hq : s.procs[x]? = some q) (hL : s.procs.length = x + 1) (hold : q.code.forking = true)
    (hqcl : q.code.closing = false) {child : Code} (hat : At N (x + 2) x code q.fds)
    (hchild : At N (x + 2) (x + 1) child q.fds) (hfork : child.forking = false)
    (hclosing : code.closing = false ∧ child.closing = false)
    (hleft : ∀ inp, left N child (will N code inp) = left N q.code inp)
    (hcost : ∀ inp, cost N code inp + cost N child (will N code inp) < cost N q.code inp) :
    After N s ((s.goto x q code q.fds).addProc ⟨some x, child, q.fds⟩) := by
  have hx := h.lt hq
  have hqc := Sys.code_eq hq
  have hlast : s.procs.length - 1 = x := by omega
  have hglen : (s.goto x q code q.fds).procs.length = x + 1 := by rw [Sys.goto, List.length_set, hL]
  set s' := (s.goto x q code q.fds).addProc ⟨some x, child, q.fds⟩ with hs'
  have hlen : s'.procs.length = x + 2 := by
    rw [hs', Sys.addProc, length_append, hglen, List.length_singleton]
  have hcode : ∀ y, s'.code y = if y = x + 1 then child else if y = x then code else s.code y := by
    intro y
    rw [hs', code_addProc, hglen, code_goto hx]
  have hfresh := h.fresh (by rw [hlast, hqc, hold])
  rw [hlast] at hfresh
  have hpipes := h.pipes
  rw [hlast, hqc, hold, if_pos rfl] at hpipes
  have hbelow : ∀ y, y ≤ x → s'.inp N y = s.inp N y := by
    intro y hy
    exact Sys.inp_below fun z hz => ⟨by rw [hcode, if_neg (by omega), if_neg (by omega)], rfl⟩
  have hinp : s'.inp N (x + 1) = will N code (s.inp N x) := by
    have hqueue : s'.queue x = [] := queue_eq hfresh
    rw [Sys.inp, hqueue, hbelow x le_rfl, hcode, if_neg (by omega), if_pos rfl, nil_append]
  have hget : ∀ y r, s'.procs[y]? = some r →
      y = x + 1 ∧ r = ⟨some x, child, q.fds⟩ ∨ y = x ∧ r = { q with code := code } ∨ y < x ∧ s.procs[y]? = some r := by
    intro y r hr
    rw [hs', Sys.addProc, getElem?_append, hglen] at hr
    split at hr
    · rw [Sys.goto] at hr
      by_cases hy : y = x
      · subst hy
        rw [List.getElem?_set_self hx] at hr
        cases hr
        exact .inr (.inl ⟨rfl, rfl⟩)
      · rw [getElem?_set_ne (Ne.symm hy)] at hr
        exact .inr (.inr ⟨by omega, hr⟩)
    · obtain ⟨hy, hr'⟩ := List.getElem?_eq_some_iff.mp hr
      rw [List.length_singleton] at hy
      refine .inl ⟨by omega, ?_⟩
      rw [← hr']
      exact getElem_singleton _
  have hlast' : s'.procs.length - 1 = x + 1 := by omega
  have hchildCode : s'.code (x + 1) = child := by rw [hcode, if_pos rfl]
  refine ⟨⟨by omega, fun y r hr => ?_, fun y r hr z => ?_, ?_, ?_, h.whole, fun y hy hc => ?_, fun k pi hpi hgot => ?_, ?_⟩,
    ?_⟩
  · rw [hlen]
    rcases hget y r hr with ⟨rfl, rfl⟩ | ⟨rfl, rfl⟩ | ⟨hy, hr⟩
    · exact hchild
    · exact hat
    · have hgrow := h.place y r hr
      rw [hL] at hgrow
      exact hgrow.grow (by omega)
  · rcases hget y r hr with ⟨rfl, rfl⟩ | ⟨rfl, rfl⟩ | ⟨hy, hr⟩
    · simp
    · exact h.parent y q hq z
    · exact h.parent y r hr z
  · rw [hlast', hchildCode, hfork]
    exact hpipes
  · rw [hlast', hchildCode, hfork]
    exact fun hf => by cases hf
  · rw [hlen] at hy
    rw [hcode] at hc
    split at hc
    · rw [hclosing.2] at hc
      cases hc
    · split at hc
      · rw [hclosing.1] at hc
        cases hc
      · obtain ⟨hi, hp⟩ := h.ends y (by omega) hc
        refine ⟨by rw [hbelow _ (by omega)]; exact hi, ?_⟩
        rw [hcode, if_neg (by omega), if_neg (by omega)]
        exact hp
  · have hpi' : s.pipes[k]? = some pi := hpi
    obtain ⟨hk, -⟩ := List.getElem?_eq_some_iff.mp hpi'
    have hprev := h.eof k pi hpi' hgot
    have hkx : k ≠ x := by
      rintro rfl
      rw [hfresh] at hpi'
      cases hpi'
      cases hgot
    rw [hcode, if_neg (by omega)]
    split
    · rename_i hkx'
      rw [hkx', hqc, hqcl] at hprev
      cases hprev
    · exact hprev
  · have hlines := h.lines
    rw [hlast, hqc] at hlines
    rw [hlast', hchildCode, hinp, hleft]
    exact hlines
  · have hold : ∀ y ∈ Finset.range x, cost N (s'.code y)
        (s'.inp N y) = cost N (s.code y) (s.inp N y) := by
      intro y hy
      have hlt := Finset.mem_range.mp hy
      rw [hcode, if_neg (by omega), if_neg (by omega), hbelow y (by omega)]
    have hmine := hcost (s.inp N x)
    unfold Sys.cost
    rw [hlen, hL, Finset.sum_range_succ, Finset.sum_range_succ, Finset.sum_range_succ _ x, Finset.sum_congr rfl hold,
      hchildCode, hinp, hcode x, if_neg (by omega), if_pos rfl, hbelow x le_rfl, hqc]
    omega

lemma getElem?_setPipe (h : (s.setPipe k pi).pipes[j]? = some r) :
    j = k ∧ r = pi ∨ j ≠ k ∧ s.pipes[j]? = some r := by
  rw [Sys.setPipe] at h
  by_cases hj : j = k
  · subst hj
    have hlt : j < (s.pipes.set j pi).length := (List.getElem?_eq_some_iff.mp h).1
    rw [List.length_set] at hlt
    rw [List.getElem?_set_self hlt] at h
    cases h
    exact .inl ⟨rfl, rfl⟩
  · rw [getElem?_set_ne (Ne.symm hj)] at h
    exact .inr ⟨hj, h⟩

lemma Inv.write (h : Inv N s) (hq : s.procs[x]? = some q) (hx : x + 1 < s.procs.length) (hpi : s.pipes[x]? = some pi)
    (hroom : pi.buf.length ≠ PIPESIZE) (hwill : ∀ inp, will N q.code inp = v :: will N code inp)
    (hat : At N s.procs.length x code fds) (hclosing : code.closing = false ∧ q.code.closing = false)
    (hpast : q.code.past = false) (hcost : ∀ inp, cost N code inp < cost N q.code inp) :
    After N s ((s.setPipe x { pi with buf := pi.buf ++ toBytes v, written := pi.written ++ [v] }).goto x q code fds) := by
  set pi' : Pipe := { pi with buf := pi.buf ++ toBytes v, written := pi.written ++ [v] } with hpi'
  obtain ⟨hlt, -⟩ := List.getElem?_eq_some_iff.mp hpi
  obtain ⟨-, hdec, hwhole⟩ := (h.whole x pi hpi).write hroom v
  have hqc := Sys.code_eq hq
  have hp : (s.setPipe x pi').procs = s.procs := rfl
  have hqueue := queue_setPipe (s := s) pi' hlt
  have hcode := code_goto_of code fds hq hp
  have hself : ((s.setPipe x pi').goto x q code fds).inp N x = s.inp N x :=
    Sys.inp_below fun y hy => ⟨by rw [hcode, if_neg (by omega)], by rw [queue_goto, hqueue, if_neg (by omega)]⟩
  have hinp : ∀ y, ((s.setPipe x pi').goto x q code fds).inp N y = s.inp N y := by
    intro y
    by_cases hy : y = x
    · rw [hy, hself]
    refine Sys.inp_others (fun z hz => by rw [hcode, if_neg hz])
      (fun z hz _ => by rw [queue_goto, hqueue, if_neg hz]) ?_ hy
    rw [Sys.inp, Sys.inp, hself, hcode, if_pos rfl, queue_goto, hqueue, if_pos rfl, hqc, hwill, queue_eq hpi]
    simp only [hpi', hdec, append_assoc, singleton_append]
  refine h.goto hq hp hat ?_ ?_ (fun k r hr => ?_) (fun y _ => hinp y) (fun y _ hc => ?_) ?_ (fun k r hr hgot => ?_) ?_
    (by rw [hself]; exact hcost _)
  · rw [code_ne_last hx hq hp, Sys.setPipe, List.length_set]
    exact h.pipes
  · rw [code_ne_last hx hq hp, Sys.setPipe, getElem?_set_ne (by omega)]
    exact h.fresh
  · rcases getElem?_setPipe hr with ⟨-, rfl⟩ | ⟨-, hr⟩
    · exact hwhole
    · exact h.whole k r hr
  · rw [hclosing.1] at hc
    cases hc
  · intro hold
    rw [hpast] at hold
    cases hold
  · have hprev : (s.code (k + 1)).closing = true := by
      rcases getElem?_setPipe hr with ⟨rfl, rfl⟩ | ⟨-, hr⟩
      · exact h.eof k pi hpi hgot
      · exact h.eof k r hr hgot
    rw [hcode]
    split
    · rename_i hk
      rw [hk, hqc, hclosing.2] at hprev
      cases hprev
    · exact hprev
  · rw [code_ne_last hx hq hp, hinp]
    rfl

lemma Inv.read (h : Inv N s) (hq : s.procs[y + 1]? = some q) (hpi : s.pipes[y]? = some pi) {rest : List Int32}
    (hv : decode pi.buf = v :: rest) (hwill : ∀ inp, will N code inp = will N q.code (v :: inp))
    (hleft : ∀ inp, left N code inp = left N q.code (v :: inp)) (hat : At N s.procs.length (y + 1) code fds)
    (hfork : code.forking = q.code.forking) (hclosing : code.closing = false ∧ q.code.closing = false)
    (hpast : q.code.past = false) (hcost : ∀ inp, cost N code inp < cost N q.code (v :: inp)) :
    After N s ((s.setPipe y { pi with buf := pi.buf.drop 4, got := pi.got ++ [toBytes v] }).goto (y + 1) q code fds) := by
  set pi' : Pipe := { pi with buf := pi.buf.drop 4, got := pi.got ++ [toBytes v] } with hpi'
  have hx := h.lt hq
  have hqc := Sys.code_eq hq
  obtain ⟨hlt, -⟩ := List.getElem?_eq_some_iff.mp hpi
  have hgot : [] ∉ pi.got := fun hmem => by
    have hprev := h.eof y pi hpi hmem
    rw [hqc, hclosing.2] at hprev
    cases hprev
  obtain ⟨-, hdec, hwhole⟩ := (h.whole y pi hpi).read hv hgot
  have hp : (s.setPipe y pi').procs = s.procs := rfl
  have hqueue := queue_setPipe (s := s) pi' hlt
  have hcode := code_goto_of code fds hq hp
  -- the number leaves the input of the process
  have hself : s.inp N (y + 1) = v :: ((s.setPipe y pi').goto (y + 1) q code fds).inp N (y + 1) := by
    have hbelow : ((s.setPipe y pi').goto (y + 1) q code fds).inp N y = s.inp N y :=
      Sys.inp_below fun z hz => ⟨by rw [hcode, if_neg (by omega)], by rw [queue_goto, hqueue, if_neg (by omega)]⟩
    rw [Sys.inp, Sys.inp, hbelow, hcode, if_neg (by omega), queue_goto, hqueue, if_pos rfl, queue_eq hpi, hv]
    simp only [hpi', hdec, cons_append]
  have hinp : ∀ z, z ≠ y + 1 → ((s.setPipe y pi').goto (y + 1) q code fds).inp N z = s.inp N z := by
    intro z hz
    refine Sys.inp_others (fun w hw => by rw [hcode, if_neg hw])
      (fun w _ hw => by rw [queue_goto, hqueue, if_neg (by omega)]) ?_ hz
    rw [Sys.inp_succ N _ (y + 1), Sys.inp_succ N s (y + 1), hself, hcode, if_pos rfl, hwill, queue_goto, hqueue,
      if_neg (by omega), hqc]
  refine h.goto hq hp hat ?_ ?_ (fun k r hr => ?_) hinp (fun z _ hc => ?_) ?_ (fun k r hr hmem => ?_) ?_
    (by rw [hself]; exact hcost _)
  · rw [goto_same hq hp Code.forking hfork, Sys.setPipe, List.length_set]
    exact h.pipes
  · rw [goto_same hq hp Code.forking hfork, Sys.setPipe, getElem?_set_ne (by omega)]
    exact h.fresh
  · rcases getElem?_setPipe hr with ⟨-, rfl⟩ | ⟨-, hr⟩
    · exact hwhole
    · exact h.whole k r hr
  · rw [hclosing.1] at hc
    cases hc
  · intro hold
    rw [hpast] at hold
    cases hold
  · rcases getElem?_setPipe hr with ⟨rfl, rfl⟩ | ⟨hk, hr⟩
    · rcases mem_append.mp hmem with hmem | hmem
      · exact absurd hmem hgot
      · exact absurd (mem_singleton.mp hmem).symm (toBytes_ne_nil v)
    · rw [hcode, if_neg (by omega)]
      exact h.eof k r hr hmem
  · by_cases hlast : s.procs.length - 1 = y + 1
    · rw [hlast, hcode, if_pos rfl, hself, hqc, hleft]
      rfl
    · rw [hcode, if_neg hlast, hinp _ hlast]
      rfl

lemma Inv.readEnd (h : Inv N s) (hq : s.procs[y + 1]? = some q) (hpi : s.pipes[y]? = some pi) (hempty : pi.buf = [])
    (hopen : s.isOpen y true = false) (hwill : will N code [] = will N q.code [])
    (hleft : left N code [] = left N q.code []) (hat : At N s.procs.length (y + 1) code fds)
    (hfork : code.forking = q.code.forking) (hclosing : code.closing = true) (hpast : q.code.past = false)
    (hcost : cost N code [] < cost N q.code []) :
    After N s ((s.setPipe y { pi with got := pi.got ++ [[]] }).goto (y + 1) q code fds) := by
  set pi' : Pipe := { pi with got := pi.got ++ [[]] }
  have hx := h.lt hq
  have hqc := Sys.code_eq hq
  obtain ⟨hlt, -⟩ := List.getElem?_eq_some_iff.mp hpi
  have hp : (s.setPipe y pi').procs = s.procs := rfl
  have hcode := code_goto_of code fds hq hp
  have hqueue : ∀ z, (s.setPipe y pi').queue z = s.queue z := by
    intro z
    rw [queue_setPipe _ hlt]
    split
    · rename_i hz
      rw [hz, queue_eq hpi]
    · rfl
  -- the process before has no descriptor for the pipe, so it is past its close
  have hprev : (s.code y).past = true := by
    obtain ⟨r, hr⟩ : ∃ r, s.procs[y]? = some r := ⟨_, getElem?_eq_getElem (by omega)⟩
    rw [Sys.code_eq hr]
    by_contra hnot
    have hmem := (h.place y r hr).has_writeEnd hx (Bool.eq_false_iff.mpr hnot)
    have hany : s.isOpen y true = true :=
      any_eq_true.mpr ⟨r, mem_of_getElem? hr, contains_iff_mem.mpr hmem⟩
    rw [hopen] at hany
    cases hany
  have hnil : s.inp N (y + 1) = [] := by
    have hw : will N (s.code y) (s.inp N y) = [] := by
      cases hc : s.code y with
      | closeFd | wait | exited => rfl
      | _ => rw [hc] at hprev; cases hprev
    rw [Sys.inp, hw, queue_eq hpi, hempty]
    rfl
  have hself : ((s.setPipe y pi').goto (y + 1) q code fds).inp N (y + 1) = s.inp N (y + 1) :=
    Sys.inp_below fun z hz => ⟨by rw [hcode, if_neg (by omega)], hqueue z⟩
  have hinp : ∀ z, ((s.setPipe y pi').goto (y + 1) q code fds).inp N z = s.inp N z := by
    intro z
    by_cases hz : z = y + 1
    · rw [hz, hself]
    refine Sys.inp_others (fun w hw => by rw [hcode, if_neg hw]) (fun w _ _ => (queue_goto w).trans (hqueue w)) ?_ hz
    rw [Sys.inp_succ N _ (y + 1), Sys.inp_succ N s (y + 1), hself, hcode, if_pos rfl, queue_goto, hqueue, hqc, hnil, hwill]
  refine h.goto hq hp hat ?_ ?_ (fun k r hr => ?_) (fun z _ => hinp z) (fun z hz _ => ?_) ?_ (fun k r hr hmem => ?_) ?_
    (by rwa [hself, hnil])
  · rw [goto_same hq hp Code.forking hfork, Sys.setPipe, List.length_set]
    exact h.pipes
  · rw [goto_same hq hp Code.forking hfork, Sys.setPipe, getElem?_set_ne (by omega)]
    exact h.fresh
  · rcases getElem?_setPipe hr with ⟨-, rfl⟩ | ⟨-, hr⟩
    · exact (h.whole y pi hpi).eof
    · exact h.whole k r hr
  · obtain rfl : y = z := by omega
    exact ⟨by rw [hself]; exact hnil, hprev⟩
  · intro hold
    rw [hpast] at hold
    cases hold
  · rw [hcode]
    split
    · exact hclosing
    · rcases getElem?_setPipe hr with ⟨rfl, rfl⟩ | ⟨-, hr⟩
      · omega
      · exact h.eof k r hr hmem
  · by_cases hlast : s.procs.length - 1 = y + 1
    · rw [hinp, hlast, hcode, if_pos rfl, hqc, hnil, hleft]
      rfl
    · rw [hcode, if_neg hlast, hinp]
      rfl

end

end Xv6.User.Primes
