import Xv6.User.PrimesRun

/-!
# What `primes` prints

A process that cannot go on reads an empty pipe, writes to a full one or waits for its child.  When none can go on,
the last one that has not exited would wait for a child that has exited, or write to it, or read from a process that
itself cannot go on: all have exited.  Since each step leaves less to do, every run comes to this end.
-/

namespace Xv6.User.Primes

open Lib List

variable {v : Int32} {y k N : ℕ}

section

variable {N : ℕ} {s s' : Sys} {x : ℕ} {q : Proc}

/-! ### No process sleeps for ever -/

/-- Why a process makes no step. -/
inductive Blocked (s : Sys) : ℕ → Code → Prop
  | reading {y : ℕ} {code : Code} : s.queue y = [] → s.isOpen y true = true → code.past = false →
      (∀ k fd, code ≠ .child k fd) → Blocked s (y + 1) code
  | writing {x : ℕ} {code : Code} : x + 1 < s.procs.length → s.queue x ≠ [] → code.past = false → Blocked s x code
  | waiting {x : ℕ} : x + 1 < s.procs.length → s.waitOk x = false → Blocked s x .wait
  | exited {x : ℕ} : Blocked s x .exited

lemma Inv.pipewrite_none (h : Inv N s) (hx : x + 1 < s.procs.length) (hp : (s.code x).past = false)
    (hw : s.pipewrite x v 0 = none) : s.queue x ≠ [] := by
  obtain ⟨pi, hpi⟩ := h.pipe_lt hx
  unfold Sys.pipewrite at hw
  rw [hpi] at hw
  simp only [h.readOpen hx hp, Bool.true_eq_false, if_false] at hw
  split at hw
  · rename_i hfull
    intro hnil
    have hbytes := (h.whole x pi hpi).bytes
    rw [← queue_eq hpi, hnil] at hbytes
    rw [hbytes] at hfull
    cases hfull
  · cases hw

lemma Inv.piperead_none (h : Inv N s) (hx : y + 1 < s.procs.length) {old : Int32} (hr : s.piperead y old = none) :
    s.queue y = [] ∧ s.isOpen y true = true := by
  obtain ⟨pi, hpi⟩ := h.pipe_lt hx
  unfold Sys.piperead at hr
  rw [hpi] at hr
  dsimp only at hr
  split at hr
  · rename_i hempty
    rw [queue_eq hpi, hempty.1]
    exact ⟨rfl, hempty.2⟩
  · cases hr

lemma Inv.blocked (h : Inv N s) (hq : s.procs[x]? = some q) (hs : step (BitVec.ofNat 32 N) s x = none) :
    Blocked s x q.code := by
  unfold step at hs
  rw [hq] at hs
  obtain ⟨parent, code, fds⟩ := q
  have hat : At N s.procs.length x code fds := h.place x _ hq
  have hqc : s.code x = code := Sys.code_eq hq
  cases hat with
  | mainPipe | mainFork | mainClose0 | mainClose1 | childMain | child | childFd | closeFirst | print | pipe | fork | close0
  | close1 | closeFd => cases hs
  | mainWrite hL =>
    have hw := Option.map_eq_none_iff.mp hs
    exact .writing hL (h.pipewrite_none hL (by rw [hqc]; rfl) hw) rfl
  | first hL =>
    obtain ⟨hnil, hopen⟩ := h.piperead_none (by omega) (Option.map_eq_none_iff.mp hs)
    exact .reading hnil hopen rfl fun _ _ hc => by cases hc
  | read hL =>
    obtain ⟨hnil, hopen⟩ := h.piperead_none (by omega) (Option.map_eq_none_iff.mp hs)
    exact .reading hnil hopen rfl fun _ _ hc => by cases hc
  | write hL =>
    have hw := Option.map_eq_none_iff.mp hs
    exact .writing hL (h.pipewrite_none hL (by rw [hqc]; rfl) hw) rfl
  | wait hL =>
    simp only [next] at hs
    split at hs
    · cases hs
    · exact .waiting hL (Bool.eq_false_iff.mpr ‹_›)
  | exited => exact .exited

lemma Inv.writer (h : Inv N s) (ho : s.isOpen k true = true) :
    (∃ q, s.procs[k]? = some q ∧ q.code.past = false) ∨ ∃ fd, s.code (k + 1) = .child k fd := by
  obtain ⟨q, hmem, hk⟩ := any_eq_true.mp ho
  obtain ⟨x, hq⟩ := mem_iff_getElem?.mp hmem
  obtain ⟨rfl, hp⟩ | ⟨rfl, hc⟩ := (h.place x q hq).writeEnd (contains_iff_mem.mp hk)
  · exact .inl ⟨q, hq, hp⟩
  · rw [Sys.code_eq hq]
    exact .inr hc

lemma Inv.not_reading (h : Inv N s) (hstuck : ∀ x, step (BitVec.ofNat 32 N) s x = none) (hnil : s.queue y = [])
    (hopen : s.isOpen y true = true) (hc : ∀ k fd, s.code (y + 1) ≠ .child k fd) : False := by
  induction y with
  | zero =>
    obtain ⟨q, hq, hp⟩ | ⟨fd, hfd⟩ := h.writer hopen
    · generalize hcode : q.code = code at hp
      have hb := h.blocked hq (hstuck 0)
      rw [hcode] at hb
      cases hb with
      | writing _ hne => exact hne hnil
      | waiting | exited => cases hp
    · exact hc _ _ hfd
  | succ y ih =>
    obtain ⟨q, hq, hp⟩ | ⟨fd, hfd⟩ := h.writer hopen
    · generalize hcode : q.code = code at hp
      have hb := h.blocked hq (hstuck (y + 1))
      rw [hcode] at hb
      cases hb with
      | reading hnil' hopen' _ hc' => exact ih hnil' hopen' fun k fd => by rw [Sys.code_eq hq, hcode]; exact hc' k fd
      | writing _ hne => exact hne hnil
      | waiting | exited => cases hp
    · exact hc _ _ hfd

lemma Inv.exited (h : Inv N s) (hstuck : ∀ x, step (BitVec.ofNat 32 N) s x = none) (hx : x < s.procs.length) :
    s.code x = .exited := by
  -- from the last process to the first
  induction hd : s.procs.length - x generalizing x with
  | zero => omega
  | succ d ih =>
    obtain ⟨q, hq⟩ : ∃ q, s.procs[x]? = some q := ⟨_, getElem?_eq_getElem hx⟩
    have hb := h.blocked hq (hstuck x)
    rw [← Sys.code_eq hq] at hb
    generalize hcode : s.code x = code at hb
    cases hb with
    | reading hnil hopen _ hc => exact (h.not_reading hstuck hnil hopen fun k fd => by rw [hcode]; exact hc k fd).elim
    | writing hlt hne =>
      have hlast := ih hlt (by omega)
      have hinp := (h.ends x hlt (by rw [hlast]; rfl)).1
      rw [Sys.inp_succ] at hinp
      exact absurd (append_eq_nil_iff.mp hinp).1 hne
    | waiting hlt hwait =>
      obtain ⟨r, hr⟩ : ∃ r, s.procs[x + 1]? = some r := ⟨_, getElem?_eq_getElem hlt⟩
      have hparent := (h.parent _ r hr x).mpr rfl
      have hgone : r.code = .exited := (Sys.code_eq hr).symm.trans (ih hlt (by omega))
      have hany : (s.procs.any fun q => q.parent = some x && q.code = .exited) = true :=
        any_eq_true.mpr ⟨r, mem_of_getElem? hr, by simp [hparent, hgone]⟩
      rw [Sys.waitOk, hany] at hwait
      cases hwait
    | exited => rfl

/-! ### The end of a run -/

lemma run_after (hN : N < 2 ^ 31 - 1) {xs : List ℕ} (h : run (step (BitVec.ofNat 32 N)) s xs = some s') (hs : Inv N s) :
    Inv N s' ∧ xs.length + s'.cost N ≤ s.cost N := by
  induction xs generalizing s with
  | nil =>
    cases h
    exact ⟨hs, by simp⟩
  | cons x xs ih =>
    obtain ⟨t, ht, hrest⟩ := run_cons_eq_some.mp h
    have hafter := step_after hN ht hs
    obtain ⟨hinv, hcost⟩ := ih hrest hafter.inv
    have hlt := hafter.cost
    exact ⟨hinv, by rw [length_cons]; omega⟩

lemma Inv.finish (hN : N < 2 ^ 31 - 1) (h : Inv N s) :
    ∃ ys s', run (step (BitVec.ofNat 32 N)) s ys = some s' ∧ ∀ x, step (BitVec.ofNat 32 N) s' x = none := by
  induction hc : s.cost N using Nat.strong_induction_on generalizing s with
  | _ c ih =>
    by_cases hstuck : ∀ x, step (BitVec.ofNat 32 N) s x = none
    · exact ⟨[], s, rfl, hstuck⟩
    · push Not at hstuck
      obtain ⟨x, hx⟩ := hstuck
      obtain ⟨t, ht⟩ := Option.ne_none_iff_exists'.mp hx
      have hafter := step_after hN ht h
      obtain ⟨ys, s', hys, hend⟩ := ih _ (hc ▸ hafter.cost) hafter.inv rfl
      exact ⟨x :: ys, s', run_cons_eq_some.mpr ⟨t, ht, hys⟩, hend⟩

lemma sieveCost_le (l : List Int32) : sieveCost l ≤ l.length * l.length + 11 * l.length + 2 := by
  induction hn : l.length using Nat.strong_induction_on generalizing l with
  | _ n ih =>
    cases l with
    | nil => rw [sieveCost_nil]; omega
    | cons p l =>
      have hle := length_sift_le divides p l
      rw [length_cons] at hn
      have hrec := ih _ (by omega : (sift divides p l).length < n) (sift divides p l) rfl
      have hsq := Nat.mul_le_mul hle hle
      have hstep : n * n = l.length * l.length + 2 * l.length + 1 := by rw [← hn]; ring
      rw [sieveCost_cons]
      omega

lemma start_cost (N : ℕ) : start.cost N ≤ (N + 5) ^ 2 := by
  have hlen : (count N 2).length = N - 1 := by
    unfold count
    rw [length_map, length_range']
    omega
  have hone : start.cost N = (count N 2).length + sieveCost (count N 2) + 8 := by
    unfold Sys.cost
    rw [show start.procs.length = 1 by rfl, Finset.sum_range_one]
    rfl
  have hsieve := sieveCost_le (count N 2)
  rw [hlen] at hsieve
  rw [hone, hlen]
  cases N with
  | zero => omega
  | succ n =>
    rw [Nat.add_sub_cancel] at hsieve ⊢
    have hexp : (n + 1 + 5) ^ 2 = n * n + 12 * n + 36 := by ring
    rw [hexp]
    omega

end

/-! ### The numbers printed -/

lemma divides_ofNat (hp : p < 2 ^ 31) (ht : t < 2 ^ 31) :
    divides (BitVec.ofNat 32 p) (BitVec.ofNat 32 t) = divs p t := by
  have hsmall : ∀ n < 2 ^ 31, (BitVec.ofNat 32 n).toInt = n := by
    intro n hn
    rw [toInt_small] <;> rw [BitVec.toNat_ofNat, Nat.mod_eq_of_lt (by omega)]
    exact hn
  have hmod : ((BitVec.ofNat 32 t).srem (BitVec.ofNat 32 p)).toInt = ((t % p : ℕ) : ℤ) := by
    rw [BitVec.toInt_srem, hsmall t ht, hsmall p hp]
    exact (Int.ofNat_tmod t p).symm
  rw [Bool.eq_iff_iff, divs_iff]
  unfold divides
  rw [beq_iff_eq, ← BitVec.toInt_inj, hmod, Nat.dvd_iff_mod_eq_zero, show (0 : Int32).toInt = 0 from rfl]
  exact Int.natCast_eq_zero

lemma sieve_count (hN : N < 2 ^ 31) :
    (sieve divides (count N 2)).map BitVec.toNat = (List.range (N + 1)).filter fun p => Nat.Prime p := by
  have hrange : (List.range (N + 1)).filter (fun p => Nat.Prime p) =
      (List.range' 2 (N + 1 - 2)).filter fun p => Nat.Prime p := by
    rw [range_eq_range']
    cases N with
    | zero => rfl
    | succ n => simp [List.range'_succ, Nat.not_prime_zero, Nat.not_prime_one]
  have hlt : ∀ p ∈ List.range' 2 (N + 1 - 2), p < 2 ^ 31 := by
    intro p hp
    have := mem_range'_1.mp hp
    omega
  unfold count
  rw [sieve_map fun p hp t ht => divides_ofNat (hlt p hp) (hlt t ht), sieve_range', hrange, map_map]
  refine (map_congr_left fun p hp => ?_).trans (map_id _)
  have := hlt p (mem_filter.mp hp).1
  exact (BitVec.toNat_ofNat p 32).trans (Nat.mod_eq_of_lt (by omega))

/-- The reads from a pipe have returned whole numbers, in the order written, and nothing only after the last, when no
process can write any more. -/
lemma Inv.reads (h : Inv N s) {pi : Pipe} (hpi : s.pipes[k]? = some pi) :
    ∃ taken n, pi.written = taken ++ decode pi.buf ∧ pi.got = taken.map toBytes ++ List.replicate n [] ∧
      (n ≠ 0 → pi.buf = [] ∧ s.isOpen k true = false) := by
  obtain ⟨taken, n, hwritten, hgot⟩ := (h.whole k pi hpi).queue
  refine ⟨taken, n, hwritten, hgot, fun hn => ?_⟩
  have hmem : [] ∈ pi.got := by
    rw [hgot]
    exact mem_append_right _ (mem_replicate.mpr ⟨hn, rfl⟩)
  have hclosing := h.eof k pi hpi hmem
  have hlt : k + 1 < s.procs.length := by
    -- from the pipe of a process that has not forked nothing has been read
    have hk := (List.getElem?_eq_some_iff.mp hpi).1
    have hpos := h.procs
    have hpipes := h.pipes
    by_cases hf : (s.code (s.procs.length - 1)).forking = true
    · by_contra hge
      rw [if_pos hf] at hpipes
      have hfresh := h.fresh hf
      rw [show s.procs.length - 1 = k by omega, hpi] at hfresh
      cases hfresh
      cases hmem
    · rw [if_neg hf] at hpipes
      omega
  obtain ⟨hinp, hpast⟩ := h.ends k hlt hclosing
  rw [Sys.inp_succ] at hinp
  have hqueue := (append_eq_nil_iff.mp hinp).1
  rw [queue_eq hpi] at hqueue
  refine ⟨by rw [(h.whole k pi hpi).bytes, hqueue]; rfl, Bool.eq_false_iff.mpr fun ho => ?_⟩
  obtain ⟨q, hq, hp⟩ | ⟨fd, hfd⟩ := h.writer ho
  · rw [Sys.code_eq hq, hp] at hpast
    cases hpast
  · rw [hfd] at hclosing
    cases hclosing

/-- In every run of `primes` with the bound `N` the reads return whole numbers in the order written, or nothing at the
end of the stream; the run has at most `(N + 5) ^ 2` steps and can be continued until all processes have exited; what
has been printed are the first primes, and all up to `N` when no process can go on. -/
theorem primes_pipeline {N : ℕ} (hN : N < 2 ^ 31 - 1) {xs : List ℕ} {s : Sys}
    (h : run (step (BitVec.ofNat 32 N)) start xs = some s) :
    (∀ (k : ℕ) (pi : Pipe), s.pipes[k]? = some pi → ∃ taken n, pi.written = taken ++ decode pi.buf ∧
      pi.got = taken.map toBytes ++ List.replicate n [] ∧ (n ≠ 0 → pi.buf = [] ∧ s.isOpen k true = false)) ∧
    s.out.map BitVec.toNat <+: ((List.range (N + 1)).filter fun p => Nat.Prime p) ∧
    xs.length ≤ (N + 5) ^ 2 ∧
    (∃ ys s', run (step (BitVec.ofNat 32 N)) s ys = some s' ∧ ∀ q ∈ s'.procs, q.code = .exited) ∧
    ((∀ x, step (BitVec.ofNat 32 N) s x = none) →
      s.out.map BitVec.toNat = (List.range (N + 1)).filter fun p => Nat.Prime p) := by
  obtain ⟨hinv, hcost⟩ := run_after hN h (start_inv N)
  have hprimes := sieve_count (by omega : N < 2 ^ 31)
  refine ⟨fun k pi hpi => hinv.reads hpi, ?_, ?_, ?_, fun hstuck => ?_⟩
  · rw [← hprimes, ← hinv.lines, map_append]
    exact prefix_append _ _
  · exact (Nat.le_add_right _ _).trans (hcost.trans (start_cost N))
  · obtain ⟨ys, s', hys, hend⟩ := hinv.finish hN
    have hinv' := (run_after hN hys hinv).1
    refine ⟨ys, s', hys, fun q hq => ?_⟩
    obtain ⟨x, hx⟩ := mem_iff_getElem?.mp hq
    rw [← Sys.code_eq hx]
    exact hinv'.exited hend (hinv'.lt hx)
  · have hpos := hinv.procs
    have hlines := hinv.lines
    rw [hinv.exited hstuck (by omega)] at hlines
    rw [← hprimes, ← hlines]
    exact congrArg (List.map BitVec.toNat) (append_nil _).symm

/-- The bound 3: the last process that can go on makes the next step. -/
theorem primes_pipeline_three :
    ∃ xs s, run (step (BitVec.ofNat 32 3)) start xs = some s ∧ (∀ x, step (BitVec.ofNat 32 3) s x = none) ∧
      s.out.map BitVec.toNat = (List.range 4).filter fun p => Nat.Prime p := by
  let xs := [0, 0, 1, 0, 0, 1, 1, 1, 1, 2, 2, 1, 0, 1, 1, 2, 2, 2, 2, 3, 3, 2, 0, 1, 1, 2, 2, 3, 3, 2, 2, 1, 1, 0]
  have hall : (run (step (BitVec.ofNat 32 3)) start xs).map (fun s => (List.range s.procs.length).all fun x =>
      (step (BitVec.ofNat 32 3) s x).isNone) = some true := by decide +kernel
  obtain ⟨s, hs, hnone⟩ := Option.map_eq_some_iff.mp hall
  have hstuck : ∀ x, step (BitVec.ofNat 32 3) s x = none := by
    intro x
    by_cases hx : x < s.procs.length
    · exact Option.isNone_iff_eq_none.mp (all_eq_true.mp hnone x (mem_range.mpr hx))
    · unfold step
      rw [getElem?_eq_none (by omega)]
  exact ⟨xs, s, hs, hstuck, (primes_pipeline (by decide) hs).2.2.2.2 hstuck⟩

/-! ### A bound that every `int` meets -/

/-- `main` has not ended its loop. -/
def Code.writing : Code → Bool
  | .mainPipe | .mainFork _ | .mainClose0 _ | .mainWrite _ _ _ => true
  | _ => false

section

variable {N : Int32} {s s' : Sys} {x : ℕ} {q : Proc}

lemma pipewrite_procs (h : s.pipewrite k v j = some r) : r.1.procs = s.procs := by
  unfold Sys.pipewrite at h
  split at h
  · cases h
  · split at h
    · cases h
      rfl
    · split at h
      · cases h
      · cases h
        rfl

lemma piperead_procs (h : s.piperead k v = some r) : r.1.procs = s.procs := by
  unfold Sys.piperead at h
  split at h
  · cases h
  · split at h
    · cases h
    · cases h
      rfl

lemma goto_procs {s1 : Sys} {code : Code} {fds : List (ℕ × Bool)} (h : s1.procs = s.procs) :
    (s1.goto x q code fds).procs = s.procs.set x { q with code := code, fds := fds } ++ [] := by
  rw [append_nil, Sys.goto, h]

lemma mainLoop_writing (hall : ∀ i : Int32, i.sle N = true) (p : ℕ) (i : Int32) : (mainLoop N p i).writing = true := by
  rw [mainLoop, if_pos (hall i)]
  rfl

lemma next_procs (hs : next N s x q = some s') : ∃ r more, s'.procs = s.procs.set x r ++ more ∧
    ((∀ i : Int32, i.sle N = true) → q.code.writing = true → r.code.writing = true) := by
  obtain ⟨parent, code, fds⟩ := q
  cases code with
  | mainPipe =>
    cases hs
    exact ⟨_, [], goto_procs rfl, fun _ _ => rfl⟩
  | mainFork p =>
    cases hs
    exact ⟨_, [_], rfl, fun _ _ => rfl⟩
  | mainClose0 p =>
    cases hs
    exact ⟨_, [], goto_procs rfl, fun hall _ => mainLoop_writing hall p 2⟩
  | mainWrite p i j =>
    obtain ⟨⟨s1, j'⟩, hr, hs⟩ := Option.map_eq_some_iff.mp hs
    cases hs
    refine ⟨_, [], goto_procs (pipewrite_procs hr), fun hall _ => ?_⟩
    dsimp only
    split
    · rfl
    · exact mainLoop_writing hall p (i + 1)
  | first fd | read fd num p tmp =>
    obtain ⟨⟨s1, got, v⟩, hr, hs⟩ := Option.map_eq_some_iff.mp hs
    cases hs
    exact ⟨_, [], goto_procs (piperead_procs hr), fun _ hw => by cases hw⟩
  | write fd num p tmp j =>
    obtain ⟨⟨s1, j'⟩, hr, hs⟩ := Option.map_eq_some_iff.mp hs
    cases hs
    exact ⟨_, [], goto_procs (pipewrite_procs hr), fun _ hw => by cases hw⟩
  | child p fd => cases fd <;> cases hs <;> exact ⟨_, [], goto_procs rfl, fun _ hw => by cases hw⟩
  | fork fd num p =>
    cases hs
    exact ⟨_, [_], rfl, fun _ hw => by cases hw⟩
  | wait =>
    simp only [next] at hs
    split at hs
    · cases hs
      exact ⟨_, [], goto_procs rfl, fun _ hw => by cases hw⟩
    · cases hs
  | exited => cases hs
  | mainClose1 p | childFd p fd | closeFirst fd | print fd num | pipe fd num | close0 fd num p | close1 fd p | closeFd fd =>
    cases hs
    exact ⟨_, [], goto_procs rfl, fun _ hw => by cases hw⟩

lemma step_writing (hall : ∀ i : Int32, i.sle N = true) (hs : step N s x = some s')
    (h : ∃ q, s.procs[0]? = some q ∧ q.code.writing = true) : ∃ q, s'.procs[0]? = some q ∧ q.code.writing = true := by
  obtain ⟨q, hq, hw⟩ := h
  have hlt := (List.getElem?_eq_some_iff.mp hq).1
  unfold step at hs
  split at hs
  case h_2 => cases hs
  rename_i q' hq'
  obtain ⟨r, more, hprocs, hr⟩ := next_procs hs
  rw [hprocs, getElem?_append_left (by rwa [length_set])]
  by_cases hx : x = 0
  · subst hx
    rw [hq] at hq'
    cases hq'
    exact ⟨r, getElem?_set_self hlt, hr hall hw⟩
  · exact ⟨q, (getElem?_set_ne hx).trans hq, hw⟩

end

/-- With the bound `2 ^ 31 - 1` every `int` passes the test of the loop of `main`: no run comes to an end. -/
theorem primes_pipeline_overflow :
    ¬ ∃ xs s, run (step (BitVec.ofNat 32 (2 ^ 31 - 1))) start xs = some s ∧ ∀ q ∈ s.procs, q.code = .exited := by
  rintro ⟨xs, s, hrun, hexit⟩
  have hall : ∀ i : Int32, i.sle (BitVec.ofNat 32 (2 ^ 31 - 1)) = true := by
    intro i
    rw [BitVec.sle_iff_toInt_le, show (BitVec.ofNat 32 (2 ^ 31 - 1)).toInt = 2 ^ 31 - 1 from rfl]
    have := BitVec.toInt_lt (x := i)
    omega
  obtain ⟨q, hq, hw⟩ := run_invariant (fun s x s' hs h => step_writing hall hs h) hrun ⟨_, rfl, rfl⟩
  rw [hexit q (mem_of_getElem? hq)] at hw
  cases hw

end Xv6.User.Primes
