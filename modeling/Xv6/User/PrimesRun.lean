import Xv6.User.PrimesChain

/-!
# Runs of `primes`
-/

namespace Xv6.User.Primes

open Lib List

/-! ### The counter of `main` -/

variable {v i : Int32} {N y : ℕ} {r : Sys × List Byte × Int32}

lemma toInt_small (h : v.toNat < 2 ^ 31) : v.toInt = v.toNat := BitVec.toInt_eq_toNat_of_lt (by omega)

lemma sle_iff (hi : i.toNat < 2 ^ 31) (hN : N < 2 ^ 31) : i.sle (BitVec.ofNat 32 N) = true ↔ i.toNat ≤ N := by
  have hn : (BitVec.ofNat 32 N).toNat = N := by
    rw [BitVec.toNat_ofNat]
    exact Nat.mod_eq_of_lt (by omega)
  rw [BitVec.sle_iff_toInt_le, toInt_small hi, toInt_small (by omega), hn]
  exact Int.ofNat_le

lemma count_cons (h : i.toNat ≤ N) : count N i.toNat = i :: count N (i.toNat + 1) := by
  unfold count
  rw [show N + 1 - i.toNat = (N + 1 - (i.toNat + 1)) + 1 by omega, List.range'_succ, map_cons, BitVec.ofNat_toNat,
    BitVec.setWidth_eq]

lemma count_end {i : ℕ} (h : N < i) : count N i = [] := by
  unfold count
  rw [show N + 1 - i = 0 by omega]
  rfl

lemma mainLoop_spec (hN : N < 2 ^ 31) (hi : i.toNat < 2 ^ 31) {L : ℕ} (hL : 1 < L) :
    At N L 0 (mainLoop (BitVec.ofNat 32 N) 0 i) [(0, true)] ∧
      (∀ inp, will N (mainLoop (BitVec.ofNat 32 N) 0 i) inp = count N i.toNat) ∧
      (mainLoop (BitVec.ofNat 32 N) 0 i).closing = false ∧ (mainLoop (BitVec.ofNat 32 N) 0 i).forking = false ∧
      left N (mainLoop (BitVec.ofNat 32 N) 0 i) = (fun _ => []) ∧
      ∀ inp, cost N (mainLoop (BitVec.ofNat 32 N) 0 i) inp = (count N i.toNat).length + 3 := by
  unfold mainLoop
  by_cases hle : i.toNat ≤ N
  · rw [if_pos ((sle_iff hi hN).mpr hle)]
    exact ⟨.mainWrite hL hle, fun _ => rfl, rfl, rfl, rfl, fun _ => rfl⟩
  · rw [if_neg fun h => hle ((sle_iff hi hN).mp h)]
    rw [count_end (by omega)]
    exact ⟨.mainClose1 hL, fun _ => rfl, rfl, rfl, rfl, fun _ => rfl⟩

section

variable {N : ℕ} {s s' : Sys} {x : ℕ} {q : Proc}

/-! ### The calls that use a pipe -/

section

variable (h : Inv N s) (hx : x + 1 < s.procs.length)

include h hx

lemma Inv.readOpen (hp : (s.code x).past = false) :
    s.isOpen x false = true := by
  obtain ⟨r, hr⟩ : ∃ r, s.procs[x + 1]? = some r := ⟨_, getElem?_eq_getElem hx⟩
  have hcode : r.code ≠ .wait ∧ r.code ≠ .exited := by
    rw [← Sys.code_eq hr]
    have hopen : (s.code (x + 1)).closing ≠ true := fun hc => by
      rw [(h.ends x hx hc).2] at hp
      cases hp
    exact ⟨fun hc => hopen (by rw [hc]; rfl), fun hc => hopen (by rw [hc]; rfl)⟩
  exact any_eq_true.mpr ⟨r, mem_of_getElem? hr, contains_iff_mem.mpr ((h.place _ r hr).has_readEnd hcode)⟩

lemma Inv.pipe_lt : ∃ pi, s.pipes[x]? = some pi :=
  ⟨_, getElem?_eq_getElem (by rw [h.pipes]; omega)⟩

lemma Inv.pipewrite (hp : (s.code x).past = false) {r : Sys × ℕ} (hw : s.pipewrite x v 0 = some r) :
    ∃ pi, s.pipes[x]? = some pi ∧ pi.buf.length ≠ PIPESIZE ∧
      r = (s.setPipe x { pi with buf := pi.buf ++ toBytes v, written := pi.written ++ [v] }, 4) := by
  obtain ⟨pi, hpi⟩ := h.pipe_lt hx
  refine ⟨pi, hpi, ?_⟩
  unfold Sys.pipewrite at hw
  rw [hpi] at hw
  simp only [h.readOpen hx hp, Bool.true_eq_false, if_false] at hw
  split at hw
  · cases hw
  · rename_i hroom
    obtain ⟨hfour, -, -⟩ := (h.whole x pi hpi).write hroom v
    have hmin : min (4 - 0) (PIPESIZE - pi.buf.length) = 4 := by omega
    rw [hmin] at hw
    cases hw
    exact ⟨hroom, rfl⟩

end

lemma Inv.piperead (h : Inv N s) (hx : y + 1 < s.procs.length) (hc : (s.code (y + 1)).closing = false) {old : Int32}
    (hr : s.piperead y old = some r) : ∃ pi, s.pipes[y]? = some pi ∧ ((∃ v rest, decode pi.buf = v :: rest ∧
          r = (s.setPipe y { pi with buf := pi.buf.drop 4, got := pi.got ++ [toBytes v] }, toBytes v, v)) ∨
        pi.buf = [] ∧ s.isOpen y true = false ∧ ∃ v, r = (s.setPipe y { pi with got := pi.got ++ [[]] }, [], v)) := by
  obtain ⟨pi, hpi⟩ := h.pipe_lt hx
  have hwhole := h.whole y pi hpi
  refine ⟨pi, hpi, ?_⟩
  unfold Sys.piperead at hr
  rw [hpi] at hr
  dsimp only at hr
  split at hr
  · cases hr
  rename_i hnot
  cases hdec : decode pi.buf with
  | nil =>
    have hbuf : pi.buf = [] := by
      rw [hwhole.bytes, hdec]
      rfl
    refine .inr ⟨hbuf, Bool.eq_false_iff.mpr fun ho => hnot ⟨hbuf, ho⟩, ?_⟩
    rw [hbuf] at hr
    cases hr
    exact ⟨_, by rw [hbuf]; rfl⟩
  | cons v rest =>
    have hgot : [] ∉ pi.got := fun hmem => by
      rw [h.eof y pi hpi hmem] at hc
      cases hc
    obtain ⟨htake, -, -⟩ := hwhole.read hdec hgot
    rw [htake] at hr
    cases hr
    refine .inl ⟨v, rest, rfl, ?_⟩
    have hval : ofBytes (toBytes v ++ (toBytes old).drop (toBytes v).length) = v := by
      rw [length_toBytes, drop_of_length_le (length_toBytes old).le, append_nil, ofBytes_toBytes]
    rw [hval]

/-! ### Every step keeps the invariant -/

lemma Inv.pipes_length (h : Inv N s) (hL : s.procs.length = x + 1) (hq : s.procs[x]? = some q)
    (hf : q.code.forking = false) : s.pipes.length = x := by
  have hp := h.pipes
  rw [show s.procs.length - 1 = x by omega, Sys.code_eq hq, hf] at hp
  simpa using hp

lemma Inv.readLoop (h : Inv N s) {num tmp : Int32} (hL : y + 2 < s.procs.length) (hq : s.procs[y + 1]? = some q)
    (hc : q.code = .read y num (y + 1) tmp) (hfds : q.fds = [(y, false), (y + 1, true)])
    (hr : s.piperead y tmp = some r) :
    After N s (r.1.goto (y + 1) q (if r.2.1 = [] then .close1 y (y + 1)
      else if r.2.2.srem num ≠ 0 then .write y num (y + 1) r.2.2 0 else .read y num (y + 1) r.2.2) q.fds) := by
  have hqc := (Sys.code_eq hq).trans hc
  obtain ⟨pi, hpi, ⟨v, rest, hv, rfl⟩ | ⟨hempty, hopen, v, rfl⟩⟩ := h.piperead (by omega) (by rw [hqc]; rfl) hr
  · rw [if_neg (toBytes_ne_nil v), hfds]
    by_cases hdiv : v.srem num ≠ 0
    · rw [if_pos hdiv]
      have hkeep : divides num v = false := beq_eq_false_iff_ne.mpr hdiv
      refine h.read hq hpi hv (fun inp => ?_) (fun inp => ?_) (.write hL) ?_ ⟨rfl, ?_⟩ ?_ (fun inp => ?_) <;> rw [hc]
      · simp [will, sift, hkeep]
      · rfl
      · rfl
      · rfl
      · rfl
      · simp only [cost, length_cons]
        omega
    · rw [if_neg hdiv]
      have hdrop : divides num v = true := by simpa [divides] using hdiv
      refine h.read hq hpi hv (fun inp => ?_) (fun inp => ?_) (.read hL) ?_ ⟨rfl, ?_⟩ ?_ (fun inp => ?_) <;> rw [hc]
      · simp [will, sift, hdrop]
      · rfl
      · rfl
      · rfl
      · rfl
      · simp only [cost, length_cons]
        omega
  · rw [if_pos rfl, hfds]
    refine h.readEnd hq hpi hempty hopen ?_ ?_ (.close1 hL) ?_ rfl ?_ ?_ <;> rw [hc]
    · rfl
    · rfl
    · rfl
    · rfl
    · exact Nat.lt_succ_self 4

lemma Inv.readFirst (h : Inv N s) (hL : s.procs.length = y + 2) (hq : s.procs[y + 1]? = some q)
    (hc : q.code = .first y) (hfds : q.fds = [(y, false)]) (hr : s.piperead y 0 = some r) :
    After N s (r.1.goto (y + 1) q (if r.2.1 = [] then .closeFirst y else .print y r.2.2) q.fds) := by
  have hqc := (Sys.code_eq hq).trans hc
  obtain ⟨pi, hpi, ⟨v, rest, hv, rfl⟩ | ⟨hempty, hopen, v, rfl⟩⟩ := h.piperead (by omega) (by rw [hqc]; rfl) hr
  · rw [if_neg (toBytes_ne_nil v), hfds]
    refine h.read hq hpi hv (fun inp => ?_) (fun inp => ?_) (.print hL) ?_ ⟨rfl, ?_⟩ ?_ (fun inp => ?_) <;> rw [hc]
    · rfl
    · exact (sieve_cons divides v inp).symm
    · rfl
    · rfl
    · rfl
    · simp only [cost, sieveCost_cons]
      omega
  · rw [if_pos rfl, hfds]
    refine h.readEnd hq hpi hempty hopen ?_ ?_ (.closeFirst hL) ?_ rfl ?_ ?_ <;> rw [hc]
    · rfl
    · exact (sieve_nil divides).symm
    · rfl
    · rfl
    · simp only [cost, sieveCost_nil]
      exact Nat.lt_succ_self 1

lemma step_after (hN : N < 2 ^ 31 - 1) (hs : step (BitVec.ofNat 32 N) s x = some s') (h : Inv N s) : After N s s' := by
  unfold step at hs
  split at hs
  case h_2 => cases hs
  rename_i q hq
  obtain ⟨parent, code, fds⟩ := q
  have hat : At N s.procs.length x code fds := h.place x _ hq
  have hqc : s.code x = code := Sys.code_eq hq
  cases hat with
  | mainPipe hL =>
    have hn := h.pipes_length hL hq rfl
    simp only [next, hn] at hs
    cases hs
    exact h.addPipe hq hL rfl rfl (.mainFork hL) rfl rfl ⟨rfl, rfl⟩ rfl fun _ => by simp [cost]
  | mainFork hL =>
    cases hs
    exact h.fork hq hL rfl rfl (.mainClose0 (by omega)) (.childMain rfl) rfl ⟨rfl, rfl⟩ (fun _ => rfl) fun _ => by simp [cost, will]; omega
  | mainClose0 hL =>
    cases hs
    obtain ⟨hat', hwill, hcl, hf, hleft, hcost⟩ := mainLoop_spec (i := 2) (by omega : N < 2 ^ 31) (by decide) hL
    refine h.quiet hq hat' hf (funext hwill) hleft (fun h0 => absurd rfl h0) (fun hp => by cases hp) fun inp => ?_
    rw [hcost]
    exact Nat.lt_succ_self _
  | @mainWrite i hL hi =>
    obtain ⟨r, hr, hs⟩ := Option.map_eq_some_iff.mp hs
    obtain ⟨pi, hpi, hroom, rfl⟩ := h.pipewrite hL (by rw [hqc]; rfl) hr
    simp only [Nat.lt_irrefl, if_false] at hs
    have hsucc : (i + 1).toNat = i.toNat + 1 := by
      rw [BitVec.toNat_add]
      exact Nat.mod_eq_of_lt (by simp; omega)
    obtain ⟨hat', hwill, hcl, hf, hleft, hcost⟩ := mainLoop_spec (i := i + 1) (by omega : N < 2 ^ 31) (by omega) hL
    cases hs
    refine h.write hq hL hpi hroom (fun inp => ?_) hat' ⟨hcl, rfl⟩ rfl fun inp => ?_
    · rw [hwill, hsucc]
      exact count_cons hi
    · rw [hcost, hsucc]
      simp only [cost, count_cons hi, length_cons]
      omega
  | mainClose1 hL =>
    cases hs
    exact h.quiet hq (.wait hL) rfl rfl rfl (fun h0 => absurd rfl h0) (fun hp => by cases hp)
      fun _ => by simp [cost]
  | childMain hL =>
    cases hs
    exact h.quiet hq (.first hL) rfl rfl rfl (fun _ => rfl) (fun hp => by cases hp) fun _ => by simp [cost]
  | @child y hL =>
    have herase : [(y, false), (y + 1, false), (y + 1, true)].erase (y + 1, true) = [(y, false), (y + 1, false)] := by simp
    simp only [next, herase] at hs
    cases hs
    exact h.quiet hq (.childFd hL) rfl rfl rfl (fun _ => rfl) (fun hp => by cases hp) fun _ => by simp [cost]
  | @childFd y hL =>
    have herase : [(y, false), (y + 1, false)].erase (y, false) = [(y + 1, false)] := by simp
    simp only [next, herase] at hs
    cases hs
    exact h.quiet hq (.first (by omega)) rfl rfl rfl (fun _ => rfl) (fun hp => by cases hp) fun _ => by simp [cost]
  | first hL =>
    obtain ⟨r, hr, hs⟩ := Option.map_eq_some_iff.mp hs
    cases hs
    exact h.readFirst hL hq rfl rfl hr
  | closeFirst hL =>
    cases hs
    exact h.quiet hq .exited rfl rfl rfl (fun _ => rfl) (fun hp => by cases hp) fun _ => by simp [cost]
  | print hL =>
    cases hs
    exact h.print hq rfl hL rfl
  | pipe hL =>
    have hn := h.pipes_length hL hq rfl
    simp only [next, hn] at hs
    cases hs
    exact h.addPipe hq hL rfl rfl (.fork hL) rfl rfl ⟨rfl, rfl⟩ rfl fun _ => by simp [cost]
  | fork hL =>
    cases hs
    exact h.fork hq hL rfl rfl (.close0 (by omega)) (.child rfl) rfl ⟨rfl, rfl⟩ (fun _ => rfl) fun _ => by simp [cost, will]; omega
  | @close0 y num hL =>
    have herase : [(y, false), (y + 1, false), (y + 1, true)].erase (y + 1, false) = [(y, false), (y + 1, true)] := by simp
    simp only [next, herase] at hs
    cases hs
    exact h.quiet hq (.read hL) rfl rfl rfl (fun _ => rfl) (fun hp => by cases hp) fun _ => by simp [cost]
  | read hL =>
    obtain ⟨r, hr, hs⟩ := Option.map_eq_some_iff.mp hs
    cases hs
    exact h.readLoop hL hq rfl rfl hr
  | write hL =>
    obtain ⟨r, hr, hs⟩ := Option.map_eq_some_iff.mp hs
    obtain ⟨pi, hpi, hroom, rfl⟩ := h.pipewrite hL (by rw [hqc]; rfl) hr
    simp only [Nat.lt_irrefl, if_false] at hs
    cases hs
    exact h.write hq hL hpi hroom (fun _ => rfl) (.read hL) ⟨rfl, rfl⟩ rfl fun _ => by simp [cost]
  | @close1 y hL =>
    have herase : [(y, false), (y + 1, true)].erase (y + 1, true) = [(y, false)] := by simp
    simp only [next, herase] at hs
    cases hs
    exact h.quiet hq (.closeFd hL) rfl rfl rfl (fun _ => rfl) (fun hp => by cases hp) fun _ => by simp [cost]
  | @closeFd y hL =>
    have herase : [(y, false)].erase (y, false) = [] := by simp
    simp only [next, herase] at hs
    cases hs
    exact h.quiet hq (.wait hL) rfl rfl rfl (fun _ => rfl) (fun _ => rfl) fun _ => by simp [cost]
  | wait hL =>
    simp only [next] at hs
    split at hs
    · cases hs
      exact h.quiet hq .exited rfl rfl rfl (fun _ => rfl) (fun _ => rfl) fun _ => by simp [cost]
    · cases hs
  | exited => cases hs

lemma start_inv (N : ℕ) : Inv N start := by
  have hone : ∀ (x : ℕ) (q : Proc), start.procs[x]? = some q → x = 0 ∧ q = ⟨none, .mainPipe, []⟩ := by
    intro x q hq
    obtain ⟨hx, hq'⟩ := List.getElem?_eq_some_iff.mp hq
    have hx0 : x = 0 := Nat.lt_one_iff.mp hx
    subst hx0
    exact ⟨rfl, hq'.symm⟩
  refine ⟨Nat.one_pos, fun x q hq => ?_, fun x q hq y => ?_, rfl, fun hf => (by cases hf), fun k pi hpi => (by cases hpi),
    fun x hx => absurd hx (by simp [start]), fun k pi hpi => (by cases hpi), rfl⟩
  · obtain ⟨rfl, rfl⟩ := hone x q hq
    exact .mainPipe rfl
  · obtain ⟨rfl, rfl⟩ := hone x q hq
    simp

end

end Xv6.User.Primes
