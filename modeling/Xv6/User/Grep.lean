import Xv6.User.Match

/-!
# `grep.c`: the loop over the input

`buf` is the list of its bytes.  While a buffer is searched, `front` are the bytes before `p` and `s` those from `p`
on.  The numbers `ks` say how many bytes `read` would like to return, one for each call.
-/

namespace Xv6.User.Grep

open List

/-- `strchr(p, '\n')`: the offset of the newline, if the string has one; no result if the search leaves the buffer. -/
def strchr : List Char → Option (Option ℕ)
  | [] => none
  | a :: s => if a = '\x00' then some none else if a = '\n' then some (some 0) else (strchr s).map (Option.map (· + 1))

/-- The loop over the lines in the buffer, and `out` what has been written. -/
def scan (re : List Char) : ℕ → List Char → List Char → List Char → Option (List Char × List Char × List Char)
  | 0, _, _, _ => none
  | fuel + 1, front, s, out => do
    match ← strchr s with
    | none => some (front, s, out)
    | some q =>
      -- `*q = 0` ends the string that `match` gets, and stays unless the line is written
      let hit := matchText re (s.take q)
      scan re fuel (front ++ s.take q ++ [if hit then '\n' else '\x00']) (s.drop (q + 1))
        (if hit then out ++ s.take q ++ ['\n'] else out)

/-- The loop over the input; also `m` at each `read`.  No result if a byte outside `buf` is written or read. -/
def grepLoop (re : List Char) : List ℕ → List Char → ℕ → List Char → List Char → List ℕ → Option (List Char × List ℕ)
  | [], _, _, _, _, _ => none
  | k :: ks, buf, m, input, out, ms =>
    let n := min (max 1 k) (min (1024 - m - 1) input.length)
    if n = 0 then some (out, ms ++ [m])
    else if 1024 ≤ m + n then none
    else do
      let (front, s, out) ← scan re 1024 [] (buf.take m ++ input.take n ++ '\x00' :: buf.drop (m + n + 1)) out
      let m' := m + n - front.length
      grepLoop re ks (s.take m' ++ (front ++ s).drop m') m' (input.drop n) out (ms ++ [m])

def grep (re : List Char) (ks : List ℕ) (buf input : List Char) : Option (List Char × List ℕ) :=
  grepLoop re ks buf 0 input [] []

/-- Text without a newline. -/
def Plain (l : List Char) : Prop := ∀ c ∈ l, c ≠ '\n' ∧ c ≠ '\x00'

def unlines (ls : List (List Char)) : List Char := ls.flatMap (· ++ ['\n'])

variable {re l s t u : List Char} {ls : List (List Char)}

lemma unlines_cons : unlines (l :: ls) = l ++ '\n' :: unlines ls := by
  rw [unlines, flatMap_cons, append_assoc]
  rfl

lemma length_le_unlines (ls : List (List Char)) : ls.length ≤ (unlines ls).length := by
  induction ls with
  | nil => exact le_rfl
  | cons l ls ih =>
    rw [unlines_cons, length_append, length_cons, length_cons]
    omega

lemma strchr_append (h : Plain l) : strchr (l ++ s) = (strchr s).map (Option.map (· + l.length)) := by
  induction l with
  | nil => simp
  | cons a l ih =>
    obtain ⟨ha, hl⟩ := forall_mem_cons.mp h
    rw [cons_append, strchr, if_neg ha.2, if_neg ha.1, ih hl, Option.map_map]
    congr 1
    funext q
    cases q <;> rfl

lemma scan_spec (re junk : List Char) (hls : ∀ l ∈ ls, Plain l) (ht : Plain t) {fuel : ℕ} (hf : ls.length < fuel)
    (front out : List Char) :
    ∃ front', scan re fuel front (unlines ls ++ (t ++ '\x00' :: junk)) out =
        some (front', t ++ '\x00' :: junk, out ++ unlines (ls.filter (matchText re))) ∧
      front'.length = front.length + (unlines ls).length := by
  induction ls generalizing fuel front out with
  | nil =>
    obtain ⟨fuel, rfl⟩ := Nat.exists_eq_succ_of_ne_zero (Nat.ne_of_gt hf)
    exact ⟨front, by simp [scan, unlines, strchr_append ht, strchr], rfl⟩
  | cons l ls ih =>
    obtain ⟨fuel, rfl⟩ := Nat.exists_eq_succ_of_ne_zero (Nat.ne_zero_of_lt hf)
    obtain ⟨hl, hls⟩ := forall_mem_cons.mp hls
    set rest := unlines ls ++ (t ++ '\x00' :: junk)
    have hq : strchr (l ++ '\n' :: rest) = some (some l.length) := by
      rw [strchr_append hl]
      simp [strchr]
    obtain ⟨front', hrun, hlen⟩ := ih hls (Nat.lt_of_succ_lt_succ hf) (front ++ l ++ [if matchText re l then '\n' else '\x00'])
      (if matchText re l then out ++ l ++ ['\n'] else out)
    refine ⟨front', ?_, ?_⟩
    · rw [unlines_cons, append_assoc, cons_append, scan, hq]
      simp only [Option.bind_eq_bind, Option.bind_some, take_left]
      rw [show (l ++ '\n' :: rest).drop (l.length + 1) = rest by simp, hrun]
      cases hhit : matchText re l with
      | true => simp [hhit, unlines_cons]
      | false => simp [hhit]
    · simp [hlen, unlines_cons]
      omega

lemma lines_of_prefix (hls : ∀ l ∈ ls, Plain l) (ht : Plain t) (h : x ++ y = unlines ls ++ t) :
    ∃ ls1 ls2 u, ls = ls1 ++ ls2 ∧ x = unlines ls1 ++ u ∧ Plain u ∧ u ++ y = unlines ls2 ++ t ∧
      u.length ≤ (ls2.head?.getD t).length := by
  induction ls generalizing x with
  | nil =>
    obtain rfl : x ++ y = t := h
    exact ⟨[], [], x, rfl, rfl, fun c hc => ht c (mem_append_left _ hc), rfl, by simp⟩
  | cons l ls ih =>
    obtain ⟨hl, hls'⟩ := forall_mem_cons.mp hls
    rw [unlines_cons, append_assoc, cons_append] at h
    have hstop : ∀ v, l = x ++ v → ∃ ls1 ls2 u, l :: ls = ls1 ++ ls2 ∧ x = unlines ls1 ++ u ∧ Plain u ∧
        u ++ y = unlines ls2 ++ t ∧ u.length ≤ (ls2.head?.getD t).length := by
      intro v hv
      refine ⟨[], l :: ls, x, rfl, rfl, fun c hc => hl c ?_, ?_, ?_⟩
      · rw [hv]
        exact mem_append_left _ hc
      · rw [h, unlines_cons, append_assoc, cons_append]
      · rw [head?_cons, Option.getD_some, hv, length_append]
        exact Nat.le_add_right _ _
    rcases append_eq_append_iff.mp h with ⟨v, hv, -⟩ | ⟨w, hx, hw⟩
    · exact hstop v hv
    · cases w with
      | nil => exact hstop [] (by rw [hx, append_nil, append_nil])
      | cons c w =>
        obtain ⟨rfl, hR⟩ := cons.inj hw
        obtain ⟨ls1, ls2, u, rfl, rfl, hu⟩ := ih hls' hR.symm
        exact ⟨l :: ls1, ls2, u, rfl, by rw [hx, unlines_cons, append_assoc, cons_append], hu⟩

/-- **The loop over the input**, when `u` is what the last `read`s have left in the buffer. -/
lemma grepLoop_spec (ht : Plain t) (ks : List ℕ) {input buf : List Char} (hls : ∀ l ∈ ls, Plain l ∧ l.length + 1 ≤ 1023)
    (hin : u ++ input = unlines ls ++ t) (hle : u.length ≤ (ls.head?.getD t).length) (hu : u.length ≤ 1023)
    (hbuf : buf.take u.length = u) (hks : input.length < ks.length) (out : List Char) (ms : List ℕ) :
    ∃ ms', grepLoop re ks buf u.length input out ms = some (out ++ unlines (ls.filter (matchText re)), ms ++ ms') ∧
      (∀ m ∈ ms', m ≤ 1023 ∧ (t.length ≤ 1022 → m ≤ 1022)) ∧ ∀ m ∈ ms'.dropLast, m ≤ 1022 := by
  induction ks generalizing ls u input buf out ms with
  | nil => exact absurd hks (Nat.not_lt_zero _)
  | cons k ks ih =>
    have hline : ∀ l ls', ls = l :: ls' → u.length ≤ l.length ∧ l.length ≤ 1022 := by
      rintro l ls' rfl
      exact ⟨hle, Nat.le_of_succ_le_succ (hls l mem_cons_self).2⟩
    have hbound : u.length ≤ 1023 ∧ (t.length ≤ 1022 → u.length ≤ 1022) := by
      refine ⟨hu, fun hlen => ?_⟩
      cases ls with
      | nil => exact hle.trans hlen
      | cons l ls => exact (hline l ls rfl).1.trans (hline l ls rfl).2
    rw [grepLoop]
    set n := min (max 1 k) (min (1024 - u.length - 1) input.length) with hn
    by_cases h0 : n = 0
    · rw [if_pos h0]
      -- a line is not left in the buffer: there is room for it and its newline has been read
      cases ls with
      | nil => exact ⟨[u.length], by simp [unlines], by simpa using hbound, by simp⟩
      | cons l ls =>
        have hlen := congrArg length hin
        simp only [unlines_cons, length_append, length_cons] at hlen
        have := hline l ls rfl
        omega
    · have hroom : u.length + n < 1024 := by omega
      rw [if_neg h0, if_neg (Nat.not_le.mpr hroom), hbuf]
      obtain ⟨ls1, ls2, v, rfl, hx, hv, hy, hle'⟩ := lines_of_prefix (x := u ++ input.take n) (y := input.drop n)
        (fun l hl => (hls l hl).1) ht (by rw [append_assoc, take_append_drop, hin])
      have hlen : u.length + n = (unlines ls1).length + v.length := by
        have := congrArg length hx
        rw [length_append, length_append, length_take] at this
        omega
      have hfew := length_le_unlines ls1
      obtain ⟨front, hrun, hfront⟩ := scan_spec re (buf.drop (u.length + n + 1))
        (fun l hl => (hls l (mem_append_left _ hl)).1) hv (show ls1.length < 1024 by omega) [] out
      have hm : u.length + n - front.length = v.length := by
        rw [hfront, length_nil]
        omega
      rw [hx, append_assoc, hrun]
      simp only [Option.bind_eq_bind, Option.bind_some, hm]
      have hcarry : ∀ rest, (v ++ rest).take v.length = v := fun _ => take_left
      rw [hcarry]
      have hfewer : (input.drop n).length < ks.length := by
        rw [length_drop]
        rw [length_cons] at hks
        omega
      obtain ⟨ms', hres, hms, hlast⟩ := ih (fun l hl => hls l (mem_append_right _ hl)) hy hle' (by omega) (hcarry _) hfewer
        (out ++ unlines (ls1.filter (matchText re))) (ms ++ [u.length])
      refine ⟨u.length :: ms', ?_, forall_mem_cons.mpr ⟨hbound, hms⟩, ?_⟩
      · rw [hres, filter_append]
        simp [unlines]
      · cases ms' with
        | nil => simp
        | cons m ms' => exact forall_mem_cons.mpr ⟨by omega, hlast⟩

/-- **`grep` does not depend on how the input is divided.**  It writes the lines that match, whole and in order; `m` is
at most 1022 at each `read` but the last, and there too unless the rest after the last newline is longer. -/
theorem grep_lines (re : List Char) (hls : ∀ l ∈ ls, Plain l ∧ l.length + 1 ≤ 1023) (ht : Plain t) {ks : List ℕ}
    (hks : (unlines ls ++ t).length < ks.length) (buf : List Char) :
    ∃ ms, grep re ks buf (unlines ls ++ t) = some (unlines (ls.filter (matchText re)), ms) ∧
      (∀ m ∈ ms, m ≤ 1023 ∧ (t.length ≤ 1022 → m ≤ 1022)) ∧ ∀ m ∈ ms.dropLast, m ≤ 1022 :=
  grepLoop_spec (u := []) ht ks hls rfl (Nat.zero_le _) (Nat.zero_le _) take_zero hks [] []

/-- Two lines and a rest, read one byte at a time. -/
theorem grep_lines_bytewise : ∃ ms, grep ['b'] (replicate 8 1) (replicate 1024 '\x00') "ab\nc\nb".toList =
    some ("ab\n".toList, ms) ∧ ∀ m ∈ ms, m ≤ 1022 := by
  have hls : ∀ l ∈ [['a', 'b'], ['c']], Plain l ∧ l.length + 1 ≤ 1023 := by simp [Plain]
  have ht : Plain ['b'] := by simp [Plain]
  obtain ⟨ms, hrun, hms, -⟩ := grep_lines ['b'] hls ht (show _ < (replicate 8 1).length by decide) (replicate 1024 '\x00')
  exact ⟨ms, hrun, fun m hm => (hms m hm).2 (by decide)⟩

/-- A last line of 1023 bytes without a newline fills the buffer: `m` is 1023 at the second `read`. -/
theorem grep_fills_buffer : grep ['b'] [1023, 1] (replicate 1024 '\x00') (replicate 1023 'a') = some ([], [0, 1023]) := by
  decide +kernel

end Xv6.User.Grep
