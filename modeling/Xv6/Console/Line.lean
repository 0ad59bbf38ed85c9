import Xv6.Console.Model

/-!
# The line discipline of the console

`Disc` is the console as its users see it: the bytes committed so far, those of them that nobody has
read, and the line that is being edited.
-/

namespace Xv6.Console

open Lib List

variable {P : Type}

/-! ### The console as a queue and a line -/

structure Disc where
  committed : List Byte
  queue : List Byte
  line : List Byte

def Disc.init : Disc := ⟨[], [], []⟩

/-- A character edits the line, or is added to it; a complete line is committed.  Nothing is added
when the buffer is full. -/
def Disc.input (d : Disc) (c : Byte) : Disc :=
  if c = ctrlP then d
  else if c = ctrlU then { d with line := [] }
  else if c = ctrlH ∨ c = delete then { d with line := d.line.dropLast }
  else if c ≠ 0 ∧ d.queue.length + d.line.length < INPUT_BUF_SIZE then
    let line := d.line ++ [normalize c]
    if normalize c = newline ∨ normalize c = ctrlD ∨ d.queue.length + line.length = INPUT_BUF_SIZE then
      ⟨d.committed ++ line, d.queue ++ line, []⟩
    else { d with line := line }
  else d

/-- Readers get the bytes of the queue in order.  A `^D` is taken out by a read that returns 0; a read
that has bytes leaves it. -/
def Disc.step (d : Disc) : Event P → Option Disc
  | .input c => some (d.input c)
  | .deliver _ b => if d.queue.head? = some b ∧ b ≠ ctrlD then some { d with queue := d.queue.tail } else none
  | .eof _ v => if d.queue.head? = some ctrlD ∧ v = 0 then some { d with queue := d.queue.tail } else none
  | .saved _ v => if d.queue.head? = some ctrlD ∧ 0 < v then some d else none
  | .echo _ | .rubout | .commit _ | .ret _ _ => some d

/-- The bytes committed. -/
def committed (es : List (Event P)) : List Byte :=
  es.flatMap fun
    | .commit l => l
    | _ => []

def consumed (es : List (Event P)) : List Byte :=
  es.filterMap fun
    | .deliver _ b => some b
    | .eof _ _ => some ctrlD
    | _ => none

@[simp]
lemma committed_append (es es' : List (Event P)) : committed (es ++ es') = committed es ++ committed es' :=
  flatMap_append

@[simp]
lemma consumed_append (es es' : List (Event P)) : consumed (es ++ es') = consumed es ++ consumed es' :=
  filterMap_append

/-! ### The relation -/

/-- The counter of a read never exceeds its target. -/
def Code.Counts : Code → Prop
  | .loop target n | .asleep target n | .woken target n => n ≤ target
  | _ => True

structure Lines (s : State P) (d : Disc) : Prop where
  size : (s.w - s.r).toNat + (s.e - s.w).toNat ≤ INPUT_BUF_SIZE
  queue : d.queue = s.between s.r s.w
  line : d.line = s.between s.w s.e
  plain : newline ∉ d.line
  counts : ∀ p, (s.code p).Counts

lemma INPUT_BUF_SIZE_eq : INPUT_BUF_SIZE = 128 := rfl

lemma toNat_sub_self (a : BitVec 32) : (a - a).toNat = 0 := by simp

section

variable {s s' : State P} {d : Disc}

lemma length_between (s : State P) (a b : BitVec 32) : (s.between a b).length = (b - a).toNat :=
  Ring.length_contents s.buf a b

lemma Lines.lengths (h : Lines s d) : d.queue.length + d.line.length ≤ INPUT_BUF_SIZE := by
  rw [h.queue, h.line, length_between, length_between]
  exact h.size

lemma Lines.between (h : Lines s d) : s.between s.r s.e = d.queue ++ d.line := by
  have hsize := h.size
  have hB := INPUT_BUF_SIZE_eq
  rw [h.queue, h.line]
  exact Ring.contents_append s.buf s.r s.w s.e (by omega)

lemma Lines.length (h : Lines s d) : (s.e - s.r).toNat = d.queue.length + d.line.length := by
  rw [← length_between, h.between, length_append]

lemma Lines.congr (h : Lines s d) (hb : s'.buf = s.buf) (hr : s'.r = s.r) (hw : s'.w = s.w) (he : s'.e = s.e)
    (hc : ∀ p, (s'.code p).Counts) : Lines s' d := by
  refine ⟨?_, ?_, ?_, h.plain, hc⟩
  · rw [hr, hw, he]
    exact h.size
  · rw [h.queue, State.between, State.between, hb, hr, hw]
  · rw [h.line, State.between, State.between, hb, hw, he]

/-! ### Characters -/

lemma killLine_eq {buf : Fin INPUT_BUF_SIZE → Byte} (fuel : ℕ) (e : BitVec 32) (hfuel : (e - w).toNat = fuel)
    (hplain : newline ∉ Ring.contents buf w e) : killLine buf w fuel e = w := by
  induction fuel generalizing e with
  | zero =>
    rw [killLine, ← Ring.add_ofNat_sub w e, hfuel]
    simp
  | succ fuel ih =>
    have hne : w ≠ e := by
      rintro rfl
      simp at hfuel
    rw [Ring.contents_pred buf w e hne, mem_append, mem_singleton] at hplain
    push Not at hplain
    have hlen := Ring.toNat_pred_sub hne
    rw [killLine, if_pos ⟨hne.symm, fun hc => hplain.2 hc.symm⟩]
    exact ih (e - 1) (by omega) hplain.1

lemma Lines.erase (h : Lines s d) : Lines { s with e := s.w } { d with line := [] } where
  size := by
    have := h.size
    simp only [toNat_sub_self]
    omega
  queue := h.queue
  line := (Ring.contents_self s.buf s.w).symm
  plain := not_mem_nil
  counts := h.counts

lemma Lines.rubout (h : Lines s d) (hne : s.e ≠ s.w) : Lines { s with e := s.e - 1 } { d with line := d.line.dropLast } where
  size := by
    have := h.size
    have := Ring.toNat_pred_sub hne.symm
    simp only
    omega
  queue := h.queue
  line := by
    have hpred : s.between s.w s.e = _ := Ring.contents_pred s.buf s.w s.e hne.symm
    simp only [h.line, hpred, dropLast_concat]
    rfl
  plain hc := h.plain (mem_of_mem_dropLast hc)
  counts := h.counts

lemma Lines.room_iff (h : Lines s d) :
    s.e - s.r < BitVec.ofNat 32 INPUT_BUF_SIZE ↔ d.queue.length + d.line.length < INPUT_BUF_SIZE := by
  rw [BitVec.lt_def, h.length]
  rfl

section

variable (h : Lines s d) (hroom : d.queue.length + d.line.length < INPUT_BUF_SIZE) (c : Byte)

include h hroom

lemma Lines.put_between : (s.put c).between s.r s.w = d.queue ∧ (s.put c).between s.w (s.e + 1) = d.line ++ [c] ∧
      (s.e + 1 - s.r).toNat = d.queue.length + d.line.length + 1 := by
  have hlen := h.length
  have hB := INPUT_BUF_SIZE_eq
  have hpush : (s.put c).between s.r (s.e + 1) = s.between s.r s.e ++ [c] :=
    Ring.contents_push (by decide) s.buf s.r s.e c (by omega) (by omega)
  have hlen' := congrArg List.length hpush
  rw [length_between, h.between, length_append, length_append, length_singleton] at hlen'
  -- the buffer is cut at `w` before and after
  have hq : (s.w - s.r).toNat = d.queue.length := by rw [h.queue, length_between]
  have hl : (s.e - s.w).toNat = d.line.length := by rw [h.line, length_between]
  have hl' : (s.e + 1 - s.w).toNat = d.line.length + 1 := by
    have hne : s.w ≠ s.e + 1 := by
      intro hc
      have hz : (s.e - s.w).toNat = 2 ^ 32 - 1 := by
        rw [hc, show s.e - (s.e + 1) = -1 by ring]
        rfl
      omega
    have := Ring.toNat_pred_sub hne
    rw [show s.e + 1 - 1 - s.w = s.e - s.w by ring] at this
    omega
  have hcut : (s.put c).between s.r (s.e + 1) = (s.put c).between s.r s.w ++ (s.put c).between s.w (s.e + 1) :=
    Ring.contents_append _ s.r s.w (s.e + 1) (by omega)
  rw [hcut, h.between, append_assoc] at hpush
  obtain ⟨h1, h2⟩ := append_inj hpush (by rw [length_between, hq])
  exact ⟨h1, h2, by omega⟩

lemma Lines.commits_iff :
    (s.put c).commits c ↔ c = newline ∨ c = ctrlD ∨ d.queue.length + (d.line ++ [c]).length = INPUT_BUF_SIZE := by
  have hlen := (h.put_between hroom c).2.2
  unfold State.commits
  refine or_congr_right (or_congr_right ?_)
  rw [← BitVec.toNat_inj]
  change (s.e + 1 - s.r).toNat = 128 ↔ _
  rw [hlen, length_append, length_singleton]
  rfl

lemma Lines.store (hplain : c ≠ newline) : Lines (s.put c) { d with line := d.line ++ [c] } := by
  obtain ⟨hq, hl, hlen⟩ := h.put_between hroom c
  refine ⟨?_, hq.symm, hl.symm, ?_, h.counts⟩
  · have h1 := congrArg List.length hq
    have h2 := congrArg List.length hl
    rw [length_between] at h1 h2
    rw [length_append, length_singleton] at h2
    change (s.w - s.r).toNat + (s.e + 1 - s.w).toNat ≤ _
    omega
  · rw [mem_append, mem_singleton]
    push Not
    exact ⟨h.plain, hplain.symm⟩

lemma Lines.commit : Lines { s.put c with w := s.e + 1, code := wakeup (s.put c).code }
      ⟨d.committed ++ (d.line ++ [c]), d.queue ++ (d.line ++ [c]), []⟩ := by
  obtain ⟨hq, hl, hlen⟩ := h.put_between hroom c
  have hB := INPUT_BUF_SIZE_eq
  refine ⟨?_, ?_, (Ring.contents_self _ _).symm, not_mem_nil, fun p => ?_⟩
  · change (s.e + 1 - s.r).toNat + (s.e + 1 - (s.e + 1)).toNat ≤ _
    rw [toNat_sub_self, hlen]
    omega
  · have h1 := congrArg List.length hq
    have h2 := congrArg List.length hl
    rw [length_between] at h1 h2
    rw [length_append, length_singleton] at h2
    have hcut : (s.put c).between s.r (s.e + 1) = (s.put c).between s.r s.w ++ (s.put c).between s.w (s.e + 1) :=
      Ring.contents_append _ s.r s.w (s.e + 1) (by omega)
    rw [hq, hl] at hcut
    exact hcut.symm
  · have hp := h.counts p
    change (wakeup s.code p).Counts
    unfold wakeup
    split
    · rename_i target n hk
      rw [hk] at hp
      exact hp
    · exact hp

end

/-- **A character** does to the counters what it does to the line. -/
lemma Lines.intr (h : Lines s d) (c : Byte) :
    Lines (consoleintr s c) (d.input c) ∧ (d.input c).committed = d.committed ++ committed (echoes s c) := by
  have hkill : killLine s.buf s.w (s.e - s.w).toNat s.e = s.w :=
    killLine_eq _ s.e rfl (by have := h.plain; rwa [h.line] at this)
  unfold consoleintr Disc.input echoes
  by_cases hP : c = ctrlP
  · simp only [if_pos hP]
    exact ⟨h, (append_nil _).symm⟩
  simp only [if_neg hP]
  by_cases hU : c = ctrlU
  · simp only [if_pos hU, hkill]
    refine ⟨h.erase, ?_⟩
    simp [committed]
  simp only [if_neg hU]
  by_cases hH : c = ctrlH ∨ c = delete
  · simp only [if_pos hH]
    by_cases hne : s.e ≠ s.w
    · simp only [if_pos hne]
      exact ⟨h.rubout hne, (append_nil _).symm⟩
    · simp only [if_neg hne]
      have hnil : d.line = [] := by
        rw [h.line, not_not.mp hne]
        exact Ring.contents_self _ _
      rw [hnil, dropLast_nil, ← hnil]
      exact ⟨h, (append_nil _).symm⟩
  simp only [if_neg hH, h.room_iff]
  by_cases hc : c ≠ 0 ∧ d.queue.length + d.line.length < INPUT_BUF_SIZE
  · simp only [if_pos hc, h.commits_iff hc.2]
    by_cases hcomm : normalize c = newline ∨ normalize c = ctrlD ∨
        d.queue.length + (d.line ++ [normalize c]).length = INPUT_BUF_SIZE
    · simp only [if_pos hcomm]
      refine ⟨h.commit hc.2 (normalize c), ?_⟩
      have hl : (s.put (normalize c)).between (s.put (normalize c)).w (s.put (normalize c)).e = _ :=
        (h.put_between hc.2 (normalize c)).2.1
      rw [hl]
      simp [committed]
    · simp only [if_neg hcomm]
      exact ⟨h.store hc.2 _ fun hn => hcomm (Or.inl hn), (append_nil _).symm⟩
  · simp only [if_neg hc]
    exact ⟨h, (append_nil _).symm⟩

lemma run_echoes (s : State P) (c : Byte) (d : Disc) : run Disc.step d (echoes s c) = some d ∧ consumed (echoes s c) = [] := by
  have hrub : ∀ n, run Disc.step d (List.replicate n (Event.rubout : Event P)) = some d ∧
      consumed (List.replicate n (Event.rubout : Event P)) = [] := by
    intro n
    induction n with
    | zero => exact ⟨rfl, rfl⟩
    | succ n ih => exact ih
  unfold echoes
  split_ifs
  · exact ⟨rfl, rfl⟩
  · exact hrub _
  · exact ⟨rfl, rfl⟩
  · exact ⟨rfl, rfl⟩
  · dsimp only
    split <;> exact ⟨rfl, rfl⟩
  · exact ⟨rfl, rfl⟩

/-! ### Reads -/

variable [DecidableEq P]

lemma Lines.setCode (h : Lines s d) (hk : k.Counts) (q : P) : ((s.setCode p k).code q).Counts := by
  change (Function.update s.code p k q).Counts
  by_cases hq : q = p
  · subst hq
    rwa [Function.update_self]
  · rw [Function.update_of_ne hq]
    exact h.counts q

omit [DecidableEq P] in
lemma Lines.take (h : Lines s d) (hne : s.r ≠ s.w) (s' : State P) (hr : s'.r = s.r + 1) (hb : s'.buf = s.buf) (hw : s'.w = s.w)
    (he : s'.e = s.e) (hc : ∀ p, (s'.code p).Counts) :
    d.queue = s.next :: d.queue.tail ∧ Lines s' { d with queue := d.queue.tail } := by
  have hpop : s.between s.r s.w = s.next :: Ring.contents s.buf (s.r + 1) s.w := Ring.contents_pop s.buf s.r s.w hne
  have hq : d.queue = s.next :: Ring.contents s.buf (s.r + 1) s.w := by rw [h.queue, hpop]
  have hlen := congrArg List.length hpop
  rw [length_between, length_cons, Ring.length_contents] at hlen
  have hsize := h.size
  rw [hq]
  refine ⟨rfl, ?_, ?_, ?_, h.plain, hc⟩
  · rw [hr, hw, he]
    omega
  · rw [State.between, hb, hr, hw, tail_cons]
  · rw [h.line, State.between, State.between, hb, hw, he]

/-- **A pass of `consoleread`** takes at most the next byte of the queue. -/
lemma Lines.readPass (h : Lines s d) {target n : ℤ} (hn : n ≤ target) :
    ∃ d', run Disc.step d (readPass s p target n).2 = some d' ∧ Lines (readPass s p target n).1 d' ∧
      d'.committed = d.committed ∧ committed (readPass s p target n).2 = [] ∧
      d.queue = consumed (readPass s p target n).2 ++ d'.queue := by
  have hidle := h.setCode (p := p) (k := .idle) trivial
  have hleave : Lines (s.leave p) d := h.congr rfl rfl rfl rfl hidle
  unfold Console.readPass
  by_cases hpos : n ≤ 0
  · rw [if_pos hpos]
    exact ⟨d, rfl, hleave, rfl, rfl, rfl⟩
  rw [if_neg hpos]
  by_cases hempty : s.r = s.w
  · rw [if_pos hempty]
    by_cases hk : s.killed p = true
    · rw [if_pos hk]
      exact ⟨d, rfl, hleave, rfl, rfl, rfl⟩
    · rw [if_neg hk]
      exact ⟨d, rfl, h.congr rfl rfl rfl rfl (h.setCode hn), rfl, rfl, rfl⟩
  rw [if_neg hempty]
  by_cases hD : s.next = ctrlD
  · rw [if_pos hD]
    by_cases hlt : n < target
    · rw [if_pos hlt]
      have hhead : d.queue.head? = some ctrlD := by
        rw [(h.take hempty { s with r := s.r + 1 } rfl rfl rfl rfl h.counts).1, hD]
        rfl
      refine ⟨d, ?_, hleave, rfl, rfl, rfl⟩
      change run Disc.step d [Event.saved p (target - n)] = _
      rw [run_cons_eq_some]
      exact ⟨d, if_pos ⟨hhead, by omega⟩, rfl⟩
    · rw [if_neg hlt]
      obtain ⟨hq, hl⟩ := h.take hempty { s.leave p with r := s.r + 1 } rfl rfl rfl rfl hidle
      refine ⟨_, ?_, hl, rfl, rfl, ?_⟩
      · rw [run_cons_eq_some]
        refine ⟨_, if_pos ⟨?_, by omega⟩, rfl⟩
        rw [hq, hD]
        rfl
      · rw [hD] at hq
        exact hq
  rw [if_neg hD]
  by_cases hN : s.next = newline
  · rw [if_pos hN]
    obtain ⟨hq, hl⟩ := h.take hempty { s.leave p with r := s.r + 1 } rfl rfl rfl rfl hidle
    refine ⟨_, ?_, hl, rfl, rfl, hq⟩
    rw [run_cons_eq_some]
    refine ⟨_, if_pos ⟨?_, hD⟩, rfl⟩
    rw [hq]
    rfl
  · rw [if_neg hN]
    obtain ⟨hq, hl⟩ := h.take hempty { s.setCode p (.loop target (n - 1)) with r := s.r + 1 } rfl rfl rfl rfl
      (h.setCode (show n - 1 ≤ target by omega))
    refine ⟨_, ?_, hl, rfl, rfl, hq⟩
    rw [run_cons_eq_some]
    refine ⟨_, if_pos ⟨?_, hD⟩, rfl⟩
    rw [hq]
    rfl

/-! ### Runs -/

/-- The events so far are those of a console whose queue and line are in the buffer. -/
structure Seen (s : State P) (es : List (Event P)) (d : Disc) : Prop where
  accepted : run Disc.step Disc.init es = some d
  lines : Lines s d
  committed : d.committed = committed es
  fifo : Console.committed es = consumed es ++ d.queue

omit [DecidableEq P] in
lemma Seen.extend {es es' : List (Event P)} (h : Seen s es d) (hrun : run Disc.step d es' = some d') (hl : Lines s' d')
    (hd : d'.committed = d.committed) (hc : Console.committed es' = []) (hq : d.queue = consumed es' ++ d'.queue) :
    Seen s' (es ++ es') d' where
  accepted := run_append_eq_some.mpr ⟨d, h.accepted, hrun⟩
  lines := hl
  committed := by rw [hd, h.committed, committed_append, hc, append_nil]
  fifo := by rw [committed_append, consumed_append, hc, append_nil, h.fifo, hq, append_assoc]

omit [DecidableEq P] in
lemma Disc.input_committed (d : Disc) (c : Byte) :
    ∃ l, (d.input c).committed = d.committed ++ l ∧ (d.input c).queue = d.queue ++ l := by
  unfold Disc.input
  split_ifs
  · exact ⟨[], (append_nil _).symm, (append_nil _).symm⟩
  · exact ⟨[], (append_nil _).symm, (append_nil _).symm⟩
  · exact ⟨[], (append_nil _).symm, (append_nil _).symm⟩
  · dsimp only
    split
    · exact ⟨_, rfl, rfl⟩
    · exact ⟨[], (append_nil _).symm, (append_nil _).symm⟩
  · exact ⟨[], (append_nil _).symm, (append_nil _).symm⟩

lemma step_seen {es : List (Event P)} (hs : step s a = some s') (h : ∃ d, Seen s es d) :
    ∃ d, Seen s' (es ++ emit s a) d := by
  obtain ⟨d, h⟩ := h
  obtain ⟨⟨s1, es'⟩, hact, rfl⟩ := Option.map_eq_some_iff.mp hs
  rw [emit, hact]
  change ∃ d, Seen s1 (es ++ es') d
  -- steps that show nothing change the codes only
  have hquiet : ∀ {t : State P}, Lines t d → Seen t (es ++ []) d := fun ht => h.extend rfl ht rfl rfl rfl
  cases a with
  | intr c =>
    rw [act] at hact
    split at hact
    · cases hact
      obtain ⟨hl, hc⟩ := h.lines.intr c
      obtain ⟨hrun, hcons⟩ := run_echoes s c (d.input c)
      obtain ⟨l, hcl, hql⟩ := d.input_committed c
      have hcomm : Console.committed (Event.input c :: echoes s c) = Console.committed (echoes s c) := rfl
      have hcons' : consumed (Event.input c :: echoes s c) = consumed (echoes s c) := rfl
      refine ⟨d.input c, run_append_eq_some.mpr ⟨d, h.accepted, run_cons_eq_some.mpr ⟨_, rfl, hrun⟩⟩, hl, ?_, ?_⟩
      · rw [committed_append, hcomm, ← h.committed, hc]
      · have hll : l = Console.committed (echoes s c) := append_cancel_left (hcl.symm.trans hc)
        rw [committed_append, consumed_append, hcomm, hcons', hcons, append_nil, h.fifo, hql, hll, append_assoc]
    · cases hact
  | call p n =>
    rw [act] at hact
    split at hact
    · cases hact
      exact ⟨d, hquiet (h.lines.congr rfl rfl rfl rfl (h.lines.setCode trivial))⟩
    · cases hact
  | kill p =>
    cases hact
    refine ⟨d, hquiet (h.lines.congr rfl rfl rfl rfl fun q => ?_)⟩
    refine h.lines.setCode (p := p) (k := wakeup s.code p) ?_ q
    have hp := h.lines.counts p
    unfold wakeup
    split
    · rename_i target n hk
      rw [hk] at hp
      exact hp
    · exact hp
  | go p =>
    rw [act, go] at hact
    have hp := h.lines.counts p
    cases hk : s.code p with
    | idle | asleep =>
      simp only [hk] at hact
      cases hact
    | start n =>
      simp only [hk] at hact
      split at hact
      · cases hact
        exact ⟨d, hquiet (h.lines.congr rfl rfl rfl rfl (h.lines.setCode (Int.le_refl n)))⟩
      · cases hact
    | woken target n =>
      simp only [hk] at hact
      rw [hk] at hp
      split at hact
      · cases hact
        exact ⟨d, hquiet (h.lines.congr rfl rfl rfl rfl (h.lines.setCode hp))⟩
      · cases hact
    | loop target n =>
      simp only [hk] at hact
      rw [hk] at hp
      obtain ⟨d', hrun, hl, hd, hc, hq⟩ := h.lines.readPass (p := p) hp
      rw [Option.some.inj hact] at hrun hl hc hq
      exact ⟨d', h.extend hrun hl hd hc hq⟩

end

/-- **The line discipline.**  Over every run, the counters are in order and at most a buffer apart.  The
run shows what a console shows whose line is `[w, e)` and whose queue is `[r, w)`.  What readers took out,
followed by `[r, w)`, is what has been committed; no reader is given a `^D`, a read that takes one out
returns 0, and a read that leaves one returns bytes. -/
theorem console_line_discipline [DecidableEq P] {s : State P} {as : List (Act P)} (h : run step init as = some s) :
    ((s.w - s.r).toNat ≤ (s.e - s.r).toNat ∧ (s.e - s.r).toNat ≤ INPUT_BUF_SIZE) ∧
      (∃ d, run Disc.step Disc.init (trace step emit init as) = some d ∧ d.line = s.between s.w s.e ∧
        d.queue = s.between s.r s.w ∧ d.committed = committed (trace step emit init as)) ∧
      committed (trace step emit init as) = consumed (trace step emit init as) ++ s.between s.r s.w ∧
      (∀ p b, .deliver p b ∈ trace step emit init as → b ≠ ctrlD) ∧
      (∀ p v, .eof p v ∈ trace step emit init as → v = 0) ∧
      ∀ p v, .saved p v ∈ trace step emit init as → 0 < v := by
  have hinit : ∃ d, Seen (init : State P) [] d := by
    refine ⟨Disc.init, rfl, ⟨?_, ?_, ?_, not_mem_nil, fun _ => trivial⟩, rfl, rfl⟩
    · change ((0 : BitVec 32) - 0).toNat + ((0 : BitVec 32) - 0).toNat ≤ INPUT_BUF_SIZE
      decide
    · exact (Ring.contents_self _ _).symm
    · exact (Ring.contents_self _ _).symm
  have hstep : ∀ (s : State P) es a s', True → step s a = some s' → (∃ d, Seen s es d) →
      ∃ d, Seen s' (es ++ emit s a) d := fun _ _ _ _ _ hs hI => step_seen hs hI
  obtain ⟨d, hd⟩ := run_trace_invariant hstep h (fun _ _ => trivial) hinit
  rw [nil_append] at hd
  have hq := hd.lines.queue
  have hlen := hd.lines.length
  have hle := hd.lines.lengths
  refine ⟨⟨?_, by omega⟩, ⟨d, hd.accepted, hd.lines.line, hq, hd.committed⟩, by rw [hd.fifo, hq], ?_, ?_, ?_⟩
  · rw [← length_between, ← hq]
    omega
  · intro p b hb
    obtain ⟨t, t', ht⟩ := exists_step_of_mem hd.accepted hb
    by_contra hc
    rw [Disc.step, if_neg fun hand => hand.2 hc] at ht
    cases ht
  · intro p v hv
    obtain ⟨t, t', ht⟩ := exists_step_of_mem hd.accepted hv
    by_contra hc
    rw [Disc.step, if_neg fun hand => hc hand.2] at ht
    cases ht
  · intro p v hv
    obtain ⟨t, t', ht⟩ := exists_step_of_mem hd.accepted hv
    by_contra hc
    rw [Disc.step, if_neg fun hand => hc hand.2] at ht
    cases ht

/-- A reader sleeps; `a`, `b`, backspace and return are typed, the reader gets the line, and a second
read meets `^D`. -/
def readRun : List (Act Unit) :=
  [.call () 10, .go (), .go (), .intr 97, .intr 98, .intr ctrlH, .intr carriageReturn, .go (), .go (), .go (),
    .intr ctrlD, .intr 99, .call () 10, .go (), .go ()]

theorem console_line_discipline_readRun : ∃ s, run step (init : State Unit) readRun = some s ∧
      committed (trace step emit init readRun) = [97, newline, ctrlD] ∧
      committed (trace step emit init readRun) = consumed (trace step emit init readRun) ++ s.between s.r s.w := by
  have hsome : (run step (init : State Unit) readRun).isSome := by decide +kernel
  obtain ⟨s, hs⟩ := Option.isSome_iff_exists.mp hsome
  exact ⟨s, hs, by decide +kernel, (console_line_discipline hs).2.2.1⟩

end Xv6.Console
