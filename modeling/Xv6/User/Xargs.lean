import Xv6.Lib.Prog

/-!
# `xargs.c`

The program reads its input into a buffer and runs the command for each piece of the buffer up to a newline
or to the end of the buffer.  It keeps nothing from one `read` to the next.
-/

namespace Xv6.User.Xargs

open Lib List

abbrev BUFFER_SIZE : ℕ := 512

/-- A string: its bytes, without the terminating zero. -/
abbrev Str : Type := List ℕ

def newline : ℕ := 10

/-- What a string that ends at its first zero is read as. -/
def cstr (line : List ℕ) : Str := line.takeWhile (· ≠ 0)

/-- Why the program ends before its input does; `overrun` is a store behind the end of `line`. -/
inductive Stop where
  | usage | forkFailed | overrun
  deriving DecidableEq

/-- What the program has done: the calls of `fork`, and the vectors passed to `exec`. -/
structure State where
  forks : ℕ
  execs : List (List Str)

abbrev M (α : Type) : Type := Prog State Stop α

section

variable (fork : ℕ → Bool)

/-- `fork`, `exec` in the child, `wait`; `fork k` says whether the `k`-th call of `fork` succeeds. -/
def spawn (argv : List Str) : M Unit := do
  let s ← Prog.read
  Prog.modify fun s => { s with forks := s.forks + 1 }
  if fork s.forks then Prog.modify fun s => { s with execs := s.execs ++ [argv] }
  else Prog.stop .forkFailed

/-- The innermost loop, which copies up to a newline: the position after it, and the line. -/
def fillLine (buffer : ℕ → ℕ) (n : ℕ) : ℕ → ℕ → List ℕ → ℕ × List ℕ
  | 0, i, line => (i, line)
  | fuel + 1, i, line =>
    if i < n ∧ buffer i ≠ newline then fillLine buffer n fuel (i + 1) (line ++ [buffer i]) else (i, line)

/-- The loop over what a call of `read` has put into the buffer.  After the last piece `buffer[n]` is read,
which is left from before. -/
def eachLine (cmd : List Str) (buffer : ℕ → ℕ) (n : ℕ) : ℕ → ℕ → M Unit
  | 0, _ => pure ()
  | fuel + 1, i =>
    if i < n then do
      let (i, line) := fillLine buffer n n i []
      let i := if buffer i = newline then i + 1 else i
      if line.length < BUFFER_SIZE then do
        spawn fork (cmd ++ [cstr line])
        eachLine cmd buffer n fuel i
      else Prog.stop .overrun
    else pure ()

/-- The buffer after a call of `read` that returned `chunk`. -/
def fill (buffer : ℕ → ℕ) (chunk : List ℕ) (k : ℕ) : ℕ := if k < chunk.length then chunk.getD k 0 else buffer k

/-- The loop over the calls of `read`, which return `chunks` and then nothing. -/
def eachRead (cmd : List Str) : (ℕ → ℕ) → List (List ℕ) → M Unit
  | _, [] => pure ()
  | buffer, chunk :: chunks => do
    eachLine fork cmd (fill buffer chunk) chunk.length chunk.length 0
    eachRead cmd (fill buffer chunk) chunks

/-- `main`; `buffer` is what the stack holds before. -/
def main (argv : List Str) (buffer : ℕ → ℕ) (chunks : List (List ℕ)) : M Unit :=
  if argv.length < 2 then Prog.stop .usage else eachRead fork argv.tail buffer chunks

end

/-! ### The pieces of a chunk -/

/-- The pieces of a chunk, `acc` being the start of the first one. -/
def piecesFrom (acc : List ℕ) : List ℕ → List (List ℕ)
  | [] => if acc = [] then [] else [acc]
  | b :: rest => if b = newline then acc :: piecesFrom [] rest else piecesFrom (acc ++ [b]) rest

def pieces (chunk : List ℕ) : List (List ℕ) := piecesFrom [] chunk

/-- The input of lines that a newline ends. -/
def stream (lines : List (List ℕ)) : List ℕ := lines.flatMap fun l => l ++ [newline]

lemma piecesFrom_line (acc line rest : List ℕ) (h : newline ∉ line) :
    piecesFrom acc (line ++ newline :: rest) = (acc ++ line) :: piecesFrom [] rest := by
  induction line generalizing acc with
  | nil => simp [piecesFrom]
  | cons b line ih =>
    obtain ⟨hb, hline⟩ := not_or.mp (mt mem_cons.mpr h)
    rw [cons_append, piecesFrom, if_neg (Ne.symm hb), ih (acc ++ [b]) hline]
    simp

lemma piecesFrom_last (acc last : List ℕ) (h : newline ∉ last) :
    piecesFrom acc last = if acc ++ last = [] then [] else [acc ++ last] := by
  induction last generalizing acc with
  | nil => simp [piecesFrom]
  | cons b last ih =>
    obtain ⟨hb, hlast⟩ := not_or.mp (mt mem_cons.mpr h)
    rw [piecesFrom, if_neg (Ne.symm hb), ih (acc ++ [b]) hlast]
    simp

variable {chunk p : List ℕ} {chunks lines : List (List ℕ)}

lemma pieces_cases (hne : chunk ≠ []) : (newline ∉ chunk ∧ pieces chunk = [chunk]) ∨
      ∃ line rest, newline ∉ line ∧ chunk = line ++ newline :: rest ∧ pieces chunk = line :: pieces rest := by
  by_cases h : newline ∈ chunk
  · obtain ⟨line, rest, rfl, hno⟩ := eq_append_cons_of_mem h
    exact .inr ⟨line, rest, hno, rfl, piecesFrom_line [] line rest hno⟩
  · refine .inl ⟨h, ?_⟩
    rw [pieces, piecesFrom_last [] chunk h, nil_append, if_neg hne]

/-! ### The loops -/

/-- The state once the command has been run for `ps`. -/
def State.spawned (s : State) (cmd : List Str) (ps : List (List ℕ)) : State :=
  ⟨s.forks + ps.length, s.execs ++ ps.map fun l => cmd ++ [cstr l]⟩

lemma State.spawned_nil (s : State) (cmd : List Str) : s.spawned cmd [] = s := by simp [spawned]

lemma State.spawned_append (s : State) (cmd : List Str) (ps qs : List (List ℕ)) :
    (s.spawned cmd ps).spawned cmd qs = s.spawned cmd (ps ++ qs) := by
  simp [spawned, Nat.add_assoc]

section

variable {fork : ℕ → Bool} {ok : Stop → Prop} {cmd : List Str} {buffer : ℕ → ℕ} {chunk : List ℕ}

lemma fillLine_eq (hb : ∀ k < chunk.length, buffer k = chunk.getD k 0) {i : ℕ} {l tail : List ℕ}
    (hdrop : chunk.drop i = l ++ tail) (hno : newline ∉ l) (hend : tail = [] ∨ tail.head? = some newline) (fuel : ℕ)
    (hfuel : l.length ≤ fuel) (line : List ℕ) :
    fillLine buffer chunk.length fuel i line = (i + l.length, line ++ l) := by
  induction l generalizing fuel i line with
  | nil =>
    cases fuel with
    | zero => simp [fillLine]
    | succ fuel =>
      have hstop : ¬ (i < chunk.length ∧ buffer i ≠ newline) := by
        rintro ⟨hi, hne⟩
        obtain rfl | hend := hend
        · exact absurd (drop_eq_nil_iff.mp hdrop) (by omega)
        · rw [nil_append] at hdrop
          rw [hb i hi] at hne
          rw [← hdrop, head?_drop, getElem?_eq_getElem hi] at hend
          rw [getD_eq_getElem _ _ hi] at hne
          exact hne (Option.some.inj hend)
      rw [fillLine, if_neg hstop]
      simp
  | cons b l ih =>
    have hi : i < chunk.length := by
      by_contra hge
      rw [drop_eq_nil_of_le (by omega)] at hdrop
      cases hdrop
    have hcons := drop_eq_getElem_cons hi
    rw [hdrop, cons_append] at hcons
    obtain ⟨hbi, hrest⟩ := List.cons.inj hcons
    obtain ⟨hne, hno⟩ := not_or.mp (mt mem_cons.mpr hno)
    have hbuf : buffer i = b := by rw [hb i hi, getD_eq_getElem _ _ hi, hbi]
    cases fuel with
    | zero => simp at hfuel
    | succ fuel =>
      rw [fillLine, if_pos ⟨hi, by rw [hbuf]; exact Ne.symm hne⟩,
        ih hrest.symm hno fuel (by simpa using hfuel) (line ++ [buffer i])]
      rw [hbuf, length_cons, append_assoc]
      congr 1
      omega

lemma line_at (hb : ∀ k < chunk.length, buffer k = chunk.getD k 0) {i : ℕ} {line rest : List ℕ}
    (hdrop : chunk.drop i = line ++ newline :: rest) :
    i + line.length < chunk.length ∧ buffer (i + line.length) = newline ∧ chunk.drop (i + line.length + 1) = rest := by
  have hlen : (chunk.drop i).length = chunk.length - i := length_drop
  rw [hdrop, length_append, length_cons] at hlen
  have hat : i + line.length < chunk.length := by omega
  have hnl : chunk.drop (i + line.length) = newline :: rest := by rw [← drop_drop, hdrop, drop_left]
  have hcons := drop_eq_getElem_cons hat
  rw [hnl] at hcons
  obtain ⟨hbi, hrest⟩ := List.cons.inj hcons
  exact ⟨hat, by rw [hb _ hat, getD_eq_getElem _ _ hat, hbi], hrest.symm⟩

lemma spawn_spec (hfork : ∀ k, fork k = true) (l : List ℕ) (s : State) :
    wp (spawn fork (cmd ++ [cstr l])) ok (fun _ s' => s' = s.spawned cmd [l]) s := by
  simp only [spawn, wp_bind, wp_read, wp_modify]
  rw [if_pos (hfork s.forks), wp_modify]
  rfl

lemma eachLine_spec (hfork : ∀ k, fork k = true) (hb : ∀ k < chunk.length, buffer k = chunk.getD k 0) (fuel i : ℕ)
    (hfuel : chunk.length ≤ i + fuel) (hsmall : ∀ l ∈ pieces (chunk.drop i), l.length < BUFFER_SIZE) (s : State) :
    wp (eachLine fork cmd buffer chunk.length fuel i) ok (fun _ s' => s' = s.spawned cmd (pieces (chunk.drop i))) s := by
  have hdone : ∀ j, chunk.length ≤ j → ∀ fuel (s : State),
      wp (eachLine fork cmd buffer chunk.length fuel j) ok (fun _ s' => s' = s) s := by
    intro j hj fuel s
    cases fuel with
    | zero => rfl
    | succ fuel =>
      rw [eachLine, if_neg (by omega)]
      rfl
  induction fuel generalizing i s with
  | zero =>
    rw [drop_eq_nil_of_le (by omega)]
    exact (s.spawned_nil cmd).symm
  | succ fuel ih =>
    by_cases hi : i < chunk.length
    · have hne : chunk.drop i ≠ [] := fun hnil => absurd (drop_eq_nil_iff.mp hnil) (by omega)
      have hlen : (chunk.drop i).length = chunk.length - i := length_drop
      rw [eachLine, if_pos hi]
      rcases pieces_cases hne with ⟨hno, hps⟩ | ⟨line, rest, hno, hdrop, hps⟩
      · -- the last piece has no newline
        rw [hps] at hsmall ⊢
        rw [fillLine_eq hb (append_nil _).symm hno (.inl rfl) _ (by omega)]
        dsimp only
        rw [nil_append, if_pos (hsmall _ mem_cons_self), wp_bind]
        refine (spawn_spec hfork _ s).mono fun _ s' hs' => ?_
        refine (hdone _ ?_ fuel s').mono fun _ s'' hs'' => hs''.trans hs'
        split <;> omega
      · obtain ⟨hat, hbuf, hrest⟩ := line_at hb hdrop
        rw [hps] at hsmall ⊢
        rw [fillLine_eq hb hdrop hno (.inr rfl) _ (by omega)]
        dsimp only
        rw [nil_append, if_pos (hsmall _ mem_cons_self), if_pos hbuf, wp_bind]
        refine (spawn_spec hfork line s).mono fun _ s' hs' => ?_
        subst hs'
        refine (ih (i + line.length + 1) (by omega) ?_ _).mono fun _ s' hs' => ?_
        · rw [hrest]
          exact fun l hl => hsmall l (mem_cons_of_mem _ hl)
        · rw [hs', hrest, State.spawned_append]
          rfl
    · rw [drop_eq_nil_of_le (by omega)]
      exact (hdone i (by omega) _ s).mono fun _ s' hs' => hs'.trans (s.spawned_nil cmd).symm

lemma eachRead_spec (hfork : ∀ k, fork k = true) (chunks : List (List ℕ)) (buffer : ℕ → ℕ)
    (hsmall : ∀ c ∈ chunks, ∀ l ∈ pieces c, l.length < BUFFER_SIZE) (s : State) :
    wp (eachRead fork cmd buffer chunks) ok (fun _ s' => s' = s.spawned cmd (chunks.flatMap pieces)) s := by
  induction chunks generalizing buffer s with
  | nil => exact (s.spawned_nil cmd).symm
  | cons c chunks ih =>
    rw [eachRead, wp_bind]
    have hb : ∀ k < c.length, fill buffer c k = c.getD k 0 := fun k hk => if_pos hk
    refine (eachLine_spec hfork hb c.length 0 (by omega) (hsmall c mem_cons_self) s).mono fun _ s' hs' => ?_
    subst hs'
    refine (ih _ (fun c hc => hsmall c (mem_cons_of_mem _ hc)) _).mono fun _ s' hs' => ?_
    rw [hs', State.spawned_append, drop_zero, flatMap_cons]

end

/-! ### Lines -/

/-- The chunk ends with a newline. -/
abbrev Ends (chunk : List ℕ) : Prop := chunk.getLast? = some newline

lemma piecesFrom_append (acc : List ℕ) {a : List ℕ} (b : List ℕ) (h : Ends a) :
    piecesFrom acc (a ++ b) = piecesFrom acc a ++ pieces b := by
  induction a generalizing acc with
  | nil => cases h
  | cons x a ih =>
    by_cases ha : a = []
    · subst ha
      obtain rfl : x = newline := Option.some.inj h
      simp [piecesFrom, pieces]
    · have hend : Ends a := by rwa [Ends, getLast?_cons_of_ne_nil ha] at h
      rw [cons_append, piecesFrom, piecesFrom]
      split
      · rw [ih [] hend, cons_append]
      · exact ih _ hend

lemma flatMap_pieces (h : ∀ c ∈ chunks, Ends c) : chunks.flatMap pieces = pieces chunks.flatten := by
  induction chunks with
  | nil => rfl
  | cons c chunks ih =>
    rw [flatMap_cons, ih fun c hc => h c (mem_cons_of_mem _ hc), flatten_cons]
    exact (piecesFrom_append [] _ (h c mem_cons_self)).symm

lemma pieces_stream (h : ∀ l ∈ lines, newline ∉ l) : pieces (stream lines) = lines := by
  induction lines with
  | nil => rfl
  | cons l lines ih =>
    have hstep := piecesFrom_line [] l (stream lines) (h l mem_cons_self)
    rw [stream, flatMap_cons, append_assoc, singleton_append]
    refine hstep.trans ?_
    rw [nil_append]
    exact congrArg _ (ih fun l hl => h l (mem_cons_of_mem _ hl))

lemma length_piecesFrom (acc chunk : List ℕ) : (piecesFrom acc chunk).length =
    chunk.count newline + if acc ++ chunk = [] ∨ Ends chunk then 0 else 1 := by
  induction chunk generalizing acc with
  | nil =>
    rw [piecesFrom, append_nil]
    by_cases hacc : acc = []
    · simp [hacc]
    · simp [hacc, Ends]
  | cons b chunk ih =>
    rw [piecesFrom]
    by_cases hb : b = newline
    · rw [if_pos hb, length_cons, ih [], hb, count_cons_self, nil_append]
      by_cases hnil : chunk = []
      · simp [hnil, Ends]
      · simp only [hnil, Ends, getLast?_cons_of_ne_nil hnil]
        simp [Nat.add_right_comm]
    · rw [if_neg hb, ih, count_cons_of_ne hb]
      by_cases hnil : chunk = []
      · simp [hnil, Ends, hb]
      · simp [Ends, getLast?_cons_of_ne_nil hnil]

lemma length_pieces (hne : chunk ≠ []) :
    (pieces chunk).length = chunk.count newline + if Ends chunk then 0 else 1 := by
  rw [pieces, length_piecesFrom, nil_append]
  simp only [hne, false_or]

lemma count_stream (h : ∀ l ∈ lines, newline ∉ l) : (stream lines).count newline = lines.length := by
  induction lines with
  | nil => rfl
  | cons l lines ih =>
    rw [stream, flatMap_cons, count_append, count_append, count_eq_zero.mpr (h l mem_cons_self)]
    have := ih fun l hl => h l (mem_cons_of_mem _ hl)
    rw [stream] at this
    rw [this]
    simp [Nat.add_comm]

lemma ends_of_length (hne : ∀ c ∈ chunks, c ≠ []) (h : (chunks.flatMap pieces).length ≤ chunks.flatten.count newline)
    : ∀ c ∈ chunks, Ends c := by
  have hge : ∀ cs : List (List ℕ), (∀ c ∈ cs, c ≠ []) → cs.flatten.count newline ≤ (cs.flatMap pieces).length := by
    intro cs hcs
    induction cs with
    | nil => exact le_rfl
    | cons c cs ih =>
      have h1 := length_pieces (hcs c mem_cons_self)
      have h2 := ih fun c hc => hcs c (mem_cons_of_mem _ hc)
      rw [flatten_cons, count_append, flatMap_cons, length_append]
      omega
  induction chunks with
  | nil => exact fun c hc => absurd hc not_mem_nil
  | cons c chunks ih =>
    have hc := length_pieces (hne c mem_cons_self)
    have hrest := hge chunks fun c hc => hne c (mem_cons_of_mem _ hc)
    rw [flatten_cons, count_append, flatMap_cons, length_append] at h
    have hend : Ends c := by
      by_contra hno
      rw [if_neg hno] at hc
      omega
    rw [if_pos hend] at hc
    exact forall_mem_cons.mpr ⟨hend, ih (fun c hc => hne c (mem_cons_of_mem _ hc)) (by omega)⟩

lemma piece_infix (h : p ∈ pieces chunk) : newline ∉ p ∧ p <:+: chunk := by
  have hfrom : ∀ (chunk acc p : List ℕ), newline ∉ acc → p ∈ piecesFrom acc chunk → newline ∉ p ∧ p <:+: acc ++ chunk := by
    intro chunk
    induction chunk with
    | nil =>
      intro acc p hacc hp
      rw [piecesFrom] at hp
      split at hp
      · exact absurd hp not_mem_nil
      · rw [mem_singleton.mp hp, append_nil]
        exact ⟨hacc, infix_rfl⟩
    | cons b chunk ih =>
      intro acc p hacc hp
      rw [piecesFrom] at hp
      split at hp
      · rcases mem_cons.mp hp with rfl | hp
        · exact ⟨hacc, (prefix_append _ _).isInfix⟩
        · obtain ⟨hno, hin⟩ := ih [] p not_mem_nil hp
          refine ⟨hno, hin.trans ?_⟩
          rw [nil_append]
          exact ((suffix_cons b chunk).trans (suffix_append acc _)).isInfix
      · rename_i hb
        have hacc' : newline ∉ acc ++ [b] := by
          simp only [mem_append, mem_singleton, not_or]
          exact ⟨hacc, Ne.symm hb⟩
        have := ih (acc ++ [b]) p hacc' hp
        rwa [append_assoc, singleton_append] at this
  have := hfrom chunk [] p not_mem_nil h
  rwa [nil_append] at this

lemma length_of_infix_stream (hp : newline ∉ p) (h : p <:+: stream lines)
    (hlines : ∀ l ∈ lines, l.length < BUFFER_SIZE) : p.length < BUFFER_SIZE := by
  induction lines with
  | nil =>
    have : p = [] := infix_nil.mp h
    rw [this]
    decide
  | cons l lines ih =>
    obtain ⟨a, b, hab⟩ := h
    simp only [stream, flatMap_cons, append_assoc, singleton_append] at hab
    by_cases hle : (a ++ p).length ≤ l.length
    · have hl := hlines l mem_cons_self
      rw [length_append] at hle
      omega
    · refine ih ?_ fun l hl => hlines l (mem_cons_of_mem _ hl)
      by_cases hge : l.length < a.length
      · -- the part begins after the first newline
        have hdrop := congrArg (List.drop (l.length + 1)) hab
        have hright : (l ++ newline :: stream lines).drop (l.length + 1) = stream lines := by
          rw [← drop_drop, drop_left, drop_one, tail_cons]
        rw [drop_append_of_le_length (by omega)] at hdrop
        refine ⟨a.drop (l.length + 1), b, ?_⟩
        rw [append_assoc, hdrop]
        exact hright
      · -- otherwise it has the first newline
        refine absurd ?_ hp
        rw [length_append] at hle
        have hget := congrArg (fun x => x[l.length]?) hab
        rw [getElem?_append_right (by omega), getElem?_append_left (by omega),
          getElem?_append_right le_rfl, Nat.sub_self] at hget
        exact mem_of_getElem? hget

lemma cstr_eq_iff (l : List ℕ) : cstr l = l ↔ 0 ∉ l := by
  rw [cstr, takeWhile_eq_self_iff]
  simp only [decide_eq_true_eq]
  exact ⟨fun h h0 => h 0 h0 rfl, fun h b hb hb0 => h (hb0 ▸ hb)⟩

section

variable {fork : ℕ → Bool} {argv : List Str} {buffer : ℕ → ℕ} {lines chunks : List (List ℕ)}

/-- **`xargs` runs the command once a line exactly if every `read` ends with a line.**  For every input of lines that
are shorter than the buffer, however `read` divides it: all of it is read without a store outside of `line`, and the
vectors passed to `exec` are the arguments with each whole line, exactly if each chunk ends with a newline and no line
has a zero byte. -/
theorem xargs_execs (hargc : 2 ≤ argv.length) (hlines : ∀ l ∈ lines, newline ∉ l ∧ l.length < BUFFER_SIZE)
    (hchunks : ∀ c ∈ chunks, c ≠ [] ∧ c.length ≤ BUFFER_SIZE) (hinput : chunks.flatten = stream lines)
    (hfork : ∀ k, fork k = true) :
    ∃ s, main fork argv buffer chunks ⟨0, []⟩ = .ok ((), s) ∧ s.forks = s.execs.length ∧
      (s.execs = lines.map (fun l => argv.tail ++ [l]) ↔ (∀ c ∈ chunks, Ends c) ∧ ∀ l ∈ lines, 0 ∉ l) := by
  have hsmall : ∀ c ∈ chunks, ∀ p ∈ pieces c, p.length < BUFFER_SIZE := by
    intro c hc p hp
    obtain ⟨hno, hin⟩ := piece_infix hp
    refine length_of_infix_stream hno ?_ fun l hl => (hlines l hl).2
    rw [← hinput]
    exact hin.trans (infix_of_mem_flatten hc)
  have hnl : ∀ l ∈ lines, newline ∉ l := fun l hl => (hlines l hl).1
  have hrun : wp (main fork argv buffer chunks) (fun _ => False)
      (fun _ s => s = State.spawned ⟨0, []⟩ argv.tail (chunks.flatMap pieces)) ⟨0, []⟩ := by
    rw [main, if_neg (by omega)]
    exact eachRead_spec hfork chunks buffer hsmall ⟨0, []⟩
  obtain ⟨_, s, hok, rfl⟩ := hrun.returns
  refine ⟨_, hok, by simp [State.spawned], ?_⟩
  rw [State.spawned, nil_append]
  constructor
  · intro heq
    have hlen := congrArg List.length heq
    rw [length_map, length_map, ← count_stream hnl, ← hinput] at hlen
    have hends := ends_of_length (fun c hc => (hchunks c hc).1) hlen.le
    refine ⟨hends, fun l hl => (cstr_eq_iff l).mp ?_⟩
    rw [flatMap_pieces hends, hinput, pieces_stream hnl] at heq
    have := map_inj_left.mp heq l hl
    exact singleton_inj.mp (append_cancel_left this)
  · rintro ⟨hends, hzero⟩
    rw [flatMap_pieces hends, hinput, pieces_stream hnl]
    exact map_congr_left fun l hl => by rw [(cstr_eq_iff l).mpr (hzero l hl)]

end

/-- `echo` with the lines `a` and `bc`, which one `read` returns. -/
theorem xargs_execs_echo : ∃ s, main (fun _ => true) [[120], [101]] (fun _ => 0) [[97, 10, 98, 99, 10]] ⟨0, []⟩ = .ok ((), s) ∧
    s.execs = [[97], [98, 99]].map fun l => [[101]] ++ [l] := by
  obtain ⟨s, hs, -, hiff⟩ := @xargs_execs (fun _ => true) [[120], [101]] (fun _ => 0)
    [[97], [98, 99]] [[97, 10, 98, 99, 10]] (by decide) (by decide) (by decide) (by decide) (fun _ => rfl)
  exact ⟨s, hs, hiff.mpr ⟨by decide, by decide⟩⟩

/-- The line `ab` in two chunks is run as two lines. -/
theorem xargs_split : ∃ s, main (fun _ => true) [[120], [101]] (fun _ => 0) [[97], [98, 10]] ⟨0, []⟩ = .ok ((), s) ∧
    [[97], [98, 10]].flatten = stream [[97, 98]] ∧ s.execs = [[[101], [97]], [[101], [98]]] := ⟨_, rfl, rfl, rfl⟩

/-! ### The accesses to the buffers -/

/-- An access to `buffer[i]`, of which `read` has filled `n` bytes, or to `line[j]`. -/
inductive Access where
  | buffer (i n : ℕ)
  | line (j : ℕ)
  deriving DecidableEq

def Access.InBounds : Access → Prop
  | .buffer i n => i < n
  | .line j => j < BUFFER_SIZE

/-- The accesses of `fillLine`. -/
def fillAccesses (buffer : ℕ → ℕ) (n : ℕ) : ℕ → ℕ → ℕ → List Access
  | 0, _, _ => []
  | fuel + 1, i, j =>
    if i < n then
      .buffer i n :: if buffer i ≠ newline then .buffer i n :: .line j :: fillAccesses buffer n fuel (i + 1) (j + 1) else []
    else []

/-- The accesses of `eachLine`, while `fork` succeeds: a `fork` that fails ends the program after a part of them. -/
def lineAccesses (buffer : ℕ → ℕ) (n : ℕ) : ℕ → ℕ → List Access
  | 0, _ => []
  | fuel + 1, i =>
    if i < n then
      let (i', line) := fillLine buffer n n i []
      fillAccesses buffer n n i 0 ++
        .buffer i' n :: .line line.length :: lineAccesses buffer n fuel (if buffer i' = newline then i' + 1 else i')
    else []

def readAccesses : (ℕ → ℕ) → List (List ℕ) → List Access
  | _, [] => []
  | buffer, chunk :: chunks =>
    lineAccesses (fill buffer chunk) chunk.length chunk.length 0 ++ readAccesses (fill buffer chunk) chunks

/-- The accesses of `main`. -/
def accesses (argv : List Str) (buffer : ℕ → ℕ) (chunks : List (List ℕ)) : List Access :=
  if argv.length < 2 then [] else readAccesses buffer chunks

section

variable {buffer : ℕ → ℕ} {chunk : List ℕ}

lemma fillAccesses_inBounds {n : ℕ} (fuel i j : ℕ) (hj : j + n ≤ BUFFER_SIZE + i) :
    ∀ a ∈ fillAccesses buffer n fuel i j, a.InBounds := by
  induction fuel generalizing i j with
  | zero => exact fun a ha => absurd ha not_mem_nil
  | succ fuel ih =>
    have hline : i < n → j < BUFFER_SIZE := by omega
    rw [fillAccesses]
    split_ifs with hi hb
    · simp only [forall_mem_cons]
      exact ⟨hi, hi, hline hi, ih (i + 1) (j + 1) (by omega)⟩
    · exact forall_mem_singleton.mpr hi
    · exact fun a ha => absurd ha not_mem_nil

lemma ends_append (line : List ℕ) {rest : List ℕ} :
    Ends (line ++ newline :: rest) ↔ rest = [] ∨ Ends rest := by
  rw [Ends, getLast?_append_of_ne_nil _ (cons_ne_nil _ _)]
  by_cases h : rest = []
  · simp [h]
  · rw [getLast?_cons_of_ne_nil h]
    simp [h]

lemma lineAccesses_last (hb : ∀ k < chunk.length, buffer k = chunk.getD k 0) (fuel : ℕ) {i : ℕ} (hi : i < chunk.length)
    (hno : newline ∉ chunk.drop i) :
    .buffer chunk.length chunk.length ∈ lineAccesses buffer chunk.length (fuel + 1) i ∧
      .line (chunk.length - i) ∈ lineAccesses buffer chunk.length (fuel + 1) i := by
  rw [lineAccesses, if_pos hi, fillLine_eq hb (append_nil _).symm hno (.inl rfl) _ (by rw [length_drop]; omega),
    length_drop, Nat.add_sub_of_le hi.le]
  simp

lemma lineAccesses_inBounds (hlen : chunk.length ≤ BUFFER_SIZE) (hb : ∀ k < chunk.length, buffer k = chunk.getD k 0)
    (fuel i : ℕ) (hfuel : chunk.length ≤ i + fuel) :
    (∀ a ∈ lineAccesses buffer chunk.length fuel i, a.InBounds) ↔ chunk.drop i = [] ∨ Ends (chunk.drop i) := by
  induction fuel generalizing i with
  | zero => exact iff_of_true (fun a ha => absurd ha not_mem_nil) (.inl (drop_eq_nil_of_le hfuel))
  | succ fuel ih =>
    by_cases hi : i < chunk.length
    · have hne : chunk.drop i ≠ [] := fun hnil => absurd (drop_eq_nil_iff.mp hnil) (by omega)
      rw [or_iff_right hne]
      rcases pieces_cases hne with ⟨hno, -⟩ | ⟨line, rest, hno, hdrop, -⟩
      · refine iff_of_false (fun h => ?_) fun h => hno (mem_of_getLast? h)
        exact absurd (h _ (lineAccesses_last hb fuel hi hno).1) (Nat.lt_irrefl _)
      · obtain ⟨hat, hbuf, hrest⟩ := line_at hb hdrop
        have hfill : ∀ a ∈ fillAccesses buffer chunk.length chunk.length i 0, a.InBounds :=
          fillAccesses_inBounds _ i 0 (by omega)
        have hline : line.length < BUFFER_SIZE := by omega
        rw [lineAccesses, if_pos hi, fillLine_eq hb hdrop hno (.inr rfl) _ (by omega)]
        dsimp only
        rw [if_pos hbuf, forall_mem_append, forall_mem_cons, forall_mem_cons, ih _ (by omega), hrest, hdrop, ends_append]
        exact ⟨fun h => h.2.2.2, fun h => ⟨hfill, hat, hline, h⟩⟩
    · rw [lineAccesses, if_neg hi, drop_eq_nil_of_le (by omega)]
      simp

lemma readAccesses_inBounds (chunks : List (List ℕ)) (hchunks : ∀ c ∈ chunks, c ≠ [] ∧ c.length ≤ BUFFER_SIZE)
    (buffer : ℕ → ℕ) : (∀ a ∈ readAccesses buffer chunks, a.InBounds) ↔ ∀ c ∈ chunks, Ends c := by
  induction chunks generalizing buffer with
  | nil => simp [readAccesses]
  | cons c chunks ih =>
    obtain ⟨⟨hne, hlen⟩, hrest⟩ := forall_mem_cons.mp hchunks
    have hb : ∀ k < c.length, fill buffer c k = c.getD k 0 := fun k hk => if_pos hk
    rw [readAccesses, forall_mem_append, ih hrest, forall_mem_cons,
      lineAccesses_inBounds hlen hb c.length 0 (by omega), drop_zero, or_iff_right hne]

end

/-- **`xargs` keeps to its buffers exactly if every `read` ends with a line.**  For every input in chunks of 1 to 512
bytes, whatever the stack held before: each access is below the number of bytes read or below `BUFFER_SIZE` exactly if
every chunk ends with a newline. -/
theorem xargs_in_bounds {argv : List Str} {buffer : ℕ → ℕ} {chunks : List (List ℕ)} (hargc : 2 ≤ argv.length)
    (hchunks : ∀ c ∈ chunks, c ≠ [] ∧ c.length ≤ BUFFER_SIZE) :
    (∀ a ∈ accesses argv buffer chunks, a.InBounds) ↔ ∀ c ∈ chunks, Ends c := by
  rw [accesses, if_neg (by omega)]
  exact readAccesses_inBounds chunks hchunks buffer

/-- The lines `a` and `bc` in one chunk. -/
theorem xargs_in_bounds_two : accesses [[120], [101]] (fun _ => 0) [[97, 10, 98, 99, 10]] ≠ [] ∧
    ∀ a ∈ accesses [[120], [101]] (fun _ => 0) [[97, 10, 98, 99, 10]], a.InBounds :=
  ⟨by decide, (xargs_in_bounds (by decide) (by decide)).mpr (by decide)⟩

lemma accesses_full {chunk : List ℕ} (hlen : chunk.length = 511 + 1) (hno : newline ∉ chunk) (buffer : ℕ → ℕ) :
    .buffer 512 512 ∈ accesses [[120], [101]] buffer [chunk] ∧ .line 512 ∈ accesses [[120], [101]] buffer [chunk] := by
  have hb : ∀ k < chunk.length, fill buffer chunk k = chunk.getD k 0 := fun k hk => if_pos hk
  have hlast := lineAccesses_last hb 511 (i := 0) (by omega) (by rwa [drop_zero])
  rw [hlen] at hlast
  rw [accesses, if_neg (by decide), readAccesses, hlen]
  exact ⟨mem_append_left _ hlast.1, mem_append_left _ hlast.2⟩

theorem xargs_overruns : .buffer 512 512 ∈ accesses [[120], [101]] (fun _ => 0) [replicate 512 97] ∧
    .line 512 ∈ accesses [[120], [101]] (fun _ => 0) [replicate 512 97] :=
  accesses_full length_replicate (fun h => absurd (eq_of_mem_replicate h) (by decide)) _

end Xv6.User.Xargs
