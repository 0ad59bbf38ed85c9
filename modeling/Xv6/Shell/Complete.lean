import Xv6.Shell.Grammar

/-!
# The parser accepts its grammar

What is derived is parsed: each function of the parser stops before the tokens that may follow its
nonterminal.
-/

namespace Xv6.Shell

open Lib List

/-! ### What may follow -/

/-- After `exec`. -/
def execEnds : Tok → Bool
  | .bar | .rparen | .semi | .amp => true
  | _ => false

/-- After `pipe`. -/
def pipeEnds : Tok → Bool
  | .rparen | .semi | .amp => true
  | _ => false

/-- After `line`. -/
def lineEnds : Tok → Bool
  | .rparen => true
  | _ => false

/-- The first of the tokens, if there is one, passes the test. -/
def Ends (test : Tok → Bool) (us : List Tok) : Prop := ∀ t ∈ us.head?, test t = true

variable {test : Tok → Bool} {us vs : List Tok} {rs : List Redir} {ws : List (List Char)}

lemma Ends.line_pipe (h : Ends lineEnds us) : Ends pipeEnds us := by
  intro t ht
  have := h t ht
  cases t <;> first | rfl | cases this

lemma Ends.pipe_exec (h : Ends pipeEnds us) : Ends execEnds us := by
  intro t ht
  have := h t ht
  cases t <;> first | rfl | cases this

lemma ends_cons (h : test t = true) : Ends test (t :: us) := by
  rintro _ ⟨⟩
  exact h

lemma Ends.replicate_amp (h : Ends pipeEnds us) (n : ℕ) : Ends pipeEnds (List.replicate n .amp ++ us) := by
  cases n with
  | zero => exact h
  | succ n => exact ends_cons rfl

lemma Ends.not_sees (h : Ends test us) {toks : List Char}
    (htest : ∀ t, test t = true → t.lead.any toks.contains = false) : sees toks us = false := by
  cases us with
  | nil => rfl
  | cons t us => exact htest t (h t rfl)

/-- The parser returns `a` and leaves the tokens `us`. -/
abbrev Parses {α : Type} (m : Parser α) (s : List Char) (a : α) (us : List Tok) : Prop :=
  wp m (fun _ => False) (fun a' s' => a' = a ∧ tokens s' = us) s

lemma Parses.bind {α β : Type} {m : Parser α} {f : α → Parser β} {s : List Char} {a : α} {b : β} (h : Parses m s a us)
    (hf : ∀ s', tokens s' = us → Parses (f a) s' b vs) : Parses (m >>= f) s b vs := by
  rw [Parses, wp_bind]
  refine h.mono ?_
  rintro a' s' ⟨rfl, hs'⟩
  exact hf s' hs'

lemma parseredirs_complete {ts : List Tok} (h : Redirs ts rs) (hus : sees ['<', '>'] us = false) (fuel : ℕ)
    (s : List Char) (hs : tokens s = ts ++ us) (hf : (tokens s).length < fuel) :
    Parses (parseredirs fuel) s rs us := by
  induction h generalizing s fuel with
  | nil =>
    obtain ⟨fuel, rfl⟩ := Nat.exists_eq_succ_of_ne_zero (Nat.ne_zero_of_lt hf)
    rw [parseredirs]
    refine wp_peek (symbols_sub (by decide)) (fun hsee => ?_) fun _ s1 hs1 => ⟨rfl, hs1.trans hs⟩
    rw [hs, nil_append, hus] at hsee
    cases hsee
  | @cons m w ts rs _ ih =>
    obtain ⟨fuel, rfl⟩ := Nat.exists_eq_succ_of_ne_zero (Nat.ne_zero_of_lt hf)
    rw [parseredirs]
    refine wp_peek (symbols_sub (by decide)) (fun _ s1 hs1 => ?_) fun hsee => ?_
    · rw [hs] at hs1 hf
      refine wp_gettoken hs1 fun s2 hs2 => wp_gettoken hs2 fun s3 hs3 => ?_
      simp only [cons_append, length_cons] at hf
      refine Parses.bind (ih fuel s3 hs3 ?_) fun s4 hs4 => ⟨rfl, hs4⟩
      rw [hs3]
      simp only [cons_append, tail_cons]
      omega
    · rw [hs] at hsee
      cases m <;> cases hsee

lemma sees_redirs_args (h : Args vs ws rs) (hus : Ends execEnds us) : sees ['<', '>'] (vs ++ us) = false := by
  cases h with
  | nil => exact hus.not_sees (fun t ht => by cases t <;> first | rfl | cases ht)
  | cons => rfl

lemma parseargs_complete (h : Args vs ws rs) (hus : Ends execEnds us) (fuel argc : ℕ) (s : List Char)
    (hs : tokens s = vs ++ us) (hf : (tokens s).length < fuel) (hargc : argc + ws.length ≤ MAXARGS - 1) :
    Parses (parseargs fuel argc) s (ws, rs) us := by
  induction h generalizing s fuel argc with
  | nil =>
    obtain ⟨fuel, rfl⟩ := Nat.exists_eq_succ_of_ne_zero (Nat.ne_zero_of_lt hf)
    rw [parseargs]
    refine wp_peek (symbols_sub (by decide)) (fun _ s1 hs1 => ⟨rfl, hs1.trans hs⟩) fun hsee s1 hs1 => ?_
    rw [hs, nil_append] at hsee hs1
    -- only the end of the line is not seen
    cases us with
    | nil => exact wp_gettoken hs1 fun s2 hs2 => ⟨rfl, hs2⟩
    | cons t us =>
      have ht := hus t rfl
      cases t with
      | bar | rparen | semi | amp => cases hsee
      | _ => cases ht
  | @cons w us' rs vs ws rs' hrs hargs ih =>
    obtain ⟨fuel, rfl⟩ := Nat.exists_eq_succ_of_ne_zero (Nat.ne_zero_of_lt hf)
    rw [parseargs]
    refine wp_peek (symbols_sub (by decide)) (fun hsee => ?_) fun _ s1 hs1 => ?_
    · rw [hs] at hsee
      cases hsee
    · rw [hs] at hs1 hf
      simp only [length_cons, cons_append, length_append] at hf hargc
      refine wp_gettoken hs1 fun s2 hs2 => ?_
      have hlt : ¬ argc + 1 ≥ MAXARGS := by omega
      change wp (if argc + 1 ≥ MAXARGS then panic .tooManyArgs
        else do
          let rs ← parseredirs fuel
          let r ← parseargs fuel (argc + 1)
          pure (w :: r.1, rs ++ r.2)) _ _ s2
      rw [if_neg hlt]
      simp only [cons_append, tail_cons, append_assoc] at hs2
      have hlen : (tokens s2).length < fuel := by
        rw [hs2]
        simp only [length_append]
        omega
      refine Parses.bind (parseredirs_complete hrs (sees_redirs_args hargs hus) fuel s2 hs2 hlen) fun s3 hs3 => ?_
      have hlen3 : (tokens s3).length < fuel := by
        rw [hs3, length_append]
        omega
      exact Parses.bind (ih fuel (argc + 1) s3 hs3 hlen3 (by omega)) fun s4 hs4 => ⟨rfl, hs4⟩

lemma parsebacks_complete (hus : sees ['&'] us = false) (n fuel : ℕ) (cmd : Cmd) (s : List Char)
    (hs : tokens s = List.replicate n .amp ++ us) (hf : (tokens s).length < fuel) :
    Parses (parsebacks fuel cmd) s (Nat.iterate .back n cmd) us := by
  induction n generalizing s fuel cmd with
  | zero =>
    obtain ⟨fuel, rfl⟩ := Nat.exists_eq_succ_of_ne_zero (Nat.ne_zero_of_lt hf)
    rw [parsebacks]
    refine wp_peek (symbols_sub (by decide)) (fun hsee => ?_) fun _ s1 hs1 => ⟨rfl, hs1.trans hs⟩
    rw [hs] at hsee
    change sees ['&'] us = true at hsee
    rw [hus] at hsee
    cases hsee
  | succ n ih =>
    obtain ⟨fuel, rfl⟩ := Nat.exists_eq_succ_of_ne_zero (Nat.ne_zero_of_lt hf)
    rw [replicate_succ, cons_append] at hs
    rw [parsebacks]
    refine wp_peek (symbols_sub (by decide)) (fun _ s1 hs1 => ?_) fun hsee => ?_
    · rw [hs] at hs1 hf
      rw [length_cons] at hf
      refine wp_gettoken hs1 fun s2 hs2 => ih fuel (.back cmd) s2 hs2 ?_
      rw [hs2, tail_cons]
      omega
    · rw [hs] at hsee
      cases hsee

/-- **Completeness**: with enough fuel the parser returns the tree of a derivation, and stops before
what may follow. -/
lemma parse_complete (fuel : ℕ) :
    (∀ {ts c}, Line ts c → ∀ us s, Ends lineEnds us → tokens s = ts ++ us → 5 * (tokens s).length + 4 ≤ fuel →
        Parses (parseline fuel) s c us) ∧
      (∀ {ts c}, Pipe ts c → ∀ us s, Ends pipeEnds us → tokens s = ts ++ us → 5 * (tokens s).length + 3 ≤ fuel →
        Parses (parsepipe fuel) s c us) ∧
      ∀ {ts c}, Exec ts c → ∀ us s, Ends execEnds us → tokens s = ts ++ us → 5 * (tokens s).length + 2 ≤ fuel →
        Parses (parseexec fuel) s c us := by
  induction fuel using Nat.strong_induction_on with
  | _ fuel ih =>
    refine ⟨?_, ?_, ?_⟩
    · intro ts c h us s hus hs hf
      obtain ⟨fuel, rfl⟩ := Nat.exists_eq_succ_of_ne_zero (show fuel ≠ 0 by omega)
      obtain ⟨ihline, ihpipe, -⟩ := ih fuel (Nat.lt_succ_self _)
      rw [parseline]
      cases h with
      | @single ts c n hc =>
        rw [append_assoc] at hs
        have hlen := congrArg List.length hs
        rw [length_append] at hlen
        refine Parses.bind (ihpipe hc _ s (hus.line_pipe.replicate_amp n) hs (by omega)) fun s1 hs1 => ?_
        refine Parses.bind (parsebacks_complete (hus.not_sees (fun t ht => by cases t <;> first | rfl | cases ht)) n fuel c s1 hs1
          (by rw [hs1]; omega)) fun s2 hs2 => ?_
        refine wp_peek (symbols_sub (by decide)) (fun hsee => ?_) fun _ s3 hs3 => ⟨rfl, hs3.trans hs2⟩
        rw [hs2, hus.not_sees (fun t ht => by cases t <;> first | rfl | cases ht)] at hsee
        cases hsee
      | @list ts c us' d n hc hd =>
        have hs' : tokens s = ts ++ (List.replicate n .amp ++ .semi :: (us' ++ us)) := by
          rw [hs]
          simp
        have hlen := congrArg List.length hs'
        simp only [length_append, length_cons] at hlen
        refine Parses.bind (ihpipe hc _ s (Ends.replicate_amp (ends_cons rfl) n) hs' (by omega)) fun s1 hs1 => ?_
        refine Parses.bind (parsebacks_complete rfl n fuel c s1 hs1
          (by rw [hs1]; simp only [length_append, length_cons]; omega)) fun s2 hs2 => ?_
        refine wp_peek (symbols_sub (by decide)) (fun _ s3 hs3 => ?_) fun hsee => ?_
        · refine wp_gettoken (hs3.trans hs2) fun s4 hs4 => ?_
          refine Parses.bind (ihline hd us s4 hus hs4 ?_) fun s5 hs5 => ⟨rfl, hs5⟩
          rw [hs4]
          simp only [tail_cons, length_append]
          omega
        · rw [hs2] at hsee
          cases hsee
    · intro ts c h us s hus hs hf
      obtain ⟨fuel, rfl⟩ := Nat.exists_eq_succ_of_ne_zero (show fuel ≠ 0 by omega)
      obtain ⟨-, ihpipe, ihexec⟩ := ih fuel (Nat.lt_succ_self _)
      rw [parsepipe]
      cases h with
      | single hc =>
        refine Parses.bind (ihexec hc us s hus.pipe_exec hs (by omega)) fun s1 hs1 => ?_
        refine wp_peek (symbols_sub (by decide)) (fun hsee => ?_) fun _ s2 hs2 => ⟨rfl, hs2.trans hs1⟩
        rw [hs1, hus.not_sees (fun t ht => by cases t <;> first | rfl | cases ht)] at hsee
        cases hsee
      | @pipe ts c us' d hc hd =>
        rw [append_assoc, cons_append] at hs
        have hlen := congrArg List.length hs
        simp only [length_append, length_cons] at hlen
        refine Parses.bind (ihexec hc _ s (ends_cons rfl) hs (by omega)) fun s1 hs1 => ?_
        refine wp_peek (symbols_sub (by decide)) (fun _ s2 hs2 => ?_) fun hsee => ?_
        · refine wp_gettoken (hs2.trans hs1) fun s3 hs3 => ?_
          refine Parses.bind (ihpipe hd us s3 hus hs3 ?_) fun s4 hs4 => ⟨rfl, hs4⟩
          rw [hs3]
          simp only [tail_cons, length_append]
          omega
        · rw [hs1] at hsee
          cases hsee
    · intro ts c h us s hus hs hf
      obtain ⟨fuel, rfl⟩ := Nat.exists_eq_succ_of_ne_zero (show fuel ≠ 0 by omega)
      rw [parseexec]
      cases h with
      | @block ts c us' rs hc hrs =>
        refine wp_peek (symbols_sub (by decide)) (fun _ s1 hs1 => ?_) fun hsee => ?_
        · obtain ⟨fuel, rfl⟩ := Nat.exists_eq_succ_of_ne_zero (show fuel ≠ 0 by omega)
          obtain ⟨ihline, -, -⟩ := ih fuel (by omega)
          rw [parseblock]
          rw [hs1.symm] at hf
          rw [hs] at hs1
          rw [hs1] at hf
          simp only [cons_append, append_assoc, length_cons, length_append] at hf
          refine wp_peek (symbols_sub (by decide)) (fun _ s2 hs2 => ?_) fun hsee => ?_
          · refine wp_gettoken (hs2.trans hs1) fun s3 hs3 => ?_
            simp only [cons_append, tail_cons, append_assoc] at hs3
            refine Parses.bind (ihline hc (.rparen :: (us' ++ us)) s3 (ends_cons rfl) hs3 ?_) fun s4 hs4 => ?_
            · rw [hs3]
              simp only [length_append, length_cons]
              omega
            refine wp_peek (symbols_sub (by decide)) (fun _ s5 hs5 => ?_) fun hsee => ?_
            · refine wp_gettoken (hs5.trans hs4) fun s6 hs6 => ?_
              refine Parses.bind (parseredirs_complete hrs (hus.not_sees (fun t ht => by cases t <;> first | rfl | cases ht)) fuel s6 hs6 ?_)
                fun s7 hs7 => ⟨rfl, hs7⟩
              rw [hs6]
              simp only [tail_cons, length_append]
              omega
            · rw [hs4] at hsee
              cases hsee
          · rw [hs1] at hsee
            cases hsee
        · rw [hs] at hsee
          cases hsee
      | @simple us' rs vs ws rs' hrs hargs hle =>
        rw [append_assoc] at hs
        refine wp_peek (symbols_sub (by decide)) (fun hsee => ?_) fun _ s1 hs1 => ?_
        · -- no bracket stands at the start
          rw [hs] at hsee
          cases hrs with
          | cons =>
            rename_i m _ _ _ _
            cases m <;> cases hsee
          | nil =>
            cases hargs with
            | cons => cases hsee
            | nil =>
              rw [nil_append, nil_append, hus.not_sees (fun t ht => by cases t <;> first | rfl | cases ht)] at hsee
              cases hsee
        · have hlen : (tokens s1).length < fuel := by
            rw [hs1]
            omega
          refine Parses.bind (parseredirs_complete hrs (sees_redirs_args hargs hus) fuel s1 (hs1.trans hs) hlen)
            fun s2 hs2 => ?_
          rw [hs1, hs, length_append] at hlen
          refine Parses.bind (parseargs_complete hargs hus fuel 0 s2 hs2 (by rw [hs2]; omega) (by rwa [Nat.zero_add]))
            fun s3 hs3 => ⟨rfl, hs3⟩

/-! ### Trees -/

/-- A tree that the parser can return: its words are words and no command has too many. -/
def Cmd.Ok : Cmd → Prop
  | .exec argv => argv.length ≤ MAXARGS - 1 ∧ ∀ w ∈ argv, WordOk w
  | .redir c r => c.Ok ∧ WordOk r.file
  | .pipe l r | .list l r => l.Ok ∧ r.Ok
  | .back c => c.Ok

section

variable {ts : List Tok} {c : Cmd}

lemma Redirs.ok (h : Redirs ts rs) (hw : ∀ w, .word w ∈ ts → WordOk w) : ∀ r ∈ rs, WordOk r.file := by
  induction h with
  | nil => exact fun r hr => nomatch hr
  | cons _ ih =>
    intro r hr
    rcases mem_cons.mp hr with rfl | hr
    · exact hw _ (by simp)
    · exact ih (fun w hw' => hw w (by simp [hw'])) r hr

lemma Args.ok (h : Args ts ws rs) (hw : ∀ w, .word w ∈ ts → WordOk w) :
    (∀ w ∈ ws, WordOk w) ∧ ∀ r ∈ rs, WordOk r.file := by
  induction h with
  | nil => exact ⟨fun w hw => (nomatch hw), fun r hr => (nomatch hr)⟩
  | @cons w us rs vs ws rs' hrs _ ih =>
    obtain ⟨ih1, ih2⟩ := ih fun w hw' => hw w (by simp [hw'])
    have hrs := hrs.ok fun w hw' => hw w (by simp [hw'])
    refine ⟨fun x hx => ?_, fun r hr => ?_⟩
    · rcases mem_cons.mp hx with rfl | hx
      · exact hw _ (by simp)
      · exact ih1 x hx
    · exact (mem_append.mp hr).elim (hrs r) (ih2 r)

lemma foldl_redir_ok (hc : c.Ok) (hrs : ∀ r ∈ rs, WordOk r.file) : (rs.foldl Cmd.redir c).Ok := by
  induction rs generalizing c with
  | nil => exact hc
  | cons r rs ih => exact ih ⟨hc, hrs r mem_cons_self⟩ fun x hx => hrs x (mem_cons_of_mem _ hx)

lemma iterate_back_ok (hc : c.Ok) (n : ℕ) : (Nat.iterate Cmd.back n c).Ok := by
  induction n generalizing c with
  | zero => exact hc
  | succ n ih => exact ih (c := .back c) hc

end

mutual

lemma Line.ok {ts : List Tok} {c : Cmd} : Line ts c → (∀ w, .word w ∈ ts → WordOk w) → c.Ok
  | .single n hc, hw => iterate_back_ok (Pipe.ok hc fun w hw' => hw w (mem_append_left _ hw')) n
  | .list n hc hd, hw =>
    ⟨iterate_back_ok (Pipe.ok hc fun w hw' => hw w (mem_append_left _ hw')) n,
      Line.ok hd fun w hw' => hw w (by simp [hw'])⟩

lemma Pipe.ok {ts : List Tok} {c : Cmd} : Pipe ts c → (∀ w, .word w ∈ ts → WordOk w) → c.Ok
  | .single hc, hw => Exec.ok hc hw
  | .pipe hc hd, hw =>
    ⟨Exec.ok hc fun w hw' => hw w (mem_append_left _ hw'), Pipe.ok hd fun w hw' => hw w (by simp [hw'])⟩

lemma Exec.ok {ts : List Tok} : Exec ts c → (∀ w, .word w ∈ ts → WordOk w) → c.Ok
  | .block hc hrs, hw =>
    foldl_redir_ok (Line.ok hc fun w hw' => hw w (by simp [hw'])) (hrs.ok fun w hw' => hw w (by simp [hw']))
  | .simple hrs hargs hle, hw =>
    have hargs := hargs.ok fun w hw' => hw w (mem_append_right _ hw')
    have hrs := hrs.ok fun w hw' => hw w (mem_append_left _ hw')
    foldl_redir_ok ⟨hle, hargs.1⟩ fun r hr => (mem_append.mp hr).elim (hrs r) (hargs.2 r)

end

variable {ts : List Tok} {c : Cmd} {s : List Char}

/-- A tree as the tokens of an `exec`. -/
def Cmd.toks : Cmd → List Tok
  | .exec argv => argv.map .word
  | .redir c r => c.toks ++ [.redir r.mode, .word r.file]
  | .pipe l r => .lparen :: (l.toks ++ .bar :: r.toks ++ [.rparen])
  | .list l r => .lparen :: (l.toks ++ .semi :: r.toks ++ [.rparen])
  | .back c => .lparen :: (c.toks ++ [.amp] ++ [.rparen])

/-- A tree as text. -/
def Cmd.print (c : Cmd) : List Char := render c.toks

lemma Redirs.snoc (h : Redirs ts rs) (r : Redir) : Redirs (ts ++ [.redir r.mode, .word r.file]) (rs ++ [r]) := by
  induction h with
  | nil => exact .cons .nil
  | cons _ ih => exact .cons ih

lemma Exec.snoc (h : Exec ts c) (r : Redir) : Exec (ts ++ [.redir r.mode, .word r.file]) (.redir c r) := by
  cases h with
  | @block ts c us rs hc hrs =>
    have hblock := Exec.block hc (hrs.snoc r)
    rw [foldl_append] at hblock
    simpa using hblock
  | @simple us rs vs ws rs' hrs hargs hle =>
    -- the redirection belongs to the last word, or to the front when there is none
    have hlast : (ws = [] ∧ vs = [] ∧ rs' = []) ∨ Args (vs ++ [.redir r.mode, .word r.file]) ws (rs' ++ [r]) := by
      clear hle
      induction hargs with
      | nil => exact .inl ⟨rfl, rfl, rfl⟩
      | @cons w us1 rs1 vs ws rs' hrs1 hargs ih =>
        right
        rcases ih with ⟨rfl, rfl, rfl⟩ | ih
        · have := Args.cons (w := w) (hrs1.snoc r) .nil
          simpa using this
        · have := Args.cons (w := w) hrs1 ih
          simpa using this
    rcases hlast with ⟨rfl, rfl, rfl⟩ | hlast
    · have hsimple := Exec.simple (hrs.snoc r) .nil hle
      rw [append_nil, append_nil, foldl_append] at hsimple
      simpa using hsimple
    · have hsimple := Exec.simple hrs hlast hle
      rw [← append_assoc, ← append_assoc, foldl_append] at hsimple
      exact hsimple

lemma Pipe.line (h : Pipe ts c) : Line ts c := by
  have := Line.single 0 h
  rwa [replicate_zero, append_nil] at this

lemma exec_bracket (h : Line ts c) : Exec (.lparen :: (ts ++ [.rparen])) c := .block h .nil

lemma exec_words {argv : List (List Char)} (h : argv.length ≤ MAXARGS - 1) : Exec (argv.map .word) (.exec argv) := by
  have hargs : ∀ ws : List (List Char), Args (ws.map .word) ws [] := by
    intro ws
    induction ws with
    | nil => exact .nil
    | cons w ws ih => exact .cons .nil ih
  exact .simple .nil (hargs argv) h

lemma Cmd.derives (h : c.Ok) : Exec c.toks c := by
  induction c with
  | exec argv => exact exec_words h.1
  | redir c r ih => exact (ih h.1).snoc r
  | pipe l r ihl ihr => exact exec_bracket (Pipe.pipe (ihl h.1) (.single (ihr h.2))).line
  | list l r ihl ihr => exact exec_bracket (Line.list 0 (.single (ihl h.1)) (Pipe.single (ihr h.2)).line)
  | back c ih => exact exec_bracket (Line.single 1 (.single (ih h)))

lemma Cmd.words_ok (h : c.Ok) (hw : .word w ∈ c.toks) : WordOk w := by
  induction c with
  | exec argv =>
    obtain ⟨x, hx, heq⟩ := mem_map.mp hw
    cases heq
    exact h.2 w hx
  | redir c r ih =>
    rcases mem_append.mp hw with hw | hw
    · exact ih h.1 hw
    · have : w = r.file := by simpa using hw
      rw [this]
      exact h.2
  | pipe l r ihl ihr | list l r ihl ihr =>
    have : .word w ∈ l.toks ∨ .word w ∈ r.toks := by simpa [Cmd.toks] using hw
    exact this.elim (ihl h.1) (ihr h.2)
  | back c ih => exact ih h (by simpa [Cmd.toks] using hw)

/-! ### `parsecmd` -/

lemma skip_eq_nil (h : tokens s = []) : skip s = [] := by
  rcases tokens_token (s := skip s) fun c hc => skip_head hc with ⟨-, hs, -⟩ | ⟨t, rest, -, ht, -⟩
  · exact hs
  · rw [tokens_skip, h] at ht
    cases ht

/-- The end of `parsecmd`: nothing may be left. -/
def atEnd (cmd : Cmd) : Parser Cmd := do
  let _ ← peek []
  let rest ← Prog.read
  if rest ≠ [] then panic .syntactic else pure cmd

lemma parsecmd_def (s : List Char) :
    parsecmd s = ((parseline (5 * (cstr s).length + 5) >>= atEnd : Parser Cmd) (cstr s)).map Prod.fst := by
  rw [parsecmd]
  change _ = Except.map Prod.fst ((do
    let cmd ← parseline (5 * (cstr s).length + 5)
    let _ ← peek []
    let rest ← Prog.read
    if rest ≠ [] then panic .syntactic else pure cmd : Parser Cmd) (cstr s))
  split
  · rename_i heq
    rw [heq]
    rfl
  · rename_i heq
    rw [heq]
    rfl

lemma parsecmd_sound (s : List Char) :
    (∃ t, parsecmd s = .ok t ∧ Line (tokens (cstr s)) t) ∨ ∃ p, parsecmd s = .error (some p) ∧ p ≠ .parseblock := by
  have hlen := length_tokens (cstr s)
  have hwp : wp (parseline (5 * (cstr s).length + 5) >>= atEnd) Panics (fun t _ => Line (tokens (cstr s)) t) (cstr s) := by
    rw [wp_bind]
    refine ((parse_sound _).1 (cstr s) (by omega)).mono ?_
    rintro c s1 ⟨ts, hts, hc⟩
    simp only [atEnd, peek, wp_bind, wp_modify, wp_read, wp_pure]
    refine wp_ite.mpr ⟨fun _ => wp_panic (by decide), fun hnil => ?_⟩
    -- everything has been consumed
    have hs1 : tokens s1 = [] := by rw [← tokens_skip, not_not.mp hnil]; rfl
    rw [wp_pure, hts, hs1, append_nil]
    exact hc
  rw [parsecmd_def]
  cases hrun : (parseline (5 * (cstr s).length + 5) >>= atEnd : Parser Cmd) (cstr s) with
  | ok r => exact .inl ⟨r.1, rfl, hwp.of_ok hrun⟩
  | error e =>
    obtain ⟨p, rfl, hp⟩ := hwp.of_error hrun
    exact .inr ⟨p, rfl, hp⟩

lemma line_of_parsecmd (ht : parsecmd s = .ok t) : Line (tokens (cstr s)) t := by
  rcases parsecmd_sound s with ⟨t', ht', hline⟩ | ⟨p, hp, -⟩
  · rw [ht] at ht'
    cases ht'
    exact hline
  · rw [ht] at hp
    cases hp

lemma parsecmd_complete (h : Line (tokens (cstr s)) t) : parsecmd s = .ok t := by
  have hlen := length_tokens (cstr s)
  have hwp : wp (parseline (5 * (cstr s).length + 5) >>= atEnd) (fun _ => False) (fun t' _ => t' = t) (cstr s) := by
    rw [wp_bind]
    refine ((parse_complete _).1 h [] (cstr s) (fun _ hc => nomatch hc) (append_nil _).symm (by omega)).mono ?_
    rintro c s1 ⟨rfl, hs1⟩
    simp only [atEnd, peek, wp_bind, wp_modify, wp_read, wp_pure]
    rw [if_neg (not_not.mpr (skip_eq_nil hs1)), wp_pure]
  obtain ⟨a, s', hrun, rfl⟩ := hwp.returns
  rw [parsecmd_def, hrun]
  rfl

/-- **The parser accepts its grammar**, for every string: it returns the tree that the tokens of the
line derive, panics on a line that derives none, and reads back what it returned when that is
written. -/
theorem parsecmd_grammar (s : List Char) : (∀ t, parsecmd s = .ok t ↔ Line (tokens (cstr s)) t) ∧
      ((∀ t, ¬ Line (tokens (cstr s)) t) → ∃ p, parsecmd s = .error (some p) ∧ p ≠ .parseblock) ∧
      ∀ t, parsecmd s = .ok t → parsecmd t.print = .ok t := by
  refine ⟨fun t => ⟨line_of_parsecmd, parsecmd_complete⟩, fun hno => ?_, fun t ht => ?_⟩
  · rcases parsecmd_sound s with ⟨t, -, hline⟩ | hp
    · exact absurd hline (hno t)
    · exact hp
  · have hok : t.Ok := (line_of_parsecmd ht).ok fun w hw => wordOk_tokens hw
    refine parsecmd_complete ?_
    rw [Cmd.print, cstr_render fun w hw => Cmd.words_ok hok hw, tokens_render fun w hw => Cmd.words_ok hok hw]
    exact (Pipe.single (Cmd.derives hok)).line

example : parsecmd "a <b (".toList = .error (some .syntactic) := by decide +kernel

example : parsecmd "(a|b)>c & ;d".toList =
    .ok (.list (.back (.redir (.pipe (.exec [['a']]) (.exec [['b']])) ⟨.output, ['c']⟩)) (.exec [['d']])) := by
  decide +kernel

end Xv6.Shell
