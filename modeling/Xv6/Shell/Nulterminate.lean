import Xv6.Shell.Lex

/-!
# `sh.c`: `nulterminate`

The parser again, with the tokens as pointers into the line.  A pointer is its distance from the end `es` of the
line, so that the rest of the line at a pointer has the pointer as its length.
-/

namespace Xv6.Shell

open Lib List

/-- A token, from `q` to `eq`. -/
structure Span where
  q : ℕ
  eq : ℕ

/-- `struct cmd` with the pointers of its tokens. -/
inductive CmdAt where
  | exec (argv : List Span)
  | redir (cmd : CmdAt) (r : Mode × Span)
  | pipe (left right : CmdAt)
  | list (left right : CmdAt)
  | back (cmd : CmdAt)

/-- `gettoken` with `q` and `eq`. -/
def gettokenAt : Parser (Option (Tok × Span)) := do
  let s ← Prog.read
  let _ ← gettoken
  pure ((token (skip s)).map fun x => (x.1, ⟨(skip s).length, x.2.length⟩))

def parseredirsAt : ℕ → Parser (List (Mode × Span))
  | 0 => outOfFuel
  | fuel + 1 => do
    if ← peek ['<', '>'] then
      let tok ← gettokenAt
      match ← gettokenAt with
      | some (.word _, f) =>
        match tok with
        | some (.redir m, _) => do
          let rs ← parseredirsAt fuel
          pure ((m, f) :: rs)
        | _ => parseredirsAt fuel
      | _ => panic .missingFile
    else pure []

def parseargsAt : ℕ → ℕ → Parser (List Span × List (Mode × Span))
  | 0, _ => outOfFuel
  | fuel + 1, argc => do
    if ← peek ['|', ')', '&', ';'] then pure ([], [])
    else
      match ← gettokenAt with
      | none => pure ([], [])
      | some (.word _, a) =>
        if argc + 1 ≥ MAXARGS then panic .tooManyArgs
        else do
          let rs ← parseredirsAt fuel
          let r ← parseargsAt fuel (argc + 1)
          pure (a :: r.1, rs ++ r.2)
      | _ => panic .syntactic

def parsebacksAt : ℕ → CmdAt → Parser CmdAt
  | 0, _ => outOfFuel
  | fuel + 1, cmd => do
    if ← peek ['&'] then
      let _ ← gettokenAt
      parsebacksAt fuel (.back cmd)
    else pure cmd

mutual

def parselineAt : ℕ → Parser CmdAt
  | 0 => outOfFuel
  | fuel + 1 => do
    let cmd ← parsepipeAt fuel
    let cmd ← parsebacksAt fuel cmd
    if ← peek [';'] then
      let _ ← gettokenAt
      let right ← parselineAt fuel
      pure (.list cmd right)
    else pure cmd

def parsepipeAt : ℕ → Parser CmdAt
  | 0 => outOfFuel
  | fuel + 1 => do
    let cmd ← parseexecAt fuel
    if ← peek ['|'] then
      let _ ← gettokenAt
      let right ← parsepipeAt fuel
      pure (.pipe cmd right)
    else pure cmd

def parseexecAt : ℕ → Parser CmdAt
  | 0 => outOfFuel
  | fuel + 1 => do
    if ← peek ['('] then parseblockAt fuel
    else
      let rs ← parseredirsAt fuel
      let r ← parseargsAt fuel 0
      pure ((rs ++ r.2).foldl .redir (.exec r.1))

def parseblockAt : ℕ → Parser CmdAt
  | 0 => outOfFuel
  | fuel + 1 => do
    if ← peek ['('] then
      let _ ← gettokenAt
      let cmd ← parselineAt fuel
      if ← peek [')'] then
        let _ ← gettokenAt
        let rs ← parseredirsAt fuel
        pure (rs.foldl .redir cmd)
      else panic .missingParen
    else panic .parseblock

end

/-- `parsecmd`, before `nulterminate`. -/
def parseallAt (fuel : ℕ) : Parser CmdAt := do
  let cmd ← parselineAt fuel
  let _ ← peek []
  let rest ← Prog.read
  if rest ≠ [] then panic .syntactic else pure cmd

def parsecmdAt (str : List Char) : Except (Option Panic) CmdAt :=
  (parseallAt (5 * str.length + 5) str).map Prod.fst

/-- `nulterminate`, where `es` is `buf + n`. -/
def CmdAt.nulterminate (n : ℕ) : CmdAt → List Char → List Char
  | .exec argv, buf => argv.foldl (fun buf a => buf.set (n - a.eq) '\x00') buf
  | .redir cmd r, buf => (cmd.nulterminate n buf).set (n - r.2.eq) '\x00'
  | .pipe left right, buf | .list left right, buf => right.nulterminate n (left.nulterminate n buf)
  | .back cmd, buf => cmd.nulterminate n buf

/-- The tokens of all nodes of the tree. -/
def CmdAt.spans : CmdAt → List Span
  | .exec argv => argv
  | .redir cmd r => cmd.spans ++ [r.2]
  | .pipe left right | .list left right => left.spans ++ right.spans
  | .back cmd => cmd.spans

/-- A word of the line that nothing can be added to. -/
def IsToken (str : List Char) (a : Span) : Prop :=
  ∃ w rest, w ++ rest <:+ str ∧ (∀ c ∈ w, isWord c = true) ∧ (∀ c ∈ rest.head?, isWord c = false) ∧
    a = ⟨(w ++ rest).length, rest.length⟩

def CmdAt.Sound (str : List Char) (c : CmdAt) : Prop := ∀ a ∈ c.spans, IsToken str a

variable {α β : Type} {str : List Char} {Q : α → Prop} {R : β → Prop} {f : Parser α} {g : α → Parser β}

/-- `f` goes on in the line, and what it returns satisfies `Q`. -/
def Keeps (str : List Char) (f : Parser α) (Q : α → Prop) : Prop :=
  ∀ s, s <:+ str → wp f (fun _ => True) (fun a s' => s' <:+ str ∧ Q a) s

lemma Keeps.pure (h : Q a) : Keeps str (pure a) Q := fun _ hs => ⟨hs, h⟩

lemma Keeps.stop (e : Option Panic) : Keeps str (Prog.stop e) Q := fun _ _ => trivial

lemma Keeps.bind (hf : Keeps str f Q) (hg : ∀ a, Q a → Keeps str (g a) R) : Keeps str (f >>= g) R :=
  fun s hs => wp_bind.mpr ((hf s hs).mono fun a s' h => hg a h.2 s' h.1)

lemma skip_suffix (s : List Char) : skip s <:+ s := dropWhile_suffix _

lemma keeps_peek (toks : List Char) : Keeps str (peek toks) fun _ => True :=
  fun s hs => ⟨(skip_suffix s).trans hs, trivial⟩

lemma token_suffix {s rest : List Char} (h : token s = some (t, rest)) : rest <:+ s ∧
    ∀ w, t = .word w → s = w ++ rest ∧ (∀ c ∈ w, isWord c = true) ∧ ∀ c ∈ rest.head?, isWord c = false := by
  cases s with
  | nil => cases h
  | cons c s =>
    rw [token] at h
    split at h
    · rename_i t' ht
      cases h
      refine ⟨suffix_cons _ _, ?_⟩
      rintro w rfl
      unfold symbol at ht
      split_ifs at ht <;> cases ht
    · split at h
      · split at h <;> cases h
        · exact ⟨(tail_suffix s).trans (suffix_cons _ _), by rintro _ ⟨⟩⟩
        · exact ⟨suffix_cons _ _, by rintro _ ⟨⟩⟩
      · cases h
        refine ⟨dropWhile_suffix _, ?_⟩
        rintro w h
        cases h
        refine ⟨takeWhile_append_dropWhile.symm, fun c hc => mem_takeWhile_imp hc, fun x hx => ?_⟩
        have := head?_dropWhile_not isWord (c :: s)
        rw [Option.mem_def.mp hx] at this
        simpa using this

lemma keeps_gettokenAt : Keeps str gettokenAt fun r => ∀ w a, r = some (.word w, a) → IsToken str a := by
  intro s hs
  have hskip := (skip_suffix s).trans hs
  simp only [gettokenAt, gettoken, wp_bind, wp_read]
  cases h : token (skip s) with
  | none => exact ⟨nil_suffix, by rintro _ _ ⟨⟩⟩
  | some x =>
    obtain ⟨t, rest⟩ := x
    obtain ⟨hrest, hword⟩ := token_suffix h
    refine ⟨(skip_suffix _).trans (hrest.trans hskip), fun w a ha => ?_⟩
    cases ha
    obtain ⟨heq, hw, hend⟩ := hword w rfl
    exact ⟨w, rest, heq ▸ hskip, hw, hend, by rw [heq]⟩

lemma keeps_redirs (fuel : ℕ) : Keeps str (parseredirsAt fuel) fun rs => ∀ r ∈ rs, IsToken str r.2 := by
  induction fuel with
  | zero => exact .stop _
  | succ fuel ih =>
    refine .bind (keeps_peek _) fun b _ => ?_
    cases b with
    | false => exact .pure nofun
    | true =>
      refine .bind keeps_gettokenAt fun tok _ => .bind keeps_gettokenAt fun r hr => ?_
      split
      · split
        · exact .bind ih fun rs hrs => .pure (forall_mem_cons.mpr ⟨hr _ _ rfl, hrs⟩)
        · exact ih
      · exact .stop _

lemma keeps_args (fuel argc : ℕ) : Keeps str (parseargsAt fuel argc) fun r =>
    (∀ a ∈ r.1, IsToken str a) ∧ ∀ x ∈ r.2, IsToken str x.2 := by
  induction fuel generalizing argc with
  | zero => exact .stop _
  | succ fuel ih =>
    refine .bind (keeps_peek _) fun b _ => ?_
    cases b with
    | true => exact .pure ⟨nofun, nofun⟩
    | false =>
      refine .bind keeps_gettokenAt fun r hr => ?_
      split
      · exact .pure ⟨nofun, nofun⟩
      · split
        · exact .stop _
        · refine .bind (keeps_redirs fuel) fun rs hrs => .bind (ih _) fun r' hr' => .pure ⟨?_, ?_⟩
          · exact forall_mem_cons.mpr ⟨hr _ _ rfl, hr'.1⟩
          · exact forall_mem_append.mpr ⟨hrs, hr'.2⟩
      · exact .stop _

lemma keeps_backs (fuel : ℕ) {cmd : CmdAt} (h : cmd.Sound str) :
    Keeps str (parsebacksAt fuel cmd) (CmdAt.Sound str) := by
  induction fuel generalizing cmd with
  | zero => exact .stop _
  | succ fuel ih =>
    refine .bind (keeps_peek _) fun b _ => ?_
    cases b with
    | true => exact .bind keeps_gettokenAt fun _ _ => ih h
    | false => exact .pure h

lemma sound_foldl {cmd : CmdAt} {rs : List (Mode × Span)} (h : ∀ a ∈ cmd.spans, IsToken str a)
    (hrs : ∀ r ∈ rs, IsToken str r.2) : (rs.foldl CmdAt.redir cmd).Sound str := by
  induction rs generalizing cmd with
  | nil => exact h
  | cons r rs ih =>
    obtain ⟨hr, hrs⟩ := forall_mem_cons.mp hrs
    exact ih (forall_mem_append.mpr ⟨h, forall_mem_singleton.mpr hr⟩) hrs

/-- **The tokens that the parser stores are words**, and nothing can be added to them. -/
lemma keeps_parse (fuel : ℕ) : ∀ f ∈ [parselineAt fuel, parsepipeAt fuel, parseexecAt fuel, parseblockAt fuel],
    Keeps str f (CmdAt.Sound str) := by
  induction fuel with
  | zero => simp only [forall_mem_cons]; exact ⟨.stop _, .stop _, .stop _, .stop _, nofun⟩
  | succ fuel ih =>
    simp only [forall_mem_cons] at ih ⊢
    obtain ⟨hline, hpipe, hexec, hblock, -⟩ := ih
    refine ⟨?_, ?_, ?_, ?_, nofun⟩
    · refine .bind hpipe fun c hc => .bind (keeps_backs fuel hc) fun c hc => .bind (keeps_peek _) fun b _ => ?_
      cases b with
      | true => exact .bind keeps_gettokenAt fun _ _ => .bind hline fun r hr => .pure (forall_mem_append.mpr ⟨hc, hr⟩)
      | false => exact .pure hc
    · refine .bind hexec fun c hc => .bind (keeps_peek _) fun b _ => ?_
      cases b with
      | true => exact .bind keeps_gettokenAt fun _ _ => .bind hpipe fun r hr => .pure (forall_mem_append.mpr ⟨hc, hr⟩)
      | false => exact .pure hc
    · refine .bind (keeps_peek _) fun b _ => ?_
      cases b with
      | true => exact hblock
      | false =>
        refine .bind (keeps_redirs fuel) fun rs hrs => .bind (keeps_args fuel 0) fun r hr => .pure ?_
        exact sound_foldl hr.1 (forall_mem_append.mpr ⟨hrs, hr.2⟩)
    · refine .bind (keeps_peek _) fun b _ => ?_
      cases b with
      | false => exact .stop _
      | true =>
        refine .bind keeps_gettokenAt fun _ _ => .bind hline fun c hc => .bind (keeps_peek _) fun b _ => ?_
        cases b with
        | false => exact .stop _
        | true =>
          refine .bind keeps_gettokenAt fun _ _ => .bind (keeps_redirs fuel) fun rs hrs => .pure ?_
          exact sound_foldl hc hrs

lemma sound_of_parsecmd (h : parsecmdAt str = .ok c) : c.Sound str := by
  have hkeeps : ∀ fuel, Keeps str (parseallAt fuel) (CmdAt.Sound str) := by
    intro fuel
    refine .bind (keeps_parse fuel _ mem_cons_self) fun c hc => .bind (keeps_peek _) fun _ _ =>
      .bind (show Keeps _ Prog.read fun _ => True from fun s hs => ⟨hs, trivial⟩) fun rest _ => ?_
    split
    · exact .stop _
    · exact .pure hc
  have hwp := hkeeps (5 * str.length + 5) _ suffix_rfl
  unfold parsecmdAt at h
  unfold wp at hwp
  cases hrun : parseallAt (5 * str.length + 5) str with
  | error e =>
    rw [hrun] at h
    cases h
  | ok x =>
    rw [hrun] at h hwp
    cases h
    exact hwp.2

lemma nulterminate_eq (n : ℕ) (c : CmdAt) (buf : List Char) :
    c.nulterminate n buf = c.spans.foldl (fun buf a => buf.set (n - a.eq) '\x00') buf := by
  induction c generalizing buf with
  | exec argv => rfl
  | redir cmd r ih => rw [CmdAt.nulterminate, CmdAt.spans, foldl_append, ih]; rfl
  | pipe l r hl hr | list l r hl hr => rw [CmdAt.nulterminate, CmdAt.spans, foldl_append, hl, hr]
  | back cmd ih => exact ih buf

lemma getElem?_foldl_set {n i : ℕ} {l : List Span} {buf : List Char} (hi : i < buf.length) :
    (l.foldl (fun buf a => buf.set (n - a.eq) '\x00') buf)[i]? =
      if ∃ a ∈ l, n - a.eq = i then some '\x00' else buf[i]? := by
  induction l generalizing buf with
  | nil => simp
  | cons a l ih =>
    rw [foldl_cons, ih (by rwa [length_set])]
    by_cases ha : n - a.eq = i
    · simp [ha, hi]
    · simp [ha]

lemma cstr_eq (hw : '\x00' ∉ w) (h : ∀ k, k < w.length → l[k]? = w[k]?) (hend : l[w.length]? = some '\x00') :
    cstr l = w := by
  induction w generalizing l with
  | nil =>
    cases l with
    | nil => rfl
    | cons c l =>
      cases hend
      rfl
  | cons c w ih =>
    cases l with
    | nil => cases hend
    | cons d l =>
      obtain rfl : d = c := Option.some.inj (h 0 (Nat.zero_lt_succ _))
      obtain ⟨hc, hw⟩ := not_or.mp (mem_cons.not.mp hw)
      rw [cstr, takeWhile_cons_of_pos (by simpa using Ne.symm hc)]
      exact congrArg _ (ih hw (fun k hk => h (k + 1) (Nat.succ_lt_succ hk)) hend)

/-- **`nulterminate` damages no token.**  After it each token of each node, read as a string, is the text that the
parser saw between `q` and `eq`; `str` is the string in the buffer. -/
theorem nulterminate_exact (hzero : '\x00' ∉ str) (junk : List Char) {c : CmdAt} (h : parsecmdAt str = .ok c) :
    ∀ a ∈ c.spans, cstr ((c.nulterminate str.length (str ++ '\x00' :: junk)).drop (str.length - a.q)) =
      (str.drop (str.length - a.q)).take (a.q - a.eq) := by
  have hmax := sound_of_parsecmd h
  intro a ha
  obtain ⟨w, rest, ⟨front, hline⟩, hw, -, rfl⟩ := hmax a ha
  have hlen : str.length = front.length + (w.length + rest.length) := by rw [← hline, length_append, length_append]
  have hq : str.length - (w ++ rest).length = front.length := by
    rw [length_append]
    omega
  have hchar : ∀ k, k < w.length → str[front.length + k]? = w[k]? := by
    intro k hk
    rw [← hline, getElem?_append_right (Nat.le_add_right _ _), Nat.add_sub_cancel_left, getElem?_append_left hk]
  have htext : (str.drop front.length).take w.length = w := by rw [← hline, drop_left, take_left]
  simp only [hq]
  rw [show (w ++ rest).length - rest.length = w.length by simp, htext, nulterminate_eq]
  refine cstr_eq (fun hc => hzero (hline ▸ mem_append_right _ (mem_append_left _ hc))) (fun k hk => ?_) ?_
  · rw [getElem?_drop, getElem?_foldl_set (by rw [length_append]; omega), if_neg, getElem?_append_left (by omega),
      hchar k hk]
    -- where a token ends there is no character of a word
    rintro ⟨b, hb, hpos⟩
    obtain ⟨w', rest', ⟨front', hline'⟩, -, hend, rfl⟩ := hmax b hb
    have hlen' : str.length = (front' ++ w').length + rest'.length := by rw [← hline', ← append_assoc, length_append]
    have hhead : rest'.head? = w[k]? := by
      rw [← hchar k hk, show front.length + k = (front' ++ w').length by simp only at hpos; omega, ← hline', ← append_assoc,
        getElem?_append_right le_rfl, Nat.sub_self, head?_eq_getElem?]
    rw [getElem?_eq_getElem hk] at hhead
    have := hend _ hhead
    rw [hw _ (getElem_mem hk)] at this
    cases this
  · rw [getElem?_drop, getElem?_foldl_set (by rw [length_append, length_cons]; omega), if_pos ⟨_, ha, by simp only; omega⟩]

/-- `a|b>c` has three tokens, of which each ends where an operator or the line does. -/
theorem nulterminate_exact_pipe : ∃ c, parsecmdAt "a|b>c".toList = .ok c ∧ ∀ a ∈ c.spans,
    cstr ((c.nulterminate 5 "a|b>c\x00".toList).drop (5 - a.q)) = ("a|b>c".toList.drop (5 - a.q)).take (a.q - a.eq) := by
  have hrun : parsecmdAt "a|b>c".toList = .ok (.pipe (.exec [⟨5, 4⟩]) (.redir (.exec [⟨3, 2⟩]) (.output, ⟨1, 0⟩))) := by
    rfl
  exact ⟨_, hrun, nulterminate_exact (by decide) [] hrun⟩

end Xv6.Shell
