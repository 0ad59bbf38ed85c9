import Xv6.Shell.Parse

/-!
# The tokens of a line

`tokens` cuts a line into its tokens, character by character.  `gettoken` returns the first of them and
`peek` looks at it; `render` writes tokens.
-/

namespace Xv6.Shell

open Lib List

/-- What has been read of the next token: the start of a word, or a `>`. -/
inductive Pending where
  | word (cur : List Char)
  | gt
  deriving DecidableEq

def flush : Pending → List Tok
  | .word cur => if cur = [] then [] else [.word cur]
  | .gt => [.redir .output]

/-- One more character of a word. -/
def Pending.add : Pending → Char → List Tok × Pending
  | .word cur, c => ([], .word (cur ++ [c]))
  | .gt, c => ([.redir .output], .word [c])

def lex : Pending → List Char → List Tok
  | p, [] => flush p
  | p, c :: s =>
    if p = .gt ∧ c = '>' then .redir .append :: lex (.word []) s
    else if whitespace.contains c then flush p ++ lex (.word []) s
    else if c = '>' then flush p ++ lex .gt s
    else
      match symbol c with
      | some t => flush p ++ t :: lex (.word []) s
      | none => (p.add c).1 ++ lex (p.add c).2 s

def tokens (s : List Char) : List Tok := lex (.word []) s

/-- The character that `peek` sees of a token, unless it is a word. -/
def Tok.lead : Tok → Option Char
  | .bar => some '|'
  | .lparen => some '('
  | .rparen => some ')'
  | .semi => some ';'
  | .amp => some '&'
  | .redir .input => some '<'
  | .redir _ => some '>'
  | .word _ => none

lemma isWord_iff : isWord c = true ↔ whitespace.contains c = false ∧ symbol c = none ∧ c ≠ '>' := by
  unfold isWord symbol symbols
  rw [Bool.and_eq_true, Bool.not_eq_true', Bool.not_eq_true']
  refine and_congr_right fun _ => ?_
  simp only [contains_eq_mem, mem_cons, not_mem_nil, or_false, decide_eq_false_iff_not, not_or]
  constructor
  · rintro ⟨h1, h2, h3, h4, h5, h6, h7⟩
    simp [*]
  · rintro ⟨h, h8⟩
    split_ifs at h
    simp [*]

/-! ### One step of the lexer -/

variable {t : Tok} {w s : List Char} {ts : List Tok}

section

variable {c : Char} {s : List Char} (p : Pending)

lemma whitespace_ne_gt (h : whitespace.contains c = true) : c ≠ '>' := by
  rintro rfl
  revert h
  decide

lemma symbol_ne_gt (h : symbol c = some t) : c ≠ '>' := by
  rintro rfl
  revert h
  exact fun h => nomatch h

lemma lex_space (h : whitespace.contains c = true) : lex p (c :: s) = flush p ++ tokens s := by
  rw [lex, if_neg fun hc => whitespace_ne_gt h hc.2, if_pos h]
  rfl

lemma lex_symbol (hw : whitespace.contains c = false) (h : symbol c = some t) :
    lex p (c :: s) = flush p ++ t :: tokens s := by
  rw [lex, if_neg fun hc => symbol_ne_gt h hc.2, if_neg (by rw [hw]; exact Bool.false_ne_true),
    if_neg (symbol_ne_gt h), h]
  rfl

lemma tokens_space (h : whitespace.contains c = true) : tokens (c :: s) = tokens s := lex_space (.word []) h

lemma tokens_symbol (hw : whitespace.contains c = false) (h : symbol c = some t) :
    tokens (c :: s) = t :: tokens s := lex_symbol (.word []) hw h

lemma lex_char (h : isWord c = true) : lex p (c :: s) = (p.add c).1 ++ lex (p.add c).2 s := by
  obtain ⟨hw, hs, hg⟩ := isWord_iff.mp h
  rw [lex, if_neg fun hc => hg hc.2, if_neg (by rw [hw]; exact Bool.false_ne_true), if_neg hg, hs]

lemma lex_gt (cur : List Char) : lex (.word cur) ('>' :: s) = flush (.word cur) ++ lex .gt s := by
  rw [lex, if_neg (fun hc => nomatch hc.1), if_neg (show ¬ whitespace.contains '>' = true by decide), if_pos rfl]

lemma lex_append : lex .gt ('>' :: s) = .redir .append :: tokens s := by
  rw [lex, if_pos ⟨rfl, rfl⟩]
  rfl

lemma lex_output (h : s.head? ≠ some '>') : lex .gt s = .redir .output :: tokens s := by
  cases s with
  | nil => rfl
  | cons c s =>
    have hg : c ≠ '>' := fun hc => h (by rw [hc]; rfl)
    by_cases hw : whitespace.contains c = true
    · rw [lex_space _ hw, tokens_space hw]
      rfl
    rw [Bool.not_eq_true] at hw
    cases hs : symbol c with
    | some t =>
      rw [lex_symbol _ hw hs, tokens_symbol hw hs]
      rfl
    | none =>
      have hc := isWord_iff.mpr ⟨hw, hs, hg⟩
      rw [lex_char _ hc, tokens, lex_char _ hc]
      rfl

lemma lex_flush (cur : List Char) (h : ∀ c ∈ s.head?, isWord c = false) :
    lex (.word cur) s = flush (.word cur) ++ tokens s := by
  cases s with
  | nil => exact (append_nil _).symm
  | cons c s =>
    have hc := h c rfl
    by_cases hw : whitespace.contains c = true
    · rw [lex_space _ hw, tokens_space hw]
    rw [Bool.not_eq_true] at hw
    cases hs : symbol c with
    | some t => rw [lex_symbol _ hw hs, tokens_symbol hw hs]
    | none =>
      obtain rfl : c = '>' := by
        by_contra hg
        rw [isWord_iff.mpr ⟨hw, hs, hg⟩] at hc
        cases hc
      rw [lex_gt, tokens, lex_gt]
      rfl

lemma lex_word (cur : List Char) (hw : ∀ c ∈ w, isWord c = true) (h : ∀ c ∈ s.head?, isWord c = false) :
    lex (.word cur) (w ++ s) = flush (.word (cur ++ w)) ++ tokens s := by
  induction w generalizing cur with
  | nil => rw [append_nil, nil_append, lex_flush cur h]
  | cons c w ih =>
    have hrest := ih (cur ++ [c]) fun x hx => hw x (mem_cons_of_mem _ hx)
    rw [append_assoc, singleton_append] at hrest
    rw [cons_append, lex_char _ (hw c mem_cons_self)]
    exact hrest

end

lemma tokens_skip (s : List Char) : tokens (skip s) = tokens s := by
  induction s with
  | nil => rfl
  | cons c s ih =>
    by_cases hw : whitespace.contains c = true
    · rw [skip, dropWhile_cons_of_pos hw]
      rw [skip] at ih
      rw [ih, tokens_space hw]
    · rw [skip, dropWhile_cons_of_neg hw]

lemma skip_head (h : c ∈ (skip s).head?) : whitespace.contains c = false := by
  have := head?_dropWhile_not whitespace.contains s
  unfold skip at h
  rw [Option.mem_def.mp h] at this
  simpa using this

lemma tokens_token (h : ∀ c ∈ s.head?, whitespace.contains c = false) : (token s = none ∧ s = [] ∧ tokens s = []) ∨
      ∃ t rest, token s = some (t, rest) ∧ tokens s = t :: tokens rest ∧
        ∀ toks : List Char, (∀ c ∈ toks, c ∈ symbols) → s.head?.any toks.contains = t.lead.any toks.contains := by
  cases s with
  | nil => exact Or.inl ⟨rfl, rfl, rfl⟩
  | cons c s =>
    right
    have hw := h c rfl
    rw [token]
    cases hs : symbol c with
    | some t =>
      refine ⟨t, s, rfl, lex_symbol _ hw hs, fun toks _ => ?_⟩
      have hlead : t.lead = some c := by
        unfold symbol at hs
        split_ifs at hs <;> subst_vars <;> cases hs <;> rfl
      rw [hlead]
      rfl
    | none =>
      by_cases hg : c = '>'
      · subst hg
        simp only [if_true]
        by_cases hh : s.head? = some '>'
        · rw [if_pos hh]
          cases s with
          | nil => cases hh
          | cons x s =>
            cases hh
            exact ⟨_, _, rfl, (lex_gt []).trans lex_append, fun _ _ => rfl⟩
        · rw [if_neg hh]
          exact ⟨_, _, rfl, (lex_gt []).trans (lex_output hh), fun _ _ => rfl⟩
      · simp only [if_neg hg]
        have hc : isWord c = true := isWord_iff.mpr ⟨hw, hs, hg⟩
        refine ⟨_, _, rfl, ?_, fun toks htoks => ?_⟩
        · have hword := lex_word [] (w := (c :: s).takeWhile isWord) (s := (c :: s).dropWhile isWord)
            (fun x hx => mem_takeWhile_imp hx) ?_
          · rw [takeWhile_append_dropWhile, nil_append, flush, if_neg] at hword
            · exact hword
            · rw [takeWhile_cons_of_pos hc]
              exact cons_ne_nil _ _
          · intro x hx
            have := head?_dropWhile_not isWord (c :: s)
            rw [Option.mem_def.mp hx] at this
            simpa using this
        · -- no symbol is the first character of a word
          change toks.contains c = false
          rw [contains_eq_mem, decide_eq_false_iff_not]
          intro hmem
          have hsym := htoks c hmem
          have hnot := hc
          simp only [isWord, Bool.and_eq_true, Bool.not_eq_true', contains_eq_mem, decide_eq_false_iff_not] at hnot
          exact hnot.2 hsym

/-! ### `gettoken` and `peek` -/

variable {ok : Option Panic → Prop}

lemma gettoken_spec (s : List Char) :
    wp gettoken ok (fun t s' => t = (tokens s).head? ∧ tokens s' = (tokens s).tail) s := by
  simp only [gettoken, wp_bind, wp_read]
  have hskip := tokens_skip s
  rcases tokens_token (s := skip s) fun c hc => skip_head hc with ⟨ht, -, hnil⟩ | ⟨t, rest, ht, htoks, -⟩
  · rw [ht]
    simp only [wp_bind, wp_modify, wp_pure]
    rw [← hskip, hnil]
    exact ⟨rfl, rfl⟩
  · rw [ht]
    simp only [wp_bind, wp_modify, wp_pure]
    rw [tokens_skip, ← hskip, htoks]
    exact ⟨rfl, rfl⟩

lemma peek_spec {toks : List Char} (htoks : ∀ c ∈ toks, c ∈ symbols) (s : List Char) :
    wp (peek toks) ok (fun b s' => b = (tokens s).head?.any (fun t => t.lead.any toks.contains) ∧
      tokens s' = tokens s) s := by
  simp only [peek, wp_bind, wp_modify, wp_read, wp_pure]
  have hskip := tokens_skip s
  refine ⟨?_, hskip⟩
  rcases tokens_token (s := skip s) fun c hc => skip_head hc with ⟨-, hs, hnil⟩ | ⟨t, rest, -, ht, hlead⟩
  · rw [← hskip, hnil, hs]
    rfl
  · rw [← hskip, ht, hlead toks htoks]
    rfl

/-! ### The length and the words of the tokens -/

/-- The characters in the pending token. -/
def Pending.length : Pending → ℕ
  | .word cur => cur.length
  | .gt => 1

lemma length_flush (p : Pending) : (flush p).length ≤ p.length := by
  cases p with
  | word cur =>
    by_cases hc : cur = []
    · simp [flush, hc]
    · rw [flush, if_neg hc]
      exact length_pos_of_ne_nil hc
  | gt => exact Nat.le_refl _

lemma length_lex (p : Pending) (s : List Char) : (lex p s).length ≤ p.length + s.length := by
  induction s generalizing p with
  | nil => exact length_flush p
  | cons c s ih =>
    have hf := length_flush p
    have h0 := ih (.word [])
    have h1 := ih .gt
    simp only [Pending.length, length_nil] at h0 h1
    rw [lex]
    split_ifs with hp hw hg
    · rw [hp.1]
      simp only [Pending.length, length_cons]
      omega
    · rw [length_append, length_cons]
      omega
    · rw [length_append, length_cons]
      omega
    · cases hs : symbol c with
      | some t =>
        simp only [length_append, length_cons]
        omega
      | none =>
        have h2 := ih (p.add c).2
        simp only [length_append, length_cons]
        cases p with
        | word cur =>
          simp only [Pending.add, Pending.length, length_append, length_nil, length_singleton] at h2 ⊢
          omega
        | gt =>
          simp only [Pending.add, Pending.length, length_singleton] at h2 ⊢
          omega

lemma length_tokens (s : List Char) : (tokens s).length ≤ s.length := by
  have := length_lex (.word []) s
  rwa [Pending.length, length_nil, Nat.zero_add] at this

/-- A word that a line may have. -/
def WordOk (w : List Char) : Prop := w ≠ [] ∧ ∀ c ∈ w, isWord c = true ∧ c ≠ '\x00'

lemma wordOk_of_lex (hs : '\x00' ∉ s) (hp : ∀ cur, p = .word cur → ∀ c ∈ cur, isWord c = true ∧ c ≠ '\x00')
    (h : .word w ∈ lex p s) : WordOk w := by
  have hflush : .word w ∈ flush p → WordOk w := by
    intro hw
    cases p with
    | word cur =>
      rw [flush] at hw
      split at hw
      · cases hw
      · rename_i hne
        cases mem_singleton.mp hw
        exact ⟨hne, hp _ rfl⟩
    | gt => exact nomatch mem_singleton.mp hw
  have hnil : ∀ cur, Pending.word [] = .word cur → ∀ c ∈ cur, isWord c = true ∧ c ≠ '\x00' := by
    rintro _ ⟨⟩ c hc
    cases hc
  induction s generalizing p with
  | nil => exact hflush h
  | cons c s ih =>
    rw [mem_cons, not_or] at hs
    have hempty : Tok.word w ∈ flush (.word []) → WordOk w := by
      intro hf
      rw [flush, if_pos rfl] at hf
      cases hf
    have hgt : Tok.word w ∈ flush .gt → WordOk w := fun hf => nomatch mem_singleton.mp hf
    rw [lex] at h
    split_ifs at h with hpg hw hg
    · rcases mem_cons.mp h with h | h
      · cases h
      · exact ih hs.2 hnil h hempty
    · rcases mem_append.mp h with h | h
      · exact hflush h
      · exact ih hs.2 hnil h hempty
    · rcases mem_append.mp h with h | h
      · exact hflush h
      · exact ih (p := .gt) hs.2 (fun _ hc => nomatch hc) h hgt
    · cases hsym : symbol c with
      | some t =>
        rw [hsym] at h
        rcases mem_append.mp h with h | h
        · exact hflush h
        · rcases mem_cons.mp h with h | h
          · rw [← h] at hsym
            unfold symbol at hsym
            split_ifs at hsym <;> cases hsym
          · exact ih hs.2 hnil h hempty
      | none =>
        rw [hsym] at h
        have hc : isWord c = true ∧ c ≠ '\x00' :=
          ⟨isWord_iff.mpr ⟨by simpa using hw, hsym, hg⟩, fun hc => hs.1 hc.symm⟩
        -- the word grows by `c`
        cases p with
        | word cur =>
          have hadd : ∀ x ∈ cur ++ [c], isWord x = true ∧ x ≠ '\x00' := by
            intro x hx
            rcases mem_append.mp hx with hx | hx
            · exact hp cur rfl x hx
            · rw [mem_singleton.mp hx]
              exact hc
          refine ih hs.2 ?_ h ?_
          · rintro _ ⟨⟩
            exact hadd
          · intro hf
            change Tok.word w ∈ (if cur ++ [c] = [] then [] else [Tok.word (cur ++ [c])]) at hf
            rw [if_neg (by simp)] at hf
            cases mem_singleton.mp hf
            exact ⟨by simp, hadd⟩
        | gt =>
          rcases mem_cons.mp h with h | h
          · cases h
          · refine ih hs.2 ?_ h ?_
            · rintro _ ⟨⟩ x hx
              rw [mem_singleton.mp hx]
              exact hc
            · intro hf
              cases mem_singleton.mp hf
              exact ⟨by simp, fun x hx => by rw [mem_singleton.mp hx]; exact hc⟩

/-! ### Writing tokens -/

def Tok.text : Tok → List Char
  | .bar => ['|']
  | .lparen => ['(']
  | .rparen => [')']
  | .semi => [';']
  | .amp => ['&']
  | .redir .input => ['<']
  | .redir .output => ['>']
  | .redir .append => ['>', '>']
  | .word w => w

def render (ts : List Tok) : List Char := ts.flatMap fun t => t.text ++ [' ']

lemma tokens_text (ht : ∀ w, t = .word w → WordOk w) (s : List Char) :
    tokens (t.text ++ ' ' :: s) = t :: tokens s := by
  have hspace : ∀ s, tokens (' ' :: s) = tokens s := fun s => tokens_space (by decide)
  have hsym : ∀ {c u}, whitespace.contains c = false → symbol c = some u →
      tokens (c :: ' ' :: s) = u :: tokens s := by
    intro c u hw hs
    rw [tokens_symbol hw hs, hspace]
  have hend : ∀ c ∈ (' ' :: s).head?, isWord c = false := by
    rintro _ ⟨⟩
    decide
  cases t with
  | bar | lparen | rparen | semi | amp => exact hsym (by decide) rfl
  | redir m =>
    cases m with
    | input => exact hsym (by decide) rfl
    | output =>
      have hout : tokens ('>' :: ' ' :: s) = .redir .output :: tokens (' ' :: s) :=
        (lex_gt []).trans (lex_output (by simp))
      rw [hspace] at hout
      exact hout
    | append =>
      have happ : tokens ('>' :: '>' :: ' ' :: s) = .redir .append :: tokens (' ' :: s) := (lex_gt []).trans lex_append
      rw [hspace] at happ
      exact happ
  | word w =>
    obtain ⟨hne, hw⟩ := ht w rfl
    have hword : tokens (w ++ ' ' :: s) = flush (.word ([] ++ w)) ++ tokens (' ' :: s) :=
      lex_word [] (fun c hc => (hw c hc).1) hend
    rw [nil_append, flush, if_neg hne, hspace] at hword
    exact hword

lemma tokens_render (h : ∀ w, .word w ∈ ts → WordOk w) : tokens (render ts) = ts := by
  induction ts with
  | nil => rfl
  | cons t ts ih =>
    have hcons : render (t :: ts) = t.text ++ ' ' :: render ts := by simp [render]
    rw [hcons, tokens_text fun w hw => h w (hw ▸ mem_cons_self), ih fun w hw => h w (mem_cons_of_mem _ hw)]

lemma cstr_render (h : ∀ w, .word w ∈ ts → WordOk w) : cstr (render ts) = render ts := by
  refine takeWhile_eq_self_iff.mpr fun c hc => ?_
  obtain ⟨t, ht, hc⟩ := mem_flatMap.mp hc
  rw [decide_eq_true_eq]
  rcases mem_append.mp hc with hc | hc
  · cases t with
    | word w => exact ((h w ht).2 c hc).2
    | redir m =>
      rintro rfl
      cases m <;> revert hc <;> decide
    | bar | lparen | rparen | semi | amp =>
      rintro rfl
      revert hc
      decide
  · rw [mem_singleton.mp hc]
    decide

lemma zero_notMem_cstr (s : List Char) : '\x00' ∉ cstr s := by
  intro hc
  have := mem_takeWhile_imp hc
  simp at this

lemma wordOk_tokens (h : .word w ∈ tokens (cstr s)) : WordOk w := by
  refine wordOk_of_lex (zero_notMem_cstr s) ?_ h
  rintro _ ⟨⟩ c hc
  cases hc

end Xv6.Shell
