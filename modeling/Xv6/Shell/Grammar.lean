import Xv6.Shell.Lex

/-!
# The grammar of the shell

`Line`, `Pipe` and `Exec` are the derivations of the grammar, with the tree that each one builds.
-/

namespace Xv6.Shell

open Lib List

/-! ### Derivations -/

/-- `redir -> ('<' | '>' | '>>') word`, any number of times. -/
inductive Redirs : List Tok → List Redir → Prop
  | nil : Redirs [] []
  | cons {m w ts rs} : Redirs ts rs → Redirs (.redir m :: .word w :: ts) (⟨m, w⟩ :: rs)

/-- `(word redir*)*`. -/
inductive Args : List Tok → List (List Char) → List Redir → Prop
  | nil : Args [] [] []
  | cons {w us rs vs ws rs'} : Redirs us rs → Args vs ws rs' → Args (.word w :: (us ++ vs)) (w :: ws) (rs ++ rs')

mutual

/-- `line -> pipe '&'* [';' line]`. -/
inductive Line : List Tok → Cmd → Prop
  | single {ts c} (n : ℕ) : Pipe ts c → Line (ts ++ List.replicate n .amp) (Nat.iterate .back n c)
  | list {ts c us d} (n : ℕ) : Pipe ts c → Line us d →
    Line (ts ++ (List.replicate n .amp ++ .semi :: us)) (.list (Nat.iterate .back n c) d)

/-- `pipe -> exec ['|' pipe]`. -/
inductive Pipe : List Tok → Cmd → Prop
  | single {ts c} : Exec ts c → Pipe ts c
  | pipe {ts c us d} : Exec ts c → Pipe us d → Pipe (ts ++ .bar :: us) (.pipe c d)

/-- `exec -> '(' line ')' redir* | redir* (word redir*)*`. -/
inductive Exec : List Tok → Cmd → Prop
  | block {ts c us rs} : Line ts c → Redirs us rs → Exec (.lparen :: (ts ++ .rparen :: us)) (rs.foldl .redir c)
  | simple {us rs vs ws rs'} : Redirs us rs → Args vs ws rs' → ws.length ≤ MAXARGS - 1 →
    Exec (us ++ vs) ((rs ++ rs').foldl .redir (.exec ws))

end

/-! ### What the parser returns is derived -/

/-- The parser consumes tokens that `G` derives. -/
def Consumes {α : Type} (G : List Tok → α → Prop) (s : List Char) (a : α) (s' : List Char) : Prop :=
  ∃ ts, tokens s = ts ++ tokens s' ∧ G ts a

/-- The panics for a line that is not in the language. -/
def Panics (e : Option Panic) : Prop := ∃ p, e = some p ∧ p ≠ .parseblock

variable {α : Type} {Q : α → List Char → Prop} {s toks : List Char} {ts : List Tok}

lemma wp_panic (hp : p ≠ .parseblock) : wp (panic p) Panics Q s := ⟨p, rfl, hp⟩

/-- The first token is one that `toks` names. -/
def sees (toks : List Char) (ts : List Tok) : Bool := ts.head?.any fun t => t.lead.any toks.contains

section

variable {ok : Option Panic → Prop}

lemma wp_peek (htoks : ∀ c ∈ toks, c ∈ symbols)
    (hyes : sees toks (tokens s) = true → ∀ s', tokens s' = tokens s → wp m ok Q s')
    (hno : sees toks (tokens s) = false → ∀ s', tokens s' = tokens s → wp m' ok Q s') :
    wp (do if ← peek toks then m else m') ok Q s := by
  rw [wp_bind]
  refine (peek_spec htoks s).mono ?_
  rintro b s' ⟨hb, hs'⟩
  cases hsee : sees toks (tokens s) with
  | true =>
    have hb' : b = true := hb.trans hsee
    rw [if_pos hb']
    exact hyes hsee s' hs'
  | false =>
    have hb' : b = false := hb.trans hsee
    rw [if_neg (by rw [hb']; exact Bool.false_ne_true)]
    exact hno hsee s' hs'

lemma wp_gettoken (hs : tokens s = ts) (h : ∀ s', tokens s' = ts.tail → wp (f ts.head?) ok Q s') :
    wp (gettoken >>= f) ok Q s := by
  subst hs
  rw [wp_bind]
  refine (gettoken_spec s).mono ?_
  rintro t s' ⟨rfl, hs'⟩
  exact h s' hs'

end

lemma symbols_sub (h : toks.all symbols.contains = true) : ∀ c ∈ toks, c ∈ symbols := by
  intro c hc
  have := all_eq_true.mp h c hc
  rwa [contains_iff_mem] at this

lemma parseredirs_sound (fuel : ℕ) (s : List Char) (hf : (tokens s).length < fuel) :
    wp (parseredirs fuel) Panics (Consumes Redirs s) s := by
  induction fuel generalizing s with
  | zero => exact absurd hf (Nat.not_lt_zero _)
  | succ fuel ih =>
    rw [parseredirs]
    refine wp_peek (symbols_sub (by decide)) (fun hsee s1 hs1 => ?_) fun _ s1 hs1 => ?_
    · cases hts : tokens s with
      | nil =>
        rw [hts] at hsee
        cases hsee
      | cons t ts =>
        rw [hts] at hf hs1 hsee
        refine wp_gettoken hs1 fun s2 hs2 => wp_gettoken hs2 fun s3 hs3 => ?_
        cases t with
        | redir m =>
          cases ts with
          | nil => exact wp_panic (by decide)
          | cons u ts =>
            cases u with
            | word w =>
              change wp (do
                let rs ← parseredirs fuel
                pure (⟨m, w⟩ :: rs)) _ _ s3
              rw [wp_bind]
              simp only [length_cons] at hf
              refine (ih s3 (by rw [hs3]; simp only [tail_cons]; omega)).mono ?_
              rintro rs s4 ⟨us, hus, hrs⟩
              rw [hs3] at hus
              simp only [tail_cons] at hus
              exact ⟨_, by rw [hts, hus]; rfl, .cons hrs⟩
            | _ => exact wp_panic (by decide)
        | _ => cases hsee
    · exact ⟨[], hs1.symm, .nil⟩

lemma parseargs_sound (fuel argc : ℕ) (s : List Char) (hf : (tokens s).length < fuel) (hargc : argc ≤ MAXARGS - 1) :
    wp (parseargs fuel argc) Panics (Consumes (fun ts r => Args ts r.1 r.2 ∧ argc + r.1.length ≤ MAXARGS - 1) s) s := by
  induction fuel generalizing s argc with
  | zero => exact absurd hf (Nat.not_lt_zero _)
  | succ fuel ih =>
    rw [parseargs]
    refine wp_peek (symbols_sub (by decide)) (fun _ s1 hs1 => ⟨[], hs1.symm, .nil, hargc⟩) fun _ s1 hs1 => ?_
    refine wp_gettoken hs1 fun s2 hs2 => ?_
    cases hts : tokens s with
    | nil =>
      rw [hts] at hs2
      exact ⟨[], by rw [hts, hs2]; rfl, .nil, hargc⟩
    | cons t ts =>
      rw [hts] at hf hs2
      simp only [length_cons] at hf
      cases t with
      | word w =>
        change wp (if argc + 1 ≥ MAXARGS then panic .tooManyArgs
          else do
            let rs ← parseredirs fuel
            let r ← parseargs fuel (argc + 1)
            pure (w :: r.1, rs ++ r.2)) _ _ s2
        refine wp_ite.mpr ⟨fun _ => wp_panic (by decide), fun hlt => ?_⟩
        rw [wp_bind]
        rw [tail_cons] at hs2
        refine (parseredirs_sound fuel s2 (by rw [hs2]; omega)).mono ?_
        rintro rs s3 ⟨us, hus, hrs⟩
        have hlen := congrArg List.length hus
        rw [hs2, length_append] at hlen
        rw [wp_bind]
        refine (ih (argc + 1) s3 (by omega) (by omega)).mono ?_
        rintro ⟨ws, rs'⟩ s4 ⟨vs, hvs, hargs, hle⟩
        refine ⟨.word w :: (us ++ vs), ?_, .cons hrs hargs, ?_⟩
        · rw [hts, ← hs2, hus, hvs, cons_append, append_assoc]
        · change argc + 1 + ws.length ≤ _ at hle
          simp only [length_cons]
          omega
      | _ => exact wp_panic (by decide)

lemma parsebacks_sound (fuel : ℕ) (cmd : Cmd) (s : List Char) (hf : (tokens s).length < fuel) :
    wp (parsebacks fuel cmd) Panics
      (Consumes (fun ts c => ∃ n, ts = List.replicate n .amp ∧ c = Nat.iterate .back n cmd) s) s := by
  induction fuel generalizing s cmd with
  | zero => exact absurd hf (Nat.not_lt_zero _)
  | succ fuel ih =>
    rw [parsebacks]
    refine wp_peek (symbols_sub (by decide)) (fun hsee s1 hs1 => ?_) fun _ s1 hs1 => ⟨[], hs1.symm, 0, rfl, rfl⟩
    cases hts : tokens s with
    | nil =>
      rw [hts] at hsee
      cases hsee
    | cons t ts =>
      rw [hts] at hf hs1 hsee
      simp only [length_cons] at hf
      obtain rfl : t = .amp := by
        cases t with
        | amp => rfl
        | redir m => cases m <;> cases hsee
        | _ => cases hsee
      refine wp_gettoken hs1 fun s2 hs2 => ?_
      rw [tail_cons] at hs2
      refine (ih (.back cmd) s2 (by rw [hs2]; omega)).mono ?_
      rintro c s3 ⟨us, hus, n, rfl, rfl⟩
      exact ⟨List.replicate (n + 1) .amp, by rw [hts, ← hs2, hus]; rfl, n + 1, rfl, rfl⟩

lemma eq_cons_of_sees (hlead : ∀ u : Tok, u.lead = some c → u = t) (h : sees [c] ts = true) :
    ∃ us, ts = t :: us := by
  cases ts with
  | nil => cases h
  | cons u us =>
    have hu : u.lead.any [c].contains = true := h
    cases hl : u.lead with
    | none =>
      rw [hl] at hu
      cases hu
    | some x =>
      rw [hl] at hu
      have hx : x = c := by simpa using hu
      exact ⟨us, by rw [hlead u (by rw [hl, hx])]⟩

lemma lead_inj (ht : t.lead = some c) (hr : ∀ m, t ≠ .redir m) (u : Tok) (hu : u.lead = some c) :
    u = t := by
  cases t with
  | word | redir => first | cases ht | exact absurd rfl (hr _)
  | _ =>
    cases ht
    cases u with
    | redir m => cases m <;> cases hu
    | word => cases hu
    | _ => first | rfl | cases hu

/-- **Soundness**: with enough fuel the parser panics or returns a tree that the consumed tokens
derive. -/
lemma parse_sound (fuel : ℕ) :
    (∀ s, 5 * (tokens s).length + 4 ≤ fuel → wp (parseline fuel) Panics (Consumes Line s) s) ∧
      (∀ s, 5 * (tokens s).length + 3 ≤ fuel → wp (parsepipe fuel) Panics (Consumes Pipe s) s) ∧
      (∀ s, 5 * (tokens s).length + 2 ≤ fuel → wp (parseexec fuel) Panics (Consumes Exec s) s) ∧
      ∀ s, 5 * (tokens s).length + 1 ≤ fuel → sees ['('] (tokens s) = true →
        wp (parseblock fuel) Panics (Consumes Exec s) s := by
  induction fuel with
  | zero => refine ⟨?_, ?_, ?_, ?_⟩ <;> intro s hs <;> omega
  | succ fuel ih =>
    obtain ⟨ihline, ihpipe, ihexec, ihblock⟩ := ih
    refine ⟨fun s hf => ?_, fun s hf => ?_, fun s hf => ?_, fun s hf hsee => ?_⟩
    · rw [parseline, wp_bind]
      refine (ihpipe s (by omega)).mono ?_
      rintro c s1 ⟨ts, hts, hc⟩
      have hlen := congrArg List.length hts
      rw [length_append] at hlen
      rw [wp_bind]
      refine (parsebacks_sound fuel c s1 (by omega)).mono ?_
      rintro _ s2 ⟨_, hs2, n, rfl, rfl⟩
      have hlen2 := congrArg List.length hs2
      rw [length_append] at hlen2
      refine wp_peek (symbols_sub (by decide)) (fun hsee s3 hs3 => ?_) fun _ s3 hs3 => ?_
      · obtain ⟨us, hus⟩ := eq_cons_of_sees (lead_inj (t := .semi) rfl fun _ hm => nomatch hm) hsee
        rw [hus] at hs3 hlen2
        rw [length_cons] at hlen2
        refine wp_gettoken hs3 fun s4 hs4 => ?_
        rw [tail_cons] at hs4
        rw [wp_bind]
        refine (ihline s4 (by rw [hs4]; omega)).mono ?_
        rintro d s5 ⟨vs, hvs, hd⟩
        refine ⟨_, ?_, .list n hc hd⟩
        rw [hts, hs2, hus, ← hs4, hvs]
        simp
      · refine ⟨_, ?_, .single n hc⟩
        rw [hts, hs2, hs3, append_assoc]
    · rw [parsepipe, wp_bind]
      refine (ihexec s (by omega)).mono ?_
      rintro c s1 ⟨ts, hts, hc⟩
      have hlen := congrArg List.length hts
      rw [length_append] at hlen
      refine wp_peek (symbols_sub (by decide)) (fun hsee s2 hs2 => ?_) fun _ s2 hs2 => ?_
      · obtain ⟨us, hus⟩ := eq_cons_of_sees (lead_inj (t := .bar) rfl fun _ hm => nomatch hm) hsee
        rw [hus] at hs2 hlen
        rw [length_cons] at hlen
        refine wp_gettoken hs2 fun s3 hs3 => ?_
        rw [tail_cons] at hs3
        rw [wp_bind]
        refine (ihpipe s3 (by rw [hs3]; omega)).mono ?_
        rintro d s4 ⟨vs, hvs, hd⟩
        refine ⟨_, ?_, .pipe hc hd⟩
        rw [hts, hus, ← hs3, hvs]
        simp
      · exact ⟨ts, by rw [hts, hs2], .single hc⟩
    · rw [parseexec]
      refine wp_peek (symbols_sub (by decide)) (fun hsee s1 hs1 => ?_) fun _ s1 hs1 => ?_
      · refine (ihblock s1 (by rw [hs1]; omega) (by rwa [hs1])).mono ?_
        rintro c s2 ⟨ts, hts, hc⟩
        exact ⟨ts, by rw [← hs1, hts], hc⟩
      · rw [wp_bind]
        refine (parseredirs_sound fuel s1 (by rw [hs1]; omega)).mono ?_
        rintro rs s2 ⟨us, hus, hrs⟩
        have hlen := congrArg List.length hus
        rw [length_append, hs1] at hlen
        rw [wp_bind]
        refine (parseargs_sound fuel 0 s2 (by omega) (Nat.zero_le _)).mono ?_
        rintro ⟨ws, rs'⟩ s3 ⟨vs, hvs, hargs, hle⟩
        refine ⟨us ++ vs, ?_, .simple hrs hargs (by simpa using hle)⟩
        rw [← hs1, hus, hvs, append_assoc]
    · rw [parseblock]
      have hno : sees ['('] (tokens s) = false → ∀ s1, tokens s1 = tokens s →
          wp (panic .parseblock) Panics (Consumes Exec s) s1 := by
        intro hno
        rw [hsee] at hno
        cases hno
      refine wp_peek (symbols_sub (by decide)) (fun _ s1 hs1 => ?_) hno
      obtain ⟨us, hus⟩ := eq_cons_of_sees (lead_inj (t := .lparen) rfl fun _ hm => nomatch hm) hsee
      rw [hus] at hs1 hf
      rw [length_cons] at hf
      refine wp_gettoken hs1 fun s2 hs2 => ?_
      rw [tail_cons] at hs2
      rw [wp_bind]
      refine (ihline s2 (by rw [hs2]; omega)).mono ?_
      rintro c s3 ⟨ts, hts, hc⟩
      have hlen := congrArg List.length hts
      rw [length_append, hs2] at hlen
      refine wp_peek (symbols_sub (by decide)) (fun hsee' s4 hs4 => ?_) fun _ _ _ => wp_panic (by decide)
      obtain ⟨vs, hvs⟩ := eq_cons_of_sees (lead_inj (t := .rparen) rfl fun _ hm => nomatch hm) hsee'
      rw [hvs] at hs4 hlen
      rw [length_cons] at hlen
      refine wp_gettoken hs4 fun s5 hs5 => ?_
      rw [tail_cons] at hs5
      rw [wp_bind]
      refine (parseredirs_sound fuel s5 (by rw [hs5]; omega)).mono ?_
      rintro rs s6 ⟨ws, hws, hrs⟩
      refine ⟨_, ?_, .block hc hrs⟩
      rw [hus, ← hs2, hts, hvs, ← hs5, hws]
      simp

end Xv6.Shell
