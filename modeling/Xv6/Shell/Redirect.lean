import Xv6.Shell.Complete
import Xv6.Shell.Wiring

/-!
# Several redirections of one descriptor

The parser puts a redirection around the command before it, so that of the redirections of a command the first one in
the text is the innermost; `runcmd` performs the outermost one first.
-/

namespace Xv6.Shell

open Lib List

/-! ### The order of the text -/

/-- The redirections of a line, in the order of the text. -/
def textRedirs : List Tok → List Redir
  | [] => []
  | .redir m :: .word w :: ts => ⟨m, w⟩ :: textRedirs ts
  | _ :: ts => textRedirs ts

/-- The redirections of a tree, those of a command before those around it. -/
def Cmd.redirs : Cmd → List Redir
  | .exec _ => []
  | .redir c r => c.redirs ++ [r]
  | .pipe l r | .list l r => l.redirs ++ r.redirs
  | .back c => c.redirs

lemma redirs_foldl (c : Cmd) (rs : List Redir) : (rs.foldl .redir c).redirs = c.redirs ++ rs := by
  induction rs generalizing c with
  | nil => exact (append_nil _).symm
  | cons r rs ih => rw [foldl_cons, ih, Cmd.redirs, append_assoc, singleton_append]

lemma redirs_back (n : ℕ) (c : Cmd) : (Nat.iterate .back n c).redirs = c.redirs := by
  induction n generalizing c with
  | zero => rfl
  | succ n ih => exact ih (.back c)

lemma textRedirs_amps (n : ℕ) (us : List Tok) : textRedirs (replicate n .amp ++ us) = textRedirs us := by
  induction n with
  | zero => rfl
  | succ n ih => exact ih

variable {ts : List Tok} {rs : List Redir}

lemma Redirs.text (h : Redirs ts rs) (us : List Tok) : textRedirs (ts ++ us) = rs ++ textRedirs us := by
  induction h with
  | nil => rfl
  | cons _ ih => exact congrArg _ ih

lemma Args.text {ws : List (List Char)} (h : Args ts ws rs) (us : List Tok) :
    textRedirs (ts ++ us) = rs ++ textRedirs us := by
  induction h with
  | nil => rfl
  | @cons w us' rs vs ws rs' hrs _ ih =>
    change textRedirs (us' ++ vs ++ us) = _
    rw [append_assoc, hrs.text, ih, append_assoc]

mutual

lemma Line.text {ts : List Tok} {c : Cmd} : Line ts c → ∀ us, textRedirs (ts ++ us) = c.redirs ++ textRedirs us
  | .single n hc, us => by rw [append_assoc, Pipe.text hc, textRedirs_amps, redirs_back]
  | @Line.list _ _ vs _ n hc hd, us => by
    rw [append_assoc, append_assoc, Pipe.text hc, textRedirs_amps]
    change _ ++ textRedirs (vs ++ us) = _
    rw [Line.text hd, Cmd.redirs, redirs_back, append_assoc]

lemma Pipe.text {ts : List Tok} {c : Cmd} : Pipe ts c → ∀ us, textRedirs (ts ++ us) = c.redirs ++ textRedirs us
  | .single hc, us => Exec.text hc us
  | @Pipe.pipe _ _ vs _ hc hd, us => by
    rw [append_assoc, Exec.text hc]
    change _ ++ textRedirs (vs ++ us) = _
    rw [Pipe.text hd, Cmd.redirs, append_assoc]

lemma Exec.text {ts : List Tok} {c : Cmd} : Exec ts c → ∀ us, textRedirs (ts ++ us) = c.redirs ++ textRedirs us
  | @Exec.block ts _ vs rs hc hrs, us => by
    change textRedirs (ts ++ .rparen :: vs ++ us) = _
    rw [append_assoc, Line.text hc]
    change _ ++ textRedirs (vs ++ us) = _
    rw [hrs.text, redirs_foldl, append_assoc]
  | .simple hrs hargs _, us => by
    rw [append_assoc, hrs.text, hargs.text, redirs_foldl, Cmd.redirs, nil_append, append_assoc]

end

/-! ### The order of the calls -/

variable {root c c' : Cmd} {n : Node} {i o i' o' : Obj}

/-- What descriptor `fd` is for a command with the redirections `rs`, given in the order of the text, of which the
last is node `n`: the file of the first one of `fd`, or what it was. -/
def target (fd : Fin NOFILE) (n : Node) : List Redir → Obj → Obj
  | [], x => x
  | r :: rs, x => if r.mode.fd = fd then .file (replicate rs.length 0 ++ n) else target fd n rs x

lemma Wired.redirs (h : Wired root n (rs.foldl .redir c) i o) :
    Wired root (replicate rs.length 0 ++ n) c (target 0 n rs i) (target 1 n rs o) := by
  induction rs generalizing c with
  | nil => exact h
  | cons r rs ih =>
    -- the redirections after `r` have been performed
    have hr : Wired root (replicate rs.length 0 ++ n) (.redir c r) (target 0 n rs i) (target 1 n rs o) := ih h
    rw [target, target]
    rcases r.mode.fd_cases with hfd | hfd
    · rw [if_pos hfd, if_neg (by rw [hfd]; decide)]
      exact hr.input hfd
    · rw [if_neg (by rw [hfd]; decide), if_pos hfd]
      exact hr.output hfd

lemma Wired.unique (h : Wired root n c i o) (h' : Wired root n c' i' o') : c = c' ∧ i = i' ∧ o = o' := by
  induction h generalizing c' i' o' with
  | root =>
    cases h'
    exact ⟨rfl, rfl, rfl⟩
  | _ => cases h' <;> grind

/-- **The first redirection wins.**  The redirections of a line are in its tree in the order of the text, those of a
command before those around it.  They are performed from the last to the first, so a command runs with the file of
the first one of a descriptor; and this is what a program is started with. -/
theorem first_redirection_wins {line : List Char} {t : Cmd} (hp : parsecmd line = .ok t) :
    textRedirs (tokens (cstr line)) = t.redirs ∧
    (∀ n c rs rs' i o, Wired t n ((rs ++ rs').foldl .redir c) i o →
      Wired t (replicate rs'.length 0 ++ n) (rs.foldl .redir c) (target 0 n rs' i) (target 1 n rs' o)) ∧
    ∀ xs s, run step (start t) xs = some s → ∀ e ∈ s.execs, ∀ n c rs i o, Wired t n (rs.foldl .redir c) i o →
      e.node = replicate rs.length 0 ++ n → c = .exec e.argv ∧ e.ofile = std (target 0 n rs i) (target 1 n rs o) := by
  refine ⟨?_, fun n c rs rs' i o h => ?_, fun xs s hrun e he n c rs i o h hn => ?_⟩
  · have htext := (line_of_parsecmd hp).text []
    rwa [append_nil, textRedirs, append_nil] at htext
  · rw [foldl_append] at h
    exact h.redirs
  · obtain ⟨-, i', o', he', hfile⟩ := (run_inv hrun).execs e he
    rw [hn] at he'
    obtain ⟨hc, hi, ho⟩ := h.redirs.unique he'
    rw [hfile, hi, ho]
    exact ⟨hc, rfl⟩

def twice : Cmd := .redir (.redir (.exec [['a']]) ⟨.output, ['x']⟩) ⟨.output, ['y']⟩

theorem first_redirection_wins_twice : textRedirs (tokens (cstr "a >x >y".toList)) = twice.redirs ∧
    Wired twice [0] (.redir (.exec [['a']]) ⟨.output, ['x']⟩) (.shell 0) (.file []) := by
  obtain ⟨htext, hwired, -⟩ := first_redirection_wins (show parsecmd "a >x >y".toList = .ok twice by decide +kernel)
  exact ⟨htext, hwired [] _ [⟨.output, ['x']⟩] [⟨.output, ['y']⟩] _ _ .root⟩

/-- The program `a` writes to `x`, whose redirection is node `[0]`. -/
theorem last_redirection_loses : parsecmd "a >x >y".toList = .ok twice ∧
    (run step (start twice) [0, 0, 0, 0, 0]).map (fun s => s.execs.map fun e => (e.argv, e.ofile 1)) =
      some [([['a']], some (.file [0]))] := by
  constructor <;> decide +kernel

end Xv6.Shell
