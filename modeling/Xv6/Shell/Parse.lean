import Xv6.Lib.Prog

/-!
# `sh.c`: the parser of the shell

A string is the list of its characters up to the terminating zero, and a parser a program over the rest
of the line.  The loops and the calls are bounded by `fuel`; running out of it is the error `none`.
-/

namespace Xv6.Shell

open Lib

abbrev MAXARGS : ℕ := 10

inductive Panic where
  | syntactic | missingParen | missingFile | tooManyArgs | parseblock
  deriving DecidableEq

/-- `<`, `>` and `>>`: the file is opened with `O_RDONLY` as 0, with `O_WRONLY|O_CREATE|O_TRUNC` as 1, and
with `O_WRONLY|O_CREATE` as 1. -/
inductive Mode where
  | input | output | append
  deriving DecidableEq

structure Redir where
  mode : Mode
  file : List Char
  deriving DecidableEq

/-- `struct cmd`. -/
inductive Cmd where
  | exec (argv : List (List Char))
  | redir (cmd : Cmd) (r : Redir)
  | pipe (left right : Cmd)
  | list (left right : Cmd)
  | back (cmd : Cmd)
  deriving DecidableEq

inductive Tok where
  | bar | lparen | rparen | semi | amp
  | redir (m : Mode)
  | word (w : List Char)
  deriving DecidableEq

abbrev Parser (α : Type) : Type := Prog (List Char) (Option Panic) α

def panic {α : Type} (p : Panic) : Parser α := Prog.stop (some p)

def outOfFuel {α : Type} : Parser α := Prog.stop none

def whitespace : List Char := [' ', '\t', '\r', '\n', '\x0b']

def symbols : List Char := ['<', '|', '>', '&', ';', '(', ')']

/-- A character of a word. -/
def isWord (c : Char) : Bool := !whitespace.contains c && !symbols.contains c

def skip (s : List Char) : List Char := s.dropWhile whitespace.contains

/-- The tokens of one character. -/
def symbol (c : Char) : Option Tok :=
  if c = '|' then some .bar
  else if c = '(' then some .lparen
  else if c = ')' then some .rparen
  else if c = ';' then some .semi
  else if c = '&' then some .amp
  else if c = '<' then some (.redir .input)
  else none

/-- The token at the start of `s`, which is not white space, and what follows it. -/
def token : List Char → Option (Tok × List Char)
  | [] => none
  | c :: s =>
    match symbol c with
    | some t => some (t, s)
    | none =>
      if c = '>' then
        if s.head? = some '>' then some (.redir .append, s.tail) else some (.redir .output, s)
      else some (.word ((c :: s).takeWhile isWord), (c :: s).dropWhile isWord)

/-- `gettoken`; `none` at the end of the line. -/
def gettoken : Parser (Option Tok) := do
  let s ← Prog.read
  match token (skip s) with
  | none => do
    Prog.modify fun _ => []
    pure none
  | some (t, rest) => do
    Prog.modify fun _ => skip rest
    pure (some t)

def peek (toks : List Char) : Parser Bool := do
  Prog.modify skip
  let s ← Prog.read
  pure (s.head?.any toks.contains)

/-- `parseredirs`: the redirections, in the order in which they are wrapped around the command. -/
def parseredirs : ℕ → Parser (List Redir)
  | 0 => outOfFuel
  | fuel + 1 => do
    if ← peek ['<', '>'] then
      let tok ← gettoken
      match ← gettoken with
      | some (.word w) =>
        match tok with
        | some (.redir m) => do
          let rs ← parseredirs fuel
          pure (⟨m, w⟩ :: rs)
        | _ => parseredirs fuel
      | _ => panic .missingFile
    else pure []

/-- The loop of `parseexec`: the words and the redirections after them, when `argc` words have been
read. -/
def parseargs : ℕ → ℕ → Parser (List (List Char) × List Redir)
  | 0, _ => outOfFuel
  | fuel + 1, argc => do
    if ← peek ['|', ')', '&', ';'] then pure ([], [])
    else
      match ← gettoken with
      | none => pure ([], [])
      | some (.word w) =>
        if argc + 1 ≥ MAXARGS then panic .tooManyArgs
        else do
          let rs ← parseredirs fuel
          let r ← parseargs fuel (argc + 1)
          pure (w :: r.1, rs ++ r.2)
      | _ => panic .syntactic

/-- The loop of `parseline` over `&`. -/
def parsebacks : ℕ → Cmd → Parser Cmd
  | 0, _ => outOfFuel
  | fuel + 1, cmd => do
    if ← peek ['&'] then
      let _ ← gettoken
      parsebacks fuel (.back cmd)
    else pure cmd

mutual

def parseline : ℕ → Parser Cmd
  | 0 => outOfFuel
  | fuel + 1 => do
    let cmd ← parsepipe fuel
    let cmd ← parsebacks fuel cmd
    if ← peek [';'] then
      let _ ← gettoken
      let right ← parseline fuel
      pure (.list cmd right)
    else pure cmd

def parsepipe : ℕ → Parser Cmd
  | 0 => outOfFuel
  | fuel + 1 => do
    let cmd ← parseexec fuel
    if ← peek ['|'] then
      let _ ← gettoken
      let right ← parsepipe fuel
      pure (.pipe cmd right)
    else pure cmd

/-- The redirections wrap the command that `execcmd` made, to which words are still added. -/
def parseexec : ℕ → Parser Cmd
  | 0 => outOfFuel
  | fuel + 1 => do
    if ← peek ['('] then parseblock fuel
    else
      let rs ← parseredirs fuel
      let r ← parseargs fuel 0
      pure ((rs ++ r.2).foldl .redir (.exec r.1))

def parseblock : ℕ → Parser Cmd
  | 0 => outOfFuel
  | fuel + 1 => do
    if ← peek ['('] then
      let _ ← gettoken
      let cmd ← parseline fuel
      if ← peek [')'] then
        let _ ← gettoken
        let rs ← parseredirs fuel
        pure (rs.foldl .redir cmd)
      else panic .missingParen
    else panic .parseblock

end

/-- The string at the start of `s`. -/
def cstr (s : List Char) : List Char := s.takeWhile (· ≠ '\x00')

/-- `parsecmd`, before `nulterminate`. -/
def parsecmd (s : List Char) : Except (Option Panic) Cmd :=
  match (do
    let cmd ← parseline (5 * (cstr s).length + 5)
    let _ ← peek []
    let rest ← Prog.read
    if rest ≠ [] then panic .syntactic else pure cmd : Parser Cmd) (cstr s) with
  | .ok (cmd, _) => .ok cmd
  | .error e => .error e

end Xv6.Shell
