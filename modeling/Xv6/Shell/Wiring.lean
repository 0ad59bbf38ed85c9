import Xv6.Shell.Runcmd

/-!
# The descriptors of the commands

Each process is at one of the points of `runcmd`, and its descriptors are those of that point (`At`): the
wiring of its node, and around a `pipe` the two ends besides.  A step leads from a point to the next.
-/

namespace Xv6.Shell

open Lib Function List Option

/-! ### Descriptors -/

lemma Mode.fd_cases (mode : Mode) : mode.fd = 0 ∨ mode.fd = 1 := by
  cases mode
  · exact .inl rfl
  · exact .inr rfl
  · exact .inr rfl

/-- The descriptors after `pipe(p)`. -/
def piped (n : Node) (i o : Obj) : Fds :=
  update (update (std i o) 3 (some (.pipe n false))) 4 (some (.pipe n true))

section

variable {n : Node} {i o x : Obj}

lemma fdalloc_std : fdalloc (std i o) x = some (3, update (std i o) 3 (some x)) := rfl

lemma fdalloc_std_three : fdalloc (update (std i o) 3 (some (.pipe n false))) (.pipe n true) = some (4, piped n i o) := rfl

lemma fdalloc_zero : fdalloc (update (std i o) 0 none) x = some (0, std x o) := by
  refine congrArg some (Prod.ext rfl ?_)
  funext fd
  fin_cases fd <;> rfl

lemma fdalloc_one : fdalloc (update (std i o) 1 none) x = some (1, std i x) := by
  refine congrArg some (Prod.ext rfl ?_)
  funext fd
  fin_cases fd <;> rfl

lemma fdalloc_piped_zero : fdalloc (update (piped n i o) 0 none) x = some (0, piped n x o) := by
  refine congrArg some (Prod.ext rfl ?_)
  funext fd
  fin_cases fd <;> rfl

lemma fdalloc_piped_one : fdalloc (update (piped n i o) 1 none) x = some (1, piped n i x) := by
  refine congrArg some (Prod.ext rfl ?_)
  funext fd
  fin_cases fd <;> rfl

lemma close_piped : update (update (piped n i o) 3 none) 4 none = std i o := by
  funext fd
  fin_cases fd <;> rfl

end

/-! ### The points of `runcmd` -/

/-- Where a process can be, with its node, its calls to come, the array `p` and its descriptors. -/
inductive At (root : Cmd) : Node → List Instr → Fin NOFILE × Fin NOFILE → Fds → Prop
  | run : Wired root n c i o → At root m [.run n c] p (std i o)
  | program : Wired root n (.exec argv) i o → At root n [.program] p (std i o)
  | redir : Wired root n (.redir c r) i o → At root n [.open n, .run (0 :: n) c] p (update (std i o) r.mode.fd none)
  | list : Wired root n (.list l r) i o → At root n [.fork .plain (0 :: n) l, .wait, .run (1 :: n) r] p (std i o)
  | listWait : Wired root n (.list l r) i o → At root n [.wait, .run (1 :: n) r] p (std i o)
  | back : Wired root n (.back c) i o → At root n [.fork .plain (0 :: n) c, .exit] p (std i o)
  | pipe : Wired root n (.pipe l r) i o →
      At root n [.fork .left (0 :: n) l, .fork .right (1 :: n) r, .closeP false, .closeP true, .wait, .wait, .exit] (3, 4)
        (piped n i o)
  | pipeRight : Wired root n (.pipe l r) i o →
      At root n [.fork .right (1 :: n) r, .closeP false, .closeP true, .wait, .wait, .exit] (3, 4) (piped n i o)
  | pipeClose : Wired root n (.pipe l r) i o →
      At root n [.closeP false, .closeP true, .wait, .wait, .exit] (3, 4) (piped n i o)
  | pipeClose2 : Wired root n (.pipe l r) i o →
      At root n [.closeP true, .wait, .wait, .exit] (3, 4) (update (piped n i o) 3 none)
  | pipeWait : Wired root n (.pipe l r) i o → At root n [.wait, .wait, .exit] p (std i o)
  | pipeWait2 : Wired root n (.pipe l r) i o → At root n [.wait, .exit] p (std i o)
  | exit : Wired root n c i o → At root n [.exit] p (std i o)
  | exited : At root n [] p fun _ => none
  | left : Wired root n (.pipe l r) i o →
      At root (0 :: n) [.close 1, .dupP true, .closeP false, .closeP true, .run (0 :: n) l] (3, 4) (piped n i o)
  | leftDup : Wired root n (.pipe l r) i o →
      At root (0 :: n) [.dupP true, .closeP false, .closeP true, .run (0 :: n) l] (3, 4) (update (piped n i o) 1 none)
  | leftClose : Wired root n (.pipe l r) i o →
      At root (0 :: n) [.closeP false, .closeP true, .run (0 :: n) l] (3, 4) (piped n i (.pipe n true))
  | leftClose2 : Wired root n (.pipe l r) i o →
      At root (0 :: n) [.closeP true, .run (0 :: n) l] (3, 4) (update (piped n i (.pipe n true)) 3 none)
  | right : Wired root n (.pipe l r) i o →
      At root (1 :: n) [.close 0, .dupP false, .closeP false, .closeP true, .run (1 :: n) r] (3, 4) (piped n i o)
  | rightDup : Wired root n (.pipe l r) i o →
      At root (1 :: n) [.dupP false, .closeP false, .closeP true, .run (1 :: n) r] (3, 4) (update (piped n i o) 0 none)
  | rightClose : Wired root n (.pipe l r) i o →
      At root (1 :: n) [.closeP false, .closeP true, .run (1 :: n) r] (3, 4) (piped n (.pipe n false) o)
  | rightClose2 : Wired root n (.pipe l r) i o →
      At root (1 :: n) [.closeP true, .run (1 :: n) r] (3, 4) (update (piped n (.pipe n false) o) 3 none)

/-- The process is at a point of `runcmd`. -/
def Proc.Placed (root : Cmd) (q : Proc) : Prop := At root q.node q.code q.p q.ofile

/-- The call of `exec` is for a leaf, with its wiring. -/
def ExecCall.Placed (root : Cmd) (e : ExecCall) : Prop :=
  e.argv ≠ [] ∧ ∃ i o, Wired root e.node (.exec e.argv) i o ∧ e.ofile = std i o

/-- What a step leads to. -/
structure Made.Placed (root : Cmd) (m : Made) : Prop where
  proc : m.proc.Placed root
  child : ∀ q ∈ m.child, q.Placed root
  execs : ∀ e ∈ m.execs, e.Placed root

section

variable {root : Cmd} {q : Proc} {n : Node} {c : Cmd} {i o : Obj}

lemma Proc.quietly_placed (h : q.Placed root) : q.quietly.Placed root :=
  ⟨h, fun _ hq => (by cases hq), fun _ he => absurd he not_mem_nil⟩

lemma runcmd_placed (h : Wired root n c i o) (hq : q.ofile = std i o) : (q.runcmd n c).Placed root := by
  have hnone : ∀ q' ∈ (none : Option Proc), q'.Placed root := fun _ hq => (by cases hq)
  have hnil : ∀ e ∈ ([] : List ExecCall), e.Placed root := fun _ he => absurd he not_mem_nil
  cases c with
  | exec argv =>
    simp only [Proc.runcmd]
    by_cases hargv : argv = []
    · rw [if_pos hargv]
      refine ⟨?_, hnone, hnil⟩
      simp only [Proc.Placed, hq]
      exact .exit h
    · rw [if_neg hargv]
      refine ⟨?_, hnone, forall_mem_singleton.mpr ⟨hargv, i, o, h, hq⟩⟩
      simp only [Proc.Placed, hq]
      exact .program h
  | redir c r =>
    refine ⟨?_, hnone, hnil⟩
    simp only [Proc.Placed, Proc.runcmd, hq]
    exact .redir h
  | pipe l r =>
    simp only [Proc.runcmd, hq, fdalloc_std, fdalloc_std_three]
    exact ⟨.pipe h, hnone, hnil⟩
  | list l r =>
    refine ⟨?_, hnone, hnil⟩
    simp only [Proc.Placed, Proc.runcmd, hq]
    exact .list h
  | back c =>
    refine ⟨?_, hnone, hnil⟩
    simp only [Proc.Placed, Proc.runcmd, hq]
    exact .back h

variable {x : ℕ} {m : Made}

lemma next_placed (h : q.Placed root) (hm : q.next x = some m) : m.Placed root := by
  obtain ⟨parent, node, code, p, ofile, reaped⟩ := q
  have hnil : ∀ e ∈ ([] : List ExecCall), e.Placed root := fun _ he => absurd he not_mem_nil
  change At root node code p ofile at h
  cases h with
  | run h => cases hm; exact runcmd_placed h rfl
  | program h => cases hm; exact Proc.quietly_placed .exited
  | @redir _ c r i o _ h =>
    -- the file lands on the descriptor that has just been closed
    rcases Mode.fd_cases r.mode with hr | hr
    · simp only [Proc.next, hr, fdalloc_zero] at hm
      cases hm
      exact Proc.quietly_placed (.run (.input h hr))
    · simp only [Proc.next, hr, fdalloc_one] at hm
      cases hm
      exact Proc.quietly_placed (.run (.output h hr))
  | list h =>
    cases hm
    exact ⟨.listWait h, by rintro _ ⟨⟩; exact .run (.listLeft h), hnil⟩
  | listWait h => cases hm; exact Proc.quietly_placed (.run (.listRight h))
  | back h =>
    cases hm
    exact ⟨.exit h, by rintro _ ⟨⟩; exact .run (.back h), hnil⟩
  | pipe h =>
    cases hm
    exact ⟨.pipeRight h, by rintro _ ⟨⟩; exact .left h, hnil⟩
  | pipeRight h =>
    cases hm
    exact ⟨.pipeClose h, by rintro _ ⟨⟩; exact .right h, hnil⟩
  | pipeClose h => cases hm; exact Proc.quietly_placed (.pipeClose2 h)
  | pipeClose2 h =>
    simp only [Proc.next, if_true, close_piped] at hm
    cases hm
    exact Proc.quietly_placed (.pipeWait h)
  | pipeWait h => cases hm; exact Proc.quietly_placed (.pipeWait2 h)
  | pipeWait2 h => cases hm; exact Proc.quietly_placed (.exit h)
  | exit h => cases hm; exact Proc.quietly_placed .exited
  | exited => cases hm
  | left h => cases hm; exact Proc.quietly_placed (.leftDup h)
  | @leftDup n l r i o h =>
    have hp : update (piped n i o) 1 none 4 = some (.pipe n true) := rfl
    simp only [Proc.next, if_true, hp, fdalloc_piped_one] at hm
    cases hm
    exact Proc.quietly_placed (.leftClose h)
  | leftClose h => cases hm; exact Proc.quietly_placed (.leftClose2 h)
  | leftClose2 h =>
    simp only [Proc.next, if_true, close_piped] at hm
    cases hm
    exact Proc.quietly_placed (.run (.pipeLeft h))
  | right h => cases hm; exact Proc.quietly_placed (.rightDup h)
  | @rightDup n l r i o h =>
    have hp : update (piped n i o) 0 none 3 = some (.pipe n false) := rfl
    simp only [Proc.next, Bool.false_eq_true, if_false, hp, fdalloc_piped_zero] at hm
    cases hm
    exact Proc.quietly_placed (.rightClose h)
  | rightClose h => cases hm; exact Proc.quietly_placed (.rightClose2 h)
  | rightClose2 h =>
    simp only [Proc.next, if_true, close_piped] at hm
    cases hm
    exact Proc.quietly_placed (.run (.pipeRight h))

end

/-! ### What is still to be run -/

/-- The nodes of the command `c` at node `n`. -/
def Cmd.nodes : Cmd → Node → List Node
  | .exec _, n => [n]
  | .redir c _, n | .back c, n => n :: c.nodes (0 :: n)
  | .list l r, n | .pipe l r, n => n :: (l.nodes (0 :: n) ++ r.nodes (1 :: n))

/-- The programs to start. -/
def Cmd.leaves : Cmd → Node → List (Node × List (List Char))
  | .exec argv, n => if argv = [] then [] else [(n, argv)]
  | .redir c _, n | .back c, n => c.leaves (0 :: n)
  | .list l r, n | .pipe l r, n => l.leaves (0 :: n) ++ r.leaves (1 :: n)

/-- The steps that the command takes. -/
def Cmd.cost : Cmd → ℕ
  | .exec _ => 2
  | .redir c _ => 2 + c.cost
  | .list l r => 3 + l.cost + r.cost
  | .pipe l r => 16 + l.cost + r.cost
  | .back c => 3 + c.cost

def Instr.nodes : Instr → List Node
  | .run n c | .fork _ n c => c.nodes n
  | _ => []

def Instr.leaves : Instr → List (Node × List (List Char))
  | .run n c | .fork _ n c => c.leaves n
  | _ => []

def Side.cost : Side → ℕ
  | .plain => 1
  | .left | .right => 5

def Instr.cost : Instr → ℕ
  | .run _ c => c.cost
  | .fork side _ c => side.cost + c.cost
  | _ => 1

/-- The program that a call of `exec` starts. -/
def ExecCall.leaf (e : ExecCall) : Node × List (List Char) := (e.node, e.argv)

/-- A step moves what it runs from what is to be run to what has been run. -/
structure Made.Balanced (q : Proc) (m : Made) : Prop where
  nodes : (m.done ++ m.proc.code.flatMap Instr.nodes ++ m.child.toList.flatMap (·.code.flatMap Instr.nodes)).Perm
    (q.code.flatMap Instr.nodes)
  leaves : (m.execs.map ExecCall.leaf ++ m.proc.code.flatMap Instr.leaves ++
    m.child.toList.flatMap (·.code.flatMap Instr.leaves)).Perm (q.code.flatMap Instr.leaves)
  cost : (m.proc.code.map Instr.cost).sum + (m.child.toList.map fun q => (q.code.map Instr.cost).sum).sum <
    (q.code.map Instr.cost).sum

section

variable {root : Cmd} {q : Proc} {x : ℕ} {m : Made}

lemma Proc.quietly_balanced {q' : Proc} {a : Instr} (hq : q.code = a :: q'.code) (hn : a.nodes = []) (hl : a.leaves = [])
    (hc : a.cost = 1) : q'.quietly.Balanced q := by
  refine ⟨?_, ?_, ?_⟩ <;> simp [Proc.quietly, hq, hn, hl, hc]

lemma runcmd_balanced (hq : q.code = [.run n c]) (ho : q.ofile = std i o) :
    (q.runcmd n c).Balanced q := by
  cases c with
  | exec argv =>
    simp only [Proc.runcmd]
    by_cases hargv : argv = []
    · rw [if_pos hargv]
      refine ⟨?_, ?_, ?_⟩ <;> simp [hq, hargv, Instr.nodes, Instr.leaves, Instr.cost, Cmd.nodes, Cmd.leaves, Cmd.cost]
    · rw [if_neg hargv]
      refine ⟨?_, ?_, ?_⟩ <;>
        simp [hq, hargv, Instr.nodes, Instr.leaves, Instr.cost, Cmd.nodes, Cmd.leaves, Cmd.cost, ExecCall.leaf]
  | redir c r =>
    refine ⟨?_, ?_, ?_⟩ <;>
      simp [Proc.runcmd, hq, Instr.nodes, Instr.leaves, Instr.cost, Cmd.nodes, Cmd.leaves, Cmd.cost]
  | pipe l r =>
    simp only [Proc.runcmd, ho, fdalloc_std, fdalloc_std_three]
    refine ⟨?_, ?_, ?_⟩ <;>
      simp [hq, Instr.nodes, Instr.leaves, Instr.cost, Cmd.nodes, Cmd.leaves, Cmd.cost, Side.cost]
    omega
  | list l r =>
    refine ⟨?_, ?_, ?_⟩ <;>
      simp [Proc.runcmd, hq, Instr.nodes, Instr.leaves, Instr.cost, Cmd.nodes, Cmd.leaves, Cmd.cost, Side.cost]
    omega
  | back c =>
    refine ⟨?_, ?_, ?_⟩ <;>
      simp [Proc.runcmd, hq, Instr.nodes, Instr.leaves, Instr.cost, Cmd.nodes, Cmd.leaves, Cmd.cost, Side.cost]
    omega

lemma fork_balanced {side : Side} (hq : q.code = .fork side n c :: k) :
    Made.Balanced q ⟨{ q with code := k }, some ⟨some x, n, side.code n c, q.p, q.ofile, false⟩, [], []⟩ := by
  have hn : (side.code n c).flatMap Instr.nodes = c.nodes n := by
    cases side <;> simp [Side.code, Instr.nodes]
  have hl : (side.code n c).flatMap Instr.leaves = c.leaves n := by
    cases side <;> simp [Side.code, Instr.leaves]
  refine ⟨?_, ?_, ?_⟩
  · simpa [hq, hn, Instr.nodes] using perm_append_comm
  · simpa [hq, hl, Instr.leaves] using perm_append_comm
  · cases side <;> simp [hq, Side.code, Instr.cost, Side.cost] <;> omega

lemma next_balanced (h : q.Placed root) (hm : q.next x = some m) : m.Balanced q := by
  obtain ⟨parent, node, code, p, ofile, reaped⟩ := q
  change At root node code p ofile at h
  cases h with
  | run h => cases hm; exact runcmd_balanced rfl rfl
  | program | exit | pipeClose | pipeClose2 | pipeWait | pipeWait2 | left | leftClose | leftClose2 | right | rightClose |
      rightClose2 | listWait => cases hm; exact Proc.quietly_balanced rfl rfl rfl rfl
  | @redir _ c r i o _ h =>
    rcases Mode.fd_cases r.mode with hr | hr <;> simp only [Proc.next, hr, fdalloc_zero, fdalloc_one] at hm <;> cases hm <;>
      exact Proc.quietly_balanced rfl rfl rfl rfl
  | list | back | pipe | pipeRight => cases hm; exact fork_balanced rfl
  | exited => cases hm
  | @leftDup n l r i o h =>
    have hp : update (piped n i o) 1 none 4 = some (.pipe n true) := rfl
    simp only [Proc.next, if_true, hp, fdalloc_piped_one] at hm
    cases hm
    exact Proc.quietly_balanced rfl rfl rfl rfl
  | @rightDup n l r i o h =>
    have hp : update (piped n i o) 0 none 3 = some (.pipe n false) := rfl
    simp only [Proc.next, Bool.false_eq_true, if_false, hp, fdalloc_piped_zero] at hm
    cases hm
    exact Proc.quietly_balanced rfl rfl rfl rfl

end

/-! ### Runs -/

def Proc.nodes (q : Proc) : List Node := q.code.flatMap Instr.nodes

def Proc.leaves (q : Proc) : List (Node × List (List Char)) := q.code.flatMap Instr.leaves

def Proc.cost (q : Proc) : ℕ := (q.code.map Instr.cost).sum

def Procs.cost (s : Procs) : ℕ := (s.procs.map Proc.cost).sum

/-- Every process and every call of `exec` is where it should be; what has been run and what is still to be run
make up the tree; and a parent comes before its children. -/
structure Inv (root : Cmd) (s : Procs) : Prop where
  placed : ∀ q ∈ s.procs, q.Placed root
  execs : ∀ e ∈ s.execs, e.Placed root
  nodes : (s.done ++ s.procs.flatMap Proc.nodes).Perm (root.nodes [])
  leaves : (s.execs.map ExecCall.leaf ++ s.procs.flatMap Proc.leaves).Perm (root.leaves [])
  parent : ∀ (y : ℕ) (q : Proc), s.procs[y]? = some q → ∀ x ∈ q.parent, x < y

section

variable {root : Cmd} {s s' : Procs} {q : Proc} {m : Made} {x y : ℕ}

lemma next_isSome (h : q.code ≠ []) : ∃ m, q.next x = some m := by
  unfold Proc.next
  split
  case h_1 hq => exact absurd hq h
  all_goals (repeat' split) <;> exact ⟨_, rfl⟩

lemma runcmd_parent (n : Node) (c : Cmd) : (q.runcmd n c).proc.parent = q.parent ∧ (q.runcmd n c).child = none := by
  unfold Proc.runcmd
  (repeat' split) <;> exact ⟨rfl, rfl⟩

lemma next_parent (hm : q.next x = some m) : m.proc.parent = q.parent ∧ ∀ q' ∈ m.child, q'.parent = some x := by
  unfold Proc.next at hm
  split at hm
  case h_1 => cases hm
  case h_2 n c _ _ =>
    cases hm
    obtain ⟨hp, hc⟩ := runcmd_parent n c
    exact ⟨hp, fun _ hq' => by rw [hc] at hq'; cases hq'⟩
  all_goals
    (repeat' split at hm) <;> cases hm <;> exact ⟨rfl, fun _ hq' => by cases hq' <;> rfl⟩

lemma step_cases (h : step s x = some s') : ∃ q m, s.procs[x]? = some q ∧ q.next x = some m ∧
    (s' = s.put x m ∨ ∃ y, s' = (s.put x m).reap y) := by
  unfold step at h
  split at h
  · cases h
  · rename_i q hq
    split at h
    · split at h
      · obtain ⟨m, hm, rfl⟩ := map_eq_some_iff.mp h
        exact ⟨q, m, hq, hm, .inr ⟨_, rfl⟩⟩
      · split at h
        · cases h
        · obtain ⟨m, hm, rfl⟩ := map_eq_some_iff.mp h
          exact ⟨q, m, hq, hm, .inl rfl⟩
    · obtain ⟨m, hm, rfl⟩ := map_eq_some_iff.mp h
      exact ⟨q, m, hq, hm, .inl rfl⟩

lemma reap_map {β : Type} {f : Proc → β} (hf : ∀ q : Proc, f { q with reaped := true } = f q) :
    (s.reap y).procs.map f = s.procs.map f := by
  apply ext_getElem?
  intro i
  simp only [Procs.reap, getElem?_map, getElem?_modify]
  cases s.procs[i]? with
  | none => rfl
  | some q => by_cases hi : y = i <;> simp [hi, hf]

lemma reap_inv (h : Inv root s) : Inv root (s.reap y) := by
  have hmem : ∀ {P : Proc → Prop}, (∀ q : Proc, P { q with reaped := true } = P q) → (∀ q ∈ s.procs, P q) →
      ∀ q ∈ (s.reap y).procs, P q := by
    intro P hP hs q hq
    have hall : ∀ p ∈ s.procs.map P, p := forall_mem_map.mpr hs
    rw [← reap_map (y := y) hP] at hall
    exact hall _ (mem_map_of_mem hq)
  refine ⟨hmem (fun _ => rfl) h.placed, h.execs, ?_, ?_, fun z q hq p hp => ?_⟩
  · rw [flatMap_def, reap_map fun _ => rfl]
    exact h.nodes
  · rw [flatMap_def, reap_map fun _ => rfl]
    exact h.leaves
  · have hq' := congrArg (·[z]?) (reap_map (s := s) (y := y) (f := Proc.parent) fun _ => rfl)
    simp only [getElem?_map, hq, map_some] at hq'
    obtain ⟨q', hz, hpar⟩ := map_eq_some_iff.mp hq'.symm
    exact h.parent z q' hz p (hpar ▸ hp)

lemma put_split (hq : s.procs[x]? = some q) :
    ∃ l1 l2, s.procs = l1 ++ q :: l2 ∧ (s.put x m).procs = l1 ++ m.proc :: (l2 ++ m.child.toList) := by
  obtain ⟨hx, rfl⟩ := List.getElem?_eq_some_iff.mp hq
  obtain ⟨l1, l2, hs, -, hset⟩ := @List.exists_of_set _ x m.proc s.procs hx
  exact ⟨l1, l2, hs, by simp [Procs.put, hset]⟩

lemma put_perm {β : Type} {f : Proc → List β} {done old : List β} (hq : s.procs[x]? = some q)
    (h : (done ++ f m.proc ++ m.child.toList.flatMap f).Perm (f q)) :
    (old ++ done ++ (s.put x m).procs.flatMap f).Perm (old ++ s.procs.flatMap f) := by
  obtain ⟨l1, l2, hs, hput⟩ := put_split (m := m) hq
  rw [hs, hput]
  simp only [flatMap_append, flatMap_cons, append_assoc]
  refine List.Perm.append_left _ ?_
  have hmove : (done ++ (l1.flatMap f ++ (f m.proc ++ (l2.flatMap f ++ m.child.toList.flatMap f)))).Perm
      (l1.flatMap f ++ ((done ++ f m.proc ++ m.child.toList.flatMap f) ++ l2.flatMap f)) := by
    rw [← Multiset.coe_eq_coe]
    simp only [← Multiset.coe_add]
    abel
  exact hmove.trans ((h.append_right _).append_left _)

lemma put_inv (h : Inv root s) (hq : s.procs[x]? = some q) (hm : q.next x = some m) : Inv root (s.put x m) := by
  have hat := h.placed q (mem_of_getElem? hq)
  have hp := next_placed hat hm
  have hb := next_balanced hat hm
  obtain ⟨hpar, hchild⟩ := next_parent hm
  obtain ⟨hx, -⟩ := List.getElem?_eq_some_iff.mp hq
  refine ⟨fun q' hq' => ?_, fun e he => ?_, ?_, ?_, fun z q' hz p hp' => ?_⟩
  · rcases List.mem_append.mp hq' with hq' | hq'
    · rcases mem_or_eq_of_mem_set hq' with hq' | rfl
      · exact h.placed q' hq'
      · exact hp.proc
    · exact hp.child q' (mem_toList.mp hq')
  · rcases List.mem_append.mp he with he | he
    · exact h.execs e he
    · exact hp.execs e he
  · exact (put_perm hq hb.nodes).trans h.nodes
  · have hl : (s.execs.map ExecCall.leaf ++ m.execs.map ExecCall.leaf ++ (s.put x m).procs.flatMap Proc.leaves).Perm
        (s.execs.map ExecCall.leaf ++ s.procs.flatMap Proc.leaves) := put_perm hq hb.leaves
    rw [← map_append] at hl
    exact hl.trans h.leaves
  · rcases Nat.lt_or_ge z s.procs.length with hlt | hge
    · rw [Procs.put, getElem?_append_left (by rwa [length_set]), getElem?_set] at hz
      split at hz
      · rename_i hxz
        subst hxz
        cases hz
        exact h.parent x q hq p (hpar ▸ hp')
      · exact h.parent z q' hz p hp'
    · rw [Procs.put, getElem?_append_right (by rwa [length_set])] at hz
      have hmem : q' ∈ m.child := mem_toList.mp (mem_of_getElem? hz)
      rw [hchild q' hmem] at hp'
      cases hp'
      exact lt_of_lt_of_le hx hge

lemma step_inv (h : step s x = some s') (hs : Inv root s) : Inv root s' := by
  obtain ⟨q, m, hq, hm, rfl | ⟨y, rfl⟩⟩ := step_cases h
  · exact put_inv hs hq hm
  · exact reap_inv (put_inv hs hq hm)

lemma start_inv (root : Cmd) : Inv root (start root) := by
  refine ⟨?_, fun _ he => absurd he not_mem_nil, ?_, ?_, fun y q hq => ?_⟩
  · exact forall_mem_singleton.mpr (.run .root)
  · simp [start, Proc.nodes, Instr.nodes]
  · simp [start, Proc.leaves, Instr.leaves]
  · obtain rfl := mem_singleton.mp (mem_of_getElem? hq)
    exact fun _ hp => by cases hp

lemma reap_cost : (s.reap y).cost = s.cost := congrArg List.sum (reap_map fun _ => rfl)

lemma step_cost (h : step s x = some s') (hs : Inv root s) : s'.cost < s.cost := by
  have hput : ∀ q m, s.procs[x]? = some q → q.next x = some m → (s.put x m).cost < s.cost := by
    intro q m hq hm
    have hb := (next_balanced (hs.placed q (mem_of_getElem? hq)) hm).cost
    obtain ⟨l1, l2, hsplit, hput⟩ := put_split (m := m) hq
    have hb' : m.proc.cost + (m.child.toList.map Proc.cost).sum < q.cost := hb
    simp only [Procs.cost, hsplit, hput, map_append, map_cons, sum_append, sum_cons]
    omega
  obtain ⟨q, m, hq, hm, rfl | ⟨y, rfl⟩⟩ := step_cases h
  · exact hput q m hq hm
  · rw [reap_cost]
    exact hput q m hq hm

lemma run_inv {xs : List ℕ} (h : run step (start root) xs = some s) : Inv root s :=
  run_invariant (fun _ _ _ => step_inv) h (start_inv root)

lemma run_cost {xs : List ℕ} (h : run step s xs = some s') (hs : Inv root s) : xs.length + s'.cost ≤ s.cost := by
  induction xs generalizing s with
  | nil =>
    cases h
    simp
  | cons x xs ih =>
    obtain ⟨t, ht, h'⟩ := run_cons_eq_some.mp h
    have hlt := step_cost ht hs
    have hle := ih h' (step_inv ht hs)
    rw [length_cons]
    omega

/-- When nothing can go on, everything has exited: the last process that has not exited does not wait for
another. -/
lemma exited_of_stuck (hs : Inv root s) (hstuck : ∀ x, step s x = none) :
    ∀ d x q, s.procs.length - x = d → s.procs[x]? = some q → q.code = [] := by
  intro d
  induction d using Nat.strong_induction_on with
  | _ d ih =>
    intro x q hd hq
    by_contra hcode
    obtain ⟨hx, -⟩ := List.getElem?_eq_some_iff.mp hq
    obtain ⟨m, hm⟩ := next_isSome (x := x) hcode
    have hnone := hstuck x
    simp only [step, hq, hm, map_some] at hnone
    split at hnone
    · split at hnone
      · cases hnone
      · rename_i hfind
        split at hnone
        · rename_i hany
          -- a child that has not been waited for has exited
          obtain ⟨q', hmem, hq'⟩ := any_eq_true.mp hany
          simp only [Bool.and_eq_true, decide_eq_true_eq, Bool.not_eq_true'] at hq'
          obtain ⟨y, hy⟩ := getElem?_of_mem hmem
          have hxy := hs.parent y q' hy x hq'.1
          have hcode' := ih (s.procs.length - y) (by omega) y q' rfl hy
          have hzombie : Proc.zombie x q' = true := by simp [Proc.zombie, hq', hcode']
          exact absurd hzombie (by simp [findIdx?_eq_none_iff.mp hfind q' hmem])
        · cases hnone
    · cases hnone

end

/-! ### Who holds the ends of a pipe -/

/-- The command that the process is at. -/
def Proc.place (q : Proc) : Node :=
  match q.code with
  | [.run n _] => n
  | _ => q.node

/-- The process that made the pipe of node `n` has still to close it, or a child of it has still to become the
left or the right side. -/
def Proc.Piping (q : Proc) (n : Node) : Prop :=
  .closeP true ∈ q.code ∧ (q.node = n ∧ .exit ∈ q.code ∨ ∃ k c, .run (k :: n) c ∈ q.code)

/-- The write end is the output of what is under the left side of `n`, the read end the input of what is under
the right side. -/
def EndOf (k n : Node) (fd : Fin NOFILE) (w : Bool) : Prop :=
  w = true ∧ fd = 1 ∧ 0 :: n <:+ k ∨ w = false ∧ fd = 0 ∧ 1 :: n <:+ k

section

variable {root : Cmd} {k n m : Node} {c : Cmd} {i o x : Obj} {fd : Fin NOFILE} {w : Bool}

lemma Wired.ends (h : Wired root k c i o) :
    (∀ n w, i = .pipe n w → w = false ∧ 1 :: n <:+ k) ∧ (∀ n w, o = .pipe n w → w = true ∧ 0 :: n <:+ k) := by
  have hup : ∀ {t : ℕ} {k n : Node}, n <:+ k → n <:+ t :: k := fun h => h.trans (suffix_cons _ _)
  induction h with
  | root => exact ⟨fun _ _ h => (by cases h), fun _ _ h => (by cases h)⟩
  | input _ _ ih => exact ⟨fun _ _ h => (by cases h), fun n w h => (ih.2 n w h).imp_right hup⟩
  | output _ _ ih => exact ⟨fun n w h => (ih.1 n w h).imp_right hup, fun _ _ h => (by cases h)⟩
  | pipeLeft _ ih =>
    refine ⟨fun n w h => (ih.1 n w h).imp_right hup, ?_⟩
    rintro n w ⟨⟩
    exact ⟨rfl, suffix_refl _⟩
  | pipeRight _ ih =>
    refine ⟨?_, fun n w h => (ih.2 n w h).imp_right hup⟩
    rintro n w ⟨⟩
    exact ⟨rfl, suffix_refl _⟩
  | listLeft _ ih | listRight _ ih | back _ ih =>
    exact ⟨fun n w h => (ih.1 n w h).imp_right hup, fun n w h => (ih.2 n w h).imp_right hup⟩

lemma of_update_none (h : update f a none fd = some x) : f fd = some x := by
  by_cases hfd : fd = a
  · rw [hfd, update_self] at h
    cases h
  · rwa [update_of_ne hfd] at h

lemma Wired.endOf (hw : Wired root k c i o) (h : std i o fd = some (.pipe n w)) : EndOf k n fd w := by
  unfold std at h
  split at h
  · rename_i hfd
    obtain ⟨hw, hk⟩ := hw.ends.1 n w (some.inj h)
    exact .inr ⟨hw, hfd, hk⟩
  · split at h
    · rename_i hfd
      obtain ⟨hw, hk⟩ := hw.ends.2 n w (some.inj h)
      exact .inl ⟨hw, hfd, hk⟩
    · split at h <;> cases h

lemma Wired.endOf_piped (hw : Wired root k c i o) (h : piped m i o fd = some (.pipe n w)) : EndOf k n fd w ∨ n = m := by
  unfold piped at h
  by_cases h4 : fd = 4
  · rw [h4, update_self] at h
    cases h
    exact .inr rfl
  rw [update_of_ne h4] at h
  by_cases h3 : fd = 3
  · rw [h3, update_self] at h
    cases h
    exact .inr rfl
  rw [update_of_ne h3] at h
  exact .inl (hw.endOf h)

lemma Wired.holds {q : Proc} (hw : Wired root k c i o) (h : piped m i o fd = some (.pipe n w)) (hk : k <:+ q.place)
    (hq : q.Piping m) : q.Piping n ∨ EndOf q.place n fd w := by
  rcases hw.endOf_piped h with he | rfl
  · refine .inr (he.imp ?_ ?_)
    · exact fun ⟨hw, hfd, hn⟩ => ⟨hw, hfd, hn.trans hk⟩
    · exact fun ⟨hw, hfd, hn⟩ => ⟨hw, hfd, hn.trans hk⟩
  · exact .inl hq

/-- **The ends of a pipe are held by the two sides**, once they run and the process that made it has closed it. -/
lemma holders {q : Proc} (h : q.Placed root) (ho : q.ofile fd = some (.pipe n w)) : q.Piping n ∨ EndOf q.place n fd w := by
  obtain ⟨parent, node, code, p, ofile, reaped⟩ := q
  change At root node code p ofile at h
  change ofile fd = _ at ho
  cases h with
  | run h | program h | list h | listWait h | back h | pipeWait h | pipeWait2 h | exit h => exact .inr (h.endOf ho)
  | redir h => exact .inr (h.endOf (of_update_none ho))
  | exited => cases ho
  | pipe h | pipeRight h | pipeClose h => exact h.holds ho (suffix_refl _) ⟨by simp, .inl ⟨rfl, by simp⟩⟩
  | pipeClose2 h => exact h.holds (of_update_none ho) (suffix_refl _) ⟨by simp, .inl ⟨rfl, by simp⟩⟩
  | left h | right h => exact h.holds ho (suffix_cons _ _) ⟨by simp, .inr ⟨_, _, mem_of_getLast? rfl⟩⟩
  | leftDup h | rightDup h =>
    exact h.holds (of_update_none ho) (suffix_cons _ _) ⟨by simp, .inr ⟨_, _, mem_of_getLast? rfl⟩⟩
  | leftClose h => exact h.pipeLeft.holds ho (suffix_refl _) ⟨by simp, .inr ⟨_, _, mem_of_getLast? rfl⟩⟩
  | leftClose2 h =>
    exact h.pipeLeft.holds (of_update_none ho) (suffix_refl _) ⟨by simp, .inr ⟨_, _, mem_of_getLast? rfl⟩⟩
  | rightClose h => exact h.pipeRight.holds ho (suffix_refl _) ⟨by simp, .inr ⟨_, _, mem_of_getLast? rfl⟩⟩
  | rightClose2 h =>
    exact h.pipeRight.holds (of_update_none ho) (suffix_refl _) ⟨by simp, .inr ⟨_, _, mem_of_getLast? rfl⟩⟩

end

/-! ### No node is run twice -/

lemma suffix_of_mem_nodes {c : Cmd} {n k : Node} (h : k ∈ c.nodes n) : n <:+ k := by
  have hup : ∀ {t : ℕ} {n k : Node}, t :: n <:+ k → n <:+ k := fun h => (suffix_cons _ _).trans h
  induction c generalizing n with
  | exec argv => exact mem_singleton.mp h ▸ suffix_refl _
  | redir c r ih | back c ih =>
    rcases mem_cons.mp h with rfl | h
    · exact suffix_refl _
    · exact hup (ih h)
  | list l r ihl ihr | pipe l r ihl ihr =>
    rcases mem_cons.mp h with rfl | h
    · exact suffix_refl _
    · rcases List.mem_append.mp h with h | h
      · exact hup (ihl h)
      · exact hup (ihr h)

lemma self_notMem_nodes (c : Cmd) (t : ℕ) (n : Node) : n ∉ c.nodes (t :: n) := fun h => by
  have hle := (suffix_of_mem_nodes h).length_le
  rw [length_cons] at hle
  omega

lemma nodes_disjoint (l r : Cmd) (n : Node) : (l.nodes (0 :: n)).Disjoint (r.nodes (1 :: n)) := by
  intro k hl hr
  -- two suffixes of one length are the same
  have hsuf := suffix_of_suffix_length_le (suffix_of_mem_nodes hl) (suffix_of_mem_nodes hr) le_rfl
  have heq : 0 :: n = 1 :: n := hsuf.eq_of_length rfl
  cases heq

lemma nodup_nodes (c : Cmd) (n : Node) : (c.nodes n).Nodup := by
  induction c generalizing n with
  | exec argv => exact nodup_singleton n
  | redir c r ih | back c ih => exact nodup_cons.mpr ⟨self_notMem_nodes c 0 n, ih _⟩
  | list l r ihl ihr | pipe l r ihl ihr =>
    refine nodup_cons.mpr ⟨?_, nodup_append'.mpr ⟨ihl _, ihr _, nodes_disjoint l r n⟩⟩
    rw [List.mem_append, not_or]
    exact ⟨self_notMem_nodes l 0 n, self_notMem_nodes r 1 n⟩

/-- **`runcmd` wires every command.**  Whatever the order of the processes, a program is started with the
descriptors of its leaf; no node is run twice, so that a pipe and a file have one name; the ends of a pipe are
held by its two sides only, once these run and its maker has closed it; the processes stop; and then every
program has been started, once. -/
theorem runcmd_wires {root : Cmd} {xs : List ℕ} {s : Procs} (h : run step (start root) xs = some s) :
    (∀ e ∈ s.execs, ∃ i o, Wired root e.node (.exec e.argv) i o ∧ e.ofile = std i o) ∧ s.done.Nodup ∧
    (∀ q ∈ s.procs, ∀ fd n w, q.ofile fd = some (.pipe n w) → q.Piping n ∨ EndOf q.place n fd w) ∧
    xs.length ≤ root.cost ∧
    ((∀ x, step s x = none) → (s.execs.map ExecCall.leaf).Perm (root.leaves [])) := by
  have hs := run_inv h
  refine ⟨fun e he => (hs.execs e he).2, ?_, fun q hq fd n w ho => holders (hs.placed q hq) ho, ?_, fun hstuck => ?_⟩
  · exact (hs.nodes.nodup_iff.mpr (nodup_nodes root [])).of_append_left
  · have hcost := run_cost h (start_inv root)
    have hstart : (start root).cost = root.cost := rfl
    omega
  · have hexited : ∀ q ∈ s.procs, q.code = [] := by
      intro q hq
      obtain ⟨x, hx⟩ := getElem?_of_mem hq
      exact exited_of_stuck hs hstuck _ x q rfl hx
    have hleaves := hs.leaves
    have hnil : s.procs.flatMap Proc.leaves = [] :=
      flatMap_eq_nil_iff.mpr fun q hq => by rw [Proc.leaves, hexited q hq, flatMap_nil]
    rwa [hnil, append_nil] at hleaves

/-- `a | b`. -/
def pipeline : Cmd := .pipe (.exec [['a']]) (.exec [['b']])

theorem runcmd_wires_pipeline : ∃ s, run step (start pipeline) [0, 0, 1, 0, 2, 2, 1, 1, 2, 1, 2, 1, 2, 0, 0] = some s ∧
    s.execs.map ExecCall.leaf = [([0], [['a']]), ([1], [['b']])] ∧
    ∀ e ∈ s.execs, ∃ i o, Wired pipeline e.node (.exec e.argv) i o ∧ e.ofile = std i o := by
  have hrun : (run step (start pipeline) [0, 0, 1, 0, 2, 2, 1, 1, 2, 1, 2, 1, 2, 0, 0]).map
      (fun s => s.execs.map ExecCall.leaf) = some [([0], [['a']]), ([1], [['b']])] := by decide +kernel
  obtain ⟨s, hs, hleaves⟩ := map_eq_some_iff.mp hrun
  exact ⟨s, hs, hleaves, (runcmd_wires hs).1⟩

end Xv6.Shell
