import Xv6.Fs.Paths

/-!
# Calls that fail

`create` and `sys_link` store inodes, entries and link counts before the last step that can fail.  A call that
returns -1 has undone what it stored.
-/

namespace Xv6.Fs

open Lib Log

variable {P : Type} [Fintype P] [DecidableEq P] {sb : Superblock} {d : Disk} {p₀ : P} {s s' : State P}

/-- The names, and the type, links, size and contents of every inode in use, are as before, and so are the references
to inodes and files; no inode is locked. -/
structure Unchanged (sb : Superblock) (s s' : State P) : Prop where
  same : tree sb s' = tree sb s
  kept : ∀ i, sb.Inum i → (dinode sb s.disk i).type ≠ 0 → SameFile sb s.disk s'.disk i
  refs : ∀ e, (s'.ino e).ref = (s.ino e).ref
  inums : ∀ e, 0 < (s.ino e).ref → (s'.ino e).inum = (s.ino e).inum
  unlocked : ∀ e, (s'.ino e).locked = false
  proc : s'.proc = s.proc
  file : s'.file = s.file

omit [DecidableEq P] in
lemma Undone.unchanged (h : Inv sb (.const True True) s [] []) (hu : Undone sb (.const True True) s [] [] s') :
    Unchanged sb s s' := by
  have hall := Sel.all_const (Z := True) (G := True) trivial trivial
  have hholders : ∀ e, s'.holders e = s.holders e := holders_congr hu.after.proc hu.after.file
  have hrefs : ∀ {t : State P}, Inv sb (.const True True) t [] [] → ∀ e, (t.ino e).ref = t.holders e := by
    intro t ht e
    rw [ht.refs, List.map_nil, List.count_nil, Nat.add_zero]
  refine ⟨(hu.same hall).1, fun i hi ht => (hu.same hall).2 i hi ht not_false, fun e => ?_, fun e he => ?_, fun e => ?_,
    hu.after.proc, hu.after.file⟩
  · rw [hrefs hu.after.inv, hrefs h, hholders]
  · rw [hrefs h] at he
    exact hu.after.pinned e he
  · simpa using hu.after.inv.locks e

/-- **The states that calls reach** from an image with a tree of directories. -/
lemma ready_of_run (h : Planted sb d p₀) {as : List (P × Op P)} (hrun : run (stepOp sb) (boot d p₀) as = some s) :
    Ready sb True True s := by
  refine run_invariant (I := Ready sb True True) ?_ hrun h.ready
  rintro s ⟨p, o⟩ s' hs hready
  exact hready.next h.layout h.root hs

/-- **A failed call on names changes nothing.**  In every state that calls reach, if `link`, `unlink`, `mkdir` or
`mknod` returns -1, then all is as it was before the call. -/
theorem failed_call_unchanged (h : Planted sb d p₀) {as : List (P × Op P)} (hrun : run (stepOp sb) (boot d p₀) as = some s)
    {p : P} {c : Call P} (hc : c.Names) (hfail : invoke sb s p c = some (.ok (-1, s'))) : Unchanged sb s s' := by
  have hready := ready_of_run h hrun
  unfold invoke at hfail
  obtain ⟨cwd, hcwd, hcall⟩ := Option.map_eq_some_iff.mp hfail
  have hspec : wp (call sb p cwd c) (fun _ => True) _ s :=
    call_exact (fun _ _ _ => trivial) h.layout h.root hready hcwd c
  exact Undone.unchanged hready.inv ((hspec.of_ok hcall).2 hc rfl)

/-- The outcome of a call that returns, and passes a test. -/
def returned (test : ℤ → State P → Bool) : Option (Except Stop (ℤ × State P)) → Bool
  | some (.ok (r, s)) => test r s
  | _ => false

omit [Fintype P] [DecidableEq P] in
lemma exists_of_returned {test : ℤ → State P → Bool} (h : returned test o = true) :
    ∃ r s, o = some (.ok (r, s)) ∧ test r s = true := by
  cases o with
  | none => cases h
  | some x =>
    cases x with
    | error e => cases h
    | ok x => exact ⟨x.1, x.2, rfl, h⟩

theorem failed_call_unchanged_mkdir :
    ∃ s', invoke smallSb (boot emptyDisk ()) () (.mkdir (userPath [46])) = some (.ok (-1, s')) ∧
      Unchanged smallSb (boot emptyDisk ()) s' := by
  have hfails : returned (fun r _ => decide (r = -1))
    (invoke smallSb (boot emptyDisk ()) () (.mkdir (userPath [46]))) = true := by decide +kernel
  obtain ⟨r, s', hcall, hr⟩ := exists_of_returned hfails
  rw [of_decide_eq_true hr] at hcall
  have hstart : run (stepOp smallSb) (boot emptyDisk ()) [] = some (boot emptyDisk ()) := rfl
  exact ⟨s', hcall, failed_call_unchanged planted_emptyDisk hstart (c := .mkdir (userPath [46])) trivial hcall⟩

/-! ### `open`

`create` is not undone when there is no file or descriptor for what it has created. -/

end Xv6.Fs
