import Xv6.Log.Code

/-!
# What the code of `commit` relies on

`commit` runs while other processes use the cache.  What it may rely on between two of its calls is
collected in `Known`: the blocks it holds, which of them it has modified and which it has written
through, which log blocks carry a copy of which home blocks, and which blocks are still pinned.
`Known.next` says what a call needs and what is known after it; `Checked` runs it over the code.
-/

namespace Xv6.Bio

open Log List

structure Known where
  /-- The blocks of the buffers read and not yet released, the last one first. -/
  stack : List ℕ
  /-- Those modified since they were last written. -/
  dirty : List ℕ
  /-- Those whose buffer and disk block agree. -/
  written : List ℕ
  /-- A log block with the home block whose contents it has. -/
  copies : List (ℕ × ℕ)
  /-- The blocks of the transaction that are still pinned. -/
  pend : List ℕ

namespace Known

/-- After a store to block `x`. -/
def touch (a : Known) (x : ℕ) : Known :=
  { a with dirty := x :: a.dirty, written := a.written.filter (· ≠ x) }

/-- Block `x` is a log block that carries no copy. -/
def Fresh (L : LogArea) (copies : List (ℕ × ℕ)) (x : ℕ) : Prop := L.Mem x ∧ ∀ c ∈ copies, c.1 ≠ x
  deriving Decidable

/-- What is known after a call, if what it needs is known before. -/
def next (L : LogArea) (a : Known) : Cmd → Option Known
  | .bread b => some { a with stack := b :: a.stack }
  | .memmove dst src =>
    match a.stack[dst]?, a.stack[src]? with
    | some x, some y =>
      -- either a new copy of a home block, or the copy back of what is there already
      if Fresh L a.copies x ∧ ¬ L.Mem y then some { a.touch x with copies := (x, y) :: a.copies }
      else if ¬ L.Mem x ∧ (y, x) ∈ a.copies then some (a.touch x)
      else none
    | _, _ => none
  | .putHead =>
    match a.stack[0]? with
    | some x => if Fresh L a.copies x then some (a.touch x) else none
    | none => none
  | .getHead => none
  | .bwrite k =>
    match a.stack[k]? with
    | some x => some { a with dirty := a.dirty.filter (· ≠ x), written := x :: a.written }
    | none => none
  | .bunpin k =>
    match a.stack[k]?, a.pend with
    | some x, y :: ys => if x = y ∧ x ∈ a.written then some { a with pend := ys } else none
    | _, _ => none
  | .brelse k =>
    match a.stack[k]? with
    | some x =>
      if x ∉ a.dirty then
        some { a with stack := a.stack.eraseIdx k, written := a.written.filter (· ≠ x) }
      else none
    | none => none
  | .clear => if a.pend = [] then some a else none

end Known

/-- The code finds what it needs at every call, and ends with nothing held and nothing pinned. -/
def Checked (L : LogArea) : Known → List Cmd → Prop
  | a, [] => a.stack = [] ∧ a.pend = []
  | a, c :: cs => ∃ a', a.next L c = some a' ∧ Checked L a' cs

/-- The number of `bunpin`s in a piece of code. -/
def bunpins : List Cmd → ℕ
  | [] => 0
  | .bunpin _ :: cs => bunpins cs + 1
  | _ :: cs => bunpins cs

/-- What `commit` knows between the iterations of its loops. -/
def between (copies : List (ℕ × ℕ)) (pend : List ℕ) : Known := ⟨[], [], [], copies, pend⟩

/-- The copies that `write_log` makes from entry `tail` on. -/
def copiesFrom (L : LogArea) (tail : ℕ) : List ℕ → List (ℕ × ℕ)
  | [] => []
  | b :: bs => (L.slot tail, b) :: copiesFrom L (tail + 1) bs

variable {b tail : ℕ} {bs : List ℕ}

section

variable {L : LogArea} {copies : List (ℕ × ℕ)} {pend : List ℕ} {rest : List Cmd}

lemma checked_writeLogStep (hb : ¬ L.Mem b) (hx : Known.Fresh L copies (L.slot tail))
    (h : Checked L (between ((L.slot tail, b) :: copies) pend) rest) :
    Checked L (between copies pend) (writeLogStep L b tail ++ rest) := by
  have hne : L.slot tail ≠ b := by
    rintro rfl
    exact hb hx.1
  simpa [writeLogStep, Checked, Known.next, Known.touch, between, hx, hb, hne, hne.symm] using h

lemma checked_writeLog (hbs : ∀ b ∈ bs, ¬ L.Mem b) (hfit : tail + bs.length < L.size)
    (hold : ∀ c ∈ copies, c.1 < L.slot tail) (h : ∀ copies', copiesFrom L tail bs ⊆ copies' → copies ⊆ copies' →
      (∀ c ∈ copies', c ∈ copies ∨ L.start < c.1) → Checked L (between copies' pend) rest) :
    Checked L (between copies pend) (writeLog L tail bs ++ rest) := by
  induction bs generalizing tail copies with
  | nil => exact h copies (by simp [copiesFrom]) (List.Subset.refl _) fun c hc => .inl hc
  | cons b bs ih =>
    rw [writeLog, append_assoc]
    rw [length_cons] at hfit
    have hslot : L.Mem (L.slot tail) := by
      unfold LogArea.Mem LogArea.slot
      omega
    refine checked_writeLogStep (hbs b mem_cons_self) ⟨hslot, fun c hc => (hold c hc).ne⟩ ?_
    refine ih (fun b' hb' => hbs b' (mem_cons_of_mem _ hb')) (by omega) ?_ ?_
    · intro c hc
      rcases mem_cons.mp hc with rfl | hc
      · simp [LogArea.slot]
      · have := hold c hc
        unfold LogArea.slot at *
        omega
    · intro copies' h1 h2 h3
      refine h copies' ?_ (fun c hc => h2 (mem_cons_of_mem _ hc)) fun c hc => ?_
      · intro c hc
        rcases mem_cons.mp hc with rfl | hc
        · exact h2 mem_cons_self
        · exact h1 hc
      · rcases h3 c hc with hc | hc
        · rcases mem_cons.mp hc with rfl | hc
          · refine .inr ?_
            simp only [LogArea.slot]
            omega
          · exact .inl hc
        · exact .inr hc

lemma checked_writeHead (hx : Known.Fresh L copies L.start)
    (h : Checked L (between copies pend) rest) :
    Checked L (between copies pend) (writeHead L ++ rest) := by
  simpa [writeHead, Checked, Known.next, Known.touch, between, hx] using h

lemma checked_installStep (hb : ¬ L.Mem b) (hcopy : (L.slot tail, b) ∈ copies) (hx : L.Mem (L.slot tail))
    (h : Checked L (between copies pend) rest) :
    Checked L (between copies (b :: pend)) (installStep L false b tail ++ rest) := by
  have hne : L.slot tail ≠ b := by
    rintro rfl
    exact hb hx
  have hold : ¬ Known.Fresh L copies b := fun hf => hb hf.1
  simpa [installStep, Checked, Known.next, Known.touch, between, hb, hcopy, hold, hne, hne.symm] using h

lemma checked_installTrans (hbs : ∀ b ∈ bs, ¬ L.Mem b) (hfit : tail + bs.length < L.size)
    (hcopy : copiesFrom L tail bs ⊆ copies) (h : Checked L (between copies []) rest) :
    Checked L (between copies bs) (installTrans L false tail bs ++ rest) := by
  induction bs generalizing tail with
  | nil => exact h
  | cons b bs ih =>
    rw [installTrans, append_assoc]
    rw [length_cons] at hfit
    have hslot : L.Mem (L.slot tail) := by
      unfold LogArea.Mem LogArea.slot
      omega
    refine checked_installStep (hbs b mem_cons_self) (hcopy mem_cons_self) hslot ?_
    exact ih (fun b' hb' => hbs b' (mem_cons_of_mem _ hb')) (by omega)
      fun c hc => hcopy (mem_cons_of_mem _ hc)

/-- **`commit` passes the check**, for blocks outside the log area that fit in the log. -/
lemma checked_commit {lh : List ℕ} (hlh : ∀ b ∈ lh, ¬ L.Mem b) (hfit : lh.length < L.size) :
    Checked L (between [] lh) (commit L lh) := by
  by_cases hpos : 0 < lh.length
  swap
  · have hnil : lh = [] := by
      rw [← length_eq_zero_iff]
      omega
    simp [commit, hnil, Checked, between]
  rw [commit, if_pos hpos]
  simp only [append_assoc]
  refine checked_writeLog hlh (by omega) (by simp) fun copies' hcopies _ hnew => ?_
  have hstart : Known.Fresh L copies' L.start := by
    refine ⟨⟨le_rfl, by have := L.pos; omega⟩, fun c hc => ?_⟩
    rcases hnew c hc with h | h
    · simp at h
    · omega
  refine checked_writeHead hstart (checked_installTrans hlh (by omega) hcopies ?_)
  have hhead : Checked L (between copies' []) (writeHead L ++ []) :=
    checked_writeHead hstart (by simp [Checked, between])
  simpa [Checked, Known.next, between] using hhead

end

lemma bunpins_of_checked {code : List Cmd} (h : Checked L a code) :
    bunpins code = a.pend.length := by
  induction code generalizing a with
  | nil => simp [bunpins, h.2]
  | cons c cs ih =>
    obtain ⟨a', ha, h'⟩ := h
    have hcs := ih h'
    cases c with
    | bunpin k =>
      simp only [Known.next] at ha
      split at ha
      · rename_i x y ys _ hp
        split at ha <;> cases ha
        simp [bunpins, hcs, hp]
      · cases ha
    | memmove dst src =>
      simp only [Known.next] at ha
      split at ha
      · split at ha
        · cases ha
          simpa [bunpins, Known.touch] using hcs
        · split at ha <;> cases ha
          simpa [bunpins, Known.touch] using hcs
      · cases ha
    | _ =>
      simp only [Known.next] at ha
      (try split at ha) <;> (try split at ha) <;> cases ha <;> simpa [bunpins, Known.touch] using hcs

end Xv6.Bio
