import Xv6.Fs.FileData
import Xv6.Fs.Mkfs

/-!
# Writes that fail half way

`writei` copies into the buffer itself.  When the copy fails, what it has stored stays there, although the block
is not logged and not counted.  Here `writei` runs beside a record of what is logged or on disk for each block.
-/

namespace Xv6.Fs

open Lib Log Function

variable {P : Type}

/-- Programs over the buffers and what is logged or on disk. -/
abbrev LM (P : Type) (α : Type) : Type := Prog (State P × Disk) Stop α

section

variable {α : Type}

/-- An operation on the buffers alone. -/
def buffered (m : M P α) : LM P α := fun x =>
  match m x.1 with
  | .ok (a, s) => .ok (a, (s, x.2))
  | .error e => .error e

/-- An operation that calls `log_write` for each buffer that it changes. -/
def logged (m : M P α) : LM P α := fun x =>
  match m x.1 with
  | .ok (a, s) => .ok (a, (s, fun b => if s.disk b = x.1.disk b then x.2 b else s.disk b))
  | .error e => .error e

def logWrite (b : ℕ) : LM P Unit := Prog.modify fun x => (x.1, update x.2 b (x.1.disk b))

variable {m : M P α} {ok : Stop → Prop} {Q : α → State P × Disk → Prop} {s : State P} {l : Disk}

lemma wp_buffered : wp (buffered m) ok Q (s, l) ↔ wp m ok (fun a s' => Q a (s', l)) s := by
  unfold wp buffered
  cases m s with
  | ok r => rfl
  | error e => rfl

lemma wp_logged : wp (logged m) ok Q (s, l) ↔
    wp m ok (fun a s' => Q a (s', fun b => if s'.disk b = s.disk b then l b else s'.disk b)) s := by
  unfold wp logged
  cases m s with
  | ok r => rfl
  | error e => rfl

lemma wp_logged_self : wp (logged m) ok Q (s, s.disk) ↔ wp m ok (fun a s' => Q a (s', s'.disk)) s := by
  have hlog : ∀ s' : State P, (fun b => if s'.disk b = s.disk b then s.disk b else s'.disk b) = s'.disk := by
    intro s'
    funext b
    split
    · exact (‹_› : s'.disk b = s.disk b).symm
    · rfl
  rw [wp_logged]
  simp only [hlog]

end

section

variable (sb : Superblock)

/-- The loop of `writei`: the bytes written, the offset after them, and whether a copy has failed. -/
def writeLoopLog (e : Fin NINODE) (src : ℕ → Option ℕ) (n : ℕ) : ℕ → ℕ → ℕ → LM P ((ℕ × ℕ) × Bool)
  | 0, tot, off => pure ((tot, off), false)
  | fuel + 1, tot, off =>
    if tot < n then do
      let addr ← logged (bmap sb e (off / BSIZE))
      if addr = 0 then pure ((tot, off), false)
      else do
        let m := min (n - tot) (BSIZE - off % BSIZE)
        buffered (bmodify addr fun x => x.put (off % BSIZE) (mapped src tot m) fun k => (src (tot + k)).getD 0)
        if mapped src tot m < m then pure ((tot, off), true)
        else do
          logWrite addr
          writeLoopLog e src n fuel (tot + m) (off + m)
    else pure ((tot, off), false)

def writeiLog (e : Fin NINODE) (src : ℕ → Option ℕ) (off n : ℕ) : LM P (ℤ × Bool) := do
  let ip ← buffered (inode e)
  if off > ip.d.size ∨ (off + n) % 2 ^ 32 < off then pure (-1, false)
  else if off + n > MAXFILE * BSIZE then pure (-1, false)
  else do
    let r ← writeLoopLog sb e src n n 0 off
    buffered (setDinode e fun d => { d with size := if r.1.2 > d.size then r.1.2 else d.size })
    buffered (iupdate sb e)
    logWrite (sb.IBLOCK ip.inum)
    pure (r.1.1, r.2)

end

/-! ### The value and the buffers are those of `writei` -/

variable {n tot off : ℕ} {s s' : State P} {l : Disk}

section

variable {sb : Superblock} {e : Fin NINODE} {src : ℕ → Option ℕ} {ok : Stop → Prop}

lemma writeLoopLog_fst {fuel : ℕ} (h : wp (writeLoop sb e src n fuel tot off) ok Q s) :
    wp (writeLoopLog sb e src n fuel tot off) ok (fun r x => Q r.1 x.1) (s, l) := by
  induction fuel generalizing tot off s l with
  | zero => exact h
  | succ fuel ih =>
    rw [writeLoopLog]
    rw [writeLoop] at h
    refine wp_ite.mpr ⟨fun hlt => ?_, fun hge => ?_⟩
    · rw [if_pos hlt, wp_bind] at h
      rw [wp_bind, wp_logged]
      refine h.mono fun addr s' h' => ?_
      refine wp_ite.mpr ⟨fun h0 => ?_, fun h0 => ?_⟩
      · rw [if_pos h0] at h'
        exact h'
      · rw [if_neg h0, wp_bind] at h'
        rw [wp_bind, wp_buffered]
        refine h'.mono fun _ s'' h'' => ?_
        refine wp_ite.mpr ⟨fun hcopy => ?_, fun hcopy => ?_⟩
        · rw [if_pos hcopy] at h''
          exact h''
        · rw [if_neg hcopy] at h''
          exact ih h''
    · rw [if_neg hge] at h
      exact h

lemma writeiLog_fst (h : wp (writei sb e src off n) ok Q s) :
    wp (writeiLog sb e src off n) ok (fun r x => Q r.1 x.1) (s, l) := by
  simp only [writei, inode, wp_bind, wp_read, wp_pure] at h
  simp only [writeiLog, inode, wp_bind, wp_buffered, wp_read, wp_pure]
  refine wp_ite.mpr ⟨fun hc => ?_, fun hc => ?_⟩
  · rw [if_pos hc] at h
    exact h
  · rw [if_neg hc] at h
    refine wp_ite.mpr ⟨fun hc => ?_, fun hc => ?_⟩
    · rw [if_pos hc] at h
      exact h
    · rw [if_neg hc, wp_bind] at h
      rw [wp_bind]
      exact (writeLoopLog_fst h).mono fun r x h' => h'

lemma writei_of_writeiLog {failed : Bool} (h : writeiLog sb e src off n (s, l) = .ok ((r, failed), (s', l'))) :
    writei sb e src off n s = .ok (r, s') := by
  cases hrun : writei sb e src off n s with
  | ok x =>
    have hwp : wp (writei sb e src off n) (fun _ => False) (fun r s' => (r, s') = x) s := by
      unfold wp
      rw [hrun]
    have hlog := (writeiLog_fst (l := l) hwp).of_ok h
    rw [← hlog]
  | error err =>
    have hwp : wp (writei sb e src off n) (fun _ => True) (fun _ _ => False) s := by
      unfold wp
      rw [hrun]
      trivial
    exact ((writeiLog_fst (l := l) hwp).of_ok h).elim

end

/-! ### What a failing copy leaves behind -/

/-- The size of the pass of the loop after `tot` bytes. -/
def chunk (off n tot : ℕ) : ℕ := min (n - tot) (BSIZE - (off + tot) % BSIZE)

/-- The disk with the first `c` bytes of a pass in block `b`. -/
def copied (d : Disk) (b : ℕ) (src : ℕ → Option ℕ) (off tot c : ℕ) : Disk :=
  update d b ((d b).put ((off + tot) % BSIZE) c fun k => (src (tot + k)).getD 0)

lemma mapped_le (src : ℕ → Option ℕ) (a m : ℕ) : mapped src a m ≤ m := by
  rcases mapped_cases src a m with h | ⟨h, -⟩ <;> omega

lemma mapped_add (src : ℕ → Option ℕ) (a m k : ℕ) (h : mapped src a m = m) :
    mapped src a (m + k) = m + mapped src (a + m) k := by
  induction m generalizing a with
  | zero => simp
  | succ m ih =>
    rw [mapped] at h
    rw [Nat.add_right_comm, mapped]
    split at h
    · rename_i h0
      rw [if_pos h0, ih (a + 1) (Nat.succ.inj h), show a + 1 + m = a + (m + 1) by omega]
      omega
    · cases h

lemma mapped_of_lt (src : ℕ → Option ℕ) (a m k : ℕ) (h : mapped src a m < m) : mapped src a (m + k) = mapped src a m := by
  induction m generalizing a with
  | zero => cases h
  | succ m ih =>
    rw [mapped] at h
    rw [Nat.add_right_comm, mapped, mapped]
    split at h
    · rename_i h0
      rw [if_pos h0, if_pos h0, ih (a + 1) (Nat.lt_of_succ_lt_succ h)]
    · rename_i h0
      rw [if_neg h0, if_neg h0]

/-- A pass that fails stops at the first byte that is not mapped. -/
lemma mapped_pass {src : ℕ → Option ℕ} (htot : tot < n) (hall : mapped src 0 tot = tot)
    (hlt : mapped src tot (chunk off n tot) < chunk off n tot) :
    mapped src 0 n = tot + mapped src tot (chunk off n tot) := by
  have hle : chunk off n tot ≤ n - tot := Nat.min_le_left _ _
  have hrest := mapped_of_lt src tot (chunk off n tot) (n - tot - chunk off n tot) hlt
  rw [Nat.add_sub_cancel' hle] at hrest
  have hadd := mapped_add src 0 tot (n - tot) hall
  rwa [Nat.add_sub_cancel' htot.le, Nat.zero_add, hrest] at hadd

lemma copied_eq_iff {src : ℕ → Option ℕ} (hc : (off + tot) % BSIZE + c ≤ BSIZE) :
    copied d b src off tot c = d ↔ ∀ k, k < c → (d b).get ((off + tot) % BSIZE + k) = srcByte src (tot + k) := by
  unfold copied
  rw [update_eq_self_iff]
  constructor
  · intro h k hk
    have hget := congrArg (Bytes.get · ((off + tot) % BSIZE + k)) h
    simp only [Bytes.get_put] at hget
    rw [if_pos (by omega), Nat.add_sub_cancel_left] at hget
    exact hget.symm
  · intro h
    refine Bytes.ext fun x hx => ?_
    rw [Bytes.get_put]
    split
    · rename_i hin
      have hk := h (x - (off + tot) % BSIZE) (by omega)
      rw [Nat.add_sub_cancel' hin.1] at hk
      exact hk.symm
    · rfl

section

variable {sb : Superblock} {ok : Stop → Prop} (hl : Layout sb) {s : State P} {e : Fin NINODE} {D : ℕ → Dinode}
  (hD : D (s.ino e).inum = (s.ino e).d) (hi : sb.Inum (s.ino e).inum) (ht : (s.ino e).d.type ≠ 0)
  (hs : Solid sb D s.disk) {src : ℕ → Option ℕ} {off n : ℕ}

include hl hD hi ht hs

lemma writeLoopLog_data (hmax : off + n ≤ MAXFILE * BSIZE) (fuel tot : ℕ) (htot : tot ≤ n)
    (hall : mapped src 0 tot = tot) (hstart : tot = n ∨ tot = 0 ∨ (off + tot) % BSIZE = 0)
    (hw : Written sb D s.disk (s.ino e).inum src off tot D' d') :
    wp (writeLoopLog sb e src n fuel tot (off + tot)) ok (fun r x => ∃ D' d',
      Written sb D s.disk (s.ino e).inum src off r.1.1 D' d' ∧ r.1.2 = off + r.1.1 ∧ r.1.1 ≤ n ∧ x.2 = d' ∧
      (r.2 = true → r.1.1 < n ∧ mapped src 0 r.1.1 = r.1.1 ∧ (r.1.1 = 0 ∨ (off + r.1.1) % BSIZE = 0) ∧
        mapped src r.1.1 (chunk off n r.1.1) < chunk off n r.1.1 ∧
        slot sb D' d' ((s.ino e).inum, dataSlot ((off + r.1.1) / BSIZE)) ≠ 0 ∧
        x.1 = s.grown e (D' (s.ino e).inum) (copied d'
          (slot sb D' d' ((s.ino e).inum, dataSlot ((off + r.1.1) / BSIZE))) src off r.1.1
          (mapped src r.1.1 (chunk off n r.1.1))))) (s.grown e (D' (s.ino e).inum) d', d') := by
  induction fuel generalizing tot D' d' with
  | zero => exact ⟨D', d', hw, rfl, htot, rfl, fun h => absurd h Bool.false_ne_true⟩
  | succ fuel ih =>
    rw [writeLoopLog]
    refine wp_ite.mpr ⟨fun hlt => ?_, fun hge => ⟨D', d', hw, rfl, htot, rfl, fun h => absurd h Bool.false_ne_true⟩⟩
    rw [wp_bind]
    refine wp_logged_self.mpr ((bmap_written hl hD hi ht hs (by omega) hw).mono ?_)
    rintro a _ ⟨D1, d1, hw1, rfl, ha, -⟩
    rw [State.grown_disk]
    refine wp_ite.mpr ⟨fun ha0 => ⟨D1, d1, hw1, rfl, htot, rfl, fun h => absurd h Bool.false_ne_true⟩, fun ha0 => ?_⟩
    have h0 : slot sb D1 d1 ((s.ino e).inum, dataSlot ((off + tot) / BSIZE)) ≠ 0 := ha ha0 ▸ ha0
    have hmod := Nat.mod_lt (off + tot) (show 0 < BSIZE by decide)
    rw [show min (n - tot) (BSIZE - (off + tot) % BSIZE) = chunk off n tot from rfl]
    have hm : chunk off n tot ≤ n - tot ∧ chunk off n tot ≤ BSIZE - (off + tot) % BSIZE :=
      ⟨Nat.min_le_left _ _, Nat.min_le_right _ _⟩
    simp only [bmodify, wp_bind, wp_buffered, wp_modify]
    refine wp_ite.mpr ⟨fun hcopy => ?_, fun hcopy => ?_⟩
    · -- the copy fails: the block is not logged
      rw [ha ha0]
      exact ⟨D1, d1, hw1, rfl, htot, rfl, fun _ => ⟨hlt, hall, hstart.resolve_left (by omega), hcopy, h0, rfl⟩⟩
    · have hpass : mapped src tot (chunk off n tot) = chunk off n tot := by
        have := mapped_le src tot (chunk off n tot)
        omega
      have hw2 := hw1.store hl h0 (m := chunk off n tot) (by omega)
      rw [← ha ha0] at hw2
      rw [wp_bind, hpass, Nat.add_assoc off tot]
      simp only [logWrite, wp_modify, State.grown_disk, update_self]
      refine ih (tot + chunk off n tot) (by omega) ?_ ?_ hw2
      · rw [mapped_add src 0 tot _ hall, Nat.zero_add, hpass]
      · have hc : chunk off n tot = n - tot ∨ chunk off n tot = BSIZE - (off + tot) % BSIZE := min_choice _ _
        rw [BSIZE_eq] at hc hmod ⊢
        omega

end

/-- The bytes before the first one that is not mapped, as far as they go to the same block, are there already. -/
def Repeats (sb : Superblock) (D : ℕ → Dinode) (d : Disk) (i : ℕ) (src : ℕ → Option ℕ) (off n : ℕ) : Prop :=
  ∀ k < mapped src 0 n, mapped src 0 n - (off + mapped src 0 n) % BSIZE ≤ k →
    oldByte sb D d i (off + k) = srcByte src k

lemma pass_block (hk : k < chunk off n tot) :
    (off + tot + k) / BSIZE = (off + tot) / BSIZE ∧ (off + tot + k) % BSIZE = (off + tot) % BSIZE + k := by
  have hle : chunk off n tot ≤ BSIZE - (off + tot) % BSIZE := Nat.min_le_right _ _
  rw [BSIZE_eq] at hle ⊢
  omega

section

variable {sb : Superblock} (hl : Layout sb) {s : State P} {e : Fin NINODE} {D : ℕ → Dinode}
  (hm : Marked sb (slot sb D s.disk) s.disk) (hs : Solid sb D s.disk)
  (hD : D (s.ino e).inum = (s.ino e).d) (hi : sb.Inum (s.ino e).inum) (ht : (s.ino e).d.type ≠ 0)
  {src : ℕ → Option ℕ} {off n : ℕ}

include hl hm hs hD hi ht

/-- The end of a `writei` whose copy has failed: the inode is updated and logged, and the block of the failing copy
is as the copy left it. -/
lemma writeiLog_failed (hrun : writeiLog sb e src off n (s, s.disk) = .ok ((r, true), (s', l))) :
    ∃ (tot : ℕ) (D' : ℕ → Dinode) (d' : Disk) (a : Dinode), r = tot ∧ tot < n ∧ mapped src 0 tot = tot ∧
      (tot = 0 ∨ (off + tot) % BSIZE = 0) ∧ mapped src tot (chunk off n tot) < chunk off n tot ∧ off + n ≤ MAXFILE * BSIZE ∧
      Written sb D s.disk (s.ino e).inum src off tot D' d' ∧
      a = { D' (s.ino e).inum with size := max (D (s.ino e).inum).size (off + tot) } ∧
      slot sb D' d' ((s.ino e).inum, dataSlot ((off + tot) / BSIZE)) ≠ 0 ∧
      s' = s.grown e a (putDinode sb (copied d' (slot sb D' d' ((s.ino e).inum, dataSlot ((off + tot) / BSIZE))) src off tot
        (mapped src tot (chunk off n tot))) (s.ino e).inum a) ∧
      l = putDinode sb d' (s.ino e).inum a := by
  have hspec : wp (writeiLog sb e src off n) (fun _ => True) (fun r x => r.2 = true → ∃ (tot : ℕ) (D' : ℕ → Dinode)
      (d' : Disk) (a : Dinode), r.1 = tot ∧ tot < n ∧ mapped src 0 tot = tot ∧
      (tot = 0 ∨ (off + tot) % BSIZE = 0) ∧ mapped src tot (chunk off n tot) < chunk off n tot ∧ off + n ≤ MAXFILE * BSIZE ∧
      Written sb D s.disk (s.ino e).inum src off tot D' d' ∧
      a = { D' (s.ino e).inum with size := max (D (s.ino e).inum).size (off + tot) } ∧
      slot sb D' d' ((s.ino e).inum, dataSlot ((off + tot) / BSIZE)) ≠ 0 ∧
      x.1 = s.grown e a (putDinode sb (copied d' (slot sb D' d' ((s.ino e).inum, dataSlot ((off + tot) / BSIZE))) src off tot
        (mapped src tot (chunk off n tot))) (s.ino e).inum a) ∧
      x.2 = putDinode sb d' (s.ino e).inum a) (s, s.disk) := by
    simp only [writeiLog, inode, wp_bind, wp_buffered, wp_read, wp_pure]
    refine wp_ite.mpr ⟨fun _ h => absurd h Bool.false_ne_true, fun hoff => ?_⟩
    refine wp_ite.mpr ⟨fun _ h => absurd h Bool.false_ne_true, fun hmax => ?_⟩
    have hstart : Written sb D s.disk (s.ino e).inum src off 0 D s.disk := .start hm fun m hm => by
      refine hs.full _ hi (by rwa [hD]) m ?_
      rw [hD]
      omega
    have hloop : wp _ (fun _ => True) _ _ :=
      writeLoopLog_data hl hD hi ht hs (by omega) n 0 (Nat.zero_le n) rfl (.inr (.inl rfl)) hstart
    rw [hD, State.grown_self] at hloop
    rw [wp_bind]
    refine hloop.mono ?_
    rintro ⟨⟨tot, pos⟩, failed⟩ ⟨s1, l1⟩ ⟨D', d', hw, hpos, htot, hlog, hfail⟩
    simp only [setDinode, setInode, iupdate, inode, logWrite, wp_bind, wp_buffered, wp_read, wp_modify, wp_pure]
    intro hfailed
    obtain ⟨hlt, hall, hblk, hcopy, h0, hstate⟩ := hfail hfailed
    simp only at hpos htot hlog hlt hall hblk hcopy h0 hstate
    subst hpos hlog hstate
    obtain ⟨htype, hsize, -, -⟩ := hw.fields
    have hend : ({ D' (s.ino e).inum with
        size := if off + tot > (D' (s.ino e).inum).size then off + tot else (D' (s.ino e).inum).size } : Dinode) =
        { D' (s.ino e).inum with size := max (D (s.ino e).inum).size (off + tot) } := by
      have hmx : (if off + tot > (D (s.ino e).inum).size then off + tot else (D (s.ino e).inum).size) =
          max (D (s.ino e).inum).size (off + tot) := by
        rw [max_def]
        split <;> split <;> omega
      rw [hsize, hmx]
    have hblock : copied l1 (slot sb D' l1 ((s.ino e).inum, dataSlot ((off + tot) / BSIZE))) src off tot
        (mapped src tot (chunk off n tot)) (sb.IBLOCK (s.ino e).inum) = l1 (sb.IBLOCK (s.ino e).inum) := by
      -- the block of the inode is not a block of contents
      have hdata := (hw.marked.data h0).1
      have hib := hl.iblock_lt hi
      have hmeta := bmapstart_lt_nmeta sb
      exact update_of_ne (by omega) _ _
    refine ⟨tot, D', l1, _, rfl, hlt, hall, hblk, hcopy, by omega, hw, rfl, h0, ?_, ?_⟩
    · simp [State.grown, State.setIno, hend]
    · simp [State.grown, State.setIno, hend, putDinode, hblock]
  exact hspec.of_ok hrun rfl

/-- **A write that fails half way changes what it reports, unless the failing copy has stored a byte that differs**:
exactly if the mapped bytes that go to the block of the first byte that is not mapped are those that the block has
before the call, zeros if there is none. -/
theorem writei_short (hsmall : (s.ino e).d.Small) {r : ℤ} {s' : State P} {l : Disk}
    (hrun : writeiLog sb e src off n (s, s.disk) = .ok ((r, true), (s', l))) :
    ∃ tot : ℕ, r = tot ∧ tot < n ∧ writei sb e src off n s = .ok (r, s') ∧ (Repeats sb D s.disk (s.ino e).inum src off n ↔
        (∃ f, ReadsAs sb s e f ∧ ReadsAs sb s' e (overlay f off tot (srcByte src))) ∧
        (∀ e', (s.ino e').inum ≠ (s.ino e).inum → D (s.ino e').inum = (s.ino e').d → sb.Inum (s.ino e').inum →
          (s.ino e').d.type ≠ 0 → ∃ f, ReadsAs sb s e' f ∧ ReadsAs sb s' e' f) ∧
        s'.disk = l) := by
  have hfst := writei_of_writeiLog hrun
  obtain ⟨tot, D', d', a, rfl, hlt, hall, hblk, hcopy, hmax, hw, ha, h0, hs', hl'⟩ := writeiLog_failed hl hm hs hD hi ht hrun
  have hmod := Nat.mod_lt (off + tot) (show 0 < BSIZE by decide)
  have hc : chunk off n tot ≤ BSIZE - (off + tot) % BSIZE := Nat.min_le_right _ _
  have hdata := (hw.marked.data h0).1
  -- the pass of the failing copy ends at the first byte that is not mapped
  have hend := mapped_pass hlt hall hcopy
  generalize mapped src tot (chunk off n tot) = c at hcopy hend hs'
  have hfirst : tot + c - (off + (tot + c)) % BSIZE = tot := by
    rw [BSIZE_eq] at hc hmod hblk ⊢
    omega
  have hbyte : ∀ k, k < c →
      (d' (slot sb D' d' ((s.ino e).inum, dataSlot ((off + tot) / BSIZE)))).get ((off + tot) % BSIZE + k) =
        oldByte sb D s.disk (s.ino e).inum (off + (tot + k)) := by
    intro k hk
    obtain ⟨hdiv, hrem⟩ := pass_block (hk.trans hcopy)
    rw [← Nat.add_assoc, ← hw.rest _ (by omega) (by rwa [hdiv]), dataByte, hdiv, hrem]
  have hsame : Repeats sb D s.disk (s.ino e).inum src off n ↔
      copied d' (slot sb D' d' ((s.ino e).inum, dataSlot ((off + tot) / BSIZE))) src off tot c = d' := by
    rw [copied_eq_iff (by omega), Repeats, hend, hfirst]
    constructor
    · intro h k hk
      rw [hbyte k hk]
      exact h (tot + k) (by omega) (by omega)
    · intro h k hk hge
      obtain ⟨j, rfl⟩ := Nat.exists_eq_add_of_le hge
      rw [← hbyte j (by omega)]
      exact h j (by omega)
  refine ⟨tot, rfl, hlt, hfst, fun hharm => ?_, fun hparts => ?_⟩
  · rw [hsame.mp hharm] at hs'
    have hr := hw.replaced hl hD hi ht hsmall hs (by omega) ha
    rw [← hs'] at hr
    refine ⟨⟨_, readsAs_of_solid hD hi ht hs fun _ _ => rfl, hr.readsAs hi ht⟩, fun e' hne hD' hi' ht' =>
      ⟨_, readsAs_of_solid hD' hi' ht' hs fun _ _ => rfl, hr.readsAs_other hs hne hD' hi' ht'⟩, ?_⟩
    rw [hs', hl', State.grown_disk]
  · rw [hsame]
    have hat := congrFun hparts.2.2 (slot sb D' d' ((s.ino e).inum, dataSlot ((off + tot) / BSIZE)))
    rw [hs', hl', State.grown_disk, putDinode_data hl hi hdata, putDinode_data hl hi hdata] at hat
    unfold copied at hat ⊢
    rw [update_self] at hat
    rw [hat, update_eq_self]

end

/-- A user page that ends after its first byte, which is `b`. -/
def lastByte (b : ℕ) (k : ℕ) : Option ℕ := if k = 0 then some b else none

lemma eq_ok_of_toOption {E α : Type} {x : Except E α} {a : α} (h : x.toOption = some a) : x = .ok a := by
  cases x with
  | ok b => exact congrArg Except.ok (Option.some.inj h)
  | error err => cases h

/-- The byte that the copy stores before it fails is the one that was there. -/
theorem writei_short_rootHeld : ∃ (s' : State Unit) (l : Disk),
    writeiLog smallSb 0 (lastByte 1) 0 2 (rootHeld, rootHeld.disk) = .ok ((0, true), (s', l)) ∧ s'.disk = l := by
  have hrun : (writeiLog smallSb 0 (lastByte 1) 0 2 (rootHeld, rootHeld.disk)).toOption.map Prod.fst = some (0, true) := by
    decide +kernel
  have hold : oldByte smallSb (dinode smallSb emptyDisk) rootHeld.disk 1 0 = 1 := by decide +kernel
  obtain ⟨⟨_, s', l⟩, hok, rfl⟩ := Option.map_eq_some_iff.mp hrun
  have hok := eq_ok_of_toOption hok
  obtain ⟨tot, htot, -, -, hiff⟩ := writei_short (e := 0) smallSb_layout marked_rootHeld solid_rootHeld rfl (by decide)
    (by decide +kernel) (small_dinode _ _ _) hok
  refine ⟨s', l, hok, (hiff.mp fun k hk _ => ?_).2.2⟩
  have hone : mapped (lastByte 1) 0 2 = 1 := by decide
  obtain rfl : k = 0 := by omega
  exact hold

/-- A file `a` with the bytes 1 and 2. -/
def aFile : HostFile := ⟨[97], [[1, 2]], by decide, by decide, by decide, by decide⟩

/-- The state in which entry 1 holds the file's inode. -/
def aHeld (d : Disk) : State Unit :=
  (boot d ()).setIno 1 fun ip => { ip with ref := 1, inum := 2, valid := true, locked := true, d := dinode mkfsSb d 2 }

/-- A write of two bytes whose second is not mapped returns 0, and the file has changed; the buffer of its block is
not what is on disk. -/
theorem writei_tears : ∃ d, mkfs [aFile] = some d ∧
    (readi mkfsSb 1 0 2 (aHeld d)).toOption.map Prod.fst = some [1, 2] ∧
    ∃ (s' : State Unit) (l : Disk), writeiLog mkfsSb 1 (lastByte 7) 0 2 (aHeld d, d) = .ok ((0, true), (s', l)) ∧
      (readi mkfsSb 1 0 2 s').toOption.map Prod.fst = some [7, 2] ∧ s'.disk ≠ l := by
  have hread : (mkfs [aFile]).map (fun d => (readi mkfsSb 1 0 2 (aHeld d)).toOption.map Prod.fst) =
      some (some [1, 2]) := by
    decide +kernel
  have hwrite : (mkfs [aFile]).map (fun d => (writeiLog mkfsSb 1 (lastByte 7) 0 2 (aHeld d, d)).toOption.map fun x =>
      (x.1, (readi mkfsSb 1 0 2 x.2.1).toOption.map Prod.fst, (x.2.1.disk 47).get 0, (x.2.2 47).get 0)) =
      some (some ((0, true), some [7, 2], 7, 1)) := by
    decide +kernel
  obtain ⟨d, hd, hbefore⟩ := Option.map_eq_some_iff.mp hread
  rw [hd, Option.map_some, Option.some.injEq] at hwrite
  obtain ⟨⟨r, s', l⟩, hok, hr⟩ := Option.map_eq_some_iff.mp hwrite
  simp only [Prod.mk.injEq] at hr
  obtain ⟨rfl, hafter, hbuf, hlog⟩ := hr
  refine ⟨d, hd, hbefore, s', l, eq_ok_of_toOption hok, hafter, fun heq => ?_⟩
  rw [heq, hlog] at hbuf
  exact absurd hbuf (by decide)

end Xv6.Fs
