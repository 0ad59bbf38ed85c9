import Xv6.Bio.Refine

/-!
# When `bget` finds a buffer

A block is in use when a process holds its buffer or is in a call of `bio.c` for it, or when it has been logged
and not been installed yet.  Nothing in the kernel keeps processes from using `NBUF` blocks at a time: `begin_op`
counts the blocks that operations log, and a plain read is outside of any operation.
-/

namespace Xv6.Bio.Sys

open Lib Log Cache Option Finset

variable {P : Type}

/-- The block that an action calls `bread` for. -/
def reads (s : Sys P) : Act P → Option ℕ
  | .bread _ _ b => some b
  | .commit p =>
    match s.grp.pc p with
    | .commit (.bread b :: _) => some b
    | _ => none
  | _ => none

variable {s s' : Sys P} {f : Disk} {pinned : List ℕ} {c c' : Cache P} {p : P}

section

variable [Fintype P]

/-- The different blocks in use: those of the buffers that processes hold or are in a call of `bio.c` for, and
those that the log has pinned. -/
def inUse (s : Sys P) : Finset ℕ :=
  (univ.filter fun i => (∃ p, 0 < refs (s.cache.stack p) (s.cache.micro p) i) ∨ 0 < (s.cache.buf i).pins).image
    fun i => (s.cache.buf i).blockno

/-- If the action reads a block, the block is in use or fewer than `NBUF` different blocks are. -/
def Spare (s : Sys P) (a : Act P) : Prop := ∀ b ∈ s.reads a, b ∈ s.inUse ∨ s.inUse.card < NBUF

/-- The buffers that processes hold, ask for or give back, one by one, and the blocks in the log. -/
def load (s : Sys P) : ℕ :=
  ∑ p, ((s.cache.stack p).length + if (s.cache.micro p).buf.isSome then 1 else 0) + s.grp.log.lh.length

/-- If the action reads a block, the block is in use already or processes and the log have fewer than `NBUF`
buffers together. -/
def Modest (s : Sys P) (a : Act P) : Prop := ∀ b ∈ s.reads a, b ∈ s.inUse ∨ s.load < NBUF

instance (s : Sys P) (a : Act P) : Decidable (s.Modest a) := by
  unfold Modest
  infer_instance

lemma refcnt_pos_iff (h : Core s.cache f pinned) (i : Fin NBUF) : 0 < (s.cache.buf i).refcnt ↔
    (∃ p, 0 < refs (s.cache.stack p) (s.cache.micro p) i) ∨ 0 < (s.cache.buf i).pins := by
  have hsum : 0 < s.cache.total i ↔ ∃ p, 0 < refs (s.cache.stack p) (s.cache.micro p) i := by
    unfold Cache.total
    rw [sum_pos_iff]
    simp only [mem_univ, true_and]
  rw [h.refcnt i, ← hsum]
  omega

/-- A buffer with references is one of the device. -/
lemma dev_of_refcnt (h : Core s.cache f pinned) {i : Fin NBUF} (hi : 0 < (s.cache.buf i).refcnt) :
    (s.cache.buf i).dev = ROOTDEV := by
  obtain ⟨p, hp⟩ | hpin := (refcnt_pos_iff h i).mp hi
  · by_cases hmem : i ∈ s.cache.stack p
    · exact (h.held p i hmem).2
    · have hm : (s.cache.micro p).buf = some i := by
        by_contra hne
        simp [refs, List.count_eq_zero.mpr hmem, hne] at hp
      generalize hk : s.cache.micro p = m at hm
      cases m with
      | idle => cases hm
      | acq j b =>
        cases hm
        exact (h.want p i b (.inl hk)).1
      | fill j b =>
        cases hm
        exact (h.want p i b (.inr hk)).1
      | dec j =>
        cases hm
        exact h.back p i hk
  · rw [h.pin i] at hpin
    split at hpin
    · rename_i hd
      exact hd.1
    · cases hpin

lemma inUse_eq (h : Core s.cache f pinned) :
    s.inUse = (univ.filter fun i => 0 < (s.cache.buf i).refcnt).image fun i => (s.cache.buf i).blockno := by
  simp only [inUse, refcnt_pos_iff h]

/-- No block has two buffers, so as many blocks are in use as buffers. -/
lemma card_inUse (h : Core s.cache f pinned) : s.inUse.card = (univ.filter fun i => 0 < (s.cache.buf i).refcnt).card := by
  rw [inUse_eq h]
  refine card_image_of_injOn fun i hi j hj he => ?_
  exact h.uniq i j (dev_of_refcnt h (mem_filter.mp hi).2) (dev_of_refcnt h (mem_filter.mp hj).2) he

lemma card_inUse_lt (h : Core s.cache f pinned) : s.inUse.card < NBUF ↔ ∃ i, (s.cache.buf i).refcnt = 0 := by
  have huniv : (univ.filter fun i => 0 < (s.cache.buf i).refcnt).card < Fintype.card (Fin NBUF) ↔
      ∃ i, (s.cache.buf i).refcnt = 0 := by
    rw [card_lt_iff_ne_univ, Ne, eq_univ_iff_forall]
    simp
  rwa [Fintype.card_fin, ← card_inUse h] at huniv

lemma sum_refs (l : List (Fin NBUF)) (m : Micro) :
    ∑ i, refs l m i = l.length + if m.buf.isSome then 1 else 0 := by
  have hcount : ∑ i, l.count i = l.length := by
    have hsum := Multiset.sum_count_eq_card (s := univ) (m := (l : Multiset (Fin NBUF))) fun i _ => mem_univ i
    simpa using hsum
  simp only [refs, sum_add_distrib, hcount]
  cases m.buf <;> simp

lemma sum_pins (h : Core s.cache f pinned) : ∑ i, (s.cache.buf i).pins ≤ pinned.length := by
  simp only [h.pin, sum_boole, Nat.cast_id]
  refine (card_le_card_of_injOn (fun i => (s.cache.buf i).blockno) (fun i hi => ?_) fun i hi j hj he => ?_).trans
    pinned.toFinset_card_le
  · exact List.mem_toFinset.mpr (mem_filter.mp hi).2.2
  · exact h.uniq i j (mem_filter.mp hi).2.1 (mem_filter.mp hj).2.1 he

lemma card_inUse_le (h : Inv L s f pinned) : s.inUse.card ≤ s.load := by
  have htotal : ∑ i, s.cache.total i =
      ∑ p, ((s.cache.stack p).length + if (s.cache.micro p).buf.isSome then 1 else 0) := by
    simp only [Cache.total]
    rw [sum_comm]
    exact sum_congr rfl fun p _ => sum_refs _ _
  calc s.inUse.card = (univ.filter fun i => 0 < (s.cache.buf i).refcnt).card := card_inUse h.core
    _ ≤ ∑ i, (s.cache.buf i).refcnt := by
      rw [card_filter]
      refine sum_le_sum fun i _ => ?_
      split <;> omega
    _ = ∑ i, s.cache.total i + ∑ i, (s.cache.buf i).pins := by
      rw [← sum_add_distrib]
      exact sum_congr rfl fun i _ => h.core.refcnt i
    _ ≤ s.load := Nat.add_le_add htotal.le ((sum_pins h.core).trans h.suffix.length_le)

lemma Modest.spare (hm : s.Modest a) (h : Inv L s f pinned) : s.Spare a := by
  intro b hb
  exact (hm b hb).imp_right (card_inUse_le h).trans_lt

lemma bget_eq_none (h : Core s.cache f pinned) (b : ℕ) :
    s.cache.bget ROOTDEV b = none ↔ b ∉ s.inUse ∧ ¬ s.inUse.card < NBUF := by
  have hmem : ∀ i, i ∈ s.cache.lru := fun i => h.lru.mem_iff.mpr (List.mem_finRange i)
  have hfree : (s.cache.lru.reverse.find? fun i => (s.cache.buf i).refcnt = 0) = none ↔ ¬ s.inUse.card < NBUF := by
    rw [List.find?_eq_none, card_inUse_lt h]
    simp only [List.mem_reverse, decide_eq_true_eq, not_exists]
    exact ⟨fun hall i => hall i (hmem i), fun hall i _ => hall i⟩
  -- when every buffer has references, the blocks in use are those that are cached
  have hhit : ¬ s.inUse.card < NBUF →
      ((s.cache.lru.find? fun i => (s.cache.buf i).dev = ROOTDEV ∧ (s.cache.buf i).blockno = b) = none ↔ b ∉ s.inUse) := by
    intro hfull
    rw [card_inUse_lt h, not_exists] at hfull
    have hpos : ∀ i, 0 < (s.cache.buf i).refcnt := fun i => Nat.pos_of_ne_zero (hfull i)
    rw [List.find?_eq_none, inUse_eq h]
    simp only [decide_eq_true_eq, mem_image, mem_filter, mem_univ, true_and, not_exists, not_and]
    exact ⟨fun hno i hi => hno i (hmem i) (dev_of_refcnt h hi), fun hno i _ _ => hno i (hpos i)⟩
  unfold Cache.bget
  rw [← and_congr_left hhit, ← hfree]
  cases s.cache.lru.find? fun i => (s.cache.buf i).dev = ROOTDEV ∧ (s.cache.buf i).blockno = b with
  | some i => simp
  | none =>
    cases s.cache.lru.reverse.find? fun i => (s.cache.buf i).refcnt = 0 with
    | some i => simp
    | none => simp

variable [DecidableEq P]

omit [Fintype P] in
lemma bread_noBuffers (c : Cache P) (p : P) (dev b : ℕ) :
    (c.bread p dev b).noBuffers = (c.noBuffers || (c.bget dev b).isNone) := by
  unfold Cache.bread
  cases c.bget dev b with
  | some x => simp [setBuf, setMicro]
  | none => simp

omit [Fintype P] in
lemma exec_noBuffers {lh : List ℕ} {cmd : Cmd} (hc : c.exec p lh cmd = some c') (hno : ∀ b, cmd ≠ .bread b) :
    c'.noBuffers = c.noBuffers := by
  cases cmd with
  | bread b => exact absurd rfl (hno b)
  | memmove dst src =>
    simp only [exec] at hc
    split at hc
    · cases hc
      rfl
    · cases hc
  | putHead =>
    obtain ⟨i, -, rfl⟩ := map_eq_some_iff.mp hc
    rfl
  | getHead => cases hc
  | bwrite k =>
    obtain ⟨i, -, rfl⟩ := map_eq_some_iff.mp hc
    rfl
  | bunpin k =>
    obtain ⟨i, -, rfl⟩ := map_eq_some_iff.mp hc
    rfl
  | brelse k =>
    obtain ⟨i, -, rfl⟩ := map_eq_some_iff.mp hc
    rfl
  | clear =>
    cases hc
    rfl

omit [Fintype P] in
lemma advance_noBuffers (hc : c.advance p = some c') : c'.noBuffers = c.noBuffers := by
  unfold Cache.advance at hc
  split at hc
  · cases hc
  · obtain ⟨-, hc⟩ := ite_none_right_eq_some.mp hc
    cases hc
    rfl
  · cases hc
    rfl
  · cases hc
    rfl

omit [Fintype P] in
lemma logWrite_noBuffers (hs : s.logWrite p i = some s') :
    s'.cache.noBuffers = s.cache.noBuffers := by
  obtain ⟨g, -, rfl⟩ := map_eq_some_iff.mp hs
  split
  · rename_i new hlog
    cases new <;> rfl
  · rfl

/-- **What a step does to the flag**: it is set exactly by a `bread` that finds no buffer. -/
lemma step_noBuffers (h : Inv L s f pinned) (hd : s.Disciplined a) (hs : s.step a = some s') :
    s'.cache.noBuffers = true ↔ ¬ s.Spare a := by
  have hbread : ∀ p b, (s.cache.bread p ROOTDEV b).noBuffers = true ↔
      ¬ (b ∈ s.inUse ∨ s.inUse.card < NBUF) ∨ s.cache.noBuffers = true := by
    intro p b
    rw [bread_noBuffers, Bool.or_eq_true, isNone_iff_eq_none, bget_eq_none h.core, not_or]
    exact or_comm
  obtain ⟨hgo, hs⟩ := ite_none_left_eq_some.mp hs
  have hclear : s.cache.noBuffers = false := Bool.eq_false_iff.mpr fun hno => hgo (.inl hno)
  -- an action that reads no block keeps the flag
  have hquiet : s.reads a = none → s'.cache.noBuffers = s.cache.noBuffers →
      (s'.cache.noBuffers = true ↔ ¬ s.Spare a) := by
    intro hr hsame
    have hspare : s.Spare a := by
      intro b hb
      rw [hr] at hb
      cases hb
    rw [hsame, hclear]
    exact ⟨fun hc => (by cases hc), fun hc => absurd hspare hc⟩
  cases a with
  | call p | test p | endOp p | finish p =>
    obtain ⟨-, hs⟩ := ite_none_right_eq_some.mp hs
    obtain ⟨g, -, rfl⟩ := map_eq_some_iff.mp hs
    exact hquiet rfl rfl
  | bread p dev b =>
    obtain ⟨-, hs⟩ := ite_none_right_eq_some.mp hs
    cases hs
    obtain rfl : dev = ROOTDEV := hd
    simp only [hbread, hclear, Bool.false_eq_true, or_false, Spare, reads, mem_some_iff, forall_eq']
  | advance p =>
    obtain ⟨c, hc, rfl⟩ := map_eq_some_iff.mp hs
    exact hquiet rfl (advance_noBuffers hc)
  | modify p k v | bwrite p k | brelse p k =>
    obtain ⟨-, hs⟩ := ite_none_right_eq_some.mp hs
    obtain ⟨i, -, hs⟩ := bind_eq_some_iff.mp hs
    cases hs
    exact hquiet rfl rfl
  | logWrite p k =>
    obtain ⟨-, hs⟩ := ite_none_right_eq_some.mp hs
    obtain ⟨i, -, hs⟩ := bind_eq_some_iff.mp hs
    exact hquiet rfl (logWrite_noBuffers hs)
  | commit p =>
    obtain ⟨-, hs⟩ := ite_none_right_eq_some.mp hs
    unfold Sys.commit at hs
    split at hs
    next cmd code hpc =>
      obtain ⟨g, -, hs⟩ := bind_eq_some_iff.mp hs
      obtain ⟨c, hc, rfl⟩ := map_eq_some_iff.mp hs
      cases cmd with
      | bread b =>
        cases hc
        simp only [hbread, hclear, Bool.false_eq_true, or_false, Spare, reads, hpc, mem_some_iff, forall_eq']
      | _ => exact hquiet (by simp [reads, hpc]) (exec_noBuffers hc fun b hb => by cases hb)
    next => cases hs

/-- **`bget` never runs out of buffers as long as processes are modest**: in every disciplined run in which each
`bread` is modest, no state has panicked.  What happens beyond: a `bread` panics exactly if its block is not in use
and `NBUF` different blocks are. -/
theorem bget_finds (L : LogArea) (s₀ : Sys P) (d : Disk) (h₀ : Start L s₀ d) (hclear : s₀.cache.noBuffers = false)
    (acts : List (Act P)) (s : Sys P) (hrun : run (guarded (fun s a => s.Disciplined a ∧ s.Modest a) step) s₀ acts = some s) :
    s.cache.noBuffers = false ∧
      ∀ a s', s.Disciplined a → s.step a = some s' → (s'.cache.noBuffers = true ↔ ¬ s.Spare a) := by
  have hinv : (∃ f pinned, Inv L s f pinned) ∧ s.cache.noBuffers = false := by
    refine run_invariant (I := fun s => (∃ f pinned, Inv L s f pinned) ∧ s.cache.noBuffers = false) ?_ hrun
      ⟨⟨d, [], inv_start h₀⟩, hclear⟩
    rintro s a s' hs ⟨⟨f, pinned, h⟩, -⟩
    obtain ⟨⟨hd, hm⟩, hs⟩ := guarded_eq_some.mp hs
    obtain ⟨f', pinned', -, h'⟩ := h.step hd hs
    refine ⟨⟨f', pinned', h'⟩, Bool.eq_false_iff.mpr fun hno => ?_⟩
    exact (step_noBuffers h hd hs).mp hno (hm.spare h)
  obtain ⟨⟨f, pinned, h⟩, hclear'⟩ := hinv
  exact ⟨hclear', fun a s' hd hs => step_noBuffers h hd hs⟩

end

/-- Processes `0` to `n - 1` each read a block of their own, up to the disk transfer. -/
def readers (n : ℕ) : List (Act (Fin NPROC)) :=
  ((List.finRange NPROC).take n).flatMap fun p => [.bread p ROOTDEV (100 + p.1), .advance p]

theorem bget_finds_readers : ∃ s : Sys (Fin NPROC),
    run (guarded (fun s a => s.Disciplined a ∧ s.Modest a) step) (boot mkfsLog fun _ => Bytes.zero _) (readers 2) = some s ∧
      s.cache.noBuffers = false := by
  have hsome : (run (guarded (fun s a => s.Disciplined a ∧ s.Modest a) step) (boot mkfsLog fun _ => Bytes.zero _)
      (readers 2)).isSome := by
    decide +kernel
  obtain ⟨s, hs⟩ := isSome_iff_exists.mp hsome
  exact ⟨s, hs, (bget_finds mkfsLog _ _ (start_boot _ _) rfl _ s hs).1⟩

/-- Thirty-one of them exhaust the cache. -/
theorem readers_exhaust : ∃ s : Sys (Fin NPROC),
    run (guarded Disciplined step) (boot mkfsLog fun _ => Bytes.zero _) (readers 30 ++ [.bread 30 ROOTDEV 130]) = some s ∧
      s.cache.noBuffers = true := by
  have hrun : (run (guarded Disciplined step) (boot mkfsLog fun _ => Bytes.zero _)
      (readers 30 ++ [.bread 30 ROOTDEV 130])).map (fun s => s.cache.noBuffers) = some true := by
    decide +kernel
  obtain ⟨s, hs, hno⟩ := map_eq_some_iff.mp hrun
  exact ⟨s, hs, hno⟩

end Xv6.Bio.Sys
