import Xv6.Bio.CommitRun

/-!
# The cache with the log is a flat array of blocks

`Inv` joins the invariant of group commit, the relation between cache and flat array, and what the
process inside `commit` relies on.  It is a forward simulation.
-/

namespace Xv6.Bio.Sys

open Lib Log Cache Function List

variable {P : Type} [Fintype P]

structure Inv (L : LogArea) (s : Sys P) (f : Disk) (pinned : List ℕ) : Prop where
  group : s.grp.Inv L
  core : Core s.cache f pinned
  outside : ∀ b ∈ s.grp.log.lh, ¬ L.Mem b
  fits : s.grp.log.lh.length < L.size
  suffix : pinned <:+ s.grp.log.lh
  idle : s.grp.log.committing = false → pinned = s.grp.log.lh
  work : ∀ p code, s.grp.pc p = .commit code → ∃ a : Known, a.pend = pinned ∧ Checked L a code ∧
    (s.cache.noBuffers = false → Holds L s.cache f p a)

namespace Inv

variable {L : LogArea} {s : Sys P} {f : Disk} {pinned : List ℕ} {q p : P} {code : List Cmd} {g : Log.Group P}
  {b : Log.Act P} {s' : Sys P}

section

variable (h : Inv L s f pinned)

include h

lemma no_commit (hq : s.grp.pc q = .inOp) (hp : s.grp.pc p = .commit code) : False :=
  h.group.no_commit (h.group.not_committing hq) p ⟨code, hp⟩

lemma of_cache (hc : Core c f' pinned) (hok : s.cache.noBuffers = false)
    (hw : ∀ p code a, s.grp.pc p = .commit code → Holds L s.cache f p a → Holds L c f' p a) :
    Inv L { s with cache := c } f' pinned where
  group := h.group
  core := hc
  outside := h.outside
  fits := h.fits
  suffix := h.suffix
  idle := h.idle
  work p code hp := by
    obtain ⟨a, ha, hcode, hh⟩ := h.work p code hp
    exact ⟨a, ha, hcode, fun _ => hw p code a hp (hh hok)⟩

lemma of_group (hg : g.Inv L) (hlh : g.log.lh = s.grp.log.lh) (hcm : g.log.committing = s.grp.log.committing)
    (hpc : ∀ p code, g.pc p = .commit code → s.grp.pc p = .commit code) :
    Inv L { s with grp := g } f pinned where
  group := hg
  core := h.core
  outside := hlh ▸ h.outside
  fits := hlh ▸ h.fits
  suffix := hlh ▸ h.suffix
  idle := hlh ▸ hcm ▸ h.idle
  work p code hp := h.work p code (hpc p code hp)

lemma lastEnd [DecidableEq P] (hg : g.Inv L) (hp : s.grp.pc p = .inOp) (hm : s.cache.micro p = .idle)
    (hlh : g.log.lh = s.grp.log.lh) (hcm : g.log.committing = true)
    (hpc : g.pc = update s.grp.pc p (.commit (Log.commit s.grp.log.area s.grp.log.lh))) :
    Inv L { s with grp := g } f pinned where
  group := hg
  core := h.core
  outside := hlh ▸ h.outside
  fits := hlh ▸ h.fits
  suffix := hlh ▸ h.suffix
  idle := by simp [hcm]
  work q code hq := by
    have hqp : q = p := by
      by_contra hne
      rw [hpc, update_of_ne hne] at hq
      exact h.no_commit hp hq
    subst hqp
    rw [hpc, update_self, h.group.area] at hq
    cases hq
    have hpin := h.idle (h.group.not_committing hp)
    exact ⟨between [] s.grp.log.lh, hpin.symm, checked_commit h.outside h.fits, fun _ => holds_start hm⟩

lemma finish (hg : g.Inv L) (hp : s.grp.pc p = .commit []) (hlh : g.log.lh = s.grp.log.lh)
    (hcm : g.log.committing = false) : Inv L { s with grp := g } f pinned where
  group := hg
  core := h.core
  outside := hlh ▸ h.outside
  fits := hlh ▸ h.fits
  suffix := hlh ▸ h.suffix
  idle _ := by
    have hnil := h.group.lh_of_done hp
    rw [hlh, hnil, ← suffix_nil, ← hnil]
    exact h.suffix
  work q code hq := absurd ⟨code, hq⟩ (hg.no_commit hcm q)

lemma group_step [DecidableEq P] (hm : s.cache.micro p = .idle)
    (hb : b = .call p ∨ b = .test p ∨ b = .endOp p ∨ b = .finish p) (hs : s.grp.step b = some g) :
    Inv L { s with grp := g } f pinned := by
  have hg := Group.inv_step s.grp b g hs h.group
  have hupd : ∀ c : Pc, (∀ code, c ≠ .commit code) → ∀ q code,
      update s.grp.pc p c q = .commit code → s.grp.pc q = .commit code := by
    intro c hc q code hq
    by_cases hqp : q = p
    · subst hqp
      rw [update_self] at hq
      exact absurd hq (hc code)
    · rwa [update_of_ne hqp] at hq
  obtain ⟨-, hst⟩ := Group.step_cases hs
  rcases hb with rfl | rfl | rfl | rfl
  · cases hst with
    | call hp => exact h.of_group hg rfl rfl (hupd _ (by simp))
  · cases hst with
    | enter hp hc room => exact h.of_group hg rfl rfl (hupd _ (by simp))
    | sleep hp => exact h.of_group hg rfl rfl (hupd _ (by simp))
  · cases hst with
    | lastEnd hp hc hz => exact h.lastEnd hg hp hm rfl rfl rfl
    | innerEnd hp hc hz =>
      refine h.of_group hg rfl rfl fun q code hq => ?_
      rw [Group.wakeup_eq (by simp) (by simp)] at hq
      exact hupd _ (by simp) q code hq
    | endPanic hp hc => exact h.of_group hg rfl rfl fun q code hq => hq
  · cases hst with
    | finish hp => exact h.finish hg hp rfl rfl

lemma logWrite [DecidableEq P] (hp : s.grp.pc p = .inOp) (hi : i ∈ s.cache.stack p)
    (hout : ¬ L.Mem (s.cache.buf i).blockno) (hs : s.logWrite p i = some s') :
    ∃ pinned', Inv L s' f pinned' := by
  simp only [Sys.logWrite, Option.map_eq_some_iff] at hs
  obtain ⟨g, hg, rfl⟩ := hs
  have hgi := Group.inv_step s.grp _ g hg h.group
  have hcm := h.group.not_committing hp
  have hpin := h.idle hcm
  obtain ⟨hvalid, hdev⟩ := h.core.held p i hi
  obtain ⟨-, hst⟩ := Group.step_cases hg
  cases hst with
  | @write p b g new _ hlw =>
    simp only [hlw]
    obtain ⟨-, hroom, -, hcase⟩ := Group.logWrite_eq_ok hlw
    have hwork : ∀ q code, s.grp.pc q = .commit code → False := fun q code hq => h.no_commit hp hq
    have hsize := h.group.area ▸ hroom
    rcases hcase with ⟨hb, rfl, rfl⟩ | ⟨hb, rfl, rfl⟩
    · -- absorbed: the block is pinned already
      have hpos : 0 < (s.cache.buf i).pins := by
        rw [h.core.pin i, if_pos ⟨hdev, hpin ▸ hb⟩]
        exact one_pos
      exact ⟨pinned, hgi, h.core.clean hpos, h.outside, h.fits, h.suffix, h.idle,
        fun q code hq => (hwork q code hq).elim⟩
    · have hnew : (s.cache.buf i).blockno ∉ pinned := hpin ▸ hb
      have hcore := h.core.bpin hi hnew
      refine ⟨pinned ++ [(s.cache.buf i).blockno], hgi, hcore.clean (by simp [Cache.bpin]), ?_, ?_, ?_, ?_,
        fun q code hq => (hwork q code hq).elim⟩
      · intro x hx
        rcases mem_append.mp hx with hx | hx
        · exact h.outside x hx
        · rw [mem_singleton.mp hx]
          exact hout
      · simp only [length_append, length_singleton]
        omega
      · simp [hpin]
      · simp [hpin]
  | @writePanic p b e _ hlw =>
    simp only [hlw]
    exact ⟨pinned, h.of_group hgi rfl rfl fun q code hq => hq⟩

lemma commit [DecidableEq P] (hok : s.cache.noBuffers = false) (hm : s.cache.micro p = .idle)
    (hs : s.commit p = some s') :
    ∃ f' pinned', run flatStep f (s.observe (.commit p)) = some f' ∧ Inv L s' f' pinned' := by
  unfold Sys.commit at hs
  split at hs
  swap
  · cases hs
  rename_i cmd cs hp
  simp only [Option.bind_eq_some_iff, Option.map_eq_some_iff] at hs
  obtain ⟨g, hg, c', he, rfl⟩ := hs
  have hgi := Group.inv_step s.grp _ g hg h.group
  obtain ⟨a, ha, ⟨a', hn, hcode⟩, hh⟩ := h.work p _ hp
  have hnodup : pinned.Nodup := h.group.nodup.sublist h.suffix.sublist
  subst ha
  obtain ⟨f', hf, hc', hh', hsuf⟩ := exec_holds (hh hok) h.core hnodup hm hn he
  have hobs : s.observe (.commit p) = s.cache.cmdEv L p s.grp.log.lh cmd := by
    simp [observe, hp, h.group.area]
  refine ⟨f', a'.pend, by rw [hobs]; exact hf, ?_⟩
  have hcm : s.grp.log.committing = true := h.group.flag.mpr ⟨p, _, hp⟩
  obtain ⟨-, hst⟩ := Group.step_cases hg
  cases hst with
  | @commit p c cs hp' =>
    rw [hp] at hp'
    cases hp'
    have hlh : (Group.execLog s.grp.log cmd).lh = if cmd = .clear then [] else s.grp.log.lh := by
      cases cmd <;> simp [Group.execLog]
    refine ⟨hgi, hc', ?_, ?_, ?_, ?_, ?_⟩
    · simp only [hlh]
      split
      · simp
      · exact h.outside
    · simp only [hlh]
      split
      · exact L.pos
      · exact h.fits
    · simp only [hlh]
      split
      · rename_i hclear
        subst hclear
        simp only [Known.next] at hn
        split at hn <;> cases hn
        rename_i hnil
        rw [hnil]
      · exact hsuf.trans h.suffix
    · have : (Group.execLog s.grp.log cmd).committing = s.grp.log.committing := by
        cases cmd <;> simp [Group.execLog]
      simp [this, hcm]
    · intro q code hq
      have hqp : q = p := by
        by_contra hne
        simp only [update_of_ne hne] at hq
        exact hne (h.group.unique q p ⟨code, hq⟩ ⟨_, hp⟩)
      subst hqp
      simp only [update_self, Pc.commit.injEq] at hq
      subst hq
      exact ⟨a', rfl, hcode, hh'⟩

end

omit [Fintype P] in
lemma onBuf_eq_some {k : ℕ} {g : Fin NBUF → Option (Sys P)} (hs : s.onBuf p k g = some s') :
    s.Free p ∧ ∃ i, (s.cache.stack p)[k]? = some i ∧ g i = some s' := by
  unfold onBuf at hs
  split at hs
  · rename_i hf
    exact ⟨hf, Option.bind_eq_some_iff.mp hs⟩
  · cases hs

omit [Fintype P] in
lemma group_eq_some [DecidableEq P] (hs : s.group p b = some s') :
    s.cache.micro p = .idle ∧ ∃ g, s.grp.step b = some g ∧ s' = { s with grp := g } := by
  unfold Sys.group at hs
  split at hs
  · rename_i hm
    obtain ⟨g, hg, rfl⟩ := Option.map_eq_some_iff.mp hs
    exact ⟨hm, g, hg, rfl⟩
  · cases hs

omit [Fintype P] in
lemma ne_of_free (hq : s.Free q) (hp : s.grp.pc p = .commit code) : p ≠ q := by
  rintro rfl
  rcases hq.2 with h | h <;> simp [hp] at h

/-- **Every disciplined step** is one of the flat array, on what it shows. -/
lemma step [DecidableEq P] (h : Inv L s f pinned) {b : Act P} (hd : s.Disciplined b) (hs : s.step b = some s') :
    ∃ f' pinned', run flatStep f (s.observe b) = some f' ∧ Inv L s' f' pinned' := by
  unfold Sys.step at hs
  split at hs
  · cases hs
  rename_i hcalm
  have hok : s.cache.noBuffers = false := by
    by_contra hn
    exact hcalm (.inl (by simpa using hn))
  cases b with
  | call p =>
    obtain ⟨hm, g, hg, rfl⟩ := group_eq_some hs
    exact ⟨f, pinned, rfl, h.group_step hm (.inl rfl) hg⟩
  | test p =>
    obtain ⟨hm, g, hg, rfl⟩ := group_eq_some hs
    exact ⟨f, pinned, rfl, h.group_step hm (.inr (.inl rfl)) hg⟩
  | endOp p =>
    obtain ⟨hm, g, hg, rfl⟩ := group_eq_some hs
    exact ⟨f, pinned, rfl, h.group_step hm (.inr (.inr (.inl rfl))) hg⟩
  | finish p =>
    obtain ⟨hm, g, hg, rfl⟩ := group_eq_some hs
    exact ⟨f, pinned, rfl, h.group_step hm (.inr (.inr (.inr rfl))) hg⟩
  | bread p dev b =>
    simp only at hs
    split at hs <;> cases hs
    rename_i hfree
    obtain rfl : dev = ROOTDEV := hd
    refine ⟨f, pinned, rfl, h.of_cache (h.core.bread hfree.1 b) hok fun q code a hq hh => ?_⟩
    exact hh.bread_other h.core (ne_of_free hfree hq) ROOTDEV b
  | advance p =>
    obtain ⟨c', hadv, rfl⟩ := Option.map_eq_some_iff.mp hs
    refine ⟨f, pinned, ?_, h.of_cache (h.core.advance hadv) hok fun q code a hq hh => ?_⟩
    · simp only [observe]
      split
      · rename_i i b hm
        have hdata := (h.core.fill hm).2
        simp [run, flatStep, hdata]
      · rfl
    · by_cases hqp : q = p
      · subst hqp
        exact hh.advance h.core hadv
      · exact hh.advance_other hqp hadv
  | modify p k v =>
    obtain ⟨hfree, i, hi, hs⟩ := onBuf_eq_some hs
    cases hs
    have hout : ¬ L.Mem (s.cache.buf i).blockno := h.group.area ▸ hd i hi
    have hmem := mem_of_getElem? hi
    refine ⟨update f (s.cache.buf i).blockno v, pinned, by simp [observe, hi, run, flatStep],
      h.of_cache (h.core.store hmem v) hok fun q code a hq hh => ?_⟩
    exact hh.store_other h.core (ne_of_free hfree hq) hmem hout v
  | bwrite p k =>
    obtain ⟨hfree, i, hi, hs⟩ := onBuf_eq_some hs
    cases hs
    refine ⟨f, pinned, rfl, h.of_cache (h.core.bwrite (mem_of_getElem? hi)) hok ?_⟩
    exact fun q code a hq _ => (h.no_commit hd.1 hq).elim
  | logWrite p k =>
    obtain ⟨hfree, i, hi, hs⟩ := onBuf_eq_some hs
    have hout : ¬ L.Mem (s.cache.buf i).blockno := h.group.area ▸ hd.2 i hi
    obtain ⟨pinned', h'⟩ := h.logWrite hd.1 (mem_of_getElem? hi) hout hs
    exact ⟨f, pinned', rfl, h'⟩
  | brelse p k =>
    obtain ⟨hfree, i, hi, hs⟩ := onBuf_eq_some hs
    cases hs
    refine ⟨f, pinned, rfl, h.of_cache (h.core.brelse hfree.1 hi (hd i hi)) hok fun q code a hq hh => ?_⟩
    exact hh.brelse_other (ne_of_free hfree hq) hi (hd i hi)
  | commit p =>
    simp only at hs
    split at hs
    · exact h.commit hok ‹_› hs
    · cases hs

end Inv

/-- The system when clients begin: the log is empty and no buffer is in use.  This is so after
`binit`, and again after recovery, which leaves blocks in the cache. -/
structure Start (L : LogArea) (s : Sys P) (d : Disk) : Prop where
  grp : s.grp = Group.init L
  disk : s.cache.disk = d
  lru : s.cache.lru.Perm (List.finRange NBUF)
  uniq : ∀ i j, (s.cache.buf i).dev = ROOTDEV → (s.cache.buf j).dev = ROOTDEV →
    (s.cache.buf i).blockno = (s.cache.buf j).blockno → i = j
  unused : ∀ i, (s.cache.buf i).refcnt = 0 ∧ (s.cache.buf i).lock = none ∧
    (s.cache.buf i).dirty = false ∧ (s.cache.buf i).pins = 0
  data : ∀ i, (s.cache.buf i).dev = ROOTDEV → (s.cache.buf i).valid = true →
    (s.cache.buf i).data = d (s.cache.buf i).blockno
  stack : ∀ p, s.cache.stack p = [] ∧ s.cache.micro p = .idle

lemma inv_start {L : LogArea} {s : Sys P} {d : Disk} (h : Start L s d) : Inv L s d [] where
  group := h.grp ▸ Group.inv_init L
  core :=
    { lru := h.lru
      uniq := h.uniq
      refcnt := fun i => by simp [h.unused i, total, h.stack, refs, Micro.buf]
      lock := by simp [h.unused, h.stack]
      nodup := by simp [h.stack]
      fresh := by simp [h.stack]
      want := by simp [h.stack]
      back := by simp [h.stack]
      held := by simp [h.stack]
      data := h.data
      dirty := by simp [h.unused]
      disk := fun b => .inl (by rw [h.disk])
      pin := by simp [h.unused]
      cached := by simp }
  outside := by simp [h.grp, Group.init]
  fits := by simpa [h.grp, Group.init] using L.pos
  suffix := nil_suffix
  idle := by simp [h.grp, Group.init]
  work := by simp [h.grp, Group.init]

/-- Each of the blocks `bs` is cached and holds one pin, and there is no other pin. -/
def PinsExactly (c : Cache P) (bs : List ℕ) : Prop :=
  (∀ b ∈ bs, ∃ i, (c.buf i).Has b ∧ (c.buf i).valid = true ∧ (c.buf i).pins = 1 ∧ 1 ≤ (c.buf i).refcnt) ∧
    ∀ i, 0 < (c.buf i).pins → ∃ b ∈ bs, (c.buf i).Has b

lemma pinsExactly {c : Cache P} (h : Core c f pinned) : PinsExactly c pinned := by
  constructor
  · intro b hb
    obtain ⟨i, hi, hv⟩ := h.cached b hb
    have hpin : (c.buf i).pins = 1 := by rw [h.pin i, if_pos ⟨hi.1, hi.2 ▸ hb⟩]
    have href := h.refcnt i
    exact ⟨i, hi, hv, hpin, by omega⟩
  · intro i hi
    rw [h.pin i] at hi
    split at hi
    · rename_i hb
      exact ⟨_, hb.2, hb.1, rfl⟩
    · omega

/-- **The cache with the log refines a flat array of blocks.**  In every disciplined run, each
`bread` returns what was stored last, and `commit` stores nothing that is seen outside the log area.
Each held buffer has the contents of the flat array, the header lists no block twice, and the pins are
those of the blocks that it lists; while `commit` runs, of those whose `bunpin` is still to come. -/
theorem cache_refines_flat [DecidableEq P] (L : LogArea) (s₀ : Sys P) (d : Disk) (h₀ : Start L s₀ d)
    (acts : List (Act P)) (s : Sys P) (hrun : run (guarded Disciplined step) s₀ acts = some s) :
    (∃ f, run flatStep d (trace (guarded Disciplined step) observe s₀ acts) = some f ∧
      ∀ p, ∀ i ∈ s.cache.stack p, (s.cache.buf i).data = f (s.cache.buf i).blockno) ∧
    s.grp.log.lh.Nodup ∧
    (s.grp.log.committing = false → PinsExactly s.cache s.grp.log.lh) ∧
    ∀ p code, s.grp.pc p = .commit code →
      PinsExactly s.cache (s.grp.log.lh.drop (s.grp.log.lh.length - bunpins code)) := by
  have hsim : ∀ (s : Sys P) (f : Disk) b s', (∃ pinned, Inv L s f pinned) → guarded Disciplined step s b = some s' →
      ∃ f', run flatStep f (observe s b) = some f' ∧ ∃ pinned, Inv L s' f' pinned := by
    rintro s f b s' ⟨pinned, h⟩ hs
    obtain ⟨hd, hs⟩ := guarded_eq_some.mp hs
    obtain ⟨f', pinned', hf, h'⟩ := h.step hd hs
    exact ⟨f', hf, pinned', h'⟩
  obtain ⟨f, hf, pinned, h⟩ := run_simulation hsim hrun ⟨[], inv_start h₀⟩
  refine ⟨⟨f, hf, fun p i hi => ?_⟩, h.group.nodup, fun hcm => ?_, fun p code hp => ?_⟩
  · exact h.core.data i (h.core.held p i hi).2 (h.core.held p i hi).1
  · exact h.idle hcm ▸ pinsExactly h.core
  · obtain ⟨a, rfl, hcode, -⟩ := h.work p code hp
    rw [bunpins_of_checked hcode, ← suffix_iff_eq_drop.mp h.suffix]
    exact pinsExactly h.core

/-- The system after `binit`, with an empty log. -/
def boot (L : LogArea) (d : Disk) : Sys P := ⟨Group.init L, binit d⟩

omit [Fintype P] in
lemma start_boot (L : LogArea) (d : Disk) : Start L (boot L d : Sys P) d where
  grp := rfl
  disk := rfl
  lru := reverse_perm _
  uniq := by simp [boot, binit]
  unused := by simp [boot, binit]
  data := by simp [boot, binit]
  stack := by simp [boot, binit]

/-- Read block `b`, store `v` in it, log it and release it. -/
def rewrite (p : P) (b : ℕ) (v : Block) : List (Act P) :=
  [.bread p ROOTDEV b, .advance p, .advance p, .modify p 0 v, .logWrite p 0, .brelse p 0, .advance p]

/-- The calls of a piece of `commit`, each carried through. -/
def carryOut (p : P) : List Cmd → List (Act P)
  | [] => []
  | .bread _ :: cs => .commit p :: .advance p :: .advance p :: carryOut p cs
  | .brelse _ :: cs => .commit p :: .advance p :: carryOut p cs
  | _ :: cs => .commit p :: carryOut p cs

/-- A block whose first byte is `v`. -/
def blockOf (v : ℕ) : Block := (Bytes.zero BSIZE).putLe 0 1 v

/-- One operation that rewrites block 46, and its commit up to the `bunpin` of `install_trans`. -/
def toBunpin : List (Act (Fin 1)) :=
  [.call 0, .test 0] ++ rewrite 0 46 (blockOf 7) ++ [.endOp 0] ++ carryOut 0 ((Log.commit mkfsLog [46]).take 15)

theorem cache_refines_flat_toBunpin :
    ∃ s : Sys (Fin 1), run (guarded Disciplined step) (boot mkfsLog fun _ => Bytes.zero _) toBunpin = some s ∧
      s.grp.log.lh.Nodup := by
  have hsome : (run (guarded Disciplined step) (boot mkfsLog fun _ => Bytes.zero _) toBunpin).isSome := by
    decide +kernel
  obtain ⟨s, hs⟩ := Option.isSome_iff_exists.mp hsome
  exact ⟨s, hs, (cache_refines_flat mkfsLog _ _ (start_boot _ _) toBunpin s hs).2.1⟩

/-- An operation that logs a log block and a home block, its commit, and a `bread` of the home block. -/
def logAreaRun : List (Act (Fin 1)) :=
  [.call 0, .test 0] ++ rewrite 0 4 (blockOf 7) ++ rewrite 0 46 (blockOf 8) ++ [.endOp 0] ++
    carryOut 0 (Log.commit mkfsLog [4, 46]) ++ [.finish 0, .bread 0 ROOTDEV 46, .advance 0, .advance 0]

/-- After `bunpin` and before `log.lh.n = 0` the header lists a block that has no pin.  And where a
client logs a block of the log area, `bread` of another block does not return what was stored. -/
theorem cache_refines_flat_fails :
    ((run (guarded Disciplined step) (boot mkfsLog fun _ => Bytes.zero _) toBunpin).map fun s =>
      (s.grp.log.lh, (List.finRange NBUF).map fun i => (s.cache.buf i).pins)) =
      some ([46], List.replicate NBUF 0) ∧
    ((run step (boot mkfsLog fun _ => Bytes.zero _) logAreaRun).map fun s =>
      (s.cache.stack 0).map fun i => ((s.cache.buf i).blockno, (s.cache.buf i).data.get 0)) =
      some [(46, 7)] := by
  constructor <;> decide +kernel

end Xv6.Bio.Sys
