import Xv6.Bio.Cache
import Xv6.Lib.Dlist

/-!
# The list of buffers in `bio.c`

The sections of `bget`, `brelse`, `bpin` and `bunpin` under `bcache.lock`, with the links of the buffers
as the code keeps them.  `Sys` adds what the callers have done: the gets and pins that are outstanding,
and the buffers in the order in which `brelse` brought them to 0.
-/

namespace Xv6.Bio.Links

open Lib Lib.Dlist Log Function List

/-- A node of the list; `none` is `bcache.head`. -/
abbrev Node : Type := Option (Fin NBUF)

structure Bcache where
  links : Dlist.Links Node
  dev : Fin NBUF → ℕ
  blockno : Fin NBUF → ℕ
  valid : Fin NBUF → Bool
  refcnt : Fin NBUF → BitVec 32

def binit : Bcache where
  links := (List.finRange NBUF).foldl (fun s i => s.insertAfter none (some i)) ⟨fun _ => none, fun _ => none⟩
  dev _ := 0
  blockno _ := 0
  valid _ := false
  refcnt _ := 0

/-- The first loop of `bget`: is the block cached? -/
def cached (c : Bcache) (dev blockno : ℕ) : Option (Option Node) :=
  walk c.links.next none (fun b => b.any fun i => c.dev i = dev ∧ c.blockno i = blockno) (NBUF + 1) (c.links.next none)

/-- The second loop of `bget`: the least recently used buffer that is free. -/
def free (c : Bcache) : Option (Option Node) :=
  walk c.links.prev none (fun b => b.any fun i => c.refcnt i = 0) (NBUF + 1) (c.links.prev none)

def Bcache.got (c : Bcache) (i : Fin NBUF) : Bcache :=
  { c with refcnt := update c.refcnt i (c.refcnt i + 1) }

def Bcache.recycled (c : Bcache) (i : Fin NBUF) (dev blockno : ℕ) : Bcache :=
  { c with
    dev := update c.dev i dev
    blockno := update c.blockno i blockno
    valid := update c.valid i false
    refcnt := update c.refcnt i 1 }

/-- `bget`; `none` is `panic("bget: no buffers")`. -/
def bget (c : Bcache) (dev blockno : ℕ) : Option (Fin NBUF × Bcache) :=
  match cached c dev blockno with
  | some (some (some i)) => some (i, c.got i)
  | some none =>
    match free c with
    | some (some (some i)) => some (i, c.recycled i dev blockno)
    | _ => none
  | _ => none

/-- `brelse`, after `releasesleep`. -/
def brelse (c : Bcache) (i : Fin NBUF) : Bcache :=
  let c := { c with refcnt := update c.refcnt i (c.refcnt i - 1) }
  if c.refcnt i = 0 then { c with links := (c.links.unlink (some i)).insertAfter none (some i) } else c

def bpin (c : Bcache) (i : Fin NBUF) : Bcache :=
  { c with refcnt := update c.refcnt i (c.refcnt i + 1) }

def bunpin (c : Bcache) (i : Fin NBUF) : Bcache :=
  { c with refcnt := update c.refcnt i (c.refcnt i - 1) }

structure Sys where
  cache : Bcache
  gets : Fin NBUF → ℕ
  pins : Fin NBUF → ℕ
  /-- The buffers that `brelse` brought to 0, the last one first. -/
  released : List (Fin NBUF)

def init : Sys := ⟨binit, fun _ => 0, fun _ => 0, []⟩

inductive Act where
  | bget (blockno : ℕ)
  | brelse (i : Fin NBUF)
  | bpin (i : Fin NBUF)
  | bunpin (i : Fin NBUF)

/-- Every `brelse` and `bunpin` has its `bget` or `bpin`, and `bget` does not panic. -/
def step (s : Sys) : Act → Option Sys
  | .bget b => (Links.bget s.cache ROOTDEV b).map fun r =>
    { s with cache := r.2, gets := update s.gets r.1 (s.gets r.1 + 1) }
  | .brelse i =>
    if 0 < s.gets i then
      some { s with
        cache := Links.brelse s.cache i
        gets := update s.gets i (s.gets i - 1)
        released := if (Links.brelse s.cache i).refcnt i = 0 then i :: s.released else s.released }
    else none
  | .bpin i => some { s with cache := Links.bpin s.cache i, pins := update s.pins i (s.pins i + 1) }
  | .bunpin i =>
    if 0 < s.pins i then
      some { s with cache := Links.bunpin s.cache i, pins := update s.pins i (s.pins i - 1) }
    else none

/-- The references to every buffer fit into its counter. -/
def Sys.Fits (s : Sys) : Prop := ∀ i, s.gets i + s.pins i < 2 ^ 32
  deriving Decidable

/-- The call leaves fewer than `2 ^ 32` references to each buffer. -/
def Counted (s : Sys) (a : Act) : Prop :=
  match step s a with
  | some s' => s'.Fits
  | none => True

instance (s : Sys) (a : Act) : Decidable (Counted s a) := by
  unfold Counted
  split <;> infer_instance

/-! ### The invariant -/

/-- The buffers are linked in the order `l`, which is that of their last release. -/
structure Ordered (s : Sys) (l : List (Fin NBUF)) : Prop where
  perm : l.Perm (List.finRange NBUF)
  cycle : Cycle s.cache.links none (l.map some)
  order : l.Pairwise fun i j => s.released.idxOf i ≤ s.released.idxOf j

structure Inv (s : Sys) : Prop where
  ordered : ∃ l, Ordered s l
  uniq : ∀ i j, s.cache.dev i = ROOTDEV → s.cache.dev j = ROOTDEV → s.cache.blockno i = s.cache.blockno j → i = j
  refs : ∀ i, (s.cache.refcnt i).toNat = s.gets i + s.pins i

variable {blockno : ℕ} {x : BitVec 32}

section

variable {s s' : Sys} {l : List (Fin NBUF)} {i : Fin NBUF}

lemma Ordered.mem (h : Ordered s l) (i : Fin NBUF) : i ∈ l := h.perm.mem_iff.mpr (mem_finRange i)

lemma Ordered.nodup (h : Ordered s l) : l.Nodup := h.perm.nodup_iff.mpr (nodup_finRange NBUF)

lemma Ordered.length (h : Ordered s l) : l.length = NBUF := by
  rw [h.perm.length_eq, length_finRange]

lemma Ordered.congr (h : Ordered s l) (hl : s'.cache.links = s.cache.links) (hr : s'.released = s.released) :
    Ordered s' l := ⟨h.perm, by rw [hl]; exact h.cycle, by rw [hr]; exact h.order⟩

lemma nodup_nodes (hd : l.Nodup) : (none :: l.map some : List Node).Nodup := by
  refine nodup_cons.mpr ⟨by simp, hd.map (Option.some_injective _)⟩

lemma find?_nodes (test : Fin NBUF → Bool) (l : List (Fin NBUF)) :
    (l.map some : List Node).find? (fun b => b.any test) = (l.find? test).map some := by
  rw [find?_map]
  rfl

lemma Ordered.cached (h : Ordered s l) (dev blockno : ℕ) : Links.cached s.cache dev blockno =
      some ((l.find? fun i => s.cache.dev i = dev ∧ s.cache.blockno i = blockno).map some) := by
  rw [Links.cached, h.cycle.walk_next (by simp) _ _ (by rw [length_map, h.length]; exact Nat.lt_succ_self _),
    find?_nodes]

lemma Ordered.free (h : Ordered s l) :
    Links.free s.cache = some ((l.reverse.find? fun i => s.cache.refcnt i = 0).map some) := by
  rw [Links.free, h.cycle.walk_prev (by simp) _ _ (by rw [length_map, h.length]; exact Nat.lt_succ_self _),
    ← map_reverse, find?_nodes]

lemma Inv.bget_hit (h : Inv s) (hd : s.cache.dev i = ROOTDEV) (hb : s.cache.blockno i = blockno) :
    bget s.cache ROOTDEV blockno = some (i, s.cache.got i) := by
  obtain ⟨l, hl⟩ := h.ordered
  have hfind : (l.find? fun j => s.cache.dev j = ROOTDEV ∧ s.cache.blockno j = blockno) = some i := by
    have hsome : (l.find? fun j => s.cache.dev j = ROOTDEV ∧ s.cache.blockno j = blockno).isSome := by
      rw [find?_isSome]
      exact ⟨i, hl.mem i, by simp [hd, hb]⟩
    obtain ⟨j, hj⟩ := Option.isSome_iff_exists.mp hsome
    have hj' := find?_some hj
    rw [decide_eq_true_eq] at hj'
    rw [hj, h.uniq i j hd hj'.1 (hb.trans hj'.2.symm)]
  rw [bget, hl.cached, hfind]
  rfl

lemma pairwise_of_reverse_find {test : Fin NBUF → Bool} (hrefl : ∀ j, R j j) (hp : l.Pairwise R)
    (hf : l.reverse.find? test = some i) (hj : j ∈ l) (ht : test j = true) :
    R j i := by
  obtain ⟨-, as, bs, hsplit, has⟩ := find?_eq_some_iff_append.mp hf
  have hl : l = bs.reverse ++ i :: as.reverse := by
    rw [← reverse_reverse l, hsplit, reverse_append, reverse_cons, append_assoc, singleton_append]
  rw [hl] at hj hp
  rcases mem_append.mp hj with hj | hj
  · exact (pairwise_append.mp hp).2.2 j hj i mem_cons_self
  · rcases mem_cons.mp hj with rfl | hj
    · exact hrefl j
    · have := has j (mem_reverse.mp hj)
      rw [ht] at this
      cases this

lemma Inv.bget_miss (h : Inv s) (hmiss : ∀ i, ¬ (s.cache.dev i = ROOTDEV ∧ s.cache.blockno i = blockno))
    (hfree : ∃ i, s.cache.refcnt i = 0) :
    ∃ i, bget s.cache ROOTDEV blockno = some (i, s.cache.recycled i ROOTDEV blockno) ∧ s.cache.refcnt i = 0 ∧
      ∀ j, s.cache.refcnt j = 0 → s.released.idxOf j ≤ s.released.idxOf i := by
  obtain ⟨l, hl⟩ := h.ordered
  obtain ⟨k, hk⟩ := hfree
  have hnone : (l.find? fun j => s.cache.dev j = ROOTDEV ∧ s.cache.blockno j = blockno) = none := by
    rw [find?_eq_none]
    intro j _
    simpa using hmiss j
  have hsome : (l.reverse.find? fun j => s.cache.refcnt j = 0).isSome := by
    rw [find?_isSome]
    exact ⟨k, mem_reverse.mpr (hl.mem k), by simp [hk]⟩
  obtain ⟨i, hi⟩ := Option.isSome_iff_exists.mp hsome
  have hi0 := find?_some hi
  rw [decide_eq_true_eq] at hi0
  refine ⟨i, ?_, hi0, fun j hj => ?_⟩
  · rw [bget, hl.cached, hnone, hl.free, hi]
    rfl
  · exact pairwise_of_reverse_find (fun j => Nat.le_refl _) hl.order hi (hl.mem j) (by simp [hj])

lemma Inv.bget_cases (h : Inv s) (hb : bget s.cache ROOTDEV blockno = some (i, c)) :
    c = s.cache.got i ∨ (∀ j, ¬ (s.cache.dev j = ROOTDEV ∧ s.cache.blockno j = blockno)) ∧
      s.cache.refcnt i = 0 ∧ c = s.cache.recycled i ROOTDEV blockno := by
  by_cases hhit : ∃ j, s.cache.dev j = ROOTDEV ∧ s.cache.blockno j = blockno
  · obtain ⟨j, hd, hj⟩ := hhit
    rw [h.bget_hit hd hj] at hb
    cases hb
    exact Or.inl rfl
  · rw [not_exists] at hhit
    by_cases hfree : ∃ j, s.cache.refcnt j = 0
    · obtain ⟨j, hj, h0, -⟩ := h.bget_miss hhit hfree
      rw [hj] at hb
      cases hb
      exact Or.inr ⟨hhit, h0, rfl⟩
    · exfalso
      obtain ⟨l, hl⟩ := h.ordered
      have hnone : (l.find? fun j => s.cache.dev j = ROOTDEV ∧ s.cache.blockno j = blockno) = none := by
        rw [find?_eq_none]
        intro j _
        simpa using hhit j
      have hnone' : (l.reverse.find? fun j => s.cache.refcnt j = 0) = none := by
        rw [find?_eq_none]
        intro j _ hj
        exact hfree ⟨j, by simpa using hj⟩
      rw [bget, hl.cached, hnone, hl.free, hnone'] at hb
      cases hb

/-! ### Steps -/

lemma Ordered.front (h : Ordered s l) (i : Fin NBUF)
    (hlinks : s'.cache.links = (s.cache.links.unlink (some i)).insertAfter none (some i))
    (hrel : s'.released = i :: s.released) : ∃ l', Ordered s' l' := by
  obtain ⟨l1, l2, rfl⟩ := append_of_mem (h.mem i)
  have hd := h.nodup
  have hcycle := h.cycle
  rw [map_append, map_cons] at hcycle
  have hnodes := nodup_nodes hd
  rw [map_append, map_cons] at hnodes
  have hperm : (i :: (l1 ++ l2)).Perm (l1 ++ i :: l2) := perm_middle.symm
  have hd' : (i :: (l1 ++ l2)).Nodup := hperm.nodup_iff.mpr hd
  have hnodes' := nodup_nodes (nodup_cons.mp hd').2
  refine ⟨i :: (l1 ++ l2), hperm.trans h.perm, ?_, ?_⟩
  · have hun := hcycle.unlink hnodes
    rw [← map_append] at hun
    rw [hlinks, map_cons]
    refine hun.insertAfter hnodes' ?_
    simpa using (nodup_cons.mp hd').1
  · -- the others keep their order behind it
    have hidx : ∀ j ∈ l1 ++ l2, (i :: s.released).idxOf j = s.released.idxOf j + 1 := by
      intro j hj
      refine idxOf_cons_ne _ ?_
      rintro rfl
      exact (nodup_cons.mp hd').1 hj
    rw [hrel, pairwise_cons]
    refine ⟨fun j _ => by rw [idxOf_cons_self]; exact Nat.zero_le _, ?_⟩
    have hsub : (l1 ++ l2).Pairwise fun a b => s.released.idxOf a ≤ s.released.idxOf b :=
      h.order.sublist (List.Sublist.append_left (sublist_cons_self i l2) l1)
    refine hsub.imp_of_mem fun ha hb hab => ?_
    rw [hidx _ ha, hidx _ hb]
    exact Nat.succ_le_succ hab

lemma refs_update (h : ∀ j, (s.cache.refcnt j).toNat = s.gets j + s.pins j)
    (hr : s'.cache.refcnt = update s.cache.refcnt i x) (hx : x.toNat = s'.gets i + s'.pins i)
    (hg : ∀ j, j ≠ i → s'.gets j = s.gets j) (hp : ∀ j, j ≠ i → s'.pins j = s.pins j) (j : Fin NBUF) :
    (s'.cache.refcnt j).toNat = s'.gets j + s'.pins j := by
  rw [hr]
  by_cases hj : j = i
  · subst hj
    rw [update_self, hx]
  · rw [update_of_ne hj, hg j hj, hp j hj, h j]

lemma toNat_succ (h : x.toNat + 1 < 2 ^ 32) : (x + 1).toNat = x.toNat + 1 := by
  rw [BitVec.toNat_add]
  exact Nat.mod_eq_of_lt h

lemma toNat_pred (h : 0 < x.toNat) : (x - 1).toNat = x.toNat - 1 := by
  refine BitVec.toNat_sub_of_le ?_
  rw [BitVec.le_def]
  exact h

lemma step_inv (hs : step s a = some s') (hfit : s'.Fits) (h : Inv s) : Inv s' := by
  cases a with
  | bget b =>
    obtain ⟨⟨i, c⟩, hb, rfl⟩ := Option.map_eq_some_iff.mp hs
    have hfit := hfit i
    simp only [update_self] at hfit
    have hi := h.refs i
    have hord : ∃ l, Ordered { s with cache := c, gets := update s.gets i (s.gets i + 1) } l := by
      obtain ⟨l, hl⟩ := h.ordered
      refine ⟨l, hl.congr ?_ rfl⟩
      rcases h.bget_cases hb with rfl | ⟨-, -, rfl⟩ <;> rfl
    have hgets : ∀ j, j ≠ i → update s.gets i (s.gets i + 1) j = s.gets j :=
      fun j hj => update_of_ne hj _ _
    rcases h.bget_cases hb with rfl | ⟨hmiss, h0, rfl⟩
    · refine ⟨hord, h.uniq, refs_update h.refs rfl ?_ hgets fun _ _ => rfl⟩
      simp only [update_self]
      rw [toNat_succ (by omega)]
      omega
    · refine ⟨hord, fun j k hj hk hjk => ?_, refs_update h.refs rfl ?_ hgets fun _ _ => rfl⟩
      · -- the block was not cached
        simp only [Bcache.recycled] at hj hk hjk
        by_cases hji : j = i
        · by_cases hki : k = i
          · rw [hji, hki]
          · rw [hji, update_self, update_of_ne hki] at hjk
            rw [update_of_ne hki] at hk
            exact absurd ⟨hk, hjk.symm⟩ (hmiss k)
        · rw [update_of_ne hji] at hj
          rw [update_of_ne hji] at hjk
          by_cases hki : k = i
          · rw [hki, update_self] at hjk
            exact absurd ⟨hj, hjk⟩ (hmiss j)
          · rw [update_of_ne hki] at hk hjk
            exact h.uniq j k hj hk hjk
      · simp only [update_self]
        rw [h0] at hi
        change 1 = _
        change 0 = _ at hi
        omega
  | brelse i =>
    rw [step] at hs
    split at hs
    · rename_i hpos
      cases hs
      have hi := h.refs i
      have hdec : (s.cache.refcnt i - 1).toNat = s.gets i - 1 + s.pins i := by
        rw [toNat_pred (by omega)]
        omega
      have hcnt : (Links.brelse s.cache i).refcnt = update s.cache.refcnt i (s.cache.refcnt i - 1) := by
        unfold Links.brelse
        dsimp only
        split <;> rfl
      have huniq : (Links.brelse s.cache i).dev = s.cache.dev ∧ (Links.brelse s.cache i).blockno = s.cache.blockno := by
        unfold Links.brelse
        dsimp only
        split <;> exact ⟨rfl, rfl⟩
      refine ⟨?_, by rw [huniq.1, huniq.2]; exact h.uniq, refs_update h.refs hcnt ?_ (fun j hj => update_of_ne hj _ _)
        fun _ _ => rfl⟩
      · obtain ⟨l, hl⟩ := h.ordered
        have hzero : (Links.brelse s.cache i).refcnt i = 0 ↔ s.cache.refcnt i - 1 = 0 := by
          rw [hcnt, update_self]
        by_cases h0 : s.cache.refcnt i - 1 = 0
        · refine hl.front i ?_ ?_
          · simp only [Links.brelse, update_self, if_pos h0]
          · simp only [if_pos (hzero.mpr h0)]
        · refine ⟨l, hl.congr ?_ ?_⟩
          · simp only [Links.brelse, update_self, if_neg h0]
          · simp only [if_neg (mt hzero.mp h0)]
      · simp only [update_self]
        exact hdec
    · cases hs
  | bpin i =>
    cases hs
    have hfit := hfit i
    simp only [update_self] at hfit
    have hi := h.refs i
    refine ⟨?_, h.uniq, refs_update h.refs rfl ?_ (fun _ _ => rfl) fun j hj => update_of_ne hj _ _⟩
    · obtain ⟨l, hl⟩ := h.ordered
      exact ⟨l, hl.congr rfl rfl⟩
    · simp only [update_self]
      rw [toNat_succ (by omega)]
      omega
  | bunpin i =>
    rw [step] at hs
    split at hs
    · rename_i hpos
      cases hs
      have hi := h.refs i
      refine ⟨?_, h.uniq, refs_update h.refs rfl ?_ (fun _ _ => rfl) fun j hj => update_of_ne hj _ _⟩
      · obtain ⟨l, hl⟩ := h.ordered
        exact ⟨l, hl.congr rfl rfl⟩
      · simp only [update_self]
        rw [toNat_pred (by omega)]
        omega
    · cases hs

lemma binit_ordered : Ordered init (List.finRange NBUF).reverse := by
  have hfold : ∀ (m : List (Fin NBUF)) (l : List (Fin NBUF)) (k : Dlist.Links Node), (m.reverse ++ l).Nodup →
      Cycle k none (l.map some) →
      Cycle (m.foldl (fun s i => s.insertAfter none (some i)) k) none ((m.reverse ++ l).map some) := by
    intro m
    induction m with
    | nil => exact fun _ _ _ hk => hk
    | cons i m ih =>
      intro l k hd hk
      rw [reverse_cons, append_assoc, singleton_append] at hd ⊢
      have hd' := (nodup_append.mp hd).2.1
      refine ih (i :: l) _ hd (hk.insertAfter (nodup_nodes (nodup_cons.mp hd').2) ?_)
      simpa using (nodup_cons.mp hd').1
  refine ⟨reverse_perm _, ?_, ?_⟩
  · have hcycle := hfold (List.finRange NBUF) [] ⟨fun _ => none, fun _ => none⟩
      (by rw [append_nil]; exact nodup_reverse.mpr (nodup_finRange NBUF)) ⟨rfl, rfl⟩
    rwa [append_nil] at hcycle
  · exact pairwise_of_forall fun _ _ => Nat.le_refl _

lemma init_inv : Inv init := by
  refine ⟨⟨_, binit_ordered⟩, fun i j hi => ?_, fun _ => rfl⟩
  exact absurd hi (by decide : (0 : ℕ) ≠ ROOTDEV)

end

/-- **The representation of the cache.**  As long as the references to each buffer are fewer than
`2 ^ 32`: the links form one cycle through the head and all buffers, no block has two buffers, counters
are gets plus pins; `bget` returns the buffer of a cached block, and otherwise the free buffer whose last
release is the oldest. -/
theorem bcache_representation {s : Sys} {as : List Act} (h : run (guarded Counted step) init as = some s) :
    (∃ l : List (Fin NBUF), l.Perm (List.finRange NBUF) ∧ Cycle s.cache.links none (l.map some)) ∧
      (∀ i j, s.cache.dev i = ROOTDEV → s.cache.dev j = ROOTDEV → s.cache.blockno i = s.cache.blockno j → i = j) ∧
      (∀ i, (s.cache.refcnt i).toNat = s.gets i + s.pins i) ∧
      (∀ i, s.cache.dev i = ROOTDEV → bget s.cache ROOTDEV (s.cache.blockno i) = some (i, s.cache.got i)) ∧
      ∀ b, (∀ i, ¬ (s.cache.dev i = ROOTDEV ∧ s.cache.blockno i = b)) → (∃ i, s.cache.refcnt i = 0) →
        ∃ i, bget s.cache ROOTDEV b = some (i, s.cache.recycled i ROOTDEV b) ∧ s.cache.refcnt i = 0 ∧
          ∀ j, s.cache.refcnt j = 0 → s.released.idxOf j ≤ s.released.idxOf i := by
  have hinv : Inv s := by
    refine run_invariant (fun s a s' hs hi => ?_) h init_inv
    obtain ⟨hcount, hs⟩ := guarded_eq_some.mp hs
    rw [Counted, hs] at hcount
    exact step_inv hs hcount hi
  obtain ⟨l, hl⟩ := hinv.ordered
  exact ⟨⟨l, hl.perm, hl.cycle⟩, hinv.uniq, hinv.refs, fun i hi => hinv.bget_hit hi rfl,
    fun b hmiss hfree => hinv.bget_miss hmiss hfree⟩

/-- Two blocks are got and released, one of them pinned, and a third is got. -/
def lruRun : List Act := [.bget 7, .bpin 0, .bget 8, .brelse 1, .brelse 0, .bunpin 0, .bget 9, .bget 7]

theorem bcache_representation_lruRun :
    ∃ s, run (guarded Counted step) init lruRun = some s ∧ ∀ i, (s.cache.refcnt i).toNat = s.gets i + s.pins i := by
  have hsome : (run (guarded Counted step) init lruRun).isSome := by decide +kernel
  obtain ⟨s, hs⟩ := Option.isSome_iff_exists.mp hsome
  exact ⟨s, hs, (bcache_representation hs).2.2.1⟩

/-! ### Counters that wrap -/

lemma run_bpins (k : ℕ) (i : Fin NBUF) :
    ∃ s, run step init (List.replicate k (.bpin i)) = some s ∧ s.cache.refcnt i = BitVec.ofNat 32 k ∧
      s.gets i = 0 ∧ s.pins i = k := by
  induction k with
  | zero => exact ⟨init, rfl, rfl, rfl, rfl⟩
  | succ k ih =>
    obtain ⟨s, hs, hr, hg, hp⟩ := ih
    refine ⟨{ s with cache := bpin s.cache i, pins := update s.pins i (s.pins i + 1) }, ?_, ?_, hg, ?_⟩
    · rw [replicate_succ', run_append_eq_some]
      exact ⟨s, hs, run_cons_eq_some.mpr ⟨_, rfl, rfl⟩⟩
    · change update s.cache.refcnt i (s.cache.refcnt i + 1) i = _
      rw [update_self, hr, BitVec.ofNat_add]
      rfl
    · change update s.pins i (s.pins i + 1) i = _
      rw [update_self, hp]

/-- After `2 ^ 32` pins the counter is 0. -/
theorem bcache_refcnt_wraps : ∃ s, run step init (List.replicate (2 ^ 32) (.bpin 0)) = some s ∧
      (s.cache.refcnt 0).toNat ≠ s.gets 0 + s.pins 0 := by
  obtain ⟨s, hs, hr, hg, hp⟩ := run_bpins (2 ^ 32) 0
  refine ⟨s, hs, ?_⟩
  rw [hr, hg, hp, BitVec.toNat_ofNat, Nat.mod_self]
  decide

end Xv6.Bio.Links
