import Xv6.Vm.Table

/-!
# `walk` with allocation

`walk` takes pages from the free list for the levels that are missing and hangs them into the table.
-/

namespace Xv6.Vm

open Lib Radix List Option

variable {m m' m'' : Mem} {root : ℕ} {ns ns' : List ℕ} {ok : Panic → Prop}

/-- What `kalloc` can return: no page twice, none of the table, and none that a PTE could not name. -/
structure Spare (m : Mem) (root : ℕ) : Prop where
  nodup : m.freelist.Nodup
  fresh : ∀ t ∈ m.freelist, ¬ m.IsTable root t
  small : ∀ t ∈ m.freelist, t < 2 ^ 44

/-- `m'` is `m` after the pages `ns` of the free list have become pages of the table; other pages that are not
of the table are as they were. -/
structure Reshaped (root : ℕ) (m : Mem) (ns : List ℕ) (m' : Mem) : Prop where
  wf : m'.WellFormed root
  free : m.freelist = ns ++ m'.freelist
  tables : ∀ p, p.length ≤ 2 → m'.table root p = m.table root p ∨
    m.table root p = none ∧ ∃ t ∈ ns, m'.table root p = some t
  taken : ∀ t ∈ ns, m'.IsTable root t
  frame : ∀ t, ¬ m.IsTable root t → t ∉ ns → m'.page t = m.page t

namespace Reshaped

lemma refl (h : m.WellFormed root) : Reshaped root m [] m where
  wf := h
  free := rfl
  tables _ _ := .inl rfl
  taken _ ht := nomatch ht
  frame _ _ _ := rfl

lemma isTable (h : Reshaped root m ns m') (ht : m'.IsTable root t) : m.IsTable root t ∨ t ∈ ns := by
  obtain ⟨p, hp, hpt⟩ := ht
  rcases h.tables p hp with heq | ⟨-, u, hu, heq⟩
  · exact .inl ⟨p, hp, heq ▸ hpt⟩
  · rw [heq] at hpt
    cases hpt
    exact .inr hu

lemma isTable_mono (h : Reshaped root m ns m') (ht : m.IsTable root t) : m'.IsTable root t := by
  obtain ⟨p, hp, hpt⟩ := ht
  rcases h.tables p hp with heq | ⟨hnone, -⟩
  · exact ⟨p, hp, heq.trans hpt⟩
  · rw [hnone] at hpt
    cases hpt

lemma trans (h : Reshaped root m ns m') (h' : Reshaped root m' ns' m'') : Reshaped root m (ns ++ ns') m'' where
  wf := h'.wf
  free := by rw [h.free, h'.free, append_assoc]
  tables p hp := by
    rcases h'.tables p hp with heq | ⟨hnone, t, ht, heq⟩
    · rcases h.tables p hp with heq0 | ⟨hnone, t, ht, heq0⟩
      · exact .inl (heq.trans heq0)
      · exact .inr ⟨hnone, t, mem_append_left _ ht, heq.trans heq0⟩
    · refine .inr ⟨?_, t, mem_append_right _ ht, heq⟩
      rcases h.tables p hp with heq0 | ⟨hnone0, -⟩
      · rw [← heq0, hnone]
      · exact hnone0
  taken t ht := by
    rcases mem_append.mp ht with ht | ht
    · exact h'.isTable_mono (h.taken t ht)
    · exact h'.taken t ht
  frame t hnot hns := by
    rw [mem_append, not_or] at hns
    rw [h'.frame t (fun hc => ?_) hns.2, h.frame t hnot hns.1]
    rcases h.isTable hc with hc | hc
    · exact hnot hc
    · exact hns.1 hc

end Reshaped

lemma Spare.reshaped (h : Spare m root) (hr : Reshaped root m ns m') : Spare m' root where
  nodup := by
    have := h.nodup
    rw [hr.free] at this
    exact this.of_append_right
  fresh t ht hc := by
    have hnodup := h.nodup
    rw [hr.free] at hnodup
    have hmem : t ∈ m.freelist := by
      rw [hr.free]
      exact mem_append_right _ ht
    rcases hr.isTable hc with hc | hc
    · exact h.fresh t hmem hc
    · exact (disjoint_of_nodup_append hnodup) hc ht
  small t ht := h.small t (by
    rw [hr.free]
    exact mem_append_right _ ht)

/-! ### One new page -/

section

variable {b i : ℕ} {rest p : List ℕ} {t : ℕ}

/-- The memory once page `b` is taken from the free list and zeroed. -/
def Mem.zeroed (m : Mem) (b : ℕ) (rest : List ℕ) : Mem := { m with freelist := rest }.setPage b (Page.fill 0)

lemma Mem.zeroed_word_of_ne (h : u ≠ b) : (m.zeroed b rest).word u = m.word u :=
  word_setPage_of_ne _ _ h

lemma Mem.zeroed_table (hfresh : ¬ m.IsTable root b) (hp : p.length ≤ 2) :
    (m.zeroed b rest).table root p = m.table root p := by
  apply node_eq _ hp
  intro q a hq ha
  apply zeroed_word_of_ne
  rintro rfl
  exact hfresh ⟨q, Nat.le_of_lt hq, ha⟩

/-- Page `b` is hung in at word `i` of page `t`. -/
def Mem.hung (m : Mem) (b : ℕ) (rest : List ℕ) (t i : ℕ) : Mem :=
  (m.zeroed b rest).setPage t (((m.zeroed b rest).page t).putLe (8 * i) 8 (PA2PTE (b * PGSIZE) ||| PTE_V))

lemma Mem.hung_word (m : Mem) (b : ℕ) (rest : List ℕ) (t : ℕ) (hi : i < 512) : (m.hung b rest t i).word =
    Radix.set (m.zeroed b rest).word t i (PA2PTE (b * PGSIZE) ||| PTE_V) := by
  apply word_store _ _ hi
  exact Nat.or_lt_two_pow (PA2PTE_lt _) (by decide)

variable (hwf : m.WellFormed root) (hspare : Spare m root) (hfree : m.freelist = b :: rest)
  (hp : p.length < 2) (ht : m.table root p = some t) (hi : i < 512) (hnone : next (m.word t i) = none)

include hspare hfree

lemma Spare.head : ¬ m.IsTable root b ∧ b < 2 ^ 44 := by
  have hmem : b ∈ m.freelist := by
    rw [hfree]
    exact mem_cons_self
  exact ⟨hspare.fresh b hmem, hspare.small b hmem⟩

include hp ht

lemma Mem.hung_ne : t ≠ b := by
  rintro rfl
  exact (hspare.head hfree).1 ⟨p, Nat.le_of_lt hp, ht⟩

include hwf

lemma Mem.zeroed_link : Unshared next (m.zeroed b rest).word root 2 ∧
    node next (m.zeroed b rest).word root p = some t ∧
    (∀ q, q.length ≤ 2 → node next (m.zeroed b rest).word root q ≠ some b) ∧
    ∀ j, next ((m.zeroed b rest).word b j) = none := by
  have hfresh := (hspare.head hfree).1
  have hsame : ∀ q : List ℕ, q.length ≤ 2 → (m.zeroed b rest).table root q = m.table root q :=
    fun q hq => zeroed_table hfresh hq
  refine ⟨hwf.of_eq hsame, (hsame p (Nat.le_of_lt hp)).trans ht, fun q hq hc => ?_, fun j => ?_⟩
  · exact hfresh ⟨q, hq, (hsame q hq).symm.trans hc⟩
  · rw [Mem.zeroed, word_fill_zero, next_zero]

include hi hnone

lemma Mem.hung_table (hq : q.length ≤ 2) :
    (m.hung b rest t i).table root q = if q = p ++ [i] then some b else m.table root q := by
  have htb := Mem.hung_ne hspare hfree hp ht
  obtain ⟨hwf', ht', hfresh', hleaf⟩ := Mem.zeroed_link hwf hspare hfree hp ht
  have hnone' : next ((m.zeroed b rest).word t i) = none := by rwa [zeroed_word_of_ne htb]
  have hq' : (m.zeroed b rest).table root q = m.table root q := zeroed_table (hspare.head hfree).1 hq
  rw [Mem.table, hung_word _ _ _ _ hi,
    hwf'.node_link ht' hp hnone' (next_table (hspare.head hfree).2) hfresh' hleaf hq, ← hq']

lemma Reshaped.hung : Reshaped root m [b] (m.hung b rest t i) where
  wf := by
    have htb := Mem.hung_ne hspare hfree hp ht
    obtain ⟨hwf', ht', hfresh', hleaf⟩ := Mem.zeroed_link hwf hspare hfree hp ht
    have hnone' : next ((m.zeroed b rest).word t i) = none := by rwa [Mem.zeroed_word_of_ne htb]
    rw [Mem.WellFormed, Mem.hung_word _ _ _ _ hi]
    exact hwf'.link ht' hp hnone' (next_table (hspare.head hfree).2) hfresh' hleaf
  free := hfree
  tables q hq := by
    rw [Mem.hung_table hwf hspare hfree hp ht hi hnone hq]
    split
    · rename_i heq
      refine .inr ⟨?_, b, mem_singleton_self b, rfl⟩
      rw [heq, Mem.table_concat, ht, bind_some, hnone]
    · exact .inl rfl
  taken u hu := by
    rw [mem_singleton.mp hu]
    refine ⟨p ++ [i], ?_, ?_⟩
    · rw [length_append, length_singleton]
      omega
    · rw [Mem.hung_table hwf hspare hfree hp ht hi hnone, if_pos rfl]
      rw [length_append, length_singleton]
      omega
  frame u hnot hu := by
    have hub : u ≠ b := fun hc => hu (hc ▸ mem_singleton_self b)
    have hut : u ≠ t := by
      rintro rfl
      exact hnot ⟨p, Nat.le_of_lt hp, ht⟩
    rw [Mem.hung, Mem.setPage, Mem.zeroed, Mem.setPage]
    simp only [Function.update_of_ne hut, Function.update_of_ne hub]

lemma Mem.hung_pte (v : ℕ) : (m.hung b rest t i).pte root v = m.pte root v := by
  have hfresh := (hspare.head hfree).1
  have htb := Mem.hung_ne hspare hfree hp ht
  have hlen : (path v).length ≤ 2 := Nat.le_refl 2
  unfold pte
  rw [hung_table hwf hspare hfree hp ht hi hnone hlen, hung_word _ _ _ _ hi]
  split
  · rename_i heq
    rw [heq, Mem.table_concat, ht, bind_some, hnone, map_some, map_none,
      set_of_ne _ _ _ _ (.inl htb.symm), Mem.zeroed, word_fill_zero]
    rfl
  · cases hu : m.table root (path v) with
    | none => simp only [map_none]
    | some u =>
      have hub : u ≠ b := by
        rintro rfl
        exact hfresh ⟨_, hlen, hu⟩
      -- the page of the last level is not the one that got the new word
      have hut : u ≠ t := by
        rintro rfl
        have := congrArg List.length (hwf _ _ _ hlen (Nat.le_of_lt hp) hu ht)
        have hl2 : (path v).length = 2 := rfl
        omega
      rw [map_some, map_some, set_of_ne _ _ _ _ (.inl hut), zeroed_word_of_ne hub]

end

/-! ### `walk` -/

lemma walkFrom_true (va level : ℕ) (hwf : m.WellFormed root) (hspare : Spare m root) (ht : m.table root p = some t)
    (hpath : p ++ pathFrom va level = Mem.path va) :
    wp (walkFrom va true level (t * PGSIZE)) ok (fun r m' => ∃ ns, Reshaped root m ns m' ∧
      (∀ v, m'.pte root v = m.pte root v) ∧
      match r with
      | none => m'.freelist = []
      | some a => ∃ u, m'.table root (Mem.path va) = some u ∧ a = u * PGSIZE + 8 * PX 0 va) m := by
  induction level generalizing m p t with
  | zero =>
    refine ⟨[], .refl hwf, fun _ => rfl, t, ?_, rfl⟩
    rw [← hpath, pathFrom, append_nil, ht]
  | succ level ih =>
    have hp : p.length < 2 := by
      have := congrArg List.length hpath
      rw [pathFrom, length_append, length_cons, Mem.path, length_cons, length_singleton] at this
      omega
    have hi := PX_lt (level + 1) va
    have hpath' : (p ++ [PX (level + 1) va]) ++ pathFrom va level = Mem.path va := by
      rw [← hpath, pathFrom, append_assoc]
      rfl
    simp only [walkFrom, wp_bind]
    rw [load_word hi]
    refine wp_ite.mpr ⟨fun hv => ?_, fun hv => ?_⟩
    · -- the page of the next level is there
      rw [← PTE2PA_mul]
      apply ih hwf hspare _ hpath'
      rw [Mem.table_concat, ht, bind_some, next, if_pos hv]
    · have hnone : next (m.word t (PX (level + 1) va)) = none := if_neg hv
      simp only [Bool.not_true, Bool.false_eq_true, if_false, kalloc, memset, wp_bind, wp_read]
      cases hfree : m.freelist with
      | nil => exact ⟨[], .refl hwf, fun _ => rfl, hfree⟩
      | cons b rest =>
        have hb : b * PGSIZE / PGSIZE = b := Nat.mul_div_cancel _ (by decide)
        simp only [wp_bind, wp_modify, wp_pure, hb]
        rw [store_word hi]
        have hmem : (({ m with freelist := rest }.setPage b (Page.fill 5)).setPage b (Page.fill 0)) = m.zeroed b rest := by
          simp only [Mem.setPage, Mem.zeroed, Function.update_idem]
        rw [hmem]
        have hr := Reshaped.hung hwf hspare hfree hp ht hi hnone
        refine (ih hr.wf (hspare.reshaped hr) ?_ hpath').mono ?_
        · rw [Mem.hung_table hwf hspare hfree hp ht hi hnone, if_pos rfl]
          rw [length_append, length_singleton]
          omega
        · rintro r m2 ⟨ns, hr2, hpte, hres⟩
          refine ⟨b :: ns, hr.trans hr2, fun v => ?_, hres⟩
          rw [hpte, Mem.hung_pte hwf hspare hfree hp ht hi hnone]

/-- **`walk` with allocation** finds the PTE unless the free list runs out. -/
lemma walk_true {va : ℕ} (hva : va < MAXVA) (hwf : m.WellFormed root) (hspare : Spare m root) :
    wp (walk (root * PGSIZE) va true) ok (fun r m' => ∃ ns, Reshaped root m ns m' ∧
      (∀ v, m'.pte root v = m.pte root v) ∧
      match r with
      | none => m'.freelist = []
      | some a => ∃ u, m'.table root (Mem.path va) = some u ∧ a = u * PGSIZE + 8 * PX 0 va) m := by
  rw [walk, if_neg (Nat.not_le.mpr hva)]
  exact walkFrom_true va 2 hwf hspare (p := []) rfl rfl

end Xv6.Vm
