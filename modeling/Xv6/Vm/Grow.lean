import Xv6.Vm.Map

/-!
# `uvmalloc`

Growing a process takes a page for its data and, now and then, pages for the table.  `Grown` is the invariant of
the loop: `ds` are the data pages so far and `ns` the pages that have become pages of the table.
-/

namespace Xv6.Vm

open Lib Radix List

variable {kend root n perm : ℕ} {m0 m m' : Mem} {ns ds : List ℕ} {ok : Panic → Prop}

/-- An address space with `n` user pages, and the memory it lives in: nothing is mapped beyond them but the
trapframe and the trampoline, no page that is mapped is free or one of the table, and the user pages are
distinct pages of RAM. -/
structure Space (kend : ℕ) (m : Mem) (root n : ℕ) : Prop where
  wf : m.WellFormed root
  spare : Spare m root
  freeable : ∀ t ∈ m.freelist, Freeable kend t
  leaves : ∀ v, v < MAXVA → (m.pte root v &&& PTE_V ≠ 0 ↔
    v / PGSIZE < n ∨ v / PGSIZE = TRAPFRAME / PGSIZE ∨ v / PGSIZE = TRAMPOLINE / PGSIZE)
  outside : ∀ v, v < MAXVA → m.pte root v &&& PTE_V ≠ 0 → ¬ m.IsTable root (m.target root v) ∧ m.target root v ∉ m.freelist
  distinct : ∀ i j, i < n → j < n → m.target root (i * PGSIZE) = m.target root (j * PGSIZE) → i = j
  ram : ∀ i, i < n → m.target root (i * PGSIZE) < PHYSTOP / PGSIZE

lemma Space.room (h : Space kend m root n) : n + m.freelist.length < TRAPFRAME / PGSIZE := by
  have hbound : n ≤ PHYSTOP / PGSIZE := by
    have hnodup : ((List.range n).map fun i => m.target root (i * PGSIZE)).Nodup := by
      apply List.Nodup.map_on _ nodup_range
      intro i hi j hj
      exact h.distinct i j (mem_range.mp hi) (mem_range.mp hj)
    have hsub : ((List.range n).map fun i => m.target root (i * PGSIZE)) ⊆ List.range (PHYSTOP / PGSIZE) := by
      intro t ht
      obtain ⟨i, hi, rfl⟩ := mem_map.mp ht
      exact mem_range.mpr (h.ram i (mem_range.mp hi))
    have := (hnodup.subperm hsub).length_le
    rwa [length_map, length_range, length_range] at this
  have hfree : m.freelist.length ≤ PHYSTOP / PGSIZE := by
    have hsub : m.freelist ⊆ List.range (PHYSTOP / PGSIZE) := by
      intro t ht
      have hlt : t * PGSIZE < PHYSTOP / PGSIZE * PGSIZE := (h.freeable t ht).2
      exact mem_range.mpr (Nat.lt_of_mul_lt_mul_right hlt)
    have := (h.spare.nodup.subperm hsub).length_le
    rwa [length_range] at this
  have : PHYSTOP / PGSIZE + PHYSTOP / PGSIZE < TRAPFRAME / PGSIZE := by decide
  omega

/-- The memory `m` while a process of `n` pages is growing from memory `m₀`. -/
structure Grown (root n perm : ℕ) (m₀ : Mem) (ns ds : List ℕ) (m : Mem) : Prop where
  wf : m.WellFormed root
  free : m₀.freelist.Perm (ns ++ ds ++ m.freelist)
  tables : ∀ t, m.IsTable root t ↔ m₀.IsTable root t ∨ t ∈ ns
  pte : ∀ v, v < MAXVA → m.pte root v =
    if n * PGSIZE ≤ v ∧ v < (n + ds.length) * PGSIZE then PA2PTE (ds.getD (v / PGSIZE - n) 0 * PGSIZE) ||| perm ||| PTE_V
    else m₀.pte root v
  frame : ∀ t, ¬ m₀.IsTable root t → t ∉ m₀.freelist → m.page t = m₀.page t
  zero : ∀ t ∈ ds, m.page t = Page.fill 0

variable {t k v xperm : ℕ}

lemma Mem.zeroed_page {rest : List ℕ} (ht : t ≠ d) : (m.zeroed d rest).page t = m.page t :=
  Function.update_of_ne ht _ _

lemma Reshaped.taken_mem (hr : Reshaped root m ns m') (ht : t ∈ ns) : t ∈ m.freelist := by
  rw [hr.free]
  exact mem_append_left _ ht

namespace Grown

lemma start (h : m0.WellFormed root) : Grown root n perm m0 [] [] m0 where
  wf := h
  free := List.Perm.refl _
  tables t := by simp
  pte v _ := by rw [length_nil, Nat.add_zero, if_neg (by omega)]
  frame _ _ _ := rfl
  zero t ht := nomatch ht

section

variable (h : Grown root n perm m0 ns ds m)

include h

lemma nodup (hs : Spare m0 root) : (ns ++ ds ++ m.freelist).Nodup :=
  h.free.nodup_iff.mp hs.nodup

lemma mem : t ∈ m0.freelist ↔ t ∈ ns ∨ t ∈ ds ∨ t ∈ m.freelist := by
  rw [h.free.mem_iff, mem_append, mem_append, or_assoc]

lemma spare (hs : Spare m0 root) : Spare m root where
  nodup := (h.nodup hs).of_append_right
  fresh t ht hc := by
    rcases (h.tables t).mp hc with hc | hc
    · exact hs.fresh t (h.mem.mpr (.inr (.inr ht))) hc
    · exact disjoint_of_nodup_append (h.nodup hs) (mem_append_left _ hc) ht
  small t ht := hs.small t (h.mem.mpr (.inr (.inr ht)))

lemma data_fresh (hs : Spare m0 root) (ht : t ∈ ds) : ¬ m.IsTable root t := by
  intro hc
  rcases (h.tables t).mp hc with hc | hc
  · exact hs.fresh t (h.mem.mpr (.inr (.inl ht))) hc
  · exact disjoint_of_nodup_append (h.nodup hs).of_append_left hc ht

lemma room (hs : Space kend m0 root n) : n + ds.length + m.freelist.length < TRAPFRAME / PGSIZE := by
  have hlen := h.free.length_eq
  have := hs.room
  rw [length_append, length_append] at hlen
  omega

end

/-! ### A page more -/

section

variable (h : Grown root n perm m0 ns ds m) (hs : Spare m0 root) {d : ℕ} {rest : List ℕ} (hfree : m.freelist = d :: rest)

include h hs hfree

lemma fetched : ¬ m.IsTable root d ∧ d ∉ ns ∧ d ∉ ds ∧ d ∈ m0.freelist ∧ d < 2 ^ 44 := by
  have hmem : d ∈ m.freelist := by
    rw [hfree]
    exact mem_cons_self
  have hnodup := h.nodup hs
  have hd := disjoint_of_nodup_append hnodup
  refine ⟨(h.spare hs).fresh d hmem, fun hc => ?_, fun hc => ?_, h.mem.mpr (.inr (.inr hmem)), (h.spare hs).small d hmem⟩
  · exact hd (mem_append_left _ hc) hmem
  · exact hd (mem_append_right _ hc) hmem

lemma zeroed_isTable (t : ℕ) : (m.zeroed d rest).IsTable root t ↔ m.IsTable root t := by
  have hd := (h.fetched hs hfree).1
  constructor
  · rintro ⟨p, hp, hpt⟩
    exact ⟨p, hp, (Mem.zeroed_table hd hp).symm.trans hpt⟩
  · rintro ⟨p, hp, hpt⟩
    exact ⟨p, hp, (Mem.zeroed_table hd hp).trans hpt⟩

lemma zeroed_wf : (m.zeroed d rest).WellFormed root :=
  h.wf.of_eq fun _ hp => Mem.zeroed_table (h.fetched hs hfree).1 hp

lemma zeroed_pte (v : ℕ) : (m.zeroed d rest).pte root v = m.pte root v := by
  apply Mem.pte_of_pages
  intro u hu
  apply Mem.zeroed_page
  rintro rfl
  exact (h.fetched hs hfree).1 hu

lemma zeroed_spare : Spare (m.zeroed d rest) root := by
  have hspare := h.spare hs
  have hmem : ∀ t ∈ rest, t ∈ m.freelist := fun t ht => by
    rw [hfree]
    exact mem_cons_of_mem _ ht
  refine ⟨?_, fun t ht hc => ?_, fun t ht => hspare.small t (hmem t ht)⟩
  · have := hspare.nodup
    rw [hfree] at this
    exact (nodup_cons.mp this).2
  · exact hspare.fresh t (hmem t ht) ((h.zeroed_isTable hs hfree t).mp hc)

variable {ns' : List ℕ} {m2 : Mem} (hr : Reshaped root (m.zeroed d rest) ns' m2)

include hr

lemma reshaped_isTable (t : ℕ) : m2.IsTable root t ↔ m0.IsTable root t ∨ t ∈ ns ++ ns' := by
  rw [mem_append, ← or_assoc, ← h.tables, ← h.zeroed_isTable hs hfree]
  constructor
  · exact hr.isTable
  · rintro (ht | ht)
    · exact hr.isTable_mono ht
    · exact hr.taken t ht

lemma reshaped_page (ht : ¬ m.IsTable root t) (hd : t ≠ d) (hns : t ∉ ns') : m2.page t = m.page t := by
  rw [hr.frame t (fun hc => ht ((h.zeroed_isTable hs hfree t).mp hc)) hns, Mem.zeroed_page hd]

lemma reshaped_frame (ht : ¬ m0.IsTable root t) (hnot : t ∉ m0.freelist) : m2.page t = m0.page t := by
  have hno : t ∉ m.freelist := fun hc => hnot (h.mem.mpr (.inr (.inr hc)))
  rw [h.reshaped_page hs hfree hr, h.frame t ht hnot]
  · intro hc
    rcases (h.tables t).mp hc with hc | hc
    · exact ht hc
    · exact hnot (h.mem.mpr (.inl hc))
  · rintro rfl
    exact hnot (h.fetched hs hfree).2.2.2.1
  · intro hc
    apply hno
    rw [hfree]
    exact mem_cons_of_mem _ (hr.taken_mem hc)

lemma reshaped_data (ht : t ∈ ds) : m2.page t = Page.fill 0 := by
  have hd : t ≠ d := by
    rintro rfl
    exact (h.fetched hs hfree).2.2.1 ht
  rw [h.reshaped_page hs hfree hr (h.data_fresh hs ht) hd, h.zero t ht]
  intro hc
  apply disjoint_of_nodup_append (h.nodup hs) (mem_append_right _ ht)
  rw [hfree]
  exact mem_cons_of_mem _ (hr.taken_mem hc)

/-- **The page is mapped.** -/
lemma push (hmap : (m.zeroed d rest).Mapped root ((n + ds.length) * PGSIZE) 1 (d * PGSIZE) perm m2) :
    Grown root n perm m0 (ns ++ ns') (ds ++ [d]) m2 where
  wf := hr.wf
  free := by
    have hrest : rest = ns' ++ m2.freelist := hr.free
    have hfree0 := h.free
    rw [hfree, hrest] at hfree0
    refine hfree0.trans ?_
    rw [perm_iff_count]
    intro t
    simp only [count_append, count_cons, count_nil]
    omega
  tables := h.reshaped_isTable hs hfree hr
  pte v hv := by
    have hlen := add_one_page (n + ds.length)
    have hmod : (n + ds.length) * PGSIZE % PGSIZE = 0 := Nat.mul_mod_left _ _
    have hdiv : (n + ds.length) * PGSIZE / PGSIZE = n + ds.length := Nat.mul_div_cancel _ (by decide)
    have hle : n * PGSIZE ≤ (n + ds.length) * PGSIZE := Nat.mul_le_mul_right _ (Nat.le_add_right _ _)
    rw [hmap v hv, h.zeroed_pte hs hfree, h.pte v hv, length_append, length_singleton, ← Nat.add_assoc, hlen,
      Nat.one_mul]
    by_cases hnew : (n + ds.length) * PGSIZE ≤ v ∧ v < (n + ds.length) * PGSIZE + PGSIZE
    · have hpage := (page_iff hmod).mpr hnew
      have hlast : (ds ++ [d]).getD ds.length 0 = d := by
        rw [getD_append_right _ _ _ _ (Nat.le_refl _), Nat.sub_self]
        rfl
      have hoff : v - (n + ds.length) * PGSIZE < PGSIZE := by omega
      rw [hdiv] at hpage
      rw [if_pos hnew, if_pos ⟨Nat.le_trans hle hnew.1, hnew.2⟩, PA2PTE_add (Nat.mul_mod_left d PGSIZE) hoff, hpage,
        Nat.add_sub_cancel_left, hlast]
    · rw [if_neg hnew]
      by_cases hold : n * PGSIZE ≤ v ∧ v < (n + ds.length) * PGSIZE
      · have hpage : v / PGSIZE < n + ds.length := Nat.div_lt_of_lt_mul (by rw [Nat.mul_comm]; exact hold.2)
        have hge : n ≤ v / PGSIZE := (Nat.le_div_iff_mul_le (by decide)).mpr hold.1
        rw [if_pos hold, if_pos ⟨hold.1, by omega⟩, getD_append _ _ _ _ (by omega)]
      · have hout : ¬ (n * PGSIZE ≤ v ∧ v < (n + ds.length) * PGSIZE + PGSIZE) := by
          rintro ⟨h1, h2⟩
          rcases Nat.lt_or_ge v ((n + ds.length) * PGSIZE) with hlt | hge
          · exact hold ⟨h1, hlt⟩
          · exact hnew ⟨hge, h2⟩
        rw [if_neg hold, if_neg hout]
  frame t := h.reshaped_frame hs hfree hr
  zero t ht := by
    rcases mem_append.mp ht with ht | ht
    · exact h.reshaped_data hs hfree hr ht
    · rw [mem_singleton.mp ht]
      have hd := h.fetched hs hfree
      rw [hr.frame d (fun hc => hd.1 ((h.zeroed_isTable hs hfree d).mp hc))]
      · exact Function.update_self _ _ _
      · intro hc
        have hnodup := (h.spare hs).nodup
        rw [hfree] at hnodup
        exact (nodup_cons.mp hnodup).1 (hr.taken_mem hc)

lemma giveBack (hpte : ∀ v, v < MAXVA → m2.pte root v = (m.zeroed d rest).pte root v)
    (hfree3 : m3.freelist = d :: m2.freelist) (hpage : ∀ u, u ≠ d → m3.page u = m2.page u) :
    Grown root n perm m0 (ns ++ ns') ds m3 := by
  have hd := h.fetched hs hfree
  have hnotd : ∀ t, m2.IsTable root t → t ≠ d := by
    rintro t ht rfl
    rcases (h.reshaped_isTable hs hfree hr t).mp ht with hc | hc
    · exact hd.1 ((h.tables t).mpr (.inl hc))
    · rcases mem_append.mp hc with hc | hc
      · exact hd.2.1 hc
      · have hnodup := (h.spare hs).nodup
        rw [hfree] at hnodup
        exact (nodup_cons.mp hnodup).1 (hr.taken_mem hc)
  have hsame : ∀ u, m2.IsTable root u → m3.page u = m2.page u := fun u hu => hpage u (hnotd u hu)
  refine ⟨hr.wf.of_eq fun _ hp => Mem.table_of_pages hsame hp, ?_, fun t => ?_, fun v hv => ?_, fun t ht hnot => ?_,
    fun t ht => ?_⟩
  · have hrest : rest = ns' ++ m2.freelist := hr.free
    have hfree0 := h.free
    rw [hfree, hrest] at hfree0
    rw [hfree3]
    refine hfree0.trans ?_
    rw [perm_iff_count]
    intro t
    simp only [count_append, count_cons]
    omega
  · rw [← h.reshaped_isTable hs hfree hr]
    constructor
    · rintro ⟨p, hp, hpt⟩
      exact ⟨p, hp, (Mem.table_of_pages hsame hp).symm.trans hpt⟩
    · rintro ⟨p, hp, hpt⟩
      exact ⟨p, hp, (Mem.table_of_pages hsame hp).trans hpt⟩
  · rw [Mem.pte_of_pages hsame, hpte v hv, h.zeroed_pte hs hfree, h.pte v hv]
  · rw [hpage t, h.reshaped_frame hs hfree hr ht hnot]
    rintro rfl
    exact hnot hd.2.2.2.1
  · rw [hpage t, h.reshaped_data hs hfree hr ht]
    rintro rfl
    exact hd.2.2.1 ht

end

end Grown

/-! ### Taking it back -/

lemma PGROUNDUP_mul (hk : k < 2 ^ 51) : PGROUNDUP (k * PGSIZE) = k * PGSIZE := by
  unfold PGROUNDUP
  rw [PGSIZE_eq]
  omega

lemma sext32_of_lt (h : v < 2 ^ 31) : sext32 v = v := by
  unfold sext32
  rw [Nat.mod_eq_of_lt (by omega), if_pos h]

lemma leaf_of_read (hR : perm.testBit 1 = true) : Leaf (x ||| perm ||| PTE_V) := by
  refine ⟨or_V_odd _, fun hc => ?_⟩
  have hbit : (PTE_FLAGS (x ||| perm ||| PTE_V)).testBit 1 = true := by
    rw [PTE_FLAGS, Nat.testBit_mod_two_pow, Nat.testBit_or, Nat.testBit_or, hR]
    simp
  rw [hc] at hbit
  exact absurd hbit (by decide)

/-- `m'` is `m₀` but for the pages `ns`, which are pages of the table now: what was mapped is mapped as before, what
was not mapped is not mapped, and pages that were in use keep their contents. -/
structure Undone (root : ℕ) (m₀ : Mem) (ns : List ℕ) (m' : Mem) : Prop where
  leaves : ∀ v, v < MAXVA → m'.pte root v = m₀.pte root v ∨ m₀.pte root v &&& PTE_V = 0 ∧ m'.pte root v = 0
  free : m₀.freelist.Perm (ns ++ m'.freelist)
  taken : ∀ t ∈ ns, m'.IsTable root t
  frame : ∀ t, ¬ m₀.IsTable root t → t ∉ m₀.freelist → m'.page t = m₀.page t

lemma Space.unmapped (hs : Space kend m0 root n) (h1 : n * PGSIZE ≤ v) (h2 : v < TRAPFRAME) :
    m0.pte root v &&& PTE_V = 0 := by
  have hT : TRAPFRAME < MAXVA := by decide
  by_contra hc
  have hge : n ≤ v / PGSIZE := (Nat.le_div_iff_mul_le (by decide)).mpr h1
  have hlt : v / PGSIZE < TRAPFRAME / PGSIZE := by
    apply Nat.div_lt_of_lt_mul
    exact h2
  have hT' : TRAPFRAME / PGSIZE < TRAMPOLINE / PGSIZE := by decide
  rcases (hs.leaves v (by omega)).mp hc with hlow | htop | htop
  · omega
  · omega
  · omega

section

variable (h : Grown root n perm m0 ns ds m) (hs : Space kend m0 root n)

include h hs

variable (hperm : perm < 2 ^ 10) (hR : perm.testBit 1 = true)

include hperm

lemma Grown.target_new (h1 : n * PGSIZE ≤ v) (h2 : v < (n + ds.length) * PGSIZE) :
    ∃ hk : v / PGSIZE - n < ds.length, m.target root v = ds[v / PGSIZE - n] := by
  have hP : 0 < PGSIZE := by decide
  have hlo : n ≤ v / PGSIZE := (Nat.le_div_iff_mul_le hP).mpr h1
  have hhi : v / PGSIZE < n + ds.length := (Nat.div_lt_iff_lt_mul hP).mpr h2
  have hk : v / PGSIZE - n < ds.length := by omega
  have hroom := h.room hs
  have hT : TRAPFRAME / PGSIZE * PGSIZE ≤ MAXVA := by decide
  have hend : (n + ds.length) * PGSIZE ≤ TRAPFRAME / PGSIZE * PGSIZE := Nat.mul_le_mul_right _ (by omega)
  have hsmall : ds[v / PGSIZE - n] < 2 ^ 44 := hs.spare.small _ (h.mem.mpr (.inr (.inl (getElem_mem hk))))
  have hback : PTE2PA (PA2PTE (ds[v / PGSIZE - n] * PGSIZE) ||| perm ||| PTE_V) = ds[v / PGSIZE - n] * PGSIZE := by
    rw [Nat.or_assoc]
    exact PTE2PA_or (mul_page_lt hsmall) (Nat.mul_mod_left _ _) (Nat.or_lt_two_pow hperm (by decide))
  refine ⟨hk, ?_⟩
  rw [Mem.target, h.pte v (h2.trans_le (hend.trans hT)), if_pos ⟨h1, h2⟩, getD_eq_getElem _ _ hk, hback]
  exact Nat.mul_div_cancel _ hP

lemma Grown.targets_eq : m.targets root (n * PGSIZE) ds.length true = ds := by
  rw [Mem.targets, if_pos rfl]
  apply ext_getElem
  · rw [length_map, length_range]
  · intro k hk1 hk2
    have hP : 0 < PGSIZE := by decide
    have hsum : n * PGSIZE + k * PGSIZE = (n + k) * PGSIZE := (Nat.add_mul _ _ _).symm
    have hin : (n + k) * PGSIZE < (n + ds.length) * PGSIZE := Nat.mul_lt_mul_of_pos_right (by omega) hP
    have hle : n * PGSIZE ≤ (n + k) * PGSIZE := Nat.mul_le_mul_right _ (Nat.le_add_right _ _)
    have hidx : (n + k) * PGSIZE / PGSIZE - n = k := by
      rw [Nat.mul_div_cancel _ hP, Nat.add_sub_cancel_left]
    obtain ⟨_, ht⟩ := h.target_new hs hperm hle hin
    rw [getElem_map, getElem_range, hsum, ht]
    exact getElem_congr_idx hidx

include hR

/-- **The rollback** unmaps the pages that were mapped and frees them. -/
lemma Grown.undo : wp (uvmdealloc kend (root * PGSIZE) ((n + ds.length) * PGSIZE) (n * PGSIZE)) ok
    (fun _ m' => Undone root m0 ns m') m := by
  have hroom := h.room hs
  have hT : TRAPFRAME / PGSIZE * PGSIZE ≤ TRAPFRAME := by decide
  have hM : TRAPFRAME < MAXVA := by decide
  have hpages : TRAPFRAME / PGSIZE < 2 ^ 31 := by decide
  have hend : (n + ds.length) * PGSIZE ≤ TRAPFRAME / PGSIZE * PGSIZE := Nat.mul_le_mul_right _ (by omega)
  have hsum : (n + ds.length) * PGSIZE = n * PGSIZE + ds.length * PGSIZE := Nat.add_mul _ _ _
  rw [uvmdealloc]
  refine wp_ite.mpr ⟨fun hge => ?_, fun hlt => ?_⟩
  · -- nothing was mapped
    have hnil : ds = [] := by
      have hP : PGSIZE = 4096 := rfl
      rw [← length_eq_zero_iff]
      by_contra hpos
      have : 1 * PGSIZE ≤ ds.length * PGSIZE := Nat.mul_le_mul_right _ (by omega)
      omega
    subst hnil
    refine ⟨fun v hv => .inl ?_, ?_, fun t ht => (h.tables t).mpr (.inr ht), h.frame⟩
    · rw [h.pte v hv, length_nil, Nat.add_zero, if_neg (by omega)]
    · have := h.free
      rwa [append_nil] at this
  · have hup1 : PGROUNDUP (n * PGSIZE) = n * PGSIZE := PGROUNDUP_mul (by omega)
    have hup2 : PGROUNDUP ((n + ds.length) * PGSIZE) = (n + ds.length) * PGSIZE := PGROUNDUP_mul (by omega)
    have hcount : ((n + ds.length) * PGSIZE - n * PGSIZE) / PGSIZE = ds.length := by
      rw [hsum, Nat.add_sub_cancel_left, Nat.mul_div_cancel _ (by decide)]
    dsimp only
    rw [hup1, hup2, if_pos (Nat.lt_of_not_le hlt), wp_bind, hcount, sext32_of_lt (by omega)]
    have htargets := h.targets_eq hs hperm
    have htop : n * PGSIZE + ds.length * PGSIZE ≤ MAXVA := hsum ▸ hend.trans (hT.trans (Nat.le_of_lt hM))
    refine (uvmunmap_spec h.wf (Nat.mul_mod_left n PGSIZE) htop (fun k hk => ?_) ?_).mono ?_
    · have hone : (k + 1) * PGSIZE ≤ ds.length * PGSIZE := Nat.mul_le_mul_right _ hk
      have hk1 := add_one_page k
      have hP : 0 < PGSIZE := by decide
      have hin : n * PGSIZE + k * PGSIZE < (n + ds.length) * PGSIZE := by omega
      rw [h.pte _ (by omega), if_pos ⟨Nat.le_add_right _ _, hin⟩]
      exact leaf_of_read hR
    · intro t ht
      rw [htargets] at ht
      exact ⟨hs.freeable t (h.mem.mpr (.inr (.inl ht))), h.data_fresh hs.spare ht⟩
    · intro _ m' hun
      rw [htargets] at hun
      refine ⟨fun v hv => ?_, ?_, fun t ht => ?_, fun t ht hnot => ?_⟩
      · rw [hun.pte v hv, h.pte v hv, hsum]
        by_cases hin : n * PGSIZE ≤ v ∧ v < n * PGSIZE + ds.length * PGSIZE
        · rw [if_pos hin]
          exact .inr ⟨hs.unmapped hin.1 (by omega), rfl⟩
        · rw [if_neg hin, if_neg hin]
          exact .inl rfl
      · rw [hun.free]
        refine h.free.trans ?_
        rw [append_assoc]
        exact List.Perm.append_left _ (List.Perm.append_right _ (reverse_perm ds).symm)
      · exact (hun.isTable t).mpr ((h.tables t).mpr (.inr ht))
      · rw [hun.frame t, h.frame t ht hnot]
        · intro hc
          rcases (h.tables t).mp hc with hc | hc
          · exact ht hc
          · exact hnot (h.mem.mpr (.inl hc))
        · exact fun hc => hnot (h.mem.mpr (.inr (.inl hc)))

end

/-! ### The loop -/

/-- The permissions that `uvmalloc` gives. -/
def growPerm (xperm : ℕ) : ℕ := PTE_R ||| PTE_U ||| xperm

lemma growPerm_lt (h : xperm < 2 ^ 10) : growPerm xperm < 2 ^ 10 := Nat.or_lt_two_pow (by decide) h

lemma growPerm_read (xperm : ℕ) : (growPerm xperm).testBit 1 = true := by
  have hR : (PTE_R ||| PTE_U).testBit 1 = true := by decide
  rw [growPerm, Nat.testBit_or, hR, Bool.true_or]

lemma PGROUNDUP_of_le {sz : ℕ} (hk : k < 2 ^ 51) (h1 : sz ≤ k * PGSIZE) (h2 : k * PGSIZE < sz + PGSIZE) :
    PGROUNDUP sz = k * PGSIZE := by
  unfold PGROUNDUP
  rw [PGSIZE_eq] at *
  omega

lemma PGROUNDUP_lt (sz : ℕ) : PGROUNDUP sz < sz + PGSIZE := by
  unfold PGROUNDUP
  rw [PGSIZE_eq]
  omega

lemma PGROUNDUP_pages (sz : ℕ) : PGROUNDUP sz / PGSIZE * PGSIZE = PGROUNDUP sz := by
  unfold PGROUNDUP
  rw [PGSIZE_eq]
  omega

lemma no_pages (a v : ℕ) : ¬ (a ≤ v ∧ v < a + 0 * PGSIZE) := by
  rw [Nat.zero_mul]
  omega

/-- `m'` is `m₀` after the process has grown to `newsz`. -/
def Enlarged (root n xperm : ℕ) (m₀ : Mem) (newsz : ℕ) (m' : Mem) : Prop :=
  ∃ ns ds, Grown root n (growPerm xperm) m₀ ns ds m' ∧ newsz ≤ (n + ds.length) * PGSIZE ∧
    (n + ds.length) * PGSIZE < newsz + PGSIZE

/-- **The loop of `uvmalloc`** from the `ds.length`-th new page on. -/
lemma growLoop_spec {newsz : ℕ} (hx : xperm < 2 ^ 10) (hs : Space kend m0 root n) (fuel : ℕ)
    (h : Grown root n (growPerm xperm) m0 ns ds m) (hfuel : newsz ≤ (n + ds.length + fuel) * PGSIZE)
    (hneed : (n + ds.length) * PGSIZE < newsz + PGSIZE) :
    wp (growLoop kend (root * PGSIZE) (n * PGSIZE) newsz xperm fuel ((n + ds.length) * PGSIZE)) ok (fun r m' =>
      (r = 0 ∧ 0 < newsz ∧ ∃ ns', Undone root m0 ns' m') ∨ (r = newsz ∧ Enlarged root n xperm m0 newsz m')) m := by
  induction fuel generalizing m ns ds with
  | zero => exact .inr ⟨rfl, ns, ds, h, hfuel, hneed⟩
  | succ fuel ih =>
    rw [growLoop]
    refine wp_ite.mpr ⟨fun hlt => ?_, fun hge => .inr ⟨rfl, ns, ds, h, Nat.le_of_not_lt hge, hneed⟩⟩
    -- either allocation can fail, and the same pages are given back
    have hfail : ∀ {ns' : List ℕ} {m1 : Mem}, Grown root n (growPerm xperm) m0 ns' ds m1 → wp (do
          let _ ← uvmdealloc kend (root * PGSIZE) ((n + ds.length) * PGSIZE) (n * PGSIZE)
          pure 0) ok (fun r m' => (r = 0 ∧ 0 < newsz ∧ ∃ ns', Undone root m0 ns' m') ∨
            (r = newsz ∧ Enlarged root n xperm m0 newsz m')) m1 := by
      intro ns' m1 h₁
      rw [wp_bind]
      refine (h₁.undo hs (growPerm_lt hx) (growPerm_read xperm)).mono ?_
      intro _ m2 hun
      exact .inl ⟨rfl, Nat.zero_lt_of_lt hlt, ns', hun⟩
    simp only [kalloc, memset, wp_bind, wp_read]
    cases hfree : m.freelist with
    | nil => exact hfail h
    | cons d rest =>
      have hb : d * PGSIZE / PGSIZE = d := Nat.mul_div_cancel _ (by decide)
      simp only [wp_bind, wp_modify, wp_pure, hb]
      have hmem : (({ m with freelist := rest }.setPage d (Page.fill 5)).setPage d (Page.fill 0)) = m.zeroed d rest := by
        simp only [Mem.setPage, Mem.zeroed, Function.update_idem]
      rw [hmem]
      obtain ⟨-, -, -, hdm, hdsmall⟩ := h.fetched hs.spare hfree
      have hroom := h.room hs
      rw [hfree, length_cons] at hroom
      have hone := add_one_page (n + ds.length)
      have hT : TRAPFRAME / PGSIZE * PGSIZE ≤ TRAPFRAME := by decide
      have hM : TRAPFRAME ≤ MAXVA := by decide
      have hnext : (n + ds.length + 1) * PGSIZE ≤ TRAPFRAME :=
        (Nat.mul_le_mul_right _ (by omega)).trans hT
      have hle : n * PGSIZE ≤ (n + ds.length) * PGSIZE := Nat.mul_le_mul_right _ (Nat.le_add_right _ _)
      have hpa : d * PGSIZE + PGSIZE ≤ 2 ^ 56 := by
        rw [← add_one_page]
        exact Nat.mul_le_mul_right 4096 hdsmall
      have hun : ∀ v, (n + ds.length) * PGSIZE ≤ v → v < (n + ds.length) * PGSIZE + PGSIZE →
          (m.zeroed d rest).pte root v &&& PTE_V = 0 := by
        intro v h1 h2
        have hv : v < TRAPFRAME := by
          rw [← hone] at h2
          exact h2.trans_le hnext
        rw [h.zeroed_pte hs.spare hfree, h.pte v (hv.trans_le hM), if_neg (fun hc => absurd hc.2 (Nat.not_lt.mpr h1))]
        exact hs.unmapped (hle.trans h1) hv
      refine (mappages_spec (lt_trans (growPerm_lt hx) (by decide)) (h.zeroed_wf hs.spare hfree)
        (h.zeroed_spare hs.spare hfree) (Nat.mul_mod_left (n + ds.length) PGSIZE) (Nat.mod_self PGSIZE) (by decide)
        (by rw [← hone]; exact hnext.trans hM) (Nat.mul_mod_left d PGSIZE) hpa hun).mono ?_
      rintro r m2 ⟨ns', k, hr, hmap, hres⟩
      rcases hres with ⟨rfl, hk⟩ | ⟨rfl, hk, -⟩
      · have hk1 : k = 1 := Nat.eq_of_mul_eq_mul_right (show 0 < PGSIZE by decide) (by rw [hk, Nat.one_mul])
        subst hk1
        rw [if_neg (not_not.mpr rfl)]
        have hlen : n + (ds ++ [d]).length = n + ds.length + 1 := by
          rw [length_append, length_singleton, Nat.add_assoc]
        have hrest := ih (h.push hs.spare hfree hr hmap)
          (by rwa [hlen, Nat.add_assoc _ 1 fuel, Nat.add_comm 1 fuel])
          (by rw [hlen, hone]; exact Nat.add_lt_add_right hlt _)
        rw [hlen, hone] at hrest
        exact hrest
      · have hk0 : k = 0 := by
          by_contra hpos
          have : 1 * PGSIZE ≤ k * PGSIZE := Nat.mul_le_mul_right _ (Nat.one_le_iff_ne_zero.mpr hpos)
          omega
        subst hk0
        rw [if_pos (by decide), wp_bind]
        refine (kfree_spec (hs.freeable d hdm)).mono ?_
        rintro _ m3 ⟨hfree3, hpage⟩
        refine hfail (h.giveBack hs.spare hfree hr (fun v hv => ?_) hfree3 hpage)
        rw [hmap v hv, if_neg (no_pages _ _)]

section

variable (h : Grown root n perm m0 ns ds m) (hs : Space kend m0 root n) (hv : v < MAXVA)

include h hs hv

lemma Grown.old (hm : m0.pte root v &&& PTE_V ≠ 0) :
    m.pte root v = m0.pte root v ∧ m.page (m0.target root v) = m0.page (m0.target root v) := by
  have hout := hs.outside v hv hm
  refine ⟨?_, h.frame _ hout.1 hout.2⟩
  have hroom := h.room hs
  have hT : TRAPFRAME / PGSIZE * PGSIZE ≤ TRAPFRAME := by decide
  have hend : (n + ds.length) * PGSIZE ≤ TRAPFRAME / PGSIZE * PGSIZE := Nat.mul_le_mul_right _ (by omega)
  rw [h.pte v hv]
  split
  · rename_i hin
    exact absurd (hs.unmapped hin.1 (hin.2.trans_le (hend.trans hT))) hm
  · rfl

lemma Grown.mapped :
    m.pte root v &&& PTE_V ≠ 0 ↔
      v / PGSIZE < n + ds.length ∨ v / PGSIZE = TRAPFRAME / PGSIZE ∨ v / PGSIZE = TRAMPOLINE / PGSIZE := by
  have hP : 0 < PGSIZE := by decide
  rw [h.pte v hv]
  split
  · rename_i hin
    exact iff_of_true (or_V_odd _) (.inl ((Nat.div_lt_iff_lt_mul hP).mpr hin.2))
  · rename_i hin
    rw [hs.leaves v hv]
    refine or_congr_left ⟨fun hlt => Nat.lt_add_right _ hlt, fun hlt => ?_⟩
    by_contra hge
    exact hin ⟨(Nat.le_div_iff_mul_le hP).mp (Nat.le_of_not_lt hge), (Nat.div_lt_iff_lt_mul hP).mp hlt⟩

end

lemma uvmalloc_spec {oldsz newsz : ℕ} (hs : Space kend m root (PGROUNDUP oldsz / PGSIZE)) (hle : oldsz ≤ newsz)
    (hx : xperm < 2 ^ 10) : wp (uvmalloc kend (root * PGSIZE) oldsz newsz xperm) ok (fun r m' =>
      (r = 0 ∧ 0 < newsz ∧ ∃ ns', Undone root m ns' m') ∨
      (r = newsz ∧ Enlarged root (PGROUNDUP oldsz / PGSIZE) xperm m newsz m')) m := by
  have hold := PGROUNDUP_pages oldsz
  have hfuel : newsz ≤ (PGROUNDUP oldsz / PGSIZE + ([] : List ℕ).length +
      (newsz - PGROUNDUP oldsz + (PGSIZE - 1)) / PGSIZE) * PGSIZE := by
    rw [length_nil, Nat.add_zero, Nat.add_mul, hold]
    have := Nat.div_add_mod' (newsz - PGROUNDUP oldsz + (PGSIZE - 1)) PGSIZE
    have := Nat.mod_lt (newsz - PGROUNDUP oldsz + (PGSIZE - 1)) (show 0 < PGSIZE by decide)
    omega
  have hneed : (PGROUNDUP oldsz / PGSIZE + ([] : List ℕ).length) * PGSIZE < newsz + PGSIZE := by
    rw [length_nil, Nat.add_zero, hold]
    exact (PGROUNDUP_lt oldsz).trans_le (Nat.add_le_add_right hle _)
  have hloop : wp _ ok _ _ := growLoop_spec hx hs _ (Grown.start hs.wf) hfuel hneed
  rw [length_nil, Nat.add_zero, hold] at hloop
  rw [uvmalloc, if_neg (Nat.not_lt.mpr hle)]
  exact hloop

/-- **Failed growth is undone.**  `uvmalloc` returns 0 or the new size.  When it fails, whichever allocation it was,
the leaves are as before, and of the free pages only those that are pages of the table now are gone.  When it
succeeds, the user pages are those up to the new size, and the new ones are zero.  In either case what was mapped
keeps its contents. -/
theorem uvmalloc_undone {oldsz newsz xperm : ℕ} (hs : Space kend m root (PGROUNDUP oldsz / PGSIZE)) (hle : oldsz ≤ newsz)
    (hnew : newsz < 2 ^ 64) (hx : xperm < 2 ^ 10) :
    ∃ r m', uvmalloc kend (root * PGSIZE) oldsz newsz xperm m = .ok (r, m') ∧ (r = 0 ∨ r = newsz) ∧
      (∀ v, v < MAXVA → m.pte root v &&& PTE_V ≠ 0 →
        m'.pte root v = m.pte root v ∧ m'.page (m.target root v) = m.page (m.target root v)) ∧
      (r = 0 → 0 < newsz → (∀ v, v < MAXVA → m.pte root v &&& PTE_V = 0 → m'.pte root v &&& PTE_V = 0) ∧
        ∃ ns, m.freelist.Perm (ns ++ m'.freelist) ∧ ∀ t ∈ ns, m'.IsTable root t) ∧
      (r = newsz → (∀ v, v < MAXVA → (m'.pte root v &&& PTE_V ≠ 0 ↔
          v < PGROUNDUP newsz ∨ v / PGSIZE = TRAPFRAME / PGSIZE ∨ v / PGSIZE = TRAMPOLINE / PGSIZE)) ∧
        ∀ v, PGROUNDUP oldsz ≤ v → v < PGROUNDUP newsz → m'.page (m'.target root v) = Page.fill 0) := by
  have hold := PGROUNDUP_pages oldsz
  obtain ⟨r, m', hrun, hres⟩ := (uvmalloc_spec hs hle hx).returns
  refine ⟨r, m', hrun, ?_⟩
  rcases hres with ⟨rfl, hpos, ns, hun⟩ | ⟨rfl, ns, ds, hg, hcover, htight⟩
  · refine ⟨.inl rfl, fun v hv hm => ?_, fun _ _ => ⟨fun v hv hm => ?_, ns, hun.free, hun.taken⟩, fun hc => ?_⟩
    · have hout := hs.outside v hv hm
      exact ⟨(hun.leaves v hv).resolve_right fun hc => hm hc.1, hun.frame _ hout.1 hout.2⟩
    · rcases hun.leaves v hv with hsame | ⟨-, hzero⟩
      · rw [hsame]
        exact hm
      · rw [hzero]
        exact Nat.zero_and _
    · exact absurd hc (Nat.ne_of_lt hpos)
  · have hroom := hg.room hs
    have hsmall : TRAPFRAME / PGSIZE < 2 ^ 51 := by decide
    have hround := PGROUNDUP_of_le (by omega) hcover htight
    refine ⟨.inr rfl, fun v hv hm => hg.old hs hv hm, fun hc hpos => absurd hc (Nat.ne_of_gt hpos), fun _ =>
      ⟨fun v hv => ?_, fun v h1 h2 => ?_⟩⟩
    · rw [hg.mapped hs hv, hround, Nat.div_lt_iff_lt_mul (by decide)]
    · rw [← hold] at h1
      rw [hround] at h2
      obtain ⟨hk, ht⟩ := hg.target_new hs (growPerm_lt hx) h1 h2
      rw [ht]
      exact hg.zero _ (getElem_mem hk)

/-! ### A process without pages -/

/-- The memory of a process without user pages: page 1 is its page table, pages 4 and 5 are the trapframe and the
trampoline, and two pages of RAM are free. -/
def newborn : Mem where
  page t :=
    if t = 1 then (Bytes.zero _).putLe (8 * 255) 8 (PA2PTE (2 * PGSIZE) ||| PTE_V)
    else if t = 2 then (Bytes.zero _).putLe (8 * 511) 8 (PA2PTE (3 * PGSIZE) ||| PTE_V)
    else if t = 3 then ((Bytes.zero _).putLe (8 * 510) 8 (PA2PTE (4 * PGSIZE) ||| (PTE_R ||| PTE_W ||| PTE_V))).putLe (8 * 511) 8
      (PA2PTE (5 * PGSIZE) ||| (PTE_R ||| PTE_X ||| PTE_V))
    else Bytes.zero _
  freelist := [KERNBASE / PGSIZE, KERNBASE / PGSIZE + 1]

lemma newborn_word (i : ℕ) :
    next (newborn.word 1 i) = (if i = 255 then some 2 else none) ∧
    next (newborn.word 2 i) = (if i = 511 then some 3 else none) ∧
    newborn.word 3 i = if i = 511 then PA2PTE (5 * PGSIZE) ||| (PTE_R ||| PTE_X ||| PTE_V)
      else if i = 510 then PA2PTE (4 * PGSIZE) ||| (PTE_R ||| PTE_W ||| PTE_V) else 0 := by
  have hone : newborn.word 1 i = if i = 255 then PA2PTE (2 * PGSIZE) ||| PTE_V else 0 :=
    word_only (by decide) (by decide) i
  have htwo : newborn.word 2 i = if i = 511 then PA2PTE (3 * PGSIZE) ||| PTE_V else 0 :=
    word_only (by decide) (by decide) i
  refine ⟨?_, ?_, ?_⟩
  · rw [hone, apply_ite next, next_table (by decide), next_zero]
  · rw [htwo, apply_ite next, next_table (by decide), next_zero]
  · change (((Bytes.zero PGSIZE).putLe (8 * 510) 8 _).putLe (8 * 511) 8 _).le (8 * i) 8 = _
    split
    · rename_i hi
      subst hi
      exact Bytes.le_putLe_of_lt _ (by decide) (by decide)
    · rename_i hi
      rw [Bytes.le_putLe_of_disjoint _ (by omega), word_only (by decide) (by decide)]

lemma newborn_table (hp : p.length ≤ 2) (h : newborn.table 1 p = some t) :
    (p = [] ∧ t = 1) ∨ (p = [255] ∧ t = 2) ∨ (p = [255, 511] ∧ t = 3) := by
  match p with
  | [] =>
    cases h
    exact .inl ⟨rfl, rfl⟩
  | [i] =>
    rw [Mem.table_cons, (newborn_word i).1] at h
    split at h
    · rename_i hi
      cases h
      exact .inr (.inl ⟨by rw [hi], rfl⟩)
    · cases h
  | [i, j] =>
    rw [Mem.table_cons, (newborn_word i).1] at h
    split at h
    · rename_i hi
      rw [Option.bind_some, Mem.table_cons, (newborn_word j).2.1] at h
      split at h
      · rename_i hj
        cases h
        exact .inr (.inr ⟨by rw [hi, hj], rfl⟩)
      · cases h
    · cases h
  | i :: j :: k :: p =>
    simp only [length_cons] at hp
    omega

lemma newborn_isTable (h : newborn.IsTable 1 t) : t ≤ 3 := by
  obtain ⟨p, hp, hpt⟩ := h
  rcases newborn_table hp hpt with ⟨-, rfl⟩ | ⟨-, rfl⟩ | ⟨-, rfl⟩ <;> decide

lemma newborn_pte (hv : v < MAXVA) : newborn.pte 1 v =
    if v / PGSIZE = TRAMPOLINE / PGSIZE then PA2PTE (5 * PGSIZE) ||| (PTE_R ||| PTE_X ||| PTE_V)
    else if v / PGSIZE = TRAPFRAME / PGSIZE then PA2PTE (4 * PGSIZE) ||| (PTE_R ||| PTE_W ||| PTE_V) else 0 := by
  have hpage : v / PGSIZE < 67108864 := Nat.div_lt_of_lt_mul (by rw [PGSIZE_eq]; rwa [MAXVA_eq] at hv)
  have hF : TRAPFRAME / PGSIZE = 67108862 := by decide
  have hT : TRAMPOLINE / PGSIZE = 67108863 := by decide
  have h2 := PX_eq 2 v
  have h1 := PX_eq 1 v
  have h0 := PX_eq 0 v
  rw [hF, hT]
  unfold Mem.pte Mem.path
  generalize v / PGSIZE = x at *
  norm_num at h0 h1 h2
  rw [Mem.table_cons, (newborn_word _).1]
  by_cases hi : PX 2 v = 255
  · rw [if_pos hi, Option.bind_some, Mem.table_cons, (newborn_word _).2.1]
    by_cases hj : PX 1 v = 511
    · have hnil : newborn.table 3 [] = some 3 := rfl
      rw [if_pos hj, Option.bind_some, hnil, Option.map_some, Option.getD_some, (newborn_word _).2.2]
      have htop : PX 0 v = 511 ↔ x = 67108863 := by omega
      have hlow : PX 0 v = 510 ↔ x = 67108862 := by omega
      simp only [htop, hlow]
    · rw [if_neg hj, Option.bind_none, Option.map_none, Option.getD_none, if_neg (by omega), if_neg (by omega)]
  · rw [if_neg hi, Option.bind_none, Option.map_none, Option.getD_none, if_neg (by omega), if_neg (by omega)]

lemma newborn_space : Space KERNBASE newborn 1 0 where
  wf := by
    intro p q a hp hq h1 h2
    rcases newborn_table hp h1 with ⟨rfl, rfl⟩ | ⟨rfl, rfl⟩ | ⟨rfl, rfl⟩ <;>
      rcases newborn_table hq h2 with ⟨rfl, h⟩ | ⟨rfl, h⟩ | ⟨rfl, h⟩ <;> first | rfl | exact absurd h (by decide)
  spare := {
    nodup := by decide
    fresh := fun t ht hc => by
      have hle := newborn_isTable hc
      have hge : ∀ t ∈ newborn.freelist, 3 < t := by decide
      exact absurd (hge t ht) (Nat.not_lt.mpr hle)
    small := by decide }
  freeable := by
    unfold Freeable
    decide
  leaves v hv := by
    rw [newborn_pte hv]
    by_cases htop : v / PGSIZE = TRAMPOLINE / PGSIZE
    · rw [if_pos htop]
      exact iff_of_true (by decide) (.inr (.inr htop))
    · rw [if_neg htop]
      by_cases hframe : v / PGSIZE = TRAPFRAME / PGSIZE
      · rw [if_pos hframe]
        exact iff_of_true (by decide) (.inr (.inl hframe))
      · rw [if_neg hframe]
        exact iff_of_false (fun hc => hc (Nat.zero_and _)) fun hc =>
          hc.elim (Nat.not_lt_zero _) fun hc => hc.elim hframe htop
  outside v hv hm := by
    rw [Mem.target]
    rw [newborn_pte hv] at hm ⊢
    by_cases htop : v / PGSIZE = TRAMPOLINE / PGSIZE
    · rw [if_pos htop]
      exact ⟨fun hc => absurd (newborn_isTable hc) (by decide), by decide⟩
    · rw [if_neg htop] at hm ⊢
      by_cases hframe : v / PGSIZE = TRAPFRAME / PGSIZE
      · rw [if_pos hframe]
        exact ⟨fun hc => absurd (newborn_isTable hc) (by decide), by decide⟩
      · rw [if_neg hframe] at hm
        exact absurd (Nat.zero_and _) hm
  distinct i j hi := absurd hi (Nat.not_lt_zero i)
  ram i hi := absurd hi (Nat.not_lt_zero i)

/-- A process without pages grows to three, or does not. -/
theorem uvmalloc_undone_newborn : ∃ r m', uvmalloc KERNBASE (1 * PGSIZE) 0 9000 PTE_W newborn = .ok (r, m') ∧
    (r = 0 ∨ r = 9000) := by
  have hspace : Space KERNBASE newborn 1 (PGROUNDUP 0 / PGSIZE) := newborn_space
  obtain ⟨r, m', hrun, hr, -⟩ := uvmalloc_undone hspace (Nat.zero_le 9000) (by decide) (show PTE_W < 2 ^ 10 by decide)
  exact ⟨r, m', hrun, hr⟩

end Xv6.Vm
