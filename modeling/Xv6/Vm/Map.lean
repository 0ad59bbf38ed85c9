import Xv6.Vm.Walk

/-!
# `mappages` and `uvmunmap`

A page table is a finite map from pages to PTEs: `mappages` adds a range of pages, as far as the free list
allows, and `uvmunmap` removes one.
-/

namespace Xv6.Vm

open Lib Radix List

variable {m m' : Mem} {root : ℕ} {ns : List ℕ} {ok : Panic → Prop}

/-! ### Stores to a PTE -/

/-- The memory once the PTE of `va`, in page `u` of the table, is `w`. -/
def Mem.setPte (m : Mem) (u va w : ℕ) : Mem := m.setPage u ((m.page u).putLe (8 * PX 0 va) 8 w)

variable {p fs : List ℕ} {u va a pa perm kend t n : ℕ} {do_free : Bool}

section

variable {u va w : ℕ} (hwf : m.WellFormed root) (hu : m.table root (Mem.path va) = some u) (hw : w < 2 ^ 64)

include hwf hu hw

lemma Mem.setPte_table (hp : p.length ≤ 2) : (m.setPte u va w).table root p = m.table root p := by
  rw [Mem.table, Mem.setPte, word_store m u (PX_lt 0 va) hw]
  exact hwf.node_set_last hu rfl hp

lemma Mem.setPte_pte (hva : va < MAXVA) (hv : v < MAXVA) :
    (m.setPte u va w).pte root v = if v / PGSIZE = va / PGSIZE then w else m.pte root v := by
  unfold pte
  rw [setPte_table hwf hu hw (length_path v).le, setPte, word_store m u (PX_lt 0 va) hw]
  split
  · rename_i heq
    obtain ⟨h1, h2⟩ := indices_of_page heq
    rw [h1, h2, hu, Option.map_some, set_self, Option.getD_some]
  · rename_i hne
    cases ht : m.table root (path v) with
    | none => simp only [Option.map_none]
    | some t =>
      rw [Option.map_some, Option.map_some, set_of_ne]
      by_contra hc
      rw [not_or, not_not, not_not] at hc
      obtain ⟨rfl, h0⟩ := hc
      exact hne (page_of_indices hv hva (hwf _ _ t (length_path v).le (length_path va).le ht hu) h0)

lemma Reshaped.setPte : Reshaped root m [] (m.setPte u va w) where
  wf := hwf.of_eq fun _ hp => Mem.setPte_table hwf hu hw hp
  free := rfl
  tables p hp := .inl (Mem.setPte_table hwf hu hw hp)
  taken _ ht := nomatch ht
  frame t hnot _ := by
    have htu : t ≠ u := by
      rintro rfl
      exact hnot ⟨_, (Mem.length_path va).le, hu⟩
    exact Function.update_of_ne htu _ _

end

lemma Mem.word_pte (hu : m.table root (path va) = some u) : m.word u (PX 0 va) = m.pte root va := by
  rw [pte, hu, Option.map_some, Option.getD_some]

/-! ### `mappages` -/

/-- `k` pages from `a` on are mapped to those from `pa` on. -/
def Mem.Mapped (m : Mem) (root a k pa perm : ℕ) (m' : Mem) : Prop :=
  ∀ v, v < MAXVA → m'.pte root v =
    if a ≤ v ∧ v < a + k * PGSIZE then PA2PTE (pa + (v - a)) ||| perm ||| PTE_V else m.pte root v

lemma Mem.Mapped.zero (h : ∀ v, m'.pte root v = m.pte root v) (a pa perm : ℕ) : m.Mapped root a 0 pa perm m' := by
  intro v _
  rw [h v, if_neg]
  omega

lemma Mem.Mapped.succ {m1 : Mem} {k : ℕ} (hal : a % PGSIZE = 0) (hpal : pa % PGSIZE = 0)
    (h₁ : ∀ v, v < MAXVA → m1.pte root v = if v / PGSIZE = a / PGSIZE then PA2PTE pa ||| perm ||| PTE_V else m.pte root v)
    (h : m1.Mapped root (a + PGSIZE) k (pa + PGSIZE) perm m') : m.Mapped root a (k + 1) pa perm m' := by
  have hk := add_one_page k
  intro v hv
  rw [h v hv, h₁ v hv]
  by_cases hfirst : v / PGSIZE = a / PGSIZE
  · obtain ⟨h1, h2⟩ := (page_iff hal).mp hfirst
    rw [if_neg (by omega), if_pos hfirst, if_pos ⟨h1, by omega⟩, PA2PTE_add hpal (by omega)]
  · have hout : ¬ (a ≤ v ∧ v < a + PGSIZE) := fun hc => hfirst ((page_iff hal).mpr hc)
    rw [if_neg hfirst]
    by_cases hin : a + PGSIZE ≤ v ∧ v < a + PGSIZE + k * PGSIZE
    · rw [if_pos hin, if_pos ⟨by omega, by omega⟩, show pa + PGSIZE + (v - (a + PGSIZE)) = pa + (v - a) by omega]
    · rw [if_neg hin, if_neg (by omega)]

/-- **The loop of `mappages`** maps all pages, or stops where the free list runs out. -/
lemma mapLoop_spec (hperm : perm < 2 ^ 64) (n a pa : ℕ) (hwf : m.WellFormed root) (hspare : Spare m root)
    (hal : a % PGSIZE = 0) (hend : a + n * PGSIZE ≤ MAXVA) (hpal : pa % PGSIZE = 0) (hpa : pa + n * PGSIZE ≤ 2 ^ 56)
    (hun : ∀ v, a ≤ v → v < a + n * PGSIZE → m.pte root v &&& PTE_V = 0) :
    wp (mapLoop (root * PGSIZE) perm n a pa) ok (fun r m' => ∃ ns k, Reshaped root m ns m' ∧
      m.Mapped root a k pa perm m' ∧ (r = 0 ∧ k = n ∨ r = -1 ∧ k < n ∧ m'.freelist = [])) m := by
  induction n generalizing m a pa with
  | zero => exact ⟨[], 0, .refl hwf, .zero (fun _ => rfl) _ _ _, .inl ⟨rfl, rfl⟩⟩
  | succ n ih =>
    have hn := add_one_page n
    have hP : PGSIZE = 4096 := rfl
    have ha : a < MAXVA := by omega
    simp only [mapLoop, wp_bind]
    refine (walk_true ha hwf hspare).mono ?_
    rintro r m1 ⟨ns, hr, hpte, hres⟩
    cases r with
    | none => exact ⟨ns, 0, hr, .zero hpte _ _ _, .inr ⟨rfl, Nat.succ_pos n, hres⟩⟩
    | some slot =>
      obtain ⟨u, hu, rfl⟩ := hres
      simp only [wp_bind]
      rw [load_word (PX_lt 0 a)]
      have hfree : m1.word u (PX 0 a) &&& PTE_V = 0 := by
        rw [Mem.word_pte hu, hpte]
        exact hun a (Nat.le_refl a) (by omega)
      rw [if_neg (not_not.mpr hfree), wp_bind, store_word (PX_lt 0 a)]
      have hw : PA2PTE pa ||| perm ||| PTE_V < 2 ^ 64 :=
        Nat.or_lt_two_pow (Nat.or_lt_two_pow (PA2PTE_lt pa) hperm) (by decide)
      have hset := Reshaped.setPte hr.wf hu hw
      have hpte2 : ∀ v, v < MAXVA → (m1.setPte u a (PA2PTE pa ||| perm ||| PTE_V)).pte root v =
          if v / PGSIZE = a / PGSIZE then PA2PTE pa ||| perm ||| PTE_V else m.pte root v := by
        intro v hv
        rw [Mem.setPte_pte hr.wf hu hw ha hv, hpte]
      rw [Nat.mod_eq_of_lt (show pa + PGSIZE < 2 ^ 64 by omega)]
      refine (ih (a + PGSIZE) (pa + PGSIZE) hset.wf ((hspare.reshaped hr).reshaped hset)
        ((Nat.add_mod_right _ _).trans hal) (by omega) ((Nat.add_mod_right _ _).trans hpal) (by omega) ?_).mono ?_
      · intro v h1 h2
        rw [hpte2 v (by omega), if_neg fun hc => absurd ((page_iff hal).mp hc).2 (by omega)]
        exact hun v (by omega) (by omega)
      · rintro r m3 ⟨ns', k, hr3, hmap, hres⟩
        refine ⟨ns ++ ([] ++ ns'), k + 1, hr.trans (hset.trans hr3), .succ hal hpal hpte2 hmap, ?_⟩
        rcases hres with ⟨rfl, rfl⟩ | ⟨rfl, hk, hnil⟩
        · exact .inl ⟨rfl, rfl⟩
        · exact .inr ⟨rfl, by omega, hnil⟩

/-- **`mappages`** of a range that is not mapped yet. -/
lemma mappages_spec {size : ℕ} (hperm : perm < 2 ^ 64) (hwf : m.WellFormed root) (hspare : Spare m root)
    (hva : va % PGSIZE = 0) (hsize : size % PGSIZE = 0) (hpos : 0 < size) (hend : va + size ≤ MAXVA)
    (hpal : pa % PGSIZE = 0) (hpa : pa + size ≤ 2 ^ 56) (hun : ∀ v, va ≤ v → v < va + size → m.pte root v &&& PTE_V = 0)
    :
    wp (mappages (root * PGSIZE) va size pa perm) ok (fun r m' => ∃ ns k, Reshaped root m ns m' ∧
      m.Mapped root va k pa perm m' ∧
      (r = 0 ∧ k * PGSIZE = size ∨ r = -1 ∧ k * PGSIZE < size ∧ m'.freelist = [])) m := by
  have hmul : size / PGSIZE * PGSIZE = size := Nat.div_mul_cancel (Nat.dvd_of_mod_eq_zero hsize)
  rw [mappages, if_neg (not_not.mpr hva), if_neg (not_not.mpr hsize), if_neg (Nat.pos_iff_ne_zero.mp hpos)]
  refine (mapLoop_spec hperm (size / PGSIZE) va pa hwf hspare hva (by rwa [hmul]) hpal
    (by rwa [hmul]) (by rwa [hmul])).mono ?_
  rintro r m' ⟨ns, k, hr, hmap, hres⟩
  refine ⟨ns, k, hr, hmap, ?_⟩
  rcases hres with ⟨rfl, rfl⟩ | ⟨rfl, hk, hnil⟩
  · exact .inl ⟨rfl, hmul⟩
  · refine .inr ⟨rfl, ?_, hnil⟩
    rw [← hmul]
    exact Nat.mul_lt_mul_of_pos_right hk (by decide)

/-! ### `kfree` -/

/-- A page that `kfree` accepts. -/
def Freeable (kend t : ℕ) : Prop := kend ≤ t * PGSIZE ∧ t * PGSIZE < PHYSTOP

lemma kfree_spec (ht : Freeable kend t) :
    wp (kfree kend (t * PGSIZE)) ok (fun _ m' => m'.freelist = t :: m.freelist ∧ ∀ u, u ≠ t → m'.page u = m.page u) m := by
  have hdiv : t * PGSIZE / PGSIZE = t := Nat.mul_div_cancel _ (by decide)
  have hmod : t * PGSIZE % PGSIZE = 0 := Nat.mul_mod_left _ _
  obtain ⟨h1, h2⟩ := ht
  rw [kfree, if_neg (by omega)]
  simp only [memset, store, wp_bind, wp_modify, wp_read, hdiv]
  refine ⟨rfl, fun u hu => ?_⟩
  simp only [Mem.setPage, Function.update_of_ne hu]

lemma Mem.table_of_pages (h : ∀ u, m.IsTable root u → m'.page u = m.page u) (hp : p.length ≤ 2) :
    m'.table root p = m.table root p := by
  apply node_eq _ hp
  intro q a hq ha
  funext j
  rw [word, word, h a ⟨q, Nat.le_of_lt hq, ha⟩]

lemma Mem.pte_of_pages (h : ∀ u, m.IsTable root u → m'.page u = m.page u) (v : ℕ) : m'.pte root v = m.pte root v := by
  have hlen := (length_path v).le
  unfold pte
  rw [table_of_pages h hlen]
  cases ht : m.table root (path v) with
  | none => simp only [Option.map_none]
  | some t => rw [Option.map_some, Option.map_some, word, word, h t ⟨_, hlen, ht⟩]

/-! ### `uvmunmap` -/

/-- `va` is mapped, by a PTE that is a leaf. -/
def Leaf (pte : ℕ) : Prop := pte &&& PTE_V ≠ 0 ∧ PTE_FLAGS pte ≠ PTE_V

/-- The physical page of `va`. -/
def Mem.target (m : Mem) (root va : ℕ) : ℕ := PTE2PA (m.pte root va) / PGSIZE

/-- `n` pages from `a` on are no longer mapped; the pages `fs` have gone to the free list. -/
structure Unmapped (root : ℕ) (m : Mem) (a n : ℕ) (fs : List ℕ) (m' : Mem) : Prop where
  wf : m'.WellFormed root
  tables : ∀ p, p.length ≤ 2 → m'.table root p = m.table root p
  pte : ∀ v, v < MAXVA → m'.pte root v = if a ≤ v ∧ v < a + n * PGSIZE then 0 else m.pte root v
  free : m'.freelist = fs.reverse ++ m.freelist
  frame : ∀ t, ¬ m.IsTable root t → t ∉ fs → m'.page t = m.page t

/-- The pages that `uvmunmap` frees. -/
def Mem.targets (m : Mem) (root a n : ℕ) (do_free : Bool) : List ℕ :=
  if do_free then (List.range n).map fun k => m.target root (a + k * PGSIZE) else []

lemma Mem.targets_one (m : Mem) (root a : ℕ) : m.targets root a 1 true = [m.target root a] := by
  rw [targets, if_pos rfl, range_one, map_singleton, Nat.zero_mul, Nat.add_zero]

lemma Mem.targets_succ (m : Mem) (root a n : ℕ) (do_free : Bool) :
    m.targets root a (n + 1) do_free = m.targets root a 1 do_free ++ m.targets root (a + PGSIZE) n do_free := by
  cases do_free with
  | false => rfl
  | true =>
    rw [targets_one, targets, targets, if_pos rfl, if_pos rfl, range_succ_eq_map, map_cons, map_map,
      Nat.zero_mul, Nat.add_zero, singleton_append]
    refine congrArg (List.cons _) (map_congr_left fun k _ => ?_)
    rw [Function.comp, Nat.succ_eq_add_one, add_one_page, show a + (k * PGSIZE + PGSIZE) = a + PGSIZE + k * PGSIZE by omega]

lemma Unmapped.isTable (h : Unmapped root m a n fs m') (t : ℕ) : m'.IsTable root t ↔ m.IsTable root t := by
  constructor
  · rintro ⟨p, hp, hpt⟩
    exact ⟨p, hp, (h.tables p hp).symm.trans hpt⟩
  · rintro ⟨p, hp, hpt⟩
    exact ⟨p, hp, (h.tables p hp).trans hpt⟩

lemma Unmapped.one {m1 : Mem} (hwf : m.WellFormed root) (hal : a % PGSIZE = 0) (ha : a < MAXVA)
    (hu : m.table root (Mem.path a) = some u) (hfree : m1.freelist = fs.reverse ++ m.freelist)
    (hfs : ∀ t ∈ fs, ¬ m.IsTable root t) (hpage : ∀ t, t ∉ fs → m1.page t = m.page t) :
    Unmapped root m a 1 fs (m1.setPte u a 0) := by
  have hsame : ∀ t, m.IsTable root t → m1.page t = m.page t := fun t ht => hpage t fun hc => hfs t hc ht
  have htables : ∀ p : List ℕ, p.length ≤ 2 → m1.table root p = m.table root p := fun p hp => Mem.table_of_pages hsame hp
  have hwf1 : m1.WellFormed root := hwf.of_eq htables
  have hu1 : m1.table root (Mem.path a) = some u := (htables _ (Mem.length_path a).le).trans hu
  have hset := Reshaped.setPte (w := 0) hwf1 hu1 (by decide)
  refine ⟨hset.wf, fun p hp => ?_, fun v hv => ?_, hfree, fun t hnot hns => ?_⟩
  · rw [Mem.setPte_table hwf1 hu1 (by decide) hp, htables p hp]
  · rw [Mem.setPte_pte hwf1 hu1 (by decide) ha hv, Mem.pte_of_pages hsame, Nat.one_mul]
    simp only [page_iff hal]
  · rw [hset.frame t _ not_mem_nil, hpage t hns]
    rintro ⟨p, hp, hpt⟩
    exact hnot ⟨p, hp, (htables p hp).symm.trans hpt⟩

lemma Unmapped.trans {fs' : List ℕ} (h : Unmapped root m a 1 fs m') (h' : Unmapped root m' (a + PGSIZE) n fs' m'') :
    Unmapped root m a (n + 1) (fs ++ fs') m'' where
  wf := h'.wf
  tables p hp := (h'.tables p hp).trans (h.tables p hp)
  pte v hv := by
    have hn := add_one_page n
    rw [h'.pte v hv, h.pte v hv, Nat.one_mul]
    by_cases h1 : a + PGSIZE ≤ v ∧ v < a + PGSIZE + n * PGSIZE
    · rw [if_pos h1, if_pos ⟨by omega, by omega⟩]
    · rw [if_neg h1]
      by_cases h2 : a ≤ v ∧ v < a + PGSIZE
      · rw [if_pos h2, if_pos ⟨h2.1, by omega⟩]
      · rw [if_neg h2, if_neg (by omega)]
  free := by rw [h'.free, h.free, reverse_append, append_assoc]
  frame t hnot hns := by
    rw [mem_append, not_or] at hns
    rw [h'.frame t (fun hc => hnot ((h.isTable t).mp hc)) hns.2, h.frame t hnot hns.1]

/-- **The loop of `uvmunmap`** removes the mappings of the range. -/
lemma unmapLoop_spec (n a : ℕ) (hwf : m.WellFormed root) (hal : a % PGSIZE = 0) (hend : a + n * PGSIZE ≤ MAXVA)
    (hleaf : ∀ k, k < n → Leaf (m.pte root (a + k * PGSIZE)))
    (htargets : ∀ t ∈ m.targets root a n do_free, Freeable kend t ∧ ¬ m.IsTable root t) :
    wp (unmapLoop kend (root * PGSIZE) do_free n a) ok
      (fun _ m' => Unmapped root m a n (m.targets root a n do_free) m') m := by
  induction n generalizing m a with
  | zero =>
    have hnil : m.targets root a 0 do_free = [] := by
      unfold Mem.targets
      split <;> rfl
    rw [hnil]
    refine ⟨hwf, fun _ _ => rfl, fun v _ => ?_, rfl, fun _ _ _ => rfl⟩
    rw [if_neg (by omega)]
  | succ n ih =>
    have hn := add_one_page n
    have hP : PGSIZE = 4096 := rfl
    have ha : a < MAXVA := by omega
    obtain ⟨hv, hflags⟩ := hleaf 0 (Nat.succ_pos n)
    rw [Nat.zero_mul, Nat.add_zero] at hv hflags
    simp only [unmapLoop, wp_bind]
    refine (walk_false m ha root).mono ?_
    rintro r m0 ⟨rfl, rfl⟩
    -- a leaf has a page of the last level
    cases hu : m0.table root (Mem.path a) with
    | none =>
      rw [Mem.pte, hu, Option.map_none, Option.getD_none] at hv
      exact absurd (Nat.zero_and _) hv
    | some u =>
      rw [Option.map_some]
      simp only [wp_bind]
      rw [load_word (PX_lt 0 a), Mem.word_pte hu, if_neg hv, if_neg hflags]
      have hcons := m0.targets_succ root a n do_free
      -- what the rest of the loop needs of the memory after this pass
      have hrest : ∀ m2 : Mem, Unmapped root m0 a 1 (m0.targets root a 1 do_free) m2 →
          wp (unmapLoop kend (root * PGSIZE) do_free n (a + PGSIZE)) ok
            (fun _ m' => Unmapped root m0 a (n + 1) (m0.targets root a (n + 1) do_free) m') m2 := by
        intro m2 h₂
        have hkeep : ∀ k, k < n → m2.pte root (a + PGSIZE + k * PGSIZE) = m0.pte root (a + PGSIZE + k * PGSIZE) := by
          intro k hk
          have hle : k * PGSIZE + PGSIZE ≤ n * PGSIZE := by
            rw [← add_one_page]
            exact Nat.mul_le_mul_right _ hk
          rw [h₂.pte _ (by omega), if_neg (by omega)]
        have htargets2 : m2.targets root (a + PGSIZE) n do_free = m0.targets root (a + PGSIZE) n do_free := by
          unfold Mem.targets
          split
          · apply map_congr_left
            intro k hk
            rw [Mem.target, Mem.target, hkeep k (mem_range.mp hk)]
          · rfl
        refine (ih (a + PGSIZE) h₂.wf ((Nat.add_mod_right _ _).trans hal) (by omega) (fun k hk => ?_) ?_).mono ?_
        · rw [hkeep k hk]
          have hk1 := add_one_page k
          have heq : a + (k + 1) * PGSIZE = a + PGSIZE + k * PGSIZE := by omega
          have hlast := hleaf (k + 1) (by omega)
          rw [heq] at hlast
          exact hlast
        · intro t ht
          rw [htargets2] at ht
          obtain ⟨h1, h2⟩ := htargets t (by rw [hcons]; exact mem_append_right _ ht)
          exact ⟨h1, fun hc => h2 ((h₂.isTable t).mp hc)⟩
        · intro _ m3 h3
          rw [htargets2] at h3
          rw [hcons]
          exact h₂.trans h3
      cases do_free with
      | false =>
        rw [if_neg Bool.false_ne_true, wp_bind, store_word (PX_lt 0 a)]
        apply hrest
        exact .one hwf hal ha hu rfl (by rintro _ ⟨⟩) fun _ _ => rfl
      | true =>
        have hfirst := m0.targets_one root a
        have hmem : m0.target root a ∈ m0.targets root a (n + 1) true := by
          rw [hcons, hfirst]
          exact mem_cons_self
        obtain ⟨hfreeable, hnot⟩ := htargets _ hmem
        rw [if_pos rfl, wp_bind, ← PTE2PA_mul]
        refine (kfree_spec hfreeable).mono ?_
        rintro _ m1 ⟨hfree, hpage⟩
        rw [wp_bind, store_word (PX_lt 0 a)]
        apply hrest
        rw [hfirst]
        refine .one hwf hal ha hu hfree ?_ fun t ht => hpage t fun hc => ht (hc ▸ mem_cons_self)
        intro t ht
        rw [mem_singleton.mp ht]
        exact hnot

lemma uvmunmap_spec {npages : ℕ} (hwf : m.WellFormed root) (hal : va % PGSIZE = 0)
    (hend : va + npages * PGSIZE ≤ MAXVA) (hleaf : ∀ k, k < npages → Leaf (m.pte root (va + k * PGSIZE)))
    (htargets : ∀ t ∈ m.targets root va npages do_free, Freeable kend t ∧ ¬ m.IsTable root t) :
    wp (uvmunmap kend (root * PGSIZE) va npages do_free) ok
      (fun _ m' => Unmapped root m va npages (m.targets root va npages do_free) m') m := by
  have hM : MAXVA < 2 ^ 64 := by decide
  have hcount : ((va + npages * PGSIZE) % 2 ^ 64 - va) / PGSIZE = npages := by
    rw [Nat.mod_eq_of_lt (by omega), Nat.add_sub_cancel_left, Nat.mul_div_cancel _ (by decide)]
  rw [uvmunmap, if_neg (not_not.mpr hal), hcount]
  exact unmapLoop_spec npages va hwf hal hend hleaf htargets

/-! ### The page table as a map -/

lemma PTE2PA_mapped (hpa : pa + x < 2 ^ 56) (hperm : perm < 2 ^ 10) :
    PTE2PA (PA2PTE (pa + x) ||| perm ||| PTE_V) = PGROUNDDOWN (pa + x) := by
  have hP : PGSIZE = 4096 := rfl
  have hdown : PGROUNDDOWN (pa + x) ≤ pa + x := Nat.div_mul_le_self _ _
  have hmod : PGROUNDDOWN (pa + x) % PGSIZE = 0 := Nat.mul_mod_left _ _
  have hsplit : PGROUNDDOWN (pa + x) + (pa + x) % PGSIZE = pa + x := Nat.div_add_mod' _ _
  have heq := PA2PTE_add hmod (Nat.mod_lt (pa + x) (show 0 < PGSIZE by decide))
  rw [hsplit] at heq
  rw [heq, Nat.or_assoc]
  exact PTE2PA_or (by omega) hmod (Nat.or_lt_two_pow hperm (by decide))

/-- **A page table is a finite map from pages to PTEs.**  On a range that is not mapped yet `mappages` adds the
PTEs of the range and changes no other, or fails when the free list is empty, having added those of the pages
before the one at which it fails.  `uvmunmap` of a range of leaves removes their PTEs and changes no other.  No
two pages share a PTE. -/
theorem page_table_map (hwf : m.WellFormed root) (hspare : Spare m root) :
    (∀ va size pa perm, va % PGSIZE = 0 → size % PGSIZE = 0 → 0 < size → va + size ≤ MAXVA → pa % PGSIZE = 0 →
      pa + size ≤ 2 ^ 56 → perm < 2 ^ 64 → (∀ v, va ≤ v → v < va + size → m.pte root v &&& PTE_V = 0) →
      ∃ r m', mappages (root * PGSIZE) va size pa perm m = .ok (r, m') ∧ m'.WellFormed root ∧
        ∃ k, (r = 0 ∧ k * PGSIZE = size ∨ r = -1 ∧ k * PGSIZE < size) ∧
          (∀ v, v < MAXVA → ¬ (va ≤ v ∧ v < va + k * PGSIZE) → walked (root * PGSIZE) v m' = .ok (m.pte root v, m')) ∧
          ∀ v, va ≤ v → v < va + k * PGSIZE →
            walked (root * PGSIZE) v m' = .ok (PA2PTE (pa + (v - va)) ||| perm ||| PTE_V, m') ∧
            (perm < 2 ^ 10 → PTE2PA (PA2PTE (pa + (v - va)) ||| perm ||| PTE_V) = PGROUNDDOWN (pa + (v - va)))) ∧
    (∀ kend va npages do_free, va % PGSIZE = 0 → va + npages * PGSIZE ≤ MAXVA →
      (∀ k, k < npages → Leaf (m.pte root (va + k * PGSIZE))) →
      (∀ t ∈ m.targets root va npages do_free, Freeable kend t ∧ ¬ m.IsTable root t) →
      ∃ m', uvmunmap kend (root * PGSIZE) va npages do_free m = .ok ((), m') ∧ m'.WellFormed root ∧
        ∀ v, v < MAXVA → walked (root * PGSIZE) v m' =
          .ok (if va ≤ v ∧ v < va + npages * PGSIZE then 0 else m.pte root v, m')) ∧
    (∀ v, v < MAXVA → walked (root * PGSIZE) v m = .ok (m.pte root v, m)) ∧
    ∀ v w a, v < MAXVA → w < MAXVA → walk (root * PGSIZE) v false m = .ok (some a, m) →
      walk (root * PGSIZE) w false m = .ok (some a, m) → v / PGSIZE = w / PGSIZE := by
  refine ⟨?_, ?_, fun v hv => walked_eq m hv root, fun v w a hv hw => slot_injective hwf hv hw⟩
  · intro va size pa perm hva hsize hpos hend hpal hpa hperm hun
    have hspec : wp (mappages (root * PGSIZE) va size pa perm) (fun _ => False) _ m :=
      mappages_spec hperm hwf hspare hva hsize hpos hend hpal hpa hun
    obtain ⟨r, m', hrun, ns, k, hr, hmap, hres⟩ := hspec.returns
    have hk : k * PGSIZE ≤ size := by omega
    refine ⟨r, m', hrun, hr.wf, k, ?_, fun v hv hout => ?_, fun v h1 h2 => ?_⟩
    · exact hres.imp_right fun h => ⟨h.1, h.2.1⟩
    · rw [walked_eq m' hv, hmap v hv, if_neg hout]
    · rw [walked_eq m' (by omega), hmap v (by omega), if_pos ⟨h1, h2⟩]
      exact ⟨rfl, fun hsmall => PTE2PA_mapped (by omega) hsmall⟩
  · intro kend va npages do_free hva hend hleaf htargets
    have hspec : wp (uvmunmap kend (root * PGSIZE) va npages do_free) (fun _ => False) _ m :=
      uvmunmap_spec hwf hva hend hleaf htargets
    obtain ⟨_, m', hrun, hun⟩ := hspec.returns
    refine ⟨m', hrun, hun.wf, fun v hv => ?_⟩
    rw [walked_eq m' hv, hun.pte v hv]

/-- Zeroed memory, with two free pages; page 1 is an empty page table. -/
def blank : Mem := ⟨fun _ => Page.fill 0, [2, 3]⟩

lemma blank_table (h : blank.table 1 p = some t) : p = [] ∧ t = 1 := by
  cases p with
  | nil =>
    cases h
    exact ⟨rfl, rfl⟩
  | cons i p =>
    have hword : blank.word 1 i = 0 := Bytes.le_zero _ _
    rw [Mem.table_cons, hword, next_zero] at h
    cases h

lemma blank_wf : blank.WellFormed 1 := by
  intro p q a _ _ h1 h2
  rw [(blank_table h1).1, (blank_table h2).1]

lemma blank_spare : Spare blank 1 where
  nodup := by decide
  fresh t ht := by
    rintro ⟨p, -, hp⟩
    rw [(blank_table hp).2] at ht
    exact absurd ht (by decide)
  small t ht := by
    rcases mem_cons.mp ht with rfl | ht
    · decide
    · rw [mem_singleton.mp ht]
      decide

lemma blank_pte (v : ℕ) : blank.pte 1 v = 0 := by
  unfold Mem.pte
  cases h : blank.table 1 (Mem.path v) with
  | none => rfl
  | some t =>
    have hpath := (blank_table h).1
    cases hpath

/-- A page is mapped in an empty table. -/
theorem page_table_map_blank : ∃ r m', mappages (1 * PGSIZE) 0 PGSIZE KERNBASE (PTE_R ||| PTE_U) blank = .ok (r, m') ∧
    m'.WellFormed 1 := by
  obtain ⟨r, m', hrun, hwf, -⟩ := (page_table_map blank_wf blank_spare).1 0 PGSIZE KERNBASE (PTE_R ||| PTE_U)
    (by decide) (by decide) (by decide) (by decide) (by decide) (by decide) (by decide) fun v _ _ => by
      rw [blank_pte]
      rfl
  exact ⟨r, m', hrun, hwf⟩

end Xv6.Vm
