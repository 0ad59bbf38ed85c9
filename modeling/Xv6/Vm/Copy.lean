import Xv6.Vm.Map

/-!
# `copyout`, `copyin` and `copyinstr`

The copies between the kernel and user memory go page by page.  They stop at the first address that is not
mapped with the rights they need.
-/

namespace Xv6.Vm

open Lib Radix Function List

variable {m m' : Mem} {root : ℕ} {ok : Panic → Prop}

/-- `copyin` may read at `va`. -/
def Readable (m : Mem) (root va : ℕ) : Prop :=
  va < MAXVA ∧ m.pte root va &&& PTE_V ≠ 0 ∧ m.pte root va &&& PTE_U ≠ 0
  deriving Decidable

/-- `copyout` may write at `va`. -/
def Writable (m : Mem) (root va : ℕ) : Prop := Readable m root va ∧ m.pte root va &&& PTE_W ≠ 0
  deriving Decidable

/-- The user's byte at `va`. -/
def Mem.byte (m : Mem) (root va : ℕ) : ℕ := (m.page (m.target root va)).get (va % PGSIZE)

/-! ### Pages -/

variable {va k n n' : ℕ} {src : ℕ → UInt8}

lemma add_lt_MAXVA (hva : va < MAXVA) (hk : k < PGSIZE - va % PGSIZE) : va + k < MAXVA := by
  rw [PGSIZE_eq] at hk
  rw [MAXVA_eq] at *
  omega

lemma same_page (hk : k < PGSIZE - va % PGSIZE) :
    (va + k) / PGSIZE = va / PGSIZE ∧ (va + k) % PGSIZE = va % PGSIZE + k := by
  rw [PGSIZE_eq] at *
  omega

lemma readable_same (hk : k < PGSIZE - va % PGSIZE) (h : Readable m root va) : Readable m root (va + k) := by
  refine ⟨add_lt_MAXVA h.1 hk, ?_⟩
  rw [pte_of_page m root (same_page hk).1]
  exact h.2

lemma writable_same (hk : k < PGSIZE - va % PGSIZE) (h : Writable m root va) : Writable m root (va + k) := by
  refine ⟨readable_same hk h.1, ?_⟩
  rw [pte_of_page m root (same_page hk).1]
  exact h.2

lemma target_of_page (h : v / PGSIZE = w / PGSIZE) : m.target root v = m.target root w := by
  rw [Mem.target, Mem.target, pte_of_page m root h]

lemma rounddown_facts (va : ℕ) : PGROUNDDOWN va / PGSIZE = va / PGSIZE ∧ va - PGROUNDDOWN va = va % PGSIZE ∧
    PGROUNDDOWN va ≤ va ∧ (PGROUNDDOWN va < MAXVA ↔ va < MAXVA) := by
  unfold PGROUNDDOWN
  rw [PGSIZE_eq, MAXVA_eq]
  omega

lemma next_page (hva : va < MAXVA) : (PGROUNDDOWN va + PGSIZE) % 2 ^ 64 = va + (PGSIZE - va % PGSIZE) := by
  have := rounddown_facts va
  unfold PGROUNDDOWN at *
  rw [PGSIZE_eq] at *
  rw [MAXVA_eq] at *
  omega

lemma target_split (m : Mem) (root va : ℕ) : (PTE2PA (m.pte root va) + va % PGSIZE) / PGSIZE = m.target root va ∧
      (PTE2PA (m.pte root va) + va % PGSIZE) % PGSIZE = va % PGSIZE := by
  have hmul := PTE2PA_mul (m.pte root va)
  have hlt := Nat.mod_lt va (show 0 < PGSIZE by decide)
  rw [← hmul, Mem.target, Nat.add_comm, Nat.add_mul_div_right _ _ (by decide), Nat.div_eq_of_lt hlt, Nat.zero_add,
    Nat.add_mul_mod_self_right, Nat.mod_eq_of_lt hlt]
  exact ⟨rfl, rfl⟩

/-! ### `copyout` -/

/-- The first `n` bytes of `src` are at `va` on, in the pages that `m` maps there, and no other byte has changed. -/
structure Wrote (root : ℕ) (m : Mem) (va : ℕ) (src : ℕ → UInt8) (n : ℕ) (m' : Mem) : Prop where
  free : m'.freelist = m.freelist
  bytes : ∀ k, k < n → (m'.page (m.target root (va + k))).get ((va + k) % PGSIZE) = (src k).toNat
  others : ∀ t j, (∀ k, k < n → ¬ (m.target root (va + k) = t ∧ (va + k) % PGSIZE = j)) →
    (m'.page t).get j = (m.page t).get j

/-- User pages are distinct, and none is a page of the table. -/
structure Private (m : Mem) (root : ℕ) : Prop where
  distinct : ∀ v w, Readable m root v → Readable m root w → m.target root v = m.target root w → v / PGSIZE = w / PGSIZE
  outside : ∀ v, Readable m root v → ¬ m.IsTable root (m.target root v)

/-- The tables are the same where the pages of the table are. -/
structure SameTable (root : ℕ) (m m' : Mem) : Prop where
  pte : ∀ v, m'.pte root v = m.pte root v
  isTable : ∀ t, m'.IsTable root t ↔ m.IsTable root t

lemma SameTable.of_pages (h : ∀ u, m.IsTable root u → m'.page u = m.page u) : SameTable root m m' where
  pte := Mem.pte_of_pages h
  isTable t := by
    constructor
    · rintro ⟨p, hp, hpt⟩
      exact ⟨p, hp, (Mem.table_of_pages h hp).symm.trans hpt⟩
    · rintro ⟨p, hp, hpt⟩
      exact ⟨p, hp, (Mem.table_of_pages h hp).trans hpt⟩

namespace SameTable

variable (h : SameTable root m m')

include h

lemma target (v : ℕ) : m'.target root v = m.target root v := by rw [Mem.target, Mem.target, h.pte]

lemma readable (v : ℕ) : Readable m' root v ↔ Readable m root v := by
  unfold Readable
  rw [h.pte]

lemma writable (v : ℕ) : Writable m' root v ↔ Writable m root v := by
  unfold Writable
  rw [h.pte, h.readable]

lemma «private» (hp : Private m root) : Private m' root where
  distinct v w hv hw ht := by
    rw [h.target, h.target] at ht
    exact hp.distinct v w ((h.readable v).mp hv) ((h.readable w).mp hw) ht
  outside v hv hc := by
    rw [h.target, h.isTable] at hc
    exact hp.outside v ((h.readable v).mp hv) hc

end SameTable

lemma Wrote.one (src : ℕ → UInt8) (hn : n ≤ PGSIZE - va % PGSIZE) :
    Wrote root m va src n (m.setPage (m.target root va)
      ((m.page (m.target root va)).put (va % PGSIZE) n fun k => (src k).toNat)) where
  free := rfl
  bytes k hk := by
    obtain ⟨h1, h2⟩ := same_page (lt_of_lt_of_le hk hn)
    rw [target_of_page h1, h2, Mem.setPage]
    simp only [update_self]
    rw [Bytes.get_put, if_pos (by omega), Nat.add_sub_cancel_left, Nat.mod_eq_of_lt (UInt8.toNat_lt _)]
  others t j hnot := by
    rw [Mem.setPage]
    by_cases ht : t = m.target root va
    · subst ht
      simp only [update_self]
      apply Bytes.get_put_of_disjoint
      by_contra hc
      have hk : j - va % PGSIZE < n := by omega
      obtain ⟨h1, h2⟩ := same_page (lt_of_lt_of_le hk hn)
      exact hnot (j - va % PGSIZE) hk ⟨target_of_page h1, by omega⟩
    · simp only [update_of_ne ht]

lemma Wrote.sameTable (h : Wrote root m va src n m') (hp : Private m root)
    (hr : ∀ k, k < n → Readable m root (va + k)) : SameTable root m m' := by
  apply SameTable.of_pages
  intro u hu
  apply Bytes.ext
  intro j _
  apply h.others
  rintro k hk ⟨rfl, -⟩
  exact hp.outside _ (hr k hk) hu

lemma Wrote.trans (h : Wrote root m va src n m') (hp : Private m root) (hr : ∀ k, k < n + n' → Readable m root (va + k))
    (h' : Wrote root m' (va + n) (fun k => src (n + k)) n' m'') :
    Wrote root m va src (n + n') m'' := by
  have hsame := h.sameTable hp fun k hk => hr k (by omega)
  refine ⟨h'.free.trans h.free, fun k hk => ?_, fun t j hnot => ?_⟩
  · by_cases hkn : k < n
    · rw [h'.others, h.bytes k hkn]
      -- the second copy writes to other addresses
      rintro k' hk' ⟨ht, hj⟩
      rw [hsame.target] at ht
      have hpage := hp.distinct _ _ (by rw [Nat.add_assoc]; exact hr (n + k') (by omega)) (hr k hk) ht
      have h1 := Nat.div_add_mod (va + n + k') PGSIZE
      have h2 := Nat.div_add_mod (va + k) PGSIZE
      rw [hpage, hj, h2] at h1
      omega
    · have hb := h'.bytes (k - n) (by omega)
      rwa [hsame.target, show va + n + (k - n) = va + k by omega, show n + (k - n) = k by omega] at hb
  · rw [h'.others, h.others]
    · intro k hk
      exact hnot k (by omega)
    · intro k hk hc
      rw [hsame.target, Nat.add_assoc] at hc
      exact hnot (n + k) (by omega) hc

lemma chunk_spec (va len : ℕ) : ∃ n, min (PGSIZE - va % PGSIZE) len = n ∧ n ≤ PGSIZE - va % PGSIZE ∧ n ≤ len ∧
    (n = PGSIZE - va % PGSIZE ∨ n = len) ∧ va % PGSIZE < PGSIZE :=
  ⟨_, rfl, Nat.min_le_left _ _, Nat.min_le_right _ _, by omega, Nat.mod_lt va (by decide)⟩

lemma below_add {P : ℕ → Prop} (h : ∀ k, k < n → P (va + k)) (h' : ∀ k, k < n' → P (va + n + k)) (hk : k < n + n') :
    P (va + k) := by
  by_cases hkn : k < n
  · exact h k hkn
  · have := h' (k - n) (by omega)
    rwa [show va + n + (k - n) = va + k by omega] at this

lemma not_writable_iff (hva : va < MAXVA) : ¬ Writable m root va ↔
    m.pte root va &&& PTE_V = 0 ∨ m.pte root va &&& PTE_U = 0 ∨ m.pte root va &&& PTE_W = 0 := by
  unfold Writable Readable
  tauto

/-- **The loop of `copyout`** writes up to the first address that the user may not write. -/
lemma copyoutLoop_spec (fuel va : ℕ) (src : ℕ → UInt8) (len : ℕ) (hfuel : len ≤ fuel) (hp : Private m root) :
    wp (copyoutLoop (root * PGSIZE) fuel va src len) ok (fun r m' => ∃ n, n ≤ len ∧ Wrote root m va src n m' ∧
      (∀ k, k < n → Writable m root (va + k)) ∧
      (r = 0 ∧ n = len ∨ r = -1 ∧ n < len ∧ (n = 0 ∨ (va + n) % PGSIZE = 0) ∧ ¬ Writable m root (va + n))) m := by
  have hnothing : Wrote root m va src 0 m := ⟨rfl, by simp, fun _ _ _ => rfl⟩
  induction fuel generalizing m va src len with
  | zero =>
    refine ⟨0, Nat.zero_le len, hnothing, by simp, .inl ⟨rfl, ?_⟩⟩
    omega
  | succ fuel ih =>
    obtain ⟨hr1, hr2, hr3, hr4⟩ := rounddown_facts va
    -- a failure before anything is copied
    have hfail : 0 < len → ¬ Writable m root va → ∃ n, n ≤ len ∧ Wrote root m va src n m ∧
        (∀ k, k < n → Writable m root (va + k)) ∧ ((-1 : ℤ) = 0 ∧ n = len ∨ (-1 : ℤ) = -1 ∧ n < len ∧
          (n = 0 ∨ (va + n) % PGSIZE = 0) ∧ ¬ Writable m root (va + n)) := fun hpos hbad =>
      ⟨0, Nat.zero_le len, hnothing, by simp, .inr ⟨rfl, hpos, .inl rfl, hbad⟩⟩
    rw [copyoutLoop]
    refine wp_ite.mpr ⟨fun hpos => ?_, fun hzero => ?_⟩
    · refine wp_ite.mpr ⟨fun hbig => hfail hpos fun hw => absurd (hr4.mpr hw.1.1) (Nat.not_lt.mpr hbig), fun hsmall => ?_⟩
      have hva : va < MAXVA := hr4.mp (Nat.lt_of_not_le hsmall)
      have hpath := indices_of_page hr1
      rw [wp_bind]
      refine (walk_false m (Nat.lt_of_not_le hsmall) root).mono ?_
      rintro _ m0 ⟨rfl, rfl⟩
      rw [hpath.1, hpath.2]
      cases hu : m0.table root (Mem.path va) with
      | none =>
        apply hfail hpos
        rintro ⟨⟨-, hv, -⟩, -⟩
        rw [Mem.pte, hu, Option.map_none, Option.getD_none] at hv
        exact hv (Nat.zero_and _)
      | some u =>
        rw [Option.map_some]
        simp only [wp_bind]
        rw [load_word (PX_lt 0 va), Mem.word_pte hu]
        refine wp_ite.mpr ⟨fun hbad => hfail hpos ((not_writable_iff hva).mpr hbad), fun hgood => ?_⟩
        have hw : Writable m0 root va := not_not.mp fun hc => hgood ((not_writable_iff hva).mp hc)
        obtain ⟨ht1, ht2⟩ := target_split m0 root va
        simp only [wp_bind, memmoveTo, wp_modify]
        rw [hr2, ht1, ht2, next_page hva]
        obtain ⟨n, hn, hn1, hn2, hn3, hmod⟩ := chunk_spec va len
        rw [hn]
        have hwrote : Wrote root m0 va src n _ := Wrote.one src hn1
        have hall : ∀ k, k < n → Writable m0 root (va + k) := fun k hk => writable_same (lt_of_lt_of_le hk hn1) hw
        have hsame := hwrote.sameTable hp fun k hk => (hall k hk).1
        refine (ih (va + (PGSIZE - va % PGSIZE)) (fun k => src (n + k)) (len - n) (by omega) (hsame.private hp)
          ⟨rfl, by simp, fun _ _ _ => rfl⟩).mono ?_
        rintro r m2 ⟨n', hn', hwrote', hall', hres⟩
        simp only [hsame.writable] at hall' hres
        by_cases hlast : n = len
        · -- nothing is left to copy
          have hn0 : n' = 0 := by omega
          have hr : r = 0 := by
            rcases hres with ⟨hr, -⟩ | ⟨-, hlt, -⟩
            · exact hr
            · omega
          subst hn0
          have hwrote2 : Wrote root m0 va src (n + 0) m2 := by
            refine hwrote.trans hp (fun k hk => (hall k hk).1) ?_
            exact ⟨hwrote'.free, by simp, fun t j _ => hwrote'.others t j (by simp)⟩
          exact ⟨n, hn2, hwrote2, hall, .inl ⟨hr, hlast⟩⟩
        · have hfull : va + (PGSIZE - va % PGSIZE) = va + n := by omega
          rw [hfull] at hwrote' hall' hres
          have hall2 : ∀ k, k < n + n' → Writable m0 root (va + k) := fun k hk => below_add hall hall' hk
          refine ⟨n + n', by omega, hwrote.trans hp (fun k hk => (hall2 k hk).1) hwrote', hall2, ?_⟩
          rw [Nat.add_assoc] at hres
          rcases hres with ⟨hr, hn⟩ | ⟨hr, hlt, hbound, hbad⟩
          · exact .inl ⟨hr, by omega⟩
          · refine .inr ⟨hr, by omega, .inr ?_, hbad⟩
            rcases hbound with rfl | hbound
            · rw [Nat.add_zero, ← hfull]
              rw [PGSIZE_eq] at *
              omega
            · exact hbound
    · refine ⟨0, Nat.zero_le len, hnothing, by simp, .inl ⟨rfl, ?_⟩⟩
      omega

/-! ### `copyin` -/

/-- **`walkaddr`**; it returns 0 for an address that is not a user's. -/
lemma walkaddr_spec (m : Mem) (root va : ℕ) : wp (walkaddr (root * PGSIZE) va) ok (fun r m' => m' = m ∧
      (Readable m root va ∧ r = PTE2PA (m.pte root va) ∨ ¬ Readable m root va ∧ r = 0)) m := by
  rw [walkaddr]
  refine wp_ite.mpr ⟨fun hbig => ⟨rfl, .inr ⟨fun hr => absurd hr.1 (Nat.not_lt.mpr hbig), rfl⟩⟩, fun hsmall => ?_⟩
  have hva := Nat.lt_of_not_le hsmall
  rw [wp_bind]
  refine (walk_false m hva root).mono ?_
  rintro _ m0 ⟨rfl, rfl⟩
  cases hu : m0.table root (Mem.path va) with
  | none =>
    refine ⟨rfl, .inr ⟨?_, rfl⟩⟩
    rintro ⟨-, hv, -⟩
    rw [Mem.pte, hu, Option.map_none, Option.getD_none] at hv
    exact hv (Nat.zero_and _)
  | some u =>
    rw [Option.map_some]
    simp only [wp_bind]
    rw [load_word (PX_lt 0 va), Mem.word_pte hu]
    refine wp_ite.mpr ⟨fun hv => ⟨rfl, .inr ⟨fun hr => hr.2.1 hv, rfl⟩⟩, fun hv => ?_⟩
    refine wp_ite.mpr ⟨fun hu => ⟨rfl, .inr ⟨fun hr => hr.2.2 hu, rfl⟩⟩, fun hu => ?_⟩
    exact ⟨rfl, .inl ⟨⟨hva, hv, hu⟩, rfl⟩⟩

/-- No user page is page 0, whose address `walkaddr` could not return. -/
def NonZero (m : Mem) (root : ℕ) : Prop := ∀ v, Readable m root v → m.target root v ≠ 0

lemma walkaddr_page (hz : Readable m root va → m.target root va ≠ 0) :
    wp (walkaddr (root * PGSIZE) (PGROUNDDOWN va)) ok (fun r m' => m' = m ∧
      (Readable m root va ∧ r = PTE2PA (m.pte root va) ∧ r ≠ 0 ∨ ¬ Readable m root va ∧ r = 0)) m := by
  obtain ⟨hr1, -, -, hr4⟩ := rounddown_facts va
  have hpte := pte_of_page m root hr1
  have hiff : Readable m root (PGROUNDDOWN va) ↔ Readable m root va := by
    unfold Readable
    rw [hpte, hr4]
  refine (walkaddr_spec m root _).mono ?_
  rintro r m0 ⟨rfl, hr⟩
  rw [hiff, hpte] at hr
  refine ⟨rfl, hr.imp_left ?_⟩
  rintro ⟨hread, rfl⟩
  refine ⟨hread, rfl, fun hc => hz hread ?_⟩
  rw [Mem.target, hc, Nat.zero_div]

lemma page_bytes (m : Mem) (root va n : ℕ) (hn : n ≤ PGSIZE - va % PGSIZE) :
    (List.range n).map (fun k => (m.page (m.target root va)).get (va % PGSIZE + k)) =
      (List.range n).map fun k => m.byte root (va + k) := by
  apply map_congr_left
  intro k hk
  obtain ⟨h1, h2⟩ := same_page (lt_of_lt_of_le (mem_range.mp hk) hn)
  rw [Mem.byte, h2, target_of_page h1]

lemma range_bytes (f : ℕ → ℕ) (va n n' : ℕ) : (List.range (n + n')).map (fun k => f (va + k)) =
    (List.range n).map (fun k => f (va + k)) ++ (List.range n').map fun k => f (va + n + k) := by
  rw [range_add, map_append, map_map]
  congr 1
  apply map_congr_left
  intro k _
  rw [comp, Nat.add_assoc]

/-- **The loop of `copyin`** reads up to the first address that the user may not read. -/
lemma copyinLoop_spec (hz : NonZero m root) (fuel va len : ℕ) (hfuel : len ≤ fuel) :
    wp (copyinLoop (root * PGSIZE) fuel va len) ok (fun r m' => m' = m ∧ ∃ n, n ≤ len ∧
      r.2 = (List.range n).map (fun k => m.byte root (va + k)) ∧ (∀ k, k < n → Readable m root (va + k)) ∧
      (r.1 = 0 ∧ n = len ∨ r.1 = -1 ∧ n < len ∧ ¬ Readable m root (va + n))) m := by
  induction fuel generalizing va len with
  | zero => exact ⟨rfl, 0, Nat.zero_le len, rfl, nofun, .inl ⟨rfl, by omega⟩⟩
  | succ fuel ih =>
    rw [copyinLoop]
    refine wp_ite.mpr ⟨fun hpos => ?_, fun hzero => ?_⟩
    · rw [wp_bind]
      refine (walkaddr_page (hz va)).mono ?_
      rintro pa m0 ⟨rfl, hpa⟩
      rcases hpa with ⟨hread, rfl, hne⟩ | ⟨hbad, rfl⟩
      · obtain ⟨-, hr2, -, -⟩ := rounddown_facts va
        obtain ⟨ht1, ht2⟩ := target_split m0 root va
        rw [if_neg hne]
        simp only [wp_bind, memmoveFrom, wp_read, wp_pure]
        rw [hr2, ht1, ht2, next_page hread.1]
        obtain ⟨n, hn, hn1, hn2, hn3, hmod⟩ := chunk_spec va len
        rw [hn]
        rw [page_bytes m0 root va n hn1]
        have hall : ∀ k, k < n → Readable m0 root (va + k) := fun k hk => readable_same (lt_of_lt_of_le hk hn1) hread
        refine (ih (va + (PGSIZE - va % PGSIZE)) (len - n) (by omega)).mono ?_
        rintro ⟨r, bs⟩ m1 ⟨rfl, n', hn', hbs, hall', hres⟩
        refine ⟨rfl, ?_⟩
        dsimp only at hbs hres ⊢
        by_cases hlast : n = len
        · have hn0 : n' = 0 := by omega
          subst hn0
          rw [hbs, range_zero, map_nil, append_nil]
          refine ⟨n, hn2, rfl, hall, .inl ⟨?_, hlast⟩⟩
          rcases hres with ⟨hr, -⟩ | ⟨-, hlt, -⟩
          · exact hr
          · omega
        · have hfull : va + (PGSIZE - va % PGSIZE) = va + n := by omega
          rw [hfull] at hbs hall' hres
          refine ⟨n + n', by omega, ?_, fun k hk => below_add hall hall' hk, ?_⟩
          · rw [range_bytes, hbs]
          · rw [Nat.add_assoc] at hres
            rcases hres with ⟨hr, hn⟩ | ⟨hr, hlt, hbad⟩
            · exact .inl ⟨hr, by omega⟩
            · exact .inr ⟨hr, by omega, hbad⟩
      · rw [if_pos rfl]
        exact ⟨rfl, 0, Nat.zero_le len, rfl, nofun, .inr ⟨rfl, hpos, hbad⟩⟩
    · exact ⟨rfl, 0, Nat.zero_le len, rfl, nofun, .inl ⟨rfl, by omega⟩⟩

lemma cons_bytes (f : ℕ → ℕ) (va n : ℕ) :
    f va :: (List.range n).map (fun k => f (va + 1 + k)) = (List.range (n + 1)).map fun k => f (va + k) := by
  rw [Nat.add_comm n 1, range_bytes f va 1 n]
  rfl

/-! ### `copyinstr` -/

lemma strLoop_spec (get : ℕ → ℕ) (n p : ℕ) :
    ((strLoop get n p).2 = true ∧ ∃ k, k < n ∧ get (p + k) = 0 ∧ (∀ j, j < k → get (p + j) ≠ 0) ∧
        (strLoop get n p).1 = (List.range k).map (fun j => get (p + j)) ++ [0]) ∨
      ((strLoop get n p).2 = false ∧ (∀ j, j < n → get (p + j) ≠ 0) ∧
        (strLoop get n p).1 = (List.range n).map fun j => get (p + j)) := by
  induction n generalizing p with
  | zero => exact .inr ⟨rfl, fun j hj => absurd hj (Nat.not_lt_zero j), rfl⟩
  | succ n ih =>
    rw [strLoop]
    by_cases h0 : get p = 0
    · rw [if_pos h0]
      exact .inl ⟨rfl, 0, Nat.succ_pos n, h0, fun j hj => absurd hj (Nat.not_lt_zero j), rfl⟩
    · rw [if_neg h0]
      have hnz : ∀ k, (∀ j, j < k → get (p + 1 + j) ≠ 0) → ∀ j, j < k + 1 → get (p + j) ≠ 0 := by
        intro k hk j hj
        cases j with
        | zero => exact h0
        | succ j =>
          have := hk j (by omega)
          rwa [Nat.add_assoc, Nat.add_comm 1 j] at this
      dsimp only
      rcases ih (p + 1) with ⟨h2, k, hk, hz, hbefore, hl⟩ | ⟨h2, hbefore, hl⟩
      · refine .inl ⟨h2, k + 1, by omega, ?_, hnz k hbefore, ?_⟩
        · rwa [Nat.add_assoc, Nat.add_comm 1 k] at hz
        · rw [hl, ← cons_bytes]
          rfl
      · refine .inr ⟨h2, hnz n hbefore, ?_⟩
        rw [hl, cons_bytes]

lemma page_byte (m : Mem) (root : ℕ) (hj : j < PGSIZE - va % PGSIZE) :
    (m.page (m.target root va)).get (va % PGSIZE + j) = m.byte root (va + j) := by
  obtain ⟨h1, h2⟩ := same_page hj
  rw [Mem.byte, h2, target_of_page h1]

/-- The string at `va` ends with a NUL `k` bytes on, and the user may read it. -/
structure StringAt (m : Mem) (root va k : ℕ) : Prop where
  nul : m.byte root (va + k) = 0
  before : ∀ j, j < k → m.byte root (va + j) ≠ 0
  readable : ∀ j, j ≤ k → Readable m root (va + j)

/-- No user page up to the end of the string at `va` is page 0. -/
def NonZeroFrom (m : Mem) (root va : ℕ) : Prop :=
  ∀ j, (∀ i, i < j → m.byte root (va + i) ≠ 0) → Readable m root (va + j) → m.target root (va + j) ≠ 0

lemma NonZero.from (h : NonZero m root) (va : ℕ) : NonZeroFrom m root va := fun j _ hr => h (va + j) hr

lemma NonZeroFrom.add (h : NonZeroFrom m root va) (hn : ∀ j, j < n → m.byte root (va + j) ≠ 0) :
    NonZeroFrom m root (va + n) := by
  intro j hj hr
  rw [Nat.add_assoc] at hr ⊢
  apply h (n + j) _ hr
  intro i hi
  by_cases hin : i < n
  · exact hn i hin
  · have := hj (i - n) (by omega)
    rwa [show va + n + (i - n) = va + i by omega] at this

lemma copyinstrLoop_zero (pagetable fuel va : ℕ) : copyinstrLoop pagetable fuel va 0 = pure (-1, []) := by
  cases fuel with
  | zero => rfl
  | succ fuel => rw [copyinstrLoop, if_neg (Nat.lt_irrefl 0)]

/-- **The loop of `copyinstr`** copies the string, or reads up to an address that the user may not read, or up to
`max` bytes. -/
lemma copyinstrLoop_spec (fuel va max : ℕ) (hfuel : max ≤ fuel) (hz : NonZeroFrom m root va) :
    wp (copyinstrLoop (root * PGSIZE) fuel va max) ok (fun r m' => m' = m ∧
      (r.1 = 0 ∧ (∃ k, k < max ∧ StringAt m root va k ∧ r.2 = (List.range k).map (fun j => m.byte root (va + j)) ++ [0]) ∨
        r.1 = -1 ∧ r.2.length ≤ max ∧ ∃ n, n ≤ max ∧ (∀ j, j < n → m.byte root (va + j) ≠ 0) ∧
          (n = max ∨ ¬ Readable m root (va + n)))) m := by
  have hnone : ∀ va : ℕ, ∀ j, j < 0 → m.byte root (va + j) ≠ 0 := nofun
  induction fuel generalizing va max with
  | zero => exact ⟨rfl, .inr ⟨rfl, Nat.zero_le max, 0, Nat.zero_le max, hnone va, .inl (by omega)⟩⟩
  | succ fuel ih =>
    rw [copyinstrLoop]
    refine wp_ite.mpr ⟨fun hpos => ?_, fun hzero => ?_⟩
    · have hz0 : Readable m root va → m.target root va ≠ 0 := hz 0 (hnone va)
      rw [wp_bind]
      refine (walkaddr_page hz0).mono ?_
      rintro pa m0 ⟨rfl, hpa⟩
      rcases hpa with ⟨hread, rfl, hne⟩ | ⟨hbad, rfl⟩
      · obtain ⟨-, hr2, -, -⟩ := rounddown_facts va
        obtain ⟨ht1, ht2⟩ := target_split m0 root va
        rw [if_neg hne]
        simp only [wp_bind, wp_read]
        rw [hr2, ht1, ht2, next_page hread.1]
        obtain ⟨n, hn, hn1, hn2, hn3, hmod⟩ := chunk_spec va max
        rw [hn]
        rcases strLoop_spec (m0.page (m0.target root va)).get n (va % PGSIZE) with
          ⟨h2, k, hk, hnul, hbefore, hl⟩ | ⟨h2, hbefore, hl⟩
        · -- the NUL is in this page
          rw [if_pos h2]
          refine ⟨rfl, .inl ⟨rfl, k, by omega, ⟨?_, fun j hj => ?_, fun j hj => ?_⟩, ?_⟩⟩
          · rw [← page_byte m0 root (by omega)]
            exact hnul
          · rw [← page_byte m0 root (by omega)]
            exact hbefore j hj
          · exact readable_same (by omega) hread
          · rw [hl, page_bytes m0 root va k (by omega)]
        · rw [if_neg (by rw [h2]; exact Bool.false_ne_true), wp_bind]
          have hbefore' : ∀ j, j < n → m0.byte root (va + j) ≠ 0 := by
            intro j hj
            rw [← page_byte m0 root (by omega)]
            exact hbefore j hj
          rw [page_bytes m0 root va n hn1] at hl
          by_cases hlast : n = max
          · -- nothing is left
            rw [show max - n = 0 by omega, copyinstrLoop_zero, wp_pure, wp_pure, hl]
            refine ⟨rfl, .inr ⟨rfl, ?_, n, hn2, hbefore', .inl hlast⟩⟩
            rw [append_nil, length_map, length_range]
            exact hn2
          · have hfull : va + (PGSIZE - va % PGSIZE) = va + n := by omega
            rw [hfull]
            refine (ih (va + n) (max - n) (by omega) (hz.add hbefore')).mono ?_
            rintro ⟨r, bs⟩ m1 ⟨rfl, hres⟩
            rw [wp_pure, hl]
            refine ⟨rfl, ?_⟩
            dsimp only at hres ⊢
            rcases hres with ⟨hr, k, hk, hstr, hbs⟩ | ⟨hr, hlen, n', hn', hbefore2, hend⟩
            · refine .inl ⟨hr, n + k, by omega, ⟨?_, fun j hj => ?_, fun j hj => ?_⟩, ?_⟩
              · rw [← Nat.add_assoc]
                exact hstr.nul
              · exact below_add (P := fun v => m1.byte root v ≠ 0) hbefore' hstr.before hj
              · exact below_add (fun j hj => readable_same (by omega) hread)
                  (fun j hj => hstr.readable j (Nat.le_of_lt_succ hj)) (show j < n + (k + 1) by omega)
              · rw [range_bytes, hbs, append_assoc]
            · refine .inr ⟨hr, ?_, n + n', by omega, fun j hj => ?_, ?_⟩
              · rw [length_append, length_map, length_range]
                omega
              · exact below_add (P := fun v => m1.byte root v ≠ 0) hbefore' hbefore2 hj
              · rw [← Nat.add_assoc]
                exact hend.imp_left fun h => by omega
      · rw [if_pos rfl]
        exact ⟨rfl, .inr ⟨rfl, Nat.zero_le max, 0, Nat.zero_le max, hnone va, .inr hbad⟩⟩
    · exact ⟨rfl, .inr ⟨rfl, Nat.zero_le max, 0, Nat.zero_le max, hnone va, .inl (by omega)⟩⟩

end Xv6.Vm
