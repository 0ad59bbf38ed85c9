import Xv6.Vm.Copy

/-!
# The kernel's access to user memory

What `copyout`, `copyin` and `copyinstr` do for every address and every length, also for ranges that end beyond
`MAXVA` or wrap.  A user page must not be a page of the page table: `copyout` could change the PTEs of the pages
that it has yet to copy to.
-/

namespace Xv6.Vm

open Lib Radix List Option

variable {m m' : Mem} {root : ℕ}

lemma forall_wrapped {p : ℕ → Prop} (hp : ∀ v, p v → v < MAXVA) {va len : ℕ} (hva : va < 2 ^ 64) :
    (∀ k, k < len → p ((va + k) % 2 ^ 64)) ↔ ∀ k, k < len → p (va + k) := by
  have hM : MAXVA < 2 ^ 64 := by decide
  constructor
  · intro h k hk
    have hlt : va + k < MAXVA := by
      have h0 := hp _ (h 0 (by omega))
      rw [Nat.add_zero, Nat.mod_eq_of_lt hva] at h0
      by_contra hge
      have hat := hp _ (h (MAXVA - va) (by omega))
      rw [show va + (MAXVA - va) = MAXVA by omega, Nat.mod_eq_of_lt hM] at hat
      exact absurd hat (Nat.lt_irrefl _)
    have := h k hk
    rwa [Nat.mod_eq_of_lt (by omega)] at this
  · intro h k hk
    have hlt := hp _ (h k hk)
    rw [Nat.mod_eq_of_lt (by omega)]
    exact h k hk

lemma copyout_returns (hp : Private m root) (va : ℕ) (src : ℕ → UInt8) (len : ℕ) :
    ∃ r m', copyout (root * PGSIZE) va src len m = .ok (r, m') ∧ ∃ n, n ≤ len ∧ Wrote root m va src n m' ∧
      (∀ k, k < n → Writable m root (va + k)) ∧
      (r = 0 ∧ n = len ∨ r = -1 ∧ n < len ∧ (n = 0 ∨ (va + n) % PGSIZE = 0) ∧ ¬ Writable m root (va + n)) := by
  have hspec : wp (copyout (root * PGSIZE) va src len) (fun _ => False) _ m :=
    copyoutLoop_spec len va src len (Nat.le_refl len) hp
  exact hspec.returns

lemma copyin_returns (hz : NonZero m root) (va len : ℕ) :
    ∃ r bs, copyin (root * PGSIZE) va len m = .ok ((r, bs), m) ∧ ∃ n, n ≤ len ∧
      bs = (List.range n).map (fun k => m.byte root (va + k)) ∧ (∀ k, k < n → Readable m root (va + k)) ∧
      (r = 0 ∧ n = len ∨ r = -1 ∧ n < len ∧ ¬ Readable m root (va + n)) := by
  have hspec : wp (copyin (root * PGSIZE) va len) (fun _ => False) _ m :=
    copyinLoop_spec hz len va len (Nat.le_refl len)
  obtain ⟨⟨r, bs⟩, _, hrun, rfl, hres⟩ := hspec.returns
  exact ⟨r, bs, hrun, hres⟩

/-- **`copyout` and `copyin` are exact and confined.**  `copyout` succeeds just if the user may write all of the
range; then the range holds the bytes of the source, and no other byte has changed.  If it fails, it has written up to
the first page that the user may not write.  `copyin` succeeds just if the user may read all of the range, and then it
returns its bytes. -/
theorem copyout_copyin (hp : Private m root) (hz : NonZero m root) {va : ℕ} (hva : va < 2 ^ 64) (len : ℕ)
    (src : ℕ → UInt8) :
    (∃ r m', copyout (root * PGSIZE) va src len m = .ok (r, m') ∧ (r = 0 ∨ r = -1) ∧
      (r = 0 ↔ ∀ k, k < len → Writable m root ((va + k) % 2 ^ 64)) ∧
      (r = 0 → Wrote root m va src len m' ∧
        copyin (root * PGSIZE) va len m' = .ok ((0, (List.range len).map fun k => (src k).toNat), m')) ∧
      (r = -1 → ∃ n, n < len ∧ (n = 0 ∨ (va + n) % PGSIZE = 0) ∧ ¬ Writable m root ((va + n) % 2 ^ 64) ∧
        (∀ k, k < n → Writable m root (va + k)) ∧ Wrote root m va src n m')) ∧
    ∃ r bs, copyin (root * PGSIZE) va len m = .ok ((r, bs), m) ∧ (r = 0 ∨ r = -1) ∧
      (r = 0 ↔ ∀ k, k < len → Readable m root ((va + k) % 2 ^ 64)) ∧
      (r = 0 → bs = (List.range len).map fun k => m.byte root (va + k)) := by
  rw [forall_wrapped (fun v hv => hv.1.1) hva, forall_wrapped (fun v hv => hv.1) hva]
  constructor
  · obtain ⟨r, m', hrun, n, hn, hwrote, hall, hres⟩ := copyout_returns hp va src len
    refine ⟨r, m', hrun, ?_⟩
    rcases hres with ⟨rfl, rfl⟩ | ⟨rfl, hlt, hbound, hbad⟩
    · refine ⟨.inl rfl, ⟨fun _ => hall, fun _ => rfl⟩, fun _ => ⟨hwrote, ?_⟩, fun h => absurd h (by decide)⟩
      -- the copy has left the table as it is, so the range can be read
      have hsame := hwrote.sameTable hp fun k hk => (hall k hk).1
      have hz' : NonZero m' root := by
        intro v hv
        rw [hsame.target]
        exact hz v ((hsame.readable v).mp hv)
      obtain ⟨r', bs, hrun', n', hn', hbs, -, hres'⟩ := copyin_returns hz' va n
      rcases hres' with ⟨rfl, rfl⟩ | ⟨-, hlt', hbad'⟩
      · rw [hrun', hbs]
        congr 3
        apply map_congr_left
        intro k hk
        rw [Mem.byte, hsame.target]
        exact hwrote.bytes k (mem_range.mp hk)
      · exact absurd ((hsame.readable _).mpr (hall n' hlt').1) hbad'
    · refine ⟨.inr rfl, ⟨fun h => absurd h (by decide), fun h => absurd (h n hlt) hbad⟩, fun h => absurd h (by decide),
        fun _ => ⟨n, hlt, hbound, ?_, hall, hwrote⟩⟩
      have hM : MAXVA < 2 ^ 64 := by decide
      have hnowrap : va + n < 2 ^ 64 := by
        rcases Nat.eq_zero_or_pos n with rfl | hpos
        · exact hva
        · have := (hall (n - 1) (by omega)).1.1
          omega
      rwa [Nat.mod_eq_of_lt hnowrap]
  · obtain ⟨r, bs, hrun, n, hn, hbs, hall, hres⟩ := copyin_returns hz va len
    refine ⟨r, bs, hrun, ?_⟩
    rcases hres with ⟨rfl, rfl⟩ | ⟨rfl, hlt, hbad⟩
    · exact ⟨.inl rfl, ⟨fun _ => hall, fun _ => rfl⟩, fun _ => hbs⟩
    · exact ⟨.inr rfl, ⟨fun h => absurd h (by decide), fun h => absurd (h n hlt) hbad⟩, fun h => absurd h (by decide)⟩

/-- **`copyinstr` copies exactly the string, or fails.**  What it returns is decided by the bytes up to the NUL: it is
the same for every other memory and page table with the same bytes there. -/
theorem copyinstr_exact (hz : NonZero m root) (va max : ℕ) :
    ∃ r bs, copyinstr (root * PGSIZE) va max m = .ok ((r, bs), m) ∧ (r = 0 ∨ r = -1) ∧ bs.length ≤ max ∧
      (r = 0 ↔ ∃ k, k < max ∧ StringAt m root va k) ∧
      ∀ k, k < max → StringAt m root va k → bs = (List.range k).map (fun j => m.byte root (va + j)) ++ [0] ∧
        ∀ m₂ root₂, (∀ j, j ≤ k → Readable m₂ root₂ (va + j) ∧ m₂.target root₂ (va + j) ≠ 0 ∧
            m₂.byte root₂ (va + j) = m.byte root (va + j)) →
          copyinstr (root₂ * PGSIZE) va max m₂ = .ok ((0, bs), m₂) := by
  -- the end of the string is unique
  have huniq : ∀ (m : Mem) (root k k' : ℕ), StringAt m root va k → StringAt m root va k' → k = k' := by
    intro m root k k' h h'
    rcases Nat.lt_trichotomy k k' with hlt | heq | hlt
    · exact absurd h.nul (h'.before k hlt)
    · exact heq
    · exact absurd h'.nul (h.before k' hlt)
  have hrun : ∀ (m : Mem) (root : ℕ), NonZeroFrom m root va → ∃ r bs, copyinstr (root * PGSIZE) va max m = .ok ((r, bs), m) ∧
      (r = 0 ∧ (∃ k, k < max ∧ StringAt m root va k ∧ bs = (List.range k).map (fun j => m.byte root (va + j)) ++ [0]) ∨
        r = -1 ∧ bs.length ≤ max ∧ ∀ k, k < max → ¬ StringAt m root va k) := by
    intro m root hz
    have hspec : wp (copyinstr (root * PGSIZE) va max) (fun _ => False) _ m :=
      copyinstrLoop_spec max va max (Nat.le_refl max) hz
    obtain ⟨⟨r, bs⟩, _, hrun, rfl, hres⟩ := hspec.returns
    refine ⟨r, bs, hrun, hres.imp_right ?_⟩
    rintro ⟨hr, hlen, n, hn, hbefore, hend⟩
    refine ⟨hr, hlen, fun k hk hstr => ?_⟩
    by_cases hkn : k < n
    · exact hbefore k hkn hstr.nul
    · rcases hend with rfl | hbad
      · exact hkn hk
      · exact hbad (hstr.readable n (by omega))
  obtain ⟨r, bs, h, hres⟩ := hrun m root (hz.from va)
  refine ⟨r, bs, h, ?_⟩
  rcases hres with ⟨rfl, k, hk, hstr, rfl⟩ | ⟨rfl, hlen, hno⟩
  · refine ⟨.inl rfl, ?_, ⟨fun _ => ⟨k, hk, hstr⟩, fun _ => rfl⟩, fun k' _ hstr' => ?_⟩
    · rw [length_append, length_map, length_range, length_singleton]
      exact hk
    · obtain rfl := huniq m root k k' hstr hstr'
      refine ⟨rfl, fun m₂ root₂ hsame => ?_⟩
      have hstr₂ : StringAt m₂ root₂ va k :=
        ⟨by rw [(hsame k (Nat.le_refl k)).2.2]; exact hstr.nul,
          fun j hj => by rw [(hsame j (Nat.le_of_lt hj)).2.2]; exact hstr.before j hj, fun j hj => (hsame j hj).1⟩
      have hz₂ : NonZeroFrom m₂ root₂ va := by
        intro j hj _
        by_cases hjk : j ≤ k
        · exact (hsame j hjk).2.1
        · exact absurd hstr₂.nul (hj k (by omega))
      obtain ⟨r₂, bs₂, h₂, hres₂⟩ := hrun m₂ root₂ hz₂
      rcases hres₂ with ⟨rfl, k₂, -, hk₂, rfl⟩ | ⟨-, -, hno⟩
      · obtain rfl := huniq m₂ root₂ k k₂ hstr₂ hk₂
        rw [h₂]
        congr 4
        apply map_congr_left
        intro j hj
        exact (hsame j (Nat.le_of_lt (mem_range.mp hj))).2.2
      · exact absurd hstr₂ (hno k hk)
  · refine ⟨.inr rfl, hlen, ⟨fun h => absurd h (by decide), ?_⟩, fun k hk hstr => absurd hstr (hno k hk)⟩
    rintro ⟨k, hk, hstr⟩
    exact absurd hstr (hno k hk)

/-! ### An address space of two pages -/

/-- Page tables in pages 1, 2 and 3, with the PTEs of the first two virtual pages; page 4 is full of 7s. -/
def twoPages (e₀ e₁ : ℕ) : Mem where
  page t :=
    if t = 1 then (Bytes.zero _).putLe 0 8 (PA2PTE (2 * PGSIZE) ||| PTE_V)
    else if t = 2 then (Bytes.zero _).putLe 0 8 (PA2PTE (3 * PGSIZE) ||| PTE_V)
    else if t = 3 then ((Bytes.zero _).putLe 0 8 e₀).putLe 8 8 e₁
    else if t = 4 then .fill 7
    else Bytes.zero _
  freelist := []

/-- The PTE of a user page `t` that may be read and written. -/
def userPte (t : ℕ) : ℕ := PA2PTE (t * PGSIZE) ||| (PTE_R ||| PTE_W ||| PTE_U ||| PTE_V)

abbrev userPages : Mem := twoPages (userPte 4) (userPte 5)

section

variable {e0 e1 : ℕ}

lemma word_first (hw : w < 2 ^ 64) (i : ℕ) :
    ((Bytes.zero PGSIZE).putLe 0 8 w).le (8 * i) 8 = if i = 0 then w else 0 :=
  word_only (k := 0) (by decide) hw i

lemma twoPages_word (h₀ : e0 < 2 ^ 64) (h₁ : e1 < 2 ^ 64) (i : ℕ) :
    next ((twoPages e0 e1).word 1 i) = (if i = 0 then some 2 else none) ∧
    next ((twoPages e0 e1).word 2 i) = (if i = 0 then some 3 else none) ∧
    (twoPages e0 e1).word 3 i = if i = 1 then e1 else if i = 0 then e0 else 0 := by
  have hone : (twoPages e0 e1).word 1 i = if i = 0 then PA2PTE (2 * PGSIZE) ||| PTE_V else 0 :=
    word_first (by decide) i
  have htwo : (twoPages e0 e1).word 2 i = if i = 0 then PA2PTE (3 * PGSIZE) ||| PTE_V else 0 :=
    word_first (by decide) i
  refine ⟨?_, ?_, ?_⟩
  · rw [hone, apply_ite next, next_table (by decide), next_zero]
  · rw [htwo, apply_ite next, next_table (by decide), next_zero]
  · change (((Bytes.zero PGSIZE).putLe 0 8 e0).putLe 8 8 e1).le (8 * i) 8 = _
    split
    · rename_i hi
      subst hi
      exact Bytes.le_putLe_of_lt _ (by decide) h₁
    · rename_i hi
      rw [Bytes.le_putLe_of_disjoint _ (by omega), word_first h₀]

variable (h₀ : e0 < 2 ^ 64) (h₁ : e1 < 2 ^ 64)

include h₀ h₁

lemma twoPages_table (i j : ℕ) : (twoPages e0 e1).table 1 [i, j] = if i = 0 ∧ j = 0 then some 3 else none := by
  have hnil : (twoPages e0 e1).table 3 [] = some 3 := rfl
  rw [Mem.table_cons, (twoPages_word h₀ h₁ i).1]
  by_cases hi : i = 0
  · rw [if_pos hi, bind_some, Mem.table_cons, (twoPages_word h₀ h₁ j).2.1]
    by_cases hj : j = 0
    · rw [if_pos hj, bind_some, hnil, if_pos ⟨hi, hj⟩]
    · rw [if_neg hj, bind_none, if_neg fun hc => hj hc.2]
  · rw [if_neg hi, bind_none, if_neg fun hc => hi hc.1]

lemma twoPages_isTable (h : (twoPages e0 e1).IsTable 1 t) : t ≤ 3 := by
  obtain ⟨p, hp, hpt⟩ := h
  match p with
  | [] =>
    cases hpt
    decide
  | [i] =>
    rw [Mem.table_cons, (twoPages_word h₀ h₁ i).1] at hpt
    split at hpt
    · cases hpt
      decide
    · cases hpt
  | [i, j] =>
    rw [twoPages_table h₀ h₁] at hpt
    split at hpt
    · cases hpt
      decide
    · cases hpt
  | i :: j :: k :: p =>
    simp only [length_cons] at hp
    omega

lemma twoPages_pte (hv : v < MAXVA) : (twoPages e0 e1).pte 1 v =
    if v / PGSIZE = 1 then e1 else if v / PGSIZE = 0 then e0 else 0 := by
  have hpage : v / PGSIZE < 67108864 := Nat.div_lt_of_lt_mul (by rw [PGSIZE_eq]; rwa [MAXVA_eq] at hv)
  have h2 := PX_eq 2 v
  have h1 := PX_eq 1 v
  have h0 := PX_eq 0 v
  unfold Mem.pte Mem.path
  generalize v / PGSIZE = x at *
  norm_num at h0 h1 h2
  rw [twoPages_table h₀ h₁]
  by_cases hin : PX 2 v = 0 ∧ PX 1 v = 0
  · have hsame : PX 0 v = x := by omega
    rw [if_pos hin, map_some, getD_some, (twoPages_word h₀ h₁ _).2.2, hsame]
  · rw [if_neg hin, map_none, getD_none, if_neg (by omega), if_neg (by omega)]

lemma twoPages_readable (h : Readable (twoPages e0 e1) 1 v) :
    (v / PGSIZE = 0 ∧ (twoPages e0 e1).target 1 v = PTE2PA e0 / PGSIZE) ∨
      (v / PGSIZE = 1 ∧ (twoPages e0 e1).target 1 v = PTE2PA e1 / PGSIZE) := by
  obtain ⟨hlt, hv, -⟩ := h
  rw [Mem.target]
  rw [twoPages_pte h₀ h₁ hlt] at hv ⊢
  by_cases hone : v / PGSIZE = 1
  · rw [if_pos hone]
    exact .inr ⟨hone, rfl⟩
  · rw [if_neg hone] at hv ⊢
    by_cases hzero : v / PGSIZE = 0
    · rw [if_pos hzero]
      exact .inl ⟨hzero, rfl⟩
    · rw [if_neg hzero] at hv
      exact absurd (Nat.zero_and _) hv

lemma twoPages_distinct (hne : PTE2PA e0 / PGSIZE ≠ PTE2PA e1 / PGSIZE) (hv : Readable (twoPages e0 e1) 1 v)
    (hw : Readable (twoPages e0 e1) 1 w) (ht : (twoPages e0 e1).target 1 v = (twoPages e0 e1).target 1 w) :
    v / PGSIZE = w / PGSIZE := by
  rcases twoPages_readable h₀ h₁ hv with ⟨hv0, hv1⟩ | ⟨hv0, hv1⟩
  · rcases twoPages_readable h₀ h₁ hw with ⟨hw0, hw1⟩ | ⟨hw0, hw1⟩
    · rw [hv0, hw0]
    · rw [hv1, hw1] at ht
      exact absurd ht hne
  · rcases twoPages_readable h₀ h₁ hw with ⟨hw0, hw1⟩ | ⟨hw0, hw1⟩
    · rw [hv1, hw1] at ht
      exact absurd ht.symm hne
    · rw [hv0, hw0]

lemma twoPages_nonZero (ht0 : PTE2PA e0 / PGSIZE ≠ 0) (ht1 : PTE2PA e1 / PGSIZE ≠ 0) : NonZero (twoPages e0 e1) 1 := by
  intro v hv
  rcases twoPages_readable h₀ h₁ hv with ⟨-, h⟩ | ⟨-, h⟩
  · rw [h]
    exact ht0
  · rw [h]
    exact ht1

end

lemma twoPages_private : Private userPages 1 where
  distinct _ _ hv hw ht := twoPages_distinct (by decide) (by decide) (by decide) hv hw ht
  outside v hv hc := by
    have hle := twoPages_isTable (by decide) (by decide) hc
    rcases twoPages_readable (by decide) (by decide) hv with ⟨-, ht⟩ | ⟨-, ht⟩
    · rw [ht] at hle
      exact absurd hle (by decide)
    · rw [ht] at hle
      exact absurd hle (by decide)

theorem copyout_copyin_twoPages : ∃ r bs, copyin (1 * PGSIZE) 4090 10 userPages = .ok ((r, bs), userPages) := by
  obtain ⟨-, r, bs, hrun, -⟩ := copyout_copyin twoPages_private
    (twoPages_nonZero (by decide) (by decide) (by decide) (by decide)) (show 4090 < 2 ^ 64 by decide) 10 fun _ => 7
  exact ⟨r, bs, hrun⟩

/-- A user page that is a page of the table: `copyout` clears the PTE of the second page on its way there, and
fails although the user may write all of the range. -/
theorem copyout_through_table :
    ∃ m : Mem, NonZero m 1 ∧ (∀ v w, Readable m 1 v → Readable m 1 w → m.target 1 v = m.target 1 w → v / PGSIZE = w / PGSIZE) ∧
      (∀ k, k < 4089 → Writable m 1 (8 + k)) ∧ ∃ m', copyout (1 * PGSIZE) 8 (fun _ => 0) 4089 m = .ok (-1, m') := by
  refine ⟨twoPages (userPte 3) (userPte 4), twoPages_nonZero (by decide) (by decide) (by decide) (by decide),
    fun v w hv hw ht => twoPages_distinct (by decide) (by decide) (by decide) hv hw ht, fun k hk => ?_, ?_⟩
  · have hfirst : Writable (twoPages (userPte 3) (userPte 4)) 1 8 := by decide +kernel
    have hsecond : Writable (twoPages (userPte 3) (userPte 4)) 1 (8 + 4088) := by decide +kernel
    by_cases hlast : k = 4088
    · rw [hlast]
      exact hsecond
    · exact writable_same (by rw [PGSIZE_eq]; omega) hfirst
  · have hrun : (match copyout (1 * PGSIZE) 8 (fun _ => 0) 4089 (twoPages (userPte 3) (userPte 4)) with
        | .ok (r, _) => decide (r = -1)
        | .error _ => false) = true := by decide +kernel
    revert hrun
    cases copyout (1 * PGSIZE) 8 (fun _ => 0) 4089 (twoPages (userPte 3) (userPte 4)) with
    | ok x =>
      intro hrun
      exact ⟨x.2, by rw [← of_decide_eq_true hrun]⟩
    | error e =>
      intro hrun
      cases hrun

/-- The string goes over from the first page to the second. -/
theorem copyinstr_exact_twoPages : copyinstr (1 * PGSIZE) 4090 10 userPages =
    .ok ((0, [7, 7, 7, 7, 7, 7, 0]), userPages) := by
  have hstr : StringAt userPages 1 4090 6 := by
    constructor <;> decide +kernel
  obtain ⟨r, bs, hrun, -, -, hr, hbs⟩ := copyinstr_exact
    (twoPages_nonZero (by decide) (by decide) (by decide) (by decide) : NonZero userPages 1) 4090 10
  have hlist := (hbs 6 (by decide) hstr).1.trans (show _ = [7, 7, 7, 7, 7, 7, 0] by decide +kernel)
  rw [hrun, hr.mpr ⟨6, by decide, hstr⟩, hlist]

end Xv6.Vm
