import Xv6.Vm.Model
import Xv6.Lib.Radix

/-!
# Page tables as radix trees

The pages of a page table are the nodes of a radix tree of three levels, and its words are PTEs.  `Mem.pte` is
the PTE that `walk` finds; it is 0 where there is none.
-/

namespace Xv6.Vm

open Lib Radix Function

/-! ### PTEs -/

/-- The page that a valid PTE refers to. -/
def next (pte : ℕ) : Option ℕ := if pte &&& PTE_V ≠ 0 then some (PTE2PA pte / PGSIZE) else none

lemma and_V (v : ℕ) : v &&& PTE_V = v % 2 := Nat.and_one_is_mod v

lemma next_zero : next 0 = none := rfl

lemma PTE2PA_mul (v : ℕ) : PTE2PA v / PGSIZE * PGSIZE = PTE2PA v := by
  rw [PGSIZE_eq, PTE2PA]
  omega

variable {pa a v va w : ℕ} {ok : Panic → Prop}

lemma PTE2PA_or (hpa : pa < 2 ^ 56) (hal : pa % PGSIZE = 0) (hf : f < 2 ^ 10) :
    PTE2PA (PA2PTE pa ||| f) = pa := by
  have hlt : PA2PTE pa = 2 ^ 10 * (pa / 2 ^ 12) := by
    rw [PA2PTE]
    omega
  have hor := Nat.two_pow_add_eq_or_of_lt hf (pa / 2 ^ 12)
  rw [PGSIZE_eq] at hal
  rw [hlt, ← hor, PTE2PA]
  omega

lemma PA2PTE_lt (pa : ℕ) : PA2PTE pa < 2 ^ 64 := Nat.mod_lt _ (Nat.two_pow_pos 64)

lemma PA2PTE_add (hal : pa % PGSIZE = 0) (hx : x < PGSIZE) : PA2PTE (pa + x) = PA2PTE pa := by
  rw [PGSIZE_eq] at hal hx
  have : (pa + x) / 2 ^ 12 = pa / 2 ^ 12 := by omega
  rw [PA2PTE, PA2PTE, this]

lemma or_V_odd (v : ℕ) : (v ||| PTE_V) &&& PTE_V ≠ 0 := by
  have h : (v ||| PTE_V).testBit 0 = true := by
    rw [Nat.testBit_or]
    simp
  rw [and_V]
  rw [Nat.testBit_zero] at h
  have := of_decide_eq_true h
  omega

lemma mul_page_lt (ht : t < 2 ^ 44) : t * PGSIZE < 2 ^ 56 := by
  rw [PGSIZE_eq]
  omega

lemma next_table (ht : t < 2 ^ 44) : next (PA2PTE (t * PGSIZE) ||| PTE_V) = some t := by
  rw [next, if_pos (or_V_odd _), PTE2PA_or (mul_page_lt ht) (Nat.mul_mod_left _ _) (by decide),
    Nat.mul_div_cancel _ (by decide)]

lemma page_iff (hal : a % PGSIZE = 0) : v / PGSIZE = a / PGSIZE ↔ a ≤ v ∧ v < a + PGSIZE := by
  rw [PGSIZE_eq] at hal ⊢
  omega

lemma add_one_page (k : ℕ) : (k + 1) * PGSIZE = k * PGSIZE + PGSIZE := Nat.succ_mul k PGSIZE

/-! ### Words of pages -/

namespace Mem

variable {m : Mem} {t i : ℕ}

lemma word_store (m : Mem) (t : ℕ) (hi : i < 512) (hv : v < 2 ^ 64) :
    (m.setPage t ((m.page t).putLe (8 * i) 8 v)).word = Radix.set m.word t i v := by
  have hP : PGSIZE = 4096 := rfl
  funext u j
  by_cases hu : u = t
  · subst hu
    by_cases hj : j = i
    · subst hj
      rw [set_self, word, setPage]
      simp only [update_self]
      exact Bytes.le_putLe_of_lt _ (by omega) hv
    · rw [set_of_ne _ _ _ _ (Or.inr hj), word, setPage]
      simp only [update_self]
      exact Bytes.le_putLe_of_disjoint _ (by omega)
  · rw [set_of_ne _ _ _ _ (Or.inl hu), word, setPage]
    simp only [update_of_ne hu]
    rfl

lemma word_setPage_of_ne (m : Mem) (x : Page) (h : u ≠ t) : (m.setPage t x).word u = m.word u := by
  funext j
  rw [word, setPage]
  simp only [update_of_ne h]
  rfl

lemma word_fill_zero (m : Mem) (t j : ℕ) : (m.setPage t (Page.fill 0)).word t j = 0 := by
  rw [word, setPage]
  simp only [update_self]
  exact Bytes.le_zero _ _

/-- The page to which a path of indices leads. -/
abbrev table (m : Mem) (root : ℕ) (p : List ℕ) : Option ℕ := node next m.word root p

lemma table_cons (m : Mem) (t i : ℕ) (p : List ℕ) :
    m.table t (i :: p) = (next (m.word t i)).bind fun u => m.table u p := rfl

lemma table_concat (m : Mem) (root : ℕ) (p : List ℕ) (i : ℕ) :
    m.table root (p ++ [i]) = (m.table root p).bind fun t => next (m.word t i) := node_concat p i

/-- Page `t` is one of the page table. -/
def IsTable (m : Mem) (root t : ℕ) : Prop := ∃ p, p.length ≤ 2 ∧ m.table root p = some t

/-- The indices by which `walk` gets to the last level. -/
def path (va : ℕ) : List ℕ := [PX 2 va, PX 1 va]

lemma length_path (va : ℕ) : (path va).length = 2 := rfl

/-- The PTE of `va`; 0 where there is none. -/
def pte (m : Mem) (root va : ℕ) : ℕ := ((m.table root (path va)).map fun t => m.word t (PX 0 va)).getD 0

/-- The page table has three levels, and no page of it is used twice. -/
def WellFormed (m : Mem) (root : ℕ) : Prop := Unshared next m.word root 2

end Mem

lemma PX_lt (level va : ℕ) : PX level va < 512 := Nat.mod_lt _ (by decide)

lemma load_word (hi : i < 512) : wp (load (t * PGSIZE + 8 * i)) ok Q m ↔ Q (m.word t i) m := by
  have hP : PGSIZE = 4096 := rfl
  have h1 : (t * PGSIZE + 8 * i) / PGSIZE = t := by
    rw [hP]
    omega
  have h2 : (t * PGSIZE + 8 * i) % PGSIZE = 8 * i := by
    rw [hP]
    omega
  simp only [load, wp_bind, wp_read, wp_pure, h1, h2]
  rfl

lemma store_word (hi : i < 512) :
    wp (store (t * PGSIZE + 8 * i) v) ok Q m ↔ Q () (m.setPage t ((m.page t).putLe (8 * i) 8 v)) := by
  have hP : PGSIZE = 4096 := rfl
  have h1 : (t * PGSIZE + 8 * i) / PGSIZE = t := by
    rw [hP]
    omega
  have h2 : (t * PGSIZE + 8 * i) % PGSIZE = 8 * i := by
    rw [hP]
    omega
  simp only [store, wp_modify, h1, h2]

/-! ### `walk` without allocation -/

/-- The indices of the levels below `level`. -/
def pathFrom (va : ℕ) : ℕ → List ℕ
  | 0 => []
  | level + 1 => PX (level + 1) va :: pathFrom va level

lemma walkFrom_false (m : Mem) (va level t : ℕ) : wp (walkFrom va false level (t * PGSIZE)) ok (fun r m' => m' = m ∧
      r = (m.table t (pathFrom va level)).map fun u => u * PGSIZE + 8 * PX 0 va) m := by
  induction level generalizing t with
  | zero => exact ⟨rfl, rfl⟩
  | succ level ih =>
    simp only [walkFrom, wp_bind]
    rw [load_word (PX_lt _ _)]
    refine wp_ite.mpr ⟨fun hv => ?_, fun hv => ?_⟩
    · rw [← PTE2PA_mul]
      refine (ih _).mono ?_
      rintro r m' ⟨rfl, rfl⟩
      refine ⟨rfl, ?_⟩
      rw [pathFrom, Mem.table_cons, next, if_pos hv, Option.bind_some]
    · refine ⟨rfl, ?_⟩
      rw [pathFrom, Mem.table_cons, next, if_neg hv]
      rfl

lemma walk_false (m : Mem) (hva : va < MAXVA) (root : ℕ) :
    wp (walk (root * PGSIZE) va false) ok (fun r m' => m' = m ∧
      r = (m.table root (Mem.path va)).map fun t => t * PGSIZE + 8 * PX 0 va) m := by
  rw [walk, if_neg (Nat.not_le.mpr hva)]
  exact walkFrom_false m va 2 root

/-- The PTE that `walk` leads to; 0 if it leads to none. -/
def walked (pagetable va : ℕ) : M ℕ := do
  match ← walk pagetable va false with
  | none => pure 0
  | some pte => load pte

lemma walked_eq (m : Mem) (hva : va < MAXVA) (root : ℕ) : walked (root * PGSIZE) va m = .ok (m.pte root va, m) := by
  have hspec : wp (walked (root * PGSIZE) va) (fun _ => False) (fun r m' => r = m.pte root va ∧ m' = m) m := by
    rw [walked, wp_bind]
    refine (walk_false m hva root).mono ?_
    rintro r m' ⟨rfl, rfl⟩
    unfold Mem.pte
    cases m'.table root (Mem.path va) with
    | none => exact ⟨rfl, rfl⟩
    | some t =>
      rw [Option.map_some]
      exact (load_word (PX_lt _ _)).mpr ⟨rfl, rfl⟩
  obtain ⟨r, m', hrun, rfl, rfl⟩ := hspec.returns
  exact hrun

lemma PX_eq (level va : ℕ) : PX level va = va / PGSIZE / 512 ^ level % 512 := by
  rw [PX, pow_add, pow_mul, ← Nat.div_div_eq_div_mul]
  norm_num

lemma page_of_indices (hv : v < MAXVA) (hw : w < MAXVA) (hpath : Mem.path v = Mem.path w) (h0 : PX 0 v = PX 0 w) :
    v / PGSIZE = w / PGSIZE := by
  have hv' : v / PGSIZE < 67108864 := Nat.div_lt_of_lt_mul (by rw [PGSIZE_eq]; rwa [MAXVA_eq] at hv)
  have hw' : w / PGSIZE < 67108864 := Nat.div_lt_of_lt_mul (by rw [PGSIZE_eq]; rwa [MAXVA_eq] at hw)
  simp only [Mem.path, List.cons.injEq, and_true, PX_eq] at hpath h0
  obtain ⟨h2, h1⟩ := hpath
  generalize v / PGSIZE = x at *
  generalize w / PGSIZE = y at *
  norm_num at h0 h1 h2
  omega

lemma indices_of_page (h : v / PGSIZE = w / PGSIZE) : Mem.path v = Mem.path w ∧ PX 0 v = PX 0 w := by
  simp only [Mem.path, PX_eq, h, and_self]

lemma pte_of_page (m : Mem) (root : ℕ) (h : v / PGSIZE = w / PGSIZE) : m.pte root v = m.pte root w := by
  obtain ⟨h1, h2⟩ := indices_of_page h
  unfold Mem.pte
  rw [h1, h2]

/-- **No two pages share a PTE.** -/
lemma slot_injective {root : ℕ} (h : m.WellFormed root) (hv : v < MAXVA) (hw : w < MAXVA)
    (h1 : walk (root * PGSIZE) v false m = .ok (some a, m)) (h2 : walk (root * PGSIZE) w false m = .ok (some a, m)) :
    v / PGSIZE = w / PGSIZE := by
  have hP : PGSIZE = 4096 := rfl
  have hwalk : ∀ x, x < MAXVA → wp (walk (root * PGSIZE) x false) (fun _ => True) _ m :=
    fun x hx => walk_false m hx root
  have e1 := ((hwalk v hv).of_ok h1).2
  have e2 := ((hwalk w hw).of_ok h2).2
  obtain ⟨t, ht, hta⟩ := Option.map_eq_some_iff.mp e1.symm
  obtain ⟨u, hu, hua⟩ := Option.map_eq_some_iff.mp e2.symm
  have p1 := PX_lt 0 v
  have p2 := PX_lt 0 w
  have htu : t = u ∧ PX 0 v = PX 0 w := by
    rw [hP] at hta hua
    omega
  obtain ⟨rfl, h0⟩ := htu
  exact page_of_indices hv hw (h _ _ t (Nat.le_refl 2) (Nat.le_refl 2) ht hu) h0

lemma word_only (hk : k < 512) (hw : w < 2 ^ 64) (i : ℕ) :
    ((Bytes.zero PGSIZE).putLe (8 * k) 8 w).le (8 * i) 8 = if i = k then w else 0 := by
  split
  · rename_i hi
    subst hi
    exact Bytes.le_putLe_of_lt _ (by rw [PGSIZE_eq]; omega) hw
  · rename_i hi
    rw [Bytes.le_putLe_of_disjoint _ (by omega), Bytes.le_zero]

end Xv6.Vm
