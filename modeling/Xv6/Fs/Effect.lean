import Xv6.Fs.Dir

/-!
# What system calls do to the tree

`Effect T T'` lists the changes that a call can make to the tree, each with what the code has checked
before.  It ends with dropping references, which may free inodes (`Frees`).  A call makes at most one such
change, followed by changes of references (`Effects`).
-/

namespace Xv6.Fs

open Lib Log Function

namespace Tree

@[simps -fullyApplied]
def withHeld (T : Tree) (H : ℕ → Prop) : Tree := { T with held := H }

/-- Entry `k` is the first empty place of directory `d`, in which `name` does not occur. -/
structure Vacant (T : Tree) (d k : ℕ) (name : Name) : Prop where
  dir : T.type d = T_DIR
  absent : T.Absent d name
  empty : (T.ent d k).1 = 0
  first : ∀ k' < k, (T.ent d k').1 ≠ 0

/-- A new inode `i` that is not a directory, with its entry in `d`. -/
def mknod (T : Tree) (d k i : ℕ) (name : Name) (t : ℕ) : Tree :=
  ((T.alloc i t).setNlink i 1).setEnt d k (i, name)

/-- A new directory `i` before it has an entry in `d`. -/
def newDir (T : Tree) (d i : ℕ) : Tree :=
  (((T.alloc i T_DIR).setNlink i 1).setEnt i 0 (i, dot)).setEnt i 1 (d, dotdot)

/-- A new directory `i` in `d`. -/
def mkdir (T : Tree) (d k i : ℕ) (name : Name) : Tree :=
  ((T.newDir d i).setEnt d k (i, name)).setNlink d ((T.nlink d + 1) % 2 ^ 16)

def incNlink (T : Tree) (i : ℕ) : Tree := T.setNlink i ((T.nlink i + 1) % 2 ^ 16)

def decNlink (T : Tree) (i : ℕ) : Tree := T.setNlink i ((T.nlink i + (2 ^ 16 - 1)) % 2 ^ 16)

/-- What `unlink` has checked of entry `k` of directory `d`, which names `i`. -/
structure Removable (T : Tree) (d k i : ℕ) (name : Name) : Prop where
  dir : T.type d = T_DIR
  entry : T.ent d k = (i, name)
  ne_zero : i ≠ 0
  ne : d ≠ i
  ne_dot : name ≠ dot
  ne_dotdot : name ≠ dotdot
  links : 0 < T.nlink i
  alloc : T.type i ≠ 0

inductive Effect : Tree → Tree → Prop
  /-- References to allocated inodes are taken, and references are given back. -/
  | hold (H : ℕ → Prop) (hH : ∀ i, H i → T.held i ∨ T.type i ≠ 0) (h : (T.withHeld H).Frees T') : Effect T T'
  | mknod (hv : T.Vacant d k name) (hname : GoodName name)
      (hi : i ≠ 0) (hfree : T.type i = 0) (ht : t ≠ 0) (hdir : t ≠ T_DIR)
      (h : (T.mknod d k i name t).Frees T') : Effect T T'
  | mkdir (hv : T.Vacant d k name) (hname : GoodName name)
      (hi : i ≠ 0) (hfree : T.type i = 0) (h : (T.mkdir d k i name).Frees T') : Effect T T'
  | link (hi : i ≠ 0) (ha : T.type i ≠ 0)
      (hdir : T.type i ≠ T_DIR) (h₁ : (T.incNlink i).Frees T₁) (hv : T₁.Vacant d k name)
      (hname : GoodName name) (h : (T₁.setEnt d k (i, name)).Frees T') : Effect T T'
  | linkFail (ha : T.type i ≠ 0) (h₁ : (T.incNlink i).Frees T₁) (h : (T₁.decNlink i).Frees T') : Effect T T'
  | unlink (hr : T.Removable d k i name) (hdir : T.type i ≠ T_DIR) (h₁ : (T.setEnt d k (0, [])).Frees T₁)
      (h : (T₁.decNlink i).Frees T') : Effect T T'
  | rmdir (hr : T.Removable d k i name) (hdir : T.type i = T_DIR) (hempty : ∀ k', 2 ≤ k' → (T.ent i k').1 = 0)
      (h₁ : ((T.setEnt d k (0, [])).decNlink d).Frees T₁) (h : (T₁.decNlink i).Frees T') : Effect T T'

/-- References to allocated inodes are taken, and references are given back. -/
def Hold (T T' : Tree) : Prop := ∃ H : ℕ → Prop, (∀ i, H i → T.held i ∨ T.type i ≠ 0) ∧ (T.withHeld H).Frees T'

/-- The effects of a call that changes nothing but references. -/
def Rests : Tree → Tree → Prop := Relation.ReflTransGen fun T T' => Hold T T' ∧ T'.ZeroHeld

/-- The effects of a call: one change at most, and then changes of references. -/
def Effects (T T' : Tree) : Prop := ∃ T₁, (T₁ = T ∨ Effect T T₁ ∧ T₁.ZeroHeld) ∧ Rests T₁ T'

variable {T T' : Tree} {i : ℕ}

lemma Rests.single (hH : ∀ i, H i → T.held i ∨ T.type i ≠ 0) (h : (T.withHeld H).Frees T') (hz : T'.ZeroHeld) :
    Rests T T' :=
  Relation.ReflTransGen.single ⟨⟨H, hH, h⟩, hz⟩

lemma Rests.effects (h : Rests T T') : Effects T T' := ⟨T, .inl rfl, h⟩

lemma Effects.of_eq (h : T' = T) : Effects T T' := Rests.effects (h ▸ .refl)

lemma Effects.single (h : Effect T T') (hz : T'.ZeroHeld) : Effects T T' :=
  ⟨T', .inr ⟨h, hz⟩, .refl⟩

lemma Effects.rests (h : Effects T T1) (h' : Rests T1 T') : Effects T T' := by
  obtain ⟨T0, h0, h1⟩ := h
  exact ⟨T0, h0, Relation.ReflTransGen.trans h1 h'⟩

/-! ### Trees in which nothing is left to be freed -/

lemma Frees.held_eq (h : Frees T T') : T'.held = T.held := by
  induction h with
  | refl => rfl
  | step _ i _ _ _ ih => exact ih

lemma Frees.cases (h : Frees T T') (i : ℕ) : (T'.type i = T.type i ∧ T'.nlink i = T.nlink i ∧ T'.ent i = T.ent i) ∨
      (T.nlink i = 0 ∧ ¬ T.held i ∧ T.type i ≠ 0 ∧ T'.type i = 0 ∧ T'.nlink i = 0 ∧ T'.ent i = fun _ => (0, [])) := by
  induction h with
  | refl => exact .inl ⟨rfl, rfl, rfl⟩
  | step h j ha hn hh ih =>
    by_cases hj : i = j
    · subst hj
      rw [free_type, free_nlink, free_ent, update_self, update_self, update_self]
      rw [h.held_eq] at hh
      rcases ih with ⟨h1, h2, -⟩ | ⟨-, -, -, h0, -⟩
      · rw [h1] at ha
        rw [h2] at hn
        exact .inr ⟨hn, hh, ha, rfl, rfl, rfl⟩
      · exact absurd h0 ha
    · rw [free_type, free_nlink, free_ent, update_of_ne hj, update_of_ne hj, update_of_ne hj]
      exact ih

lemma Frees.of_held (h : Frees T T') (hi : T.held i) :
    T'.type i = T.type i ∧ T'.nlink i = T.nlink i ∧ T'.ent i = T.ent i :=
  (h.cases i).resolve_right fun hc => hc.2.1 hi

lemma Frees.of_nlink (h : Frees T T') (hi : T.nlink i ≠ 0) :
    T'.type i = T.type i ∧ T'.nlink i = T.nlink i ∧ T'.ent i = T.ent i :=
  (h.cases i).resolve_right fun hc => hi hc.1

lemma Rests.frees (h : T.Frees T') (hz : T'.ZeroHeld) : Rests T T' :=
  Rests.single (H := T.held) (fun _ hi => .inl hi) h hz

lemma Effects.frees (h : T.Frees T') (hz : T'.ZeroHeld) : Effects T T' :=
  (Rests.frees h hz).effects

/-! ### An inode that is allocated and freed again -/

@[simp]
lemma setEnt_free (T : Tree) (i k : ℕ) (x : ℕ × Name) : (T.setEnt i k x).free i = T.free i := by
  ext1 <;> simp

@[simp]
lemma setNlink_free (T : Tree) (i n : ℕ) : (T.setNlink i n).free i = T.free i := by ext1 <;> simp

lemma alloc_free (ht : T.type i = 0) (hn : T.nlink i = 0) (he : T.ent i = fun _ => (0, [])) :
    (T.alloc i t).free i = T := by
  ext1
  · rw [free_type, alloc_type, update_idem, ← ht, update_eq_self]
  · rw [free_nlink, alloc_nlink, update_idem, ← hn, update_eq_self]
  · rw [free_ent, alloc_ent, update_idem, ← he, update_eq_self]
  · rfl

lemma ZeroHeld.alloc (h : T.ZeroHeld) (i t : ℕ) : ((T.alloc i t).setNlink i 1).ZeroHeld := by
  intro j ha h0
  rw [setNlink_nlink, alloc_nlink] at h0
  rw [setNlink_type, alloc_type] at ha
  by_cases hj : j = i
  · subst hj
    rw [update_self] at h0
    exact absurd h0 Nat.one_ne_zero
  · rw [update_of_ne hj] at ha
    rw [update_of_ne hj, update_of_ne hj] at h0
    exact h j ha h0

/-- **A new inode that is given up.**  `U` is `T` but for inode `i`, which `T` has free and `U` has
without links; when nothing is left to be freed, the tree is `T` again. -/
lemma Frees.undo {U : Tree} (hz : T.ZeroHeld) (hU : U.free i = T) (ha : U.type i ≠ 0) (hn : U.nlink i = 0)
    (hh : ¬ U.held i) (h : U.Frees T') (hz' : T'.ZeroHeld) : T' = T := by
  have hcases : T' = U ∨ T' = T := by
    clear hz'
    induction h with
    | refl => exact .inl rfl
    | step _ j haj hnj hhj ih =>
      rcases ih with rfl | rfl
      · by_cases hj : j = i
        · subst hj
          exact .inr hU
        · -- `j` is as in `T`, where it would have been held
          refine absurd (hz j ?_ ?_) ?_
          · rw [← hU, free_type, update_of_ne hj]
            exact haj
          · rw [← hU, free_nlink, update_of_ne hj]
            exact hnj
          · rw [← hU]
            exact hhj
      · exact absurd (hz j haj hnj) hhj
  rcases hcases with rfl | rfl
  · exact absurd (hz' i ha hn) hh
  · rfl

/-! ### What is held stays allocated -/

lemma Frees.held_alloc (h : T.Frees T') (hT : ∀ i, T.held i → T.type i ≠ 0) (i : ℕ) (hi : T'.held i) : T'.type i ≠ 0 := by
  rw [h.held_eq] at hi
  rw [(h.of_held hi).1]
  exact hT i hi

lemma Hold.held_alloc (h : Hold T T') (hT : ∀ i, T.held i → T.type i ≠ 0) : ∀ i, T'.held i → T'.type i ≠ 0 := by
  obtain ⟨H, hH, hf⟩ := h
  refine hf.held_alloc fun i hi => ?_
  exact (hH i hi).elim (hT i) id

lemma Effect.held_alloc (h : Effect T T') (hT : ∀ i, T.held i → T.type i ≠ 0) : ∀ i, T'.held i → T'.type i ≠ 0 := by
  have hupdate : ∀ {i t : ℕ}, t ≠ 0 → ∀ j, T.held j → update T.type i t j ≠ 0 := by
    intro i t ht j hj
    by_cases hji : j = i
    · rw [hji, update_self]
      exact ht
    · rw [update_of_ne hji]
      exact hT j hj
  cases h with
  | hold H hH hf => exact Hold.held_alloc ⟨H, hH, hf⟩ hT
  | mknod _ _ _ _ ht _ hf => exact hf.held_alloc (hupdate ht)
  | mkdir _ _ _ _ hf => exact hf.held_alloc (hupdate (by decide))
  | link _ _ _ h1 _ _ hf =>
    have hT1 := h1.held_alloc hT
    exact hf.held_alloc hT1
  | linkFail _ h1 hf =>
    have hT1 := h1.held_alloc hT
    exact hf.held_alloc hT1
  | unlink _ _ h1 hf =>
    have hT1 := h1.held_alloc hT
    exact hf.held_alloc hT1
  | rmdir _ _ _ h1 hf =>
    have hT1 := h1.held_alloc hT
    exact hf.held_alloc hT1

lemma Rests.held_alloc (h : Rests T T') (hT : ∀ i, T.held i → T.type i ≠ 0) : ∀ i, T'.held i → T'.type i ≠ 0 := by
  induction h with
  | refl => exact hT
  | tail _ hstep ih => exact hstep.1.held_alloc ih

lemma Effects.held_alloc (h : Effects T T') (hT : ∀ i, T.held i → T.type i ≠ 0) : ∀ i, T'.held i → T'.type i ≠ 0 := by
  obtain ⟨T1, rfl | ⟨h1, -⟩, hrest⟩ := h
  · exact hrest.held_alloc hT
  · exact hrest.held_alloc (h1.held_alloc hT)

end Tree

end Xv6.Fs
