import Xv6.Fs.Tree

/-!
# Lookups in the tree

`Tree.lookup` is the map from names that a directory is, and `Tree.resolve` looks up the pieces of a path in turn.
-/

namespace Xv6.Fs

open Lib Log List

/-! ### The pieces of a path -/

/-- The maximal non-empty pieces of a path without a slash. -/
def words (path : Name) : List Name := (path.splitOn 47).filter (· ≠ [])

/-- The pieces, cut to the length of a name. -/
def pieces (path : Name) : List Name := (words path).map (·.take DIRSIZ)

lemma words_nil : words [] = [] := rfl

lemma words_append (xs t : Name) : words (xs ++ 47 :: t) = words xs ++ words t := by
  unfold words List.splitOn
  rw [splitOnP_append_cons xs t (by decide), filter_append]

lemma words_slash (t : Name) : words (47 :: t) = words t := words_append [] t

lemma words_dropWhile (path : Name) : words (path.dropWhile (· = 47)) = words path := by
  induction path with
  | nil => rfl
  | cons c path ih =>
    by_cases hc : c = 47
    · subst hc
      rw [dropWhile_cons_of_pos (by decide), ih, words_slash]
    · rw [dropWhile_cons_of_neg (by simpa using hc)]

variable {w name : Name} {T : Tree} {i : ℕ}

lemma words_word (hw : w ≠ []) (hslash : ∀ c ∈ w, c ≠ 47) : words w = [w] := by
  unfold words List.splitOn
  rw [splitOnP_eq_singleton fun c hc => by simpa using hslash c hc]
  simp [hw]

lemma words_first (hw : w ≠ []) (hslash : ∀ c ∈ w, c ≠ 47) (hr : r.head? = none ∨ r.head? = some 47) :
    words (w ++ r) = w :: words r := by
  cases r with
  | nil => rw [append_nil, words_word hw hslash, words_nil]
  | cons c r =>
    have hc : c = 47 := by simpa using hr
    rw [hc, words_append, words_word hw hslash, words_slash]
    rfl

/-- **The elements that `skipelem` takes** are the pieces of the path. -/
lemma elements_eq_pieces {fuel : ℕ} {path : Name} (hfuel : path.length ≤ fuel) : elements fuel path = pieces path := by
  induction fuel generalizing path with
  | zero =>
    rw [length_eq_zero_iff.mp (Nat.le_zero.mp hfuel)]
    rfl
  | succ fuel ih =>
    have hdrop := words_dropWhile path
    have hlen : (path.dropWhile (· = 47)).length ≤ path.length := (dropWhile_sublist _).length_le
    have hhead : (path.dropWhile (· = 47)).head? ≠ some 47 := by
      intro hc
      have := head?_dropWhile_not (fun c : ℕ => decide (c = 47)) path
      rw [hc] at this
      exact absurd this (by decide)
    rw [elements, skipelem]
    generalize path.dropWhile (· = 47) = p at hdrop hlen hhead
    cases p with
    | nil =>
      rw [pieces, ← hdrop]
      rfl
    | cons c p =>
      have hc : c ≠ 47 := by simpa using hhead
      have hsplit : ((c :: p).takeWhile (· ≠ 47)) ++ ((c :: p).dropWhile (· ≠ 47)) = c :: p :=
        takeWhile_append_dropWhile
      have hw : (c :: p).takeWhile (· ≠ 47) = c :: p.takeWhile (· ≠ 47) := takeWhile_cons_of_pos (by simpa using hc)
      have hslash : ∀ x ∈ (c :: p).takeWhile (· ≠ 47), x ≠ 47 := by
        intro x hx
        simpa using mem_takeWhile_imp hx
      have hr : ((c :: p).dropWhile (· ≠ 47)).head? = none ∨ ((c :: p).dropWhile (· ≠ 47)).head? = some 47 := by
        cases hd : ((c :: p).dropWhile (· ≠ 47)).head? with
        | none => exact Or.inl rfl
        | some x =>
          have := head?_dropWhile_not (fun c : ℕ => decide (c ≠ 47)) (c :: p)
          rw [hd] at this
          exact Or.inr (by simpa using this)
      have hrest : (((c :: p).dropWhile (· ≠ 47)).dropWhile (· = 47)).length ≤ fuel := by
        have h1 : (((c :: p).dropWhile (· ≠ 47)).dropWhile (· = 47)).length ≤ ((c :: p).dropWhile (· ≠ 47)).length :=
          (dropWhile_sublist _).length_le
        have h2 := congrArg List.length hsplit
        rw [length_append, hw, length_cons] at h2
        omega
      rw [if_neg (cons_ne_nil _ _)]
      simp only
      rw [ih hrest, pieces, pieces, words_dropWhile, ← hdrop, ← hsplit, words_first (by rw [hw]; simp) hslash hr,
        map_cons, hsplit]

/-! ### Lookups in the tree -/

namespace Tree

def Absent (T : Tree) (i : ℕ) (name : Name) : Prop := ∀ k, (T.ent i k).1 = 0 ∨ (T.ent i k).2 ≠ name

def Live (T : Tree) (i : ℕ) (name : Name) (k : ℕ) : Prop := (T.ent i k).1 ≠ 0 ∧ (T.ent i k).2 = name

instance (T : Tree) (i : ℕ) (name : Name) : DecidablePred (T.Live i name) :=
  fun k => inferInstanceAs (Decidable ((T.ent i k).1 ≠ 0 ∧ (T.ent i k).2 = name))

open Classical in
/-- The inode that the first live entry with the name refers to. -/
noncomputable def lookup (T : Tree) (i : ℕ) (name : Name) : Option ℕ :=
  if h : ∃ k, T.Live i name k then some (T.ent i (Nat.find h)).1 else none

lemma lookup_of_absent (h : T.Absent i name) : T.lookup i name = none := by
  apply dif_neg
  rintro ⟨k, hlive, hname⟩
  rcases h k with h0 | hne
  · exact hlive h0
  · exact hne hname

lemma absent_of_lookup (h : T.lookup i name = none) : T.Absent i name := by
  intro k
  by_contra hlive
  push Not at hlive
  have hex : ∃ k, T.Live i name k := ⟨k, hlive⟩
  rw [lookup, dif_pos hex] at h
  cases h

lemma lookup_of_first (hj : j ≠ 0) (hent : T.ent i k = (j, name))
    (hfirst : ∀ k' < k, (T.ent i k').1 = 0 ∨ (T.ent i k').2 ≠ name) : T.lookup i name = some j := by
  have hlive : T.Live i name k := by
    unfold Live
    rw [hent]
    exact ⟨hj, rfl⟩
  have hk : ∀ k', T.Live i name k' → k ≤ k' := by
    intro k' hlive'
    by_contra hlt
    rcases hfirst k' (Nat.lt_of_not_le hlt) with h0 | hne
    · exact hlive'.1 h0
    · exact hne hlive'.2
  have hex : ∃ k, T.Live i name k := ⟨k, hlive⟩
  rw [lookup, dif_pos hex]
  have hfind : Nat.find hex = k :=
    Nat.le_antisymm (Nat.find_min' hex hlive) (hk _ (Nat.find_spec hex))
  rw [hfind, hent]

/-- **Component-wise lookup** from inode `i` on. -/
noncomputable def resolve (T : Tree) : ℕ → List Name → Option ℕ
  | i, [] => some i
  | i, name :: rest => if T.type i = T_DIR then (T.lookup i name).bind fun j => T.resolve j rest else none

/-- The same up to the last piece, which is the name in the directory found. -/
noncomputable def resolveParent (T : Tree) (i : ℕ) (names : List Name) : Option (ℕ × Name) :=
  names.getLast?.bind fun name => (T.resolve i names.dropLast).bind fun d =>
    if T.type d = T_DIR then some (d, name) else none

/-- What the loop of `namex` computes. -/
noncomputable def walkTo (T : Tree) (parent : Bool) : ℕ → List Name → Option (ℕ × Name)
  | i, [] => if parent then none else some (i, [])
  | i, name :: rest =>
    if T.type i = T_DIR then
      if parent ∧ rest = [] then some (i, name) else (T.lookup i name).bind fun j => T.walkTo parent j rest
    else none

lemma walkTo_false (T : Tree) (i : ℕ) (names : List Name) :
    T.walkTo false i names = (T.resolve i names).map fun j => (j, []) := by
  induction names generalizing i with
  | nil => rfl
  | cons name rest ih =>
    rw [walkTo, resolve]
    by_cases hdir : T.type i = T_DIR
    · rw [if_pos hdir, if_pos hdir, if_neg (fun hc => absurd hc.1 (by decide))]
      cases T.lookup i name with
      | none => rfl
      | some j => exact ih j
    · rw [if_neg hdir, if_neg hdir]
      rfl

lemma walkTo_true (T : Tree) (i : ℕ) (names : List Name) : T.walkTo true i names = T.resolveParent i names := by
  induction names generalizing i with
  | nil => rfl
  | cons name rest ih =>
    rw [walkTo]
    cases rest with
    | nil =>
      rw [if_pos (And.intro rfl rfl)]
      rfl
    | cons name' rest =>
      have hlast : (name :: name' :: rest).getLast? = (name' :: rest).getLast? := rfl
      have hdrop : (name :: name' :: rest).dropLast = name :: (name' :: rest).dropLast := rfl
      rw [resolveParent, hlast, hdrop, resolve]
      by_cases hdir : T.type i = T_DIR
      · rw [if_pos hdir, if_pos hdir, if_neg (fun hc => cons_ne_nil _ _ hc.2)]
        cases T.lookup i name with
        | none => simp
        | some j => exact ih j
      · rw [if_neg hdir, if_neg hdir]
        simp

lemma resolve_of_walkTo {names : List Name} (h : T.walkTo true i names = some (d, name)) :
    T.resolve i names = T.lookup d name := by
  induction names generalizing i with
  | nil => cases h
  | cons first rest ih =>
    rw [walkTo] at h
    rw [resolve]
    by_cases hdir : T.type i = T_DIR
    · rw [if_pos hdir] at h ⊢
      by_cases hrest : rest = []
      · rw [if_pos ⟨rfl, hrest⟩] at h
        cases h
        rw [hrest]
        exact Option.bind_fun_some _
      · rw [if_neg fun hc => hrest hc.2] at h
        obtain ⟨j, hj, hnext⟩ := Option.bind_eq_some_iff.mp h
        rw [hj, Option.bind_some, ih hnext]
    · rw [if_neg hdir] at h
      cases h

end Tree

end Xv6.Fs
