import Xv6.Fs.Paths
import Xv6.Fs.FileData

/-!
# Directories as maps

A directory is a map from names of at most `DIRSIZ` bytes.  The functions of `fs.c` take names as strings that may
be longer, or fill `DIRSIZ` bytes without a zero; `strncmp` and `strncpy` see the same part of them.
-/

namespace Xv6.Fs

open Lib Log Function List

/-! ### Strings -/

/-- The string in the first `n` bytes at `p`. -/
def cstr (n : ℕ) (p : List ℕ) : Name := (p.take n).takeWhile (· ≠ 0)

/-- `strncmp`; beyond the bytes given there are zeros. -/
def strncmp : ℕ → List ℕ → List ℕ → ℤ
  | 0, _, _ => 0
  | n + 1, p, q =>
    if p.headD 0 ≠ 0 ∧ p.headD 0 = q.headD 0 then strncmp n p.tail q.tail else (p.headD 0 : ℤ) - q.headD 0

/-- The bytes that `strncpy` stores. -/
def strncpy : ℕ → List ℕ → List ℕ
  | 0, _ => []
  | n + 1, t => t.headD 0 :: if t.headD 0 = 0 then List.replicate n 0 else strncpy n t.tail

def namecmp (s t : List ℕ) : ℤ := strncmp DIRSIZ s t

lemma cstr_succ (n : ℕ) (p : List ℕ) :
    cstr (n + 1) p = if p.headD 0 = 0 then [] else p.headD 0 :: cstr n p.tail := by
  cases p with
  | nil => rfl
  | cons c p =>
    by_cases hc : c = 0
    · simp [cstr, hc]
    · simp [cstr, hc]

lemma strncmp_eq_zero (n : ℕ) (p q : List ℕ) : strncmp n p q = 0 ↔ cstr n p = cstr n q := by
  induction n generalizing p q with
  | zero =>
    rw [strncmp]
    simp [cstr]
  | succ n ih =>
    rw [strncmp, cstr_succ, cstr_succ]
    by_cases hc : p.headD 0 ≠ 0 ∧ p.headD 0 = q.headD 0
    · rw [if_pos hc, ih, if_neg hc.1, ← hc.2, if_neg hc.1]
      exact ⟨fun h => by rw [h], fun h => (List.cons.inj h).2⟩
    · rw [if_neg hc]
      by_cases hp : p.headD 0 = 0
      · by_cases hq : q.headD 0 = 0
        · rw [if_pos hp, if_pos hq, hp, hq]
          simp
        · rw [if_pos hp, if_neg hq, hp]
          exact iff_of_false (by omega) (cons_ne_nil _ _).symm
      · have hne : p.headD 0 ≠ q.headD 0 := fun h => hc ⟨hp, h⟩
        rw [if_neg hp]
        refine iff_of_false (by omega) fun h => ?_
        split at h
        · exact cons_ne_nil _ _ h
        · exact hne (List.cons.inj h).1

lemma getD_strncpy (n : ℕ) (t : List ℕ) (k : ℕ) : (strncpy n t).getD k 0 = (cstr n t).getD k 0 := by
  induction n generalizing t k with
  | zero => simp [strncpy, cstr]
  | succ n ih =>
    rw [strncpy, cstr_succ]
    by_cases ht : t.headD 0 = 0
    · rw [if_pos ht, if_pos ht, ht]
      cases k with
      | zero => rfl
      | succ k => simp [List.getD]
    · rw [if_neg ht, if_neg ht]
      cases k with
      | zero => rfl
      | succ k => simpa using ih t.tail k

lemma cstr_good {n : ℕ} {p : List ℕ} (hn : n ≤ DIRSIZ) (hp : ∀ c ∈ p, c < 256) : GoodName (cstr n p) := by
  refine ⟨((takeWhile_sublist _).length_le.trans (length_take_le _ _)).trans hn, fun c hc => ?_⟩
  have hne : c ≠ 0 := by simpa using mem_takeWhile_imp hc
  exact ⟨Nat.pos_of_ne_zero hne, hp c (mem_of_mem_take ((takeWhile_sublist _).mem hc))⟩

/-! ### The functions on strings -/

section

variable {P : Type} (sb : Superblock)

/-- `dirlookup` of a string. -/
def dirlookupStr (e : Fin NINODE) (name : List ℕ) : M P (Option (Fin NINODE × ℕ)) := do
  let dp ← inode e
  if dp.d.type ≠ T_DIR then panic .dirlookupNotDir
  else Prog.findM (fun k => do
    let de ← readDirent sb e .dirlookupRead k
    if deInum de = 0 then pure none
    else if namecmp name (de.drop 2) = 0 then do
      let ip ← iget (deInum de)
      pure (some (ip, 16 * k))
    else pure none) (List.range (direntCount dp.d.size))

/-- `dirlink` of a string. -/
def dirlinkStr (e : Fin NINODE) (name : List ℕ) (inum : ℕ) : M P ℤ := do
  match ← dirlookupStr sb e name with
  | some (ip, _) => do
    iput sb ip
    pure (-1)
  | none => do
    let dp ← inode e
    let slot ← Prog.findM (fun k => do
      let de ← readDirent sb e .dirlinkRead k
      if deInum de = 0 then pure (some (16 * k)) else pure none) (List.range (direntCount dp.d.size))
    let w ← writei sb e (dirent (strncpy DIRSIZ name) inum) (slot.getD (16 * direntCount dp.d.size)) 16
    if w ≠ 16 then pure (-1) else pure 0

variable {sb}

lemma dirlookupStr_eq (e : Fin NINODE) (name : List ℕ) :
    (dirlookupStr sb e name : M P _) = dirlookup sb e (cstr DIRSIZ name) := by
  have hname : ∀ de : List ℕ, namecmp name (de.drop 2) = 0 ↔ cstr DIRSIZ name = deName de :=
    fun de => strncmp_eq_zero DIRSIZ name (de.drop 2)
  unfold dirlookupStr dirlookup
  simp only [hname]

lemma dirlinkStr_eq (e : Fin NINODE) (name : List ℕ) (inum : ℕ) :
    (dirlinkStr sb e name inum : M P _) = dirlink sb e (cstr DIRSIZ name) inum := by
  have hbytes : dirent (strncpy DIRSIZ name) inum = dirent (cstr DIRSIZ name) inum := by
    funext k
    unfold dirent
    rw [getD_strncpy]
  unfold dirlinkStr
  rw [dirlookupStr_eq, hbytes]
  rfl

end

/-! ### Lookups after a change -/

namespace Tree

variable {T T' : Tree} {i j k : ℕ} {name : Name}

lemma lookup_cases (T : Tree) (i : ℕ) (name : Name) : (T.Absent i name ∧ T.lookup i name = none) ∨
      ∃ k j, j ≠ 0 ∧ T.ent i k = (j, name) ∧
        (∀ k' < k, (T.ent i k').1 = 0 ∨ (T.ent i k').2 ≠ name) ∧ T.lookup i name = some j := by
  by_cases h : ∃ k, T.Live i name k
  · have hlive := Nat.find_spec h
    have hfirst : ∀ k' < Nat.find h, (T.ent i k').1 = 0 ∨ (T.ent i k').2 ≠ name := by
      intro k' hk'
      by_contra hc
      push Not at hc
      exact Nat.find_min h hk' hc
    have hent : T.ent i (Nat.find h) = ((T.ent i (Nat.find h)).1, name) := Prod.ext rfl hlive.2
    exact .inr ⟨Nat.find h, _, hlive.1, hent, hfirst, lookup_of_first hlive.1 hent hfirst⟩
  · have habsent : T.Absent i name := by
      intro k
      by_contra hc
      push Not at hc
      exact h ⟨k, hc⟩
    exact .inl ⟨habsent, lookup_of_absent habsent⟩

lemma lookup_congr (h : ∀ k, T.Live i name k ∨ T'.Live i name k → T'.ent i k = T.ent i k) :
    T'.lookup i name = T.lookup i name := by
  have hlive : ∀ k, T'.Live i name k → T.Live i name k := by
    intro k hk
    have := h k (.inr hk)
    unfold Live at hk ⊢
    rwa [this] at hk
  rcases T.lookup_cases i name with ⟨habsent, hnone⟩ | ⟨k, j, hj, hent, hfirst, hsome⟩
  · rw [hnone]
    apply lookup_of_absent
    intro k
    by_contra hc
    push Not at hc
    obtain ⟨h1, h2⟩ := hlive k hc
    rcases habsent k with h0 | hne
    · exact h1 h0
    · exact hne h2
  · rw [hsome]
    have hk : T.Live i name k := by
      unfold Live
      rw [hent]
      exact ⟨hj, rfl⟩
    refine lookup_of_first hj ((h k (.inl hk)).trans hent) fun k' hk' => ?_
    by_contra hc
    push Not at hc
    obtain ⟨h1, h2⟩ := hlive k' hc
    rcases hfirst k' hk' with h0 | hne
    · exact h1 h0
    · exact hne h2

lemma ent_setEnt_self (T : Tree) (i k : ℕ) (x : ℕ × Name) : (T.setEnt i k x).ent i k = x := by
  rw [setEnt_ent, update_self, update_self]

lemma ent_setEnt_of_ne (T : Tree) (i : ℕ) {k k' : ℕ} (x : ℕ × Name) (h : k' ≠ k) :
    (T.setEnt i k x).ent i k' = T.ent i k' := by
  rw [setEnt_ent, update_self, update_of_ne h]

/-- **A new entry** in an empty place adds its name to the map. -/
lemma lookup_add (hempty : (T.ent i k).1 = 0) (habsent : T.Absent i name) (hj : j ≠ 0) (name' : Name) :
    (T.setEnt i k (j, name)).lookup i name' = if name' = name then some j else T.lookup i name' := by
  split
  · rename_i hname
    subst hname
    refine lookup_of_first hj (ent_setEnt_self _ _ _ _) fun k' hk' => ?_
    rw [ent_setEnt_of_ne _ _ _ (Nat.ne_of_lt hk')]
    exact habsent k'
  · rename_i hname
    apply lookup_congr
    intro k' hlive
    by_cases hk : k' = k
    · subst hk
      rcases hlive with hlive | hlive
      · exact absurd hempty hlive.1
      · unfold Live at hlive
        rw [ent_setEnt_self] at hlive
        exact absurd hlive.2.symm hname
    · exact ent_setEnt_of_ne _ _ _ hk

/-- **A cleared entry** takes its name out of the map, and no other. -/
lemma lookup_clear (name' : Name) :
    (name' ≠ (T.ent i k).2 → (T.setEnt i k (0, [])).lookup i name' = T.lookup i name') ∧
    ((∀ k', T.Live i name' k' → k' = k) → (T.setEnt i k (0, [])).lookup i name' = none) := by
  constructor
  · intro hne
    apply lookup_congr
    intro k' hlive
    by_cases hk : k' = k
    · subst hk
      rcases hlive with hlive | hlive
      · exact absurd hlive.2.symm hne
      · unfold Live at hlive
        rw [ent_setEnt_self] at hlive
        exact absurd rfl hlive.1
    · exact ent_setEnt_of_ne _ _ _ hk
  · intro honly
    apply lookup_of_absent
    intro k'
    by_cases hk : k' = k
    · subst hk
      rw [ent_setEnt_self]
      exact .inl rfl
    · rw [ent_setEnt_of_ne _ _ _ hk]
      by_contra hc
      push Not at hc
      exact hk (honly k' hc)

end Tree

/-! ### Directories -/

section

variable {P : Type} [Fintype P] {sb : Superblock} {s : State P} {L : List (Fin NINODE × ℕ)} {K : List (Fin NINODE)}
  {e : Fin NINODE} (h : Inv sb (.const True True) s L K) (he : e ∈ K) (hdir : (s.ino e).d.type = T_DIR)

include h he hdir

lemma dirlookupStr_map (hget : ∃ e', (s.ino e').ref = 0) (name : List ℕ) :
    ∃ r s', dirlookupStr sb e name s = .ok (r, s') ∧ tree sb s' = tree sb s ∧ s'.disk = s.disk ∧
      match r with
      | none => (tree sb s).lookup (s.ino e).inum (cstr DIRSIZ name) = none
      | some (e', off) => ∃ k j, off = 16 * k ∧ (tree sb s).ent (s.ino e).inum k = (j, cstr DIRSIZ name) ∧
          (s'.ino e').inum = j ∧ (tree sb s).lookup (s.ino e).inum (cstr DIRSIZ name) = some j := by
  have hspec : wp (dirlookup sb e (cstr DIRSIZ name)) (fun _ => False) _ s :=
    dirlookup_exact h he (cstr DIRSIZ name) (.inr hdir) (fun hna => absurd trivial hna) (fun hns => absurd trivial hns)
      (.inr fun _ _ => .inr hget)
  obtain ⟨r, s', hrun, -, hr⟩ := hspec.returns
  rw [dirlookupStr_eq]
  refine ⟨r, s', hrun, ?_⟩
  cases r with
  | none =>
    obtain ⟨rfl, habsent⟩ := hr
    exact ⟨rfl, rfl, Tree.lookup_of_absent habsent⟩
  | some x =>
    obtain ⟨k, j, hoff, hj, hent, hfirst, -, hafter, htree, hdisk⟩ := hr
    exact ⟨htree, hdisk, k, j, hoff, hent, hafter.inv.nums (x.1, j) mem_cons_self,
      Tree.lookup_of_first hj hent hfirst⟩

lemma dirlinkStr_map (hl : Layout sb) (hKL : ∀ e' ∈ K, ∃ i', (e', i') ∈ L) (hget : ∃ e', (s.ino e').ref = 0)
    {name : List ℕ} (hname : ∀ c ∈ name, c < 256) {inum : ℕ} (hinum : sb.Inum inum) :
    ∃ r s', dirlinkStr sb e name inum s = .ok (r, s') ∧ ((r = 0 ∧ (s'.ino e).d.size ≤ (s.ino e).d.size + 16 ∧
        (∀ name', (tree sb s').lookup (s.ino e).inum (cstr DIRSIZ name') =
          if cstr DIRSIZ name' = cstr DIRSIZ name then some inum
          else (tree sb s).lookup (s.ino e).inum (cstr DIRSIZ name')) ∧
        ∀ k, ((tree sb s).ent (s.ino e).inum k).1 ≠ 0 →
          (tree sb s').ent (s.ino e).inum k = (tree sb s).ent (s.ino e).inum k) ∨
        (r = -1 ∧ (tree sb s').ent (s.ino e).inum = (tree sb s).ent (s.ino e).inum)) ∧
      ((tree sb s).lookup (s.ino e).inum (cstr DIRSIZ name) ≠ none → r = -1) := by
  have hspec : wp (dirlink sb e (cstr DIRSIZ name) inum) (fun _ => False) _ s :=
    dirlink_exact hl h he hKL (cstr_good (Nat.le_refl _) hname) hinum (.inr hdir) (fun hna => absurd trivial hna)
      (fun hns => absurd trivial hns) (.inr hget)
  obtain ⟨r, s', hrun, hafter, hr, -⟩ := hspec.returns
  rw [dirlinkStr_eq]
  refine ⟨r, s', hrun, ?_⟩
  rcases hr with ⟨rfl, hfrees⟩ | ⟨rfl, -, habsent, k, hempty, -, htree, hsize⟩
  · refine ⟨.inr ⟨rfl, ?_⟩, fun _ => rfl⟩
    rcases hfrees.cases (s.ino e).inum with ⟨-, -, hent⟩ | ⟨-, -, -, h0, -, hent⟩
    · exact hent
    · -- the directory is locked, so it has not been freed
      obtain ⟨i', hi'⟩ := hKL e he
      have hnum : (s'.ino e).inum = (s.ino e).inum := (hafter.inv.nums _ hi').trans (h.nums _ hi').symm
      have hty := hafter.inv.type_of_locked he
      rw [hnum, h0] at hty
      exact absurd hty.1.symm hty.2
  · refine ⟨.inl ⟨rfl, hsize, fun name' => ?_, fun k' hlive => ?_⟩, fun hc => absurd (Tree.lookup_of_absent habsent) hc⟩
    · rw [htree]
      exact Tree.lookup_add hempty habsent hinum.1.ne' _
    · rw [htree]
      refine Tree.ent_setEnt_of_ne _ _ _ fun hk => ?_
      rw [hk] at hlive
      exact hlive hempty

lemma writei_clear (hl : Layout sb) {k : ℕ} (hk : 16 * k < (s.ino e).d.size) :
    ∃ s', writei sb e (fun _ => some 0) (16 * k) 16 s = .ok (16, s') ∧ (s'.ino e).d.size = (s.ino e).d.size ∧
      tree sb s' = (tree sb s).setEnt (s.ino e).inum k (0, []) := by
  obtain ⟨hpos, hv⟩ := h.locked e he
  have hi := h.range e hpos
  have hdvd := h.disk.aligned trivial _ hi (by rw [← (h.sync e hpos hv).1]; exact hdir)
  rw [← (h.sync e hpos hv).1] at hdvd
  have hk16 : 16 * k + 16 ≤ (s.ino e).d.size := by omega
  have hspec : wp (writei sb e (fun _ => some 0) (16 * k) 16) (fun _ => False) _ s :=
    (writei_present h he hdir trivial (fun _ => rfl) hk16).and
      (writei_dirent_exact hl h he hdir (fun _ => rfl) k (show ((0, []) : ℕ × Name) = _ by decide) (hi.1.trans hi.2))
  obtain ⟨w, s', hrun, rfl, -, hw, -, hsize⟩ := hspec.returns
  refine ⟨s', hrun, ?_, ?_⟩
  · rw [hsize, if_pos rfl, extended]
    simp only
    rw [if_neg (by omega)]
  · rcases hw with ⟨hne, -⟩ | ⟨-, htree⟩
    · exact absurd rfl hne
    · exact htree

/-- **A directory is a map from names.**  `dirlookup` returns the inode of the first live entry with the name, or
nothing.  A `dirlink` that returns 0 adds the name; it fails and changes no entry if the name is there.  An entry that
is overwritten with zeros is gone, and lookups of other names are as before. -/
theorem directory_map (hl : Layout sb) (hKL : ∀ e' ∈ K, ∃ i', (e', i') ∈ L) (hget : ∃ e', (s.ino e').ref = 0) :
    (∀ name, ∃ r s', dirlookupStr sb e name s = .ok (r, s') ∧ tree sb s' = tree sb s ∧ s'.disk = s.disk ∧
      match r with
      | none => (tree sb s).lookup (s.ino e).inum (cstr DIRSIZ name) = none
      | some (e', off) => ∃ k j, off = 16 * k ∧ (tree sb s).ent (s.ino e).inum k = (j, cstr DIRSIZ name) ∧
          (s'.ino e').inum = j ∧ (tree sb s).lookup (s.ino e).inum (cstr DIRSIZ name) = some j) ∧
    (∀ name inum, (∀ c ∈ name, c < 256) → sb.Inum inum → ∃ r s', dirlinkStr sb e name inum s = .ok (r, s') ∧
      ((r = 0 ∧ (s'.ino e).d.size ≤ (s.ino e).d.size + 16 ∧
        (∀ name', (tree sb s').lookup (s.ino e).inum (cstr DIRSIZ name') =
          if cstr DIRSIZ name' = cstr DIRSIZ name then some inum
          else (tree sb s).lookup (s.ino e).inum (cstr DIRSIZ name')) ∧
        ∀ k, ((tree sb s).ent (s.ino e).inum k).1 ≠ 0 →
          (tree sb s').ent (s.ino e).inum k = (tree sb s).ent (s.ino e).inum k) ∨
        (r = -1 ∧ (tree sb s').ent (s.ino e).inum = (tree sb s).ent (s.ino e).inum)) ∧
      ((tree sb s).lookup (s.ino e).inum (cstr DIRSIZ name) ≠ none → r = -1)) ∧
    ∀ k, 16 * k < (s.ino e).d.size → ∃ s', writei sb e (fun _ => some 0) (16 * k) 16 s = .ok (16, s') ∧
      (s'.ino e).d.size = (s.ino e).d.size ∧ ∀ name, (name ≠ ((tree sb s).ent (s.ino e).inum k).2 →
          (tree sb s').lookup (s.ino e).inum name = (tree sb s).lookup (s.ino e).inum name) ∧
        ((∀ k', (tree sb s).Live (s.ino e).inum name k' → k' = k) → (tree sb s').lookup (s.ino e).inum name = none) := by
  refine ⟨dirlookupStr_map h he hdir hget, fun name inum hname hinum => dirlinkStr_map h he hdir hl hKL hget hname hinum,
    fun k hk => ?_⟩
  obtain ⟨s', hrun, hsize, htree⟩ := writei_clear h he hdir hl hk
  refine ⟨s', hrun, hsize, fun name => ?_⟩
  rw [htree]
  exact Tree.lookup_clear name

end

/-- The root directory of an empty disk, locked. -/
theorem directory_map_root : ∃ (s : State Unit) (r : Option (Fin NINODE × ℕ)) (s' : State Unit),
    dirlookupStr smallSb 0 dot s = .ok (r, s') ∧ tree smallSb s' = tree smallSb s := by
  have hboot := planted_emptyDisk.ready.inv
  obtain ⟨h₁, ht₁⟩ := hboot.addRef (e := 0) Nat.one_pos
  have hroot := emptyDisk_root
  have hlock : wp (ilock smallSb 0) (fun _ => False) _ _ := ilock_exact h₁.inv (e := 0) (Nat.succ_pos _)
    (.inr not_mem_nil) (.inr (by
      rw [ht₁]
      change (tree smallSb (boot emptyDisk ())).type ROOTINO ≠ 0
      rw [hroot]
      decide))
  obtain ⟨_, s, -, h₂, ht₂, -⟩ := hlock.returns
  have hty := h₂.inv.type_of_locked (e := 0) mem_cons_self
  have hnum : (s.ino 0).inum = ROOTINO := h₂.inv.nums (0, ROOTINO) mem_cons_self
  rw [hnum, ht₂, ht₁, hroot] at hty
  have hfree : (s.ino 1).ref = 0 := by
    rw [h₂.inv.refs, holders_congr h₂.proc h₂.file, holders_congr h₁.proc h₁.file, holders_boot]
    rfl
  obtain ⟨r, s', hrun, htree, -⟩ := (directory_map h₂.inv mem_cons_self hty.1.symm smallSb_layout
    (fun e' he' => ⟨ROOTINO, by rw [mem_singleton.mp he']; exact mem_cons_self⟩) ⟨1, hfree⟩).1 dot
  exact ⟨s, r, s', hrun, htree⟩

/-- An entry keeps 16 bits of the inode number: a link to inode 65536 is an empty entry. -/
theorem dirlink_truncates : ∃ s', dirlinkStr smallSb 0 [97] 65536 rootHeld = .ok (0, s') ∧
    ∃ s'', dirlookupStr smallSb 0 [97] s' = .ok (none, s'') := by
  have hrun : (match dirlinkStr smallSb 0 [97] 65536 rootHeld with
      | .ok (r, s') => decide (r = 0) && match dirlookupStr smallSb 0 [97] s' with
        | .ok (r, _) => r.isNone
        | .error _ => false
      | .error _ => false) = true := by decide +kernel
  revert hrun
  cases hs : dirlinkStr smallSb 0 [97] 65536 rootHeld with
  | error e => exact fun h => nomatch h
  | ok x =>
    obtain ⟨r, s'⟩ := x
    simp only [Bool.and_eq_true, decide_eq_true_eq]
    rintro ⟨rfl, h⟩
    refine ⟨s', rfl, ?_⟩
    cases hn : dirlookupStr smallSb 0 [97] s' with
    | error e =>
      rw [hn] at h
      cases h
    | ok x =>
      obtain ⟨r, s''⟩ := x
      rw [hn] at h
      exact ⟨s'', by rw [Option.isNone_iff_eq_none.mp h]⟩

end Xv6.Fs
