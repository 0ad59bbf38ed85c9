import Xv6.Fs.Lookup
import Xv6.Fs.WriteData

/-!
# Directories and paths

`dirlookup`, `dirlink` and `namex` in terms of the tree.
-/

namespace Xv6.Fs

open Lib Log List

variable {P : Type} [Fintype P] {sb : Superblock} {z : Sel} {s s' : State P}
  {L : List (Fin NINODE × ℕ)} {K : List (Fin NINODE)} {ok : Stop → Prop} {k n j i : ℕ} {name path : Name}
  {L' : List (Fin NINODE × ℕ)} {cwd : Fin NINODE}

lemma ent_of_size_le (h : Inv sb z s L K) (he : e ∈ K) (hk : (s.ino e).d.size ≤ 16 * k) :
    (tree sb s).ent (s.ino e).inum k = (0, []) := by
  obtain ⟨hpos, hv⟩ := h.locked e he
  refine if_neg fun hc => ?_
  rw [← (h.sync e hpos hv).1] at hc
  omega

lemma lt_of_lt_direntCount (h : k < direntCount n) : 16 * k < n := by
  unfold direntCount at h
  omega

lemma le_of_direntCount_le (h : direntCount n ≤ k) : n ≤ 16 * k := by
  unfold direntCount at h
  omega

section

variable {e : Fin NINODE}

/-- **`dirlookup`** finds the first live entry with the name, and the inode table takes what it finds. -/
lemma dirlookup_exact (h : Inv sb z s L K) (he : e ∈ K) (name : Name)
    (hnd : ok (.panic .dirlookupNotDir) ∨ (s.ino e).d.type = T_DIR) (hp : ¬ z.aligned → ok (.panic .dirlookupRead))
    (hb : ¬ z.solid → ok (.panic .bmapOutOfRange))
    (hget : ok (.panic .igetNoInodes) ∨ ∀ j, (tree sb s).lookup (s.ino e).inum name = some j → s.Takes j) :
    wp (dirlookup sb e name) ok (fun r s' => (s.ino e).d.type = T_DIR ∧
      match r with
      | none => s' = s ∧ (tree sb s).Absent (s.ino e).inum name
      | some (e', off) => ∃ k j, off = 16 * k ∧ j ≠ 0 ∧ (tree sb s).ent (s.ino e).inum k = (j, name) ∧
          (∀ k' < k, ((tree sb s).ent (s.ino e).inum k').1 = 0 ∨ ((tree sb s).ent (s.ino e).inum k').2 ≠ name) ∧
          s.Takes j ∧ After sb z s ((e', j) :: L) K s' ∧ tree sb s' = tree sb s ∧ s'.disk = s.disk) s := by
  simp only [dirlookup, inode, wp_bind, wp_read, wp_pure]
  refine wp_ite.mpr ⟨fun hc => hnd.resolve_right hc, fun hdir => ?_⟩
  have hdir' : (s.ino e).d.type = T_DIR := by simpa using hdir
  refine wp_findM_range (I := fun k s' => s' = s ∧
    ∀ k' < k, ((tree sb s).ent (s.ino e).inum k').1 = 0 ∨ ((tree sb s).ent (s.ino e).inum k').2 ≠ name)
    ?_ ?_ s ⟨rfl, fun k' hk' => absurd hk' (Nat.not_lt_zero _)⟩
  · rintro k _ hk ⟨rfl, hprev⟩
    rename_i s
    rw [wp_bind]
    refine (readDirent_spec h he hdir' (lt_of_lt_direntCount hk) hp hb).mono ?_
    rintro de _ ⟨rfl, -, hent⟩
    rename_i s
    have hnext : ∀ hk : ((tree sb s).ent (s.ino e).inum k).1 = 0 ∨
        ((tree sb s).ent (s.ino e).inum k).2 ≠ name, ∀ k' < k + 1,
        ((tree sb s).ent (s.ino e).inum k').1 = 0 ∨ ((tree sb s).ent (s.ino e).inum k').2 ≠ name := by
      intro hk k' hk'
      rcases Nat.lt_succ_iff_lt_or_eq.mp hk' with hlt | rfl
      · exact hprev k' hlt
      · exact hk
    refine wp_ite.mpr ⟨fun h0 => ?_, fun h0 => wp_ite.mpr ⟨fun hname => ?_, fun hname => ?_⟩⟩
    · exact ⟨rfl, hnext (.inl (by rwa [hent]))⟩
    · rw [wp_bind]
      have hlt := h.disk.dirs.ents (s.ino e).inum k
      have hent' : ent sb (dinode sb s.disk) s.disk (s.ino e).inum k = (deInum de, deName de) := hent
      rw [hent'] at hlt
      have hfound : (tree sb s).ent (s.ino e).inum k = (deInum de, name) := by rw [hent, hname]
      refine (iget_exact h ⟨Nat.pos_of_ne_zero h0, hlt⟩
        (hget.imp_right fun hget => hget _ (Tree.lookup_of_first h0 hfound hprev))).mono ?_
      rintro e' s' ⟨htakes, hafter, htree, hdisk⟩
      exact ⟨hdir', k, deInum de, rfl, h0, hfound, hprev, htakes, hafter, htree, hdisk⟩
    · exact ⟨rfl, hnext (.inr (by rw [hent]; exact fun hc => hname hc.symm))⟩
  · rintro _ ⟨rfl, hall⟩
    rename_i s
    refine ⟨hdir', rfl, fun k => ?_⟩
    by_cases hk : k < direntCount (s.ino e).d.size
    · exact hall k hk
    · rw [ent_of_size_le h he (le_of_direntCount_le (Nat.le_of_not_lt hk))]
      exact .inl rfl

lemma emptySlot_exact (h : Inv sb z s L K) (he : e ∈ K) (hdir : (s.ino e).d.type = T_DIR)
    (hp : ¬ z.aligned → ok (.panic .dirlinkRead)) (hb : ¬ z.solid → ok (.panic .bmapOutOfRange)) :
    wp (Prog.findM (fun k => do
        let de ← readDirent sb e .dirlinkRead k
        if deInum de = 0 then pure (some (16 * k)) else pure none)
        (List.range (direntCount (s.ino e).d.size))) ok
      (fun r s' => s' = s ∧ ∃ k, r.getD (16 * direntCount (s.ino e).d.size) = 16 * k ∧
        ((tree sb s).ent (s.ino e).inum k).1 = 0 ∧
        ∀ k' < k, ((tree sb s).ent (s.ino e).inum k').1 ≠ 0) s := by
  refine wp_findM_range (I := fun k s' => s' = s ∧ ∀ k' < k, ((tree sb s).ent (s.ino e).inum k').1 ≠ 0) ?_ ?_ s
    ⟨rfl, fun k' hk' => absurd hk' (Nat.not_lt_zero _)⟩
  · rintro k _ hk ⟨rfl, hprev⟩
    rename_i s
    rw [wp_bind]
    refine (readDirent_spec h he hdir (lt_of_lt_direntCount hk) hp hb).mono ?_
    rintro de _ ⟨rfl, -, hent⟩
    rename_i s
    refine wp_ite.mpr ⟨fun h0 => ?_, fun h0 => ?_⟩
    · exact ⟨rfl, k, rfl, by rw [hent]; exact h0, hprev⟩
    · refine ⟨rfl, fun k' hk' => ?_⟩
      rcases Nat.lt_succ_iff_lt_or_eq.mp hk' with hlt | rfl
      · exact hprev k' hlt
      · rw [hent]
        exact h0
  · rintro _ ⟨rfl, hall⟩
    refine ⟨rfl, _, rfl, ?_, hall⟩
    rw [ent_of_size_le h he (le_of_direntCount_le le_rfl)]

/-- **`isdirempty`**; in a directory of whole entries it returns. -/
lemma isdirempty_spec (hp : ¬ z.aligned → ok (.panic .isdiremptyReadi)) (hb : ¬ z.solid → ok (.panic .bmapOutOfRange))
    (h : Inv sb z s L K) (he : e ∈ K) (hdir : (s.ino e).d.type = T_DIR) :
    wp (isdirempty sb e) ok (fun r s' => s' = s ∧
      (r = true ↔ ∀ k, 2 ≤ k → ((tree sb s).ent (s.ino e).inum k).1 = 0)) s := by
  simp only [isdirempty, inode, wp_bind, wp_read, wp_pure]
  refine wp_findM_range' (I := fun k s' => s' = s ∧
    ∀ k' < k, 2 ≤ k' → ((tree sb s).ent (s.ino e).inum k').1 = 0) ?_ ?_ s
    ⟨rfl, fun k' hlt hle => absurd hle (by omega)⟩
  · rintro k _ hk1 hk2 ⟨rfl, hprev⟩
    rename_i s
    rw [wp_bind]
    refine (readDirent_spec h he hdir (lt_of_lt_direntCount (by omega)) hp hb).mono ?_
    rintro de _ ⟨rfl, -, hent⟩
    rename_i s
    refine wp_ite.mpr ⟨fun hlive => ⟨rfl, iff_of_false Bool.false_ne_true fun hall => ?_⟩,
      fun h0 => ⟨rfl, fun k' hk' hle => ?_⟩⟩
    · have hk := hall k hk1
      rw [hent] at hk
      exact absurd hk hlive
    rcases Nat.lt_succ_iff_lt_or_eq.mp hk' with hlt | rfl
    · exact hprev k' hlt hle
    · rw [hent]
      simpa using h0
  · rintro _ ⟨rfl, hall⟩
    rename_i s
    refine ⟨rfl, iff_of_true rfl fun k hk => ?_⟩
    by_cases hlt : k < 2 + (direntCount (s.ino e).d.size - 2)
    · exact hall k hlt hk
    · rw [ent_of_size_le h he (le_of_direntCount_le (by omega))]

/-- **`dirlink`** writes a new entry to the first empty place, or changes nothing. -/
lemma dirlink_exact (hl : Layout sb) (h : Inv sb z s L K) (he : e ∈ K) (hKL : ∀ e' ∈ K, ∃ i', (e', i') ∈ L)
    (hname : GoodName name) (hj : sb.Inum j) (hnd : ok (.panic .dirlookupNotDir) ∨ (s.ino e).d.type = T_DIR)
    (hp : ¬ z.aligned → ok (.panic .dirlookupRead) ∧ ok (.panic .dirlinkRead))
    (hb : ¬ z.solid → ok (.panic .bmapOutOfRange)) (hget : ok (.panic .igetNoInodes) ∨ ∃ e, (s.ino e).ref = 0) :
    wp (dirlink sb e name j) ok (fun r s' => After sb z s L K s' ∧ ((r = -1 ∧ (tree sb s).Frees (tree sb s')) ∨
        (r = 0 ∧ (s.ino e).d.type = T_DIR ∧ (tree sb s).Absent (s.ino e).inum name ∧
          ∃ k, ((tree sb s).ent (s.ino e).inum k).1 = 0 ∧ (∀ k' < k, ((tree sb s).ent (s.ino e).inum k').1 ≠ 0) ∧
            tree sb s' = (tree sb s).setEnt (s.ino e).inum k (j, name) ∧
            (s'.ino e).d.size ≤ (s.ino e).d.size + 16)) ∧
      (z.All → Kept sb (fun x => r = 0 ∧ x = (s.ino e).inum) s.disk s'.disk ∧ (r ≠ 0 → tree sb s' = tree sb s))) s := by
  have hbytes : (j, name) = (deInum ((List.range 16).map fun m => (dirent name j m).getD 0 % 256),
      deName ((List.range 16).map fun m => (dirent name j m).getD 0 % 256)) := by
    have h1 := deInum_direntBytes name (show j < 2 ^ 16 from lt_of_lt_of_le hj.2 hl.ninodes)
    have h2 : deName (direntBytes name j) = name := deName_direntBytes hname
    unfold direntBytes at h1 h2
    rw [h1, h2]
  rw [dirlink, wp_bind]
  refine (dirlookup_exact h he name hnd (fun hna => (hp hna).1) hb (hget.imp_right fun hget _ _ => .inr hget)).mono ?_
  rintro r s1 ⟨hdir, hr⟩
  cases r with
  | some x =>
    obtain ⟨e', off⟩ := x
    obtain ⟨k, j', -, -, -, -, -, hafter, htree, hdisk⟩ := hr
    simp only [wp_bind]
    refine (iput_exact hl hafter.inv fun hc => ?_).mono ?_
    · exact hKL e' hc
    · rintro _ s2 ⟨hafter', hfrees, -, hstill⟩
      rw [htree] at hfrees hstill
      rw [hdisk] at hstill
      refine ⟨hafter.trans hafter', .inl ⟨rfl, hfrees⟩, fun hz => ?_⟩
      obtain ⟨ht2, hd2⟩ := hstill ((h.zeroRef hz.2.2).congr htree)
      exact ⟨.of_eq hd2, fun _ => ht2⟩
  | none =>
    obtain ⟨rfl, habsent⟩ := hr
    rename_i s
    simp only [inode, wp_bind, wp_read, wp_pure]
    refine (emptySlot_exact h he hdir (fun hna => (hp hna).2) hb).mono ?_
    rintro r s1 ⟨rfl, k, hk, hempty, hfirst⟩
    rw [hk, wp_bind]
    have hwrite : wp (writei sb e (dirent name j) (16 * k) 16) ok _ s1 :=
      writei_dirent_exact hl h he hdir (fun _ => rfl) k hbytes hj.2
    have hkept : wp (writei sb e (dirent name j) (16 * k) 16) ok (fun w s' =>
        z.All → Kept sb (fun x => w = 16 ∧ x = (s1.ino e).inum) s1.disk s'.disk) s1 := by
      by_cases hz : z.All
      · exact (writei_kept hl h hz he hdir (fun _ => rfl) k hbytes hj.2).mono fun _ _ hk _ => hk
      · exact hwrite.mono fun _ _ _ hc => absurd hc hz
    refine (hwrite.and hkept).mono ?_
    rintro w s2 ⟨⟨hafter, hw, hstart, hsize⟩, hkept⟩
    rcases hw with ⟨hw, htree⟩ | ⟨hw, htree⟩
    · rw [if_pos hw, wp_pure]
      refine ⟨hafter, .inl ⟨rfl, ?_⟩, fun hz => ⟨(hkept hz).mono fun _ hx => absurd hx.1 hw, fun _ => htree⟩⟩
      rw [htree]
      exact .refl _
    · rw [if_neg (by simpa using hw), wp_pure]
      refine ⟨hafter, .inr ⟨rfl, hdir, habsent, k, hempty, hfirst, htree, ?_⟩,
        fun hz => ⟨(hkept hz).mono fun _ hx => ⟨rfl, hx.2⟩, fun hc => absurd rfl hc⟩⟩
      have := hstart hw
      rw [hsize, if_pos hw, extended]
      simp only
      split <;> omega

/-! ### Paths -/

def State.start (s : State P) (cwd : Fin NINODE) (path : Name) : ℕ :=
  if path.head? = some 47 then ROOTINO else (s.ino cwd).inum

/-- What a walk has done, `dest` being what lookups in the tree lead to: it refers to what it returns, and has freed
at most inodes without links; it has changed nothing if all of them have another reference. -/
def Walked (sb : Superblock) (z : Sel) (s : State P) (L : List (Fin NINODE × ℕ)) (dest : Option (ℕ × Name))
    (r : Option (Fin NINODE × Name)) (s' : State P) : Prop :=
  (tree sb s).Frees (tree sb s') ∧ (ZeroRef sb s L → tree sb s' = tree sb s ∧ s'.disk = s.disk) ∧
    match r with
    | none => After sb z s L [] s' ∧ (ZeroRef sb s L → dest = none)
    | some (e', name) => ∃ i', After sb z s ((e', i') :: L) [] s' ∧ (ZeroRef sb s L → dest = some (i', name))

lemma Walked.after {dest dest' : Option (ℕ × Name)} (h : After sb z s L' K s1) (hfrees : (tree sb s).Frees (tree sb s1))
    (hsame : ZeroRef sb s L → tree sb s1 = tree sb s ∧ s1.disk = s.disk) (hto : ZeroRef sb s L → dest = dest')
    (hw : Walked sb z s1 L dest' r s') : Walked sb z s L dest r s' := by
  obtain ⟨hfrees', hsame', hr⟩ := hw
  have hzero : ZeroRef sb s L → ZeroRef sb s1 L := fun hz => hz.congr (hsame hz).1
  refine ⟨hfrees.trans hfrees', fun hz => ?_, ?_⟩
  · obtain ⟨ht, hd⟩ := hsame' (hzero hz)
    exact ⟨ht.trans (hsame hz).1, hd.trans (hsame hz).2⟩
  · cases r with
    | none => exact ⟨h.trans hr.1, fun hz => (hto hz).trans (hr.2 (hzero hz))⟩
    | some x =>
      obtain ⟨i', h', hto'⟩ := hr
      exact ⟨i', h.trans h', fun hz => (hto hz).trans (hto' (hzero hz))⟩

section

variable (hl : Layout sb) (hp : ¬ z.aligned → ok (.panic .dirlookupRead)) (hb : ¬ z.solid → ok (.panic .bmapOutOfRange))

include hl hp hb

/-- **The loop of `namex`.** -/
lemma walk_exact (parent : Bool) (names : List Name) (h : Inv sb z s ((e, i) :: L) [])
    (hget : ok (.panic .igetNoInodes)) (hno : ok (.panic .ilockNoType)) :
    wp (walk sb parent e names) ok (fun r s' => Walked sb z s L ((tree sb s).walkTo parent i names) r s' ∧
      ∀ x, r = some x → parent = true → x.2 ∈ names) s := by
  induction names generalizing s e i with
  | nil =>
    rw [walk, Tree.walkTo]
    refine wp_ite.mpr ⟨fun hpar => ?_, fun hpar => ?_⟩
    · rw [wp_bind, if_pos hpar]
      refine (iput_exact hl h (by rintro ⟨⟩)).mono ?_
      rintro _ s1 ⟨h1, hfrees, -, hstill⟩
      exact ⟨⟨hfrees, hstill, h1, fun _ => rfl⟩, by rintro _ ⟨⟩⟩
    · rw [if_neg hpar]
      exact ⟨⟨.refl _, fun _ => ⟨rfl, rfl⟩, i, After.refl h, fun _ => rfl⟩,
        fun _ _ hc => absurd hc hpar⟩
  | cons name rest ih =>
    have hpos := h.ref_pos_of_mem (x := (e, i)) mem_cons_self
    rw [walk, wp_bind]
    refine (ilock_exact h hpos (.inr not_mem_nil) (.inl hno)).mono ?_
    rintro _ s1 ⟨h1, ht1, -, hd1⟩
    have hnum1 : (s1.ino e).inum = i := h1.inv.nums (e, i) mem_cons_self
    have hlocked := h1.inv.type_of_locked (e := e) mem_cons_self
    rw [hnum1, ht1] at hlocked
    -- the exits that give the inode back
    have hback : (tree sb s).walkTo parent i (name :: rest) = none → wp (do
        iunlockput sb e
        pure none) ok (fun r s' => Walked sb z s L ((tree sb s).walkTo parent i (name :: rest)) r s' ∧
          ∀ x, r = some x → parent = true → x.2 ∈ name :: rest) s1 := by
      intro hto
      rw [wp_bind, hto]
      refine (iunlockput_exact hl h1.inv not_mem_nil).mono ?_
      rintro _ s2 ⟨h2, ht2, -, hs2⟩
      rw [ht1] at ht2 hs2
      rw [hd1] at hs2
      exact ⟨⟨ht2, fun hz => hs2 (hz.congr ht1), h1.trans h2, fun _ => rfl⟩, by rintro _ ⟨⟩⟩
    simp only [inode, wp_bind, wp_read, wp_pure]
    rw [← hlocked.1]
    refine wp_ite.mpr ⟨fun hdir => hback ?_, fun hdir => wp_ite.mpr ⟨fun hlast => ?_, fun hlast => ?_⟩⟩
    · rw [Tree.walkTo, if_neg hdir]
    · rw [wp_bind, Tree.walkTo, if_pos (not_not.mp hdir), if_pos hlast]
      refine (iunlock_exact h1.inv not_mem_nil).mono ?_
      rintro _ s2 ⟨h2, ht2, hd2⟩
      have ht02 := ht2.trans ht1
      refine ⟨⟨by rw [ht02]; exact .refl _, fun _ => ⟨ht02, hd2.trans hd1⟩, i, h1.trans h2, fun _ => rfl⟩, ?_⟩
      rintro x hx -
      cases hx
      exact mem_cons_self
    · have hto : (tree sb s).walkTo parent i (name :: rest) =
          ((tree sb s).lookup i name).bind fun j => (tree sb s).walkTo parent j rest := by
        rw [Tree.walkTo, if_pos (not_not.mp hdir), if_neg hlast]
      rw [wp_bind]
      refine (dirlookup_exact h1.inv mem_cons_self name (.inr (hlocked.1.symm.trans (not_not.mp hdir))) hp hb
        (.inl hget)).mono ?_
      rintro r s2 ⟨-, hr⟩
      cases r with
      | none =>
        obtain ⟨rfl, habsent⟩ := hr
        rw [hnum1, ht1] at habsent
        exact hback (by rw [hto, Tree.lookup_of_absent habsent, Option.bind_none])
      | some x =>
        obtain ⟨next, off⟩ := x
        obtain ⟨k, j, -, hj, hent, hfirst, -, h2, ht2, hd2⟩ := hr
        rw [hnum1, ht1] at hent hfirst
        rw [wp_bind]
        refine (iunlockput_exact hl (h2.inv.perm (List.Perm.swap _ _ _)) not_mem_nil).mono ?_
        rintro _ s3 ⟨h3, ht3, -, hs3⟩
        have ht02 := ht2.trans ht1
        rw [ht02] at ht3 hs3
        rw [hd2, hd1] at hs3
        have h03 := h1.trans (h2.trans h3)
        have hsame : ZeroRef sb s L → tree sb s3 = tree sb s ∧ s3.disk = s.disk :=
          fun hz => hs3 ((hz.congr ht02).cons _)
        refine (ih h3.inv).mono ?_
        rintro r s4 ⟨hw, hmem⟩
        refine ⟨Walked.after h03 ht3 hsame (fun hz => ?_) hw, fun x hx hpar => mem_cons_of_mem _ (hmem x hx hpar)⟩
        rw [hto, Tree.lookup_of_first hj hent hfirst, Option.bind_some, (hsame hz).1]

/-- **`namex`** for a process that holds its current directory. -/
lemma namex_exact (hroot : sb.Inum ROOTINO) (path : Name) (parent : Bool) (h : Inv sb z s L [])
    (hcwd : 0 < s.holders cwd) (hget : ok (.panic .igetNoInodes)) (hno : ok (.panic .ilockNoType)) :
    wp (namex sb cwd path parent) ok (fun r s' =>
      Walked sb z s L ((tree sb s).walkTo parent (s.start cwd path) (pieces path)) r s' ∧
      ∀ x, r = some x → parent = true → x.2 ∈ elements path.length path) s := by
  -- the walk from an inode to which the call refers
  have hwalk : ∀ e s1, After sb z s ((e, s.start cwd path) :: L) [] s1 → tree sb s1 = tree sb s →
      s1.disk = s.disk → wp (walk sb parent e (elements path.length path)) ok (fun r s' =>
        Walked sb z s L ((tree sb s).walkTo parent (s.start cwd path) (pieces path)) r s' ∧
        ∀ x, r = some x → parent = true → x.2 ∈ elements path.length path) s1 := by
    intro e s1 h1 ht1 hd1
    rw [elements_eq_pieces (Nat.le_refl _)]
    refine (walk_exact hl hp hb parent (pieces path) h1.inv hget hno).mono ?_
    rintro r s2 ⟨hw, hmem⟩
    exact ⟨Walked.after h1 (by rw [ht1]; exact .refl _) (fun _ => ⟨ht1, hd1⟩) (fun _ => by rw [ht1]) hw, hmem⟩
  rw [namex]
  refine wp_ite.mpr ⟨fun hslash => ?_, fun hslash => ?_⟩
  · have hstart : s.start cwd path = ROOTINO := if_pos hslash
    rw [wp_bind]
    refine (iget_exact h hroot (.inl hget)).mono ?_
    rintro e s1 ⟨-, h1, ht1, hd1⟩
    rw [← hstart] at h1
    exact hwalk e s1 h1 ht1 hd1
  · have hstart : s.start cwd path = (s.ino cwd).inum := if_neg hslash
    obtain ⟨h1, ht1⟩ := h.addRef (h.ref_pos_of_holders hcwd)
    rw [← hstart] at h1
    exact hwalk cwd _ h1 ht1 rfl

end

variable (hok : Allowed z ok)

include hok

lemma dirlookup_spec (h : Inv sb z s L K) (he : e ∈ K) (name : Name) :
    wp (dirlookup sb e name) ok (fun r s' => (s.ino e).d.type = T_DIR ∧
      match r with
      | none => s' = s ∧ (tree sb s).Absent (s.ino e).inum name
      | some (e', off) => ∃ k j, off = 16 * k ∧ j ≠ 0 ∧ (tree sb s).ent (s.ino e).inum k = (j, name) ∧
          After sb z s ((e', j) :: L) K s' ∧ tree sb s' = tree sb s ∧ s'.disk = s.disk) s := by
  refine (dirlookup_exact h he name (.inl (hok _ (by decide) fun _ => by decide))
    (fun _ => hok _ (by decide) fun _ => by decide)
    (fun hs => hok _ (by decide) fun hc => absurd hc hs)
    (.inl (hok _ (by decide) fun _ => by decide))).mono ?_
  rintro r s' ⟨hdir, hr⟩
  cases r with
  | none => exact ⟨hdir, hr⟩
  | some x =>
    obtain ⟨k, j, hoff, hj, hent, -, -, hafter⟩ := hr
    exact ⟨hdir, k, j, hoff, hj, hent, hafter⟩

variable (hl : Layout sb)

include hl

lemma dirlink_spec (h : Inv sb z s L K) (he : e ∈ K) (hKL : ∀ e' ∈ K, ∃ i', (e', i') ∈ L) (hname : GoodName name)
    (hj : sb.Inum j) :
    wp (dirlink sb e name j) ok (fun r s' => After sb z s L K s' ∧ ((r = -1 ∧ (tree sb s).Frees (tree sb s')) ∨
        (r = 0 ∧ (s.ino e).d.type = T_DIR ∧ (tree sb s).Absent (s.ino e).inum name ∧
          ∃ k, ((tree sb s).ent (s.ino e).inum k).1 = 0 ∧ (∀ k' < k, ((tree sb s).ent (s.ino e).inum k').1 ≠ 0) ∧
            tree sb s' = (tree sb s).setEnt (s.ino e).inum k (j, name))) ∧
      (z.All → Kept sb (fun x => r = 0 ∧ x = (s.ino e).inum) s.disk s'.disk ∧ (r ≠ 0 → tree sb s' = tree sb s))) s := by
  have hpanic : ∀ p : Panic, p ≠ .freeingFreeBlock → p ≠ .bmapOutOfRange → ok (.panic p) :=
    fun p h1 h2 => hok _ (fun hc => h1 (Stop.panic.inj hc)) fun _ hc => h2 (Stop.panic.inj hc)
  refine (dirlink_exact hl h he hKL hname hj (.inl (hpanic _ (by decide) (by decide)))
    (fun _ => ⟨hpanic _ (by decide) (by decide), hpanic _ (by decide) (by decide)⟩)
    (fun hs => hok _ (by decide) fun hc => absurd hc hs)
    (.inl (hpanic _ (by decide) (by decide)))).mono ?_
  rintro r s' ⟨hafter, hfail | ⟨hr, hdir, habsent, k, hempty, hfirst, htree, -⟩, hkept⟩
  · exact ⟨hafter, .inl hfail, hkept⟩
  · exact ⟨hafter, .inr ⟨hr, hdir, habsent, k, hempty, hfirst, htree⟩, hkept⟩

/-- The bytes of a string: none is zero. -/
def GoodPath (path : Name) : Prop := ∀ c ∈ path, 0 < c ∧ c < 256

omit [Fintype P] hok hl in
lemma fetchstr_good {src : Mem} {max a : ℕ} (h : fetchstr src max a = some path) : GoodPath path := by
  induction max generalizing a path with
  | zero => cases h
  | succ max ih =>
    rw [fetchstr] at h
    split at h
    · cases h
    · rename_i c hc
      split at h
      · cases h
        intro x hx
        cases hx
      · rename_i hc0
        obtain ⟨rest, hrest, rfl⟩ := Option.map_eq_some_iff.mp h
        intro x hx
        rcases mem_cons.mp hx with rfl | hx
        · refine ⟨Nat.pos_of_ne_zero fun h0 => hc0 ?_, UInt8.toNat_lt c⟩
          exact UInt8.toNat_inj.mp h0
        · exact ih hrest x hx

omit [Fintype P] hok hl in
lemma skipelem_good {rest : Name} (h : skipelem path = some (name, rest)) (hp : GoodPath path) :
    GoodName name ∧ GoodPath rest := by
  unfold skipelem at h
  simp only at h
  split at h
  · cases h
  · cases h
    have hdrop : ∀ c ∈ path.dropWhile (· = 47), 0 < c ∧ c < 256 :=
      fun c hc => hp c ((dropWhile_sublist _).mem hc)
    refine ⟨⟨length_take_le _ _, fun c hc => ?_⟩, fun c hc => ?_⟩
    · exact hdrop c ((takeWhile_sublist _).mem (mem_of_mem_take hc))
    · exact hdrop c ((dropWhile_sublist _).mem ((dropWhile_sublist _).mem hc))

omit [Fintype P] hok hl in
lemma elements_good {fuel : ℕ} (hp : GoodPath path) : ∀ n ∈ elements fuel path, GoodName n := by
  induction fuel generalizing path with
  | zero => intro n hn; cases hn
  | succ fuel ih =>
    intro n hn
    rw [elements] at hn
    cases hskip : skipelem path with
    | none =>
      rw [hskip] at hn
      cases hn
    | some x =>
      obtain ⟨name, rest⟩ := x
      rw [hskip] at hn
      obtain ⟨hname, hrest⟩ := skipelem_good hskip hp
      rcases mem_cons.mp hn with rfl | hn
      · exact hname
      · exact ih hrest n hn

variable (hroot : sb.Inum ROOTINO)

include hroot

lemma namex_spec (parent : Bool) (h : Inv sb z s L []) (hcwd : 0 < s.holders cwd) (hpath : GoodPath path) :
    wp (namex sb cwd path parent) ok (fun r s' => (tree sb s).Frees (tree sb s') ∧
      (ZeroRef sb s L → tree sb s' = tree sb s ∧ s'.disk = s.disk) ∧
      match r with
      | none => After sb z s L [] s'
      | some (e', name) => (parent = true → GoodName name) ∧ ∃ i', After sb z s ((e', i') :: L) [] s' ∧
          (ZeroRef sb s L → (tree sb s).walkTo parent (s.start cwd path) (pieces path) = some (i', name))) s := by
  refine (namex_exact hl (fun _ => hok _ (by decide) fun _ => by decide)
    (fun hs => hok _ (by decide) fun hc => absurd hc hs) hroot path parent h hcwd
    (hok _ (by decide) fun _ => by decide) (hok _ (by decide) fun _ => by decide)).mono ?_
  rintro r s' ⟨⟨hfrees, hsame, hr⟩, hmem⟩
  refine ⟨hfrees, hsame, ?_⟩
  cases r with
  | none => exact hr.1
  | some x =>
    obtain ⟨i', h'⟩ := hr
    exact ⟨fun hpar => elements_good hpath _ (hmem x rfl hpar), i', h'⟩

end

end Xv6.Fs
