import Xv6.Fs.Files

/-!
# `create`

A call of `create` makes a new inode with its entries, or leaves the tree as it was: when an entry
cannot be written, the new inode is given up again.  `Z` says whether the tree is followed; it asks
that no inode without links lies about unreferenced.
-/

namespace Xv6.Fs

open Lib Log Function List

variable {P : Type} [Fintype P] {sb : Superblock} {z : Sel} {s s' : State P}
  {L : List (Fin NINODE × ℕ)} {K : List (Fin NINODE)} {ok : Stop → Prop} {Z G : Prop} {i t major minor : ℕ}
  {e : Fin NINODE} {name : Name}

lemma tree_of_free (h : (tree sb s).type i = 0) :
    (tree sb s).nlink i = 0 ∧ (tree sb s).ent i = fun _ => (0, []) := by
  rw [tree_type] at h
  by_cases hi : sb.Inum i
  · rw [if_pos hi] at h
    refine ⟨if_neg fun hc => hc.2 h, funext fun k => if_neg fun hc => ?_⟩
    rw [h] at hc
    exact absurd hc.1 (by decide)
  · refine ⟨if_neg fun hc => hi hc.1, funext fun k => if_neg fun hc => hc.2.2 ?_⟩
    unfold entBlock slot
    rw [if_neg fun h => hi h.1]

lemma Inv.regain (h : Inv sb (z.without i) s L K) (hn : (tree sb s).nlink i ≠ 0) : Inv sb z s L K where
  disk := h.disk
  range := h.range
  uniq := h.uniq
  sync := h.sync
  refs := h.refs
  nums := h.nums
  locks := h.locks
  locked := h.locked
  writable := h.writable
  zero j hz ht h0 := h.zero j ⟨hz, fun hj => hn (hj ▸ h0)⟩ ht h0

lemma Inv.fst_ne (h : Inv sb z s L K) (he : (e, i) ∈ L) (he' : (e', i') ∈ L) (hne : i ≠ i') : e ≠ e' := by
  rintro rfl
  exact hne ((h.nums _ he).symm.trans (h.nums _ he'))

lemma Inv.zeroHeld_of (h : Inv sb z s L K) (hz : ∀ i, z.zero i) (hL : ∀ x ∈ L, (tree sb s).nlink x.2 ≠ 0) :
    (tree sb s).ZeroHeld := by
  intro i ha hn
  obtain ⟨e, hpos, hi, -⟩ := h.zero i (hz i) ha hn
  by_cases hold : 0 < s.holders e
  · exact ⟨e, hold, hi⟩
  · rw [h.refs] at hpos
    obtain ⟨x, hx, rfl⟩ := mem_map.mp (count_pos_iff.mp (show 0 < (L.map Prod.fst).count e by omega))
    rw [h.nums x hx] at hi
    exact absurd (hi ▸ hn) (hL x hx)

lemma Inv.type_of_frees (h : Inv sb z s' L K) (he : e ∈ K) (hi : (e, i) ∈ L) (hfrees : (tree sb s).Frees (tree sb s'))
    : (tree sb s').type i = (tree sb s).type i := by
  rcases hfrees.cases i with ⟨ht, -⟩ | ⟨-, -, -, h0, -⟩
  · exact ht
  · have := h.type_of_locked he
    rw [h.nums _ hi] at this
    exact absurd (this.1.symm.trans h0) this.2

lemma Dinode.Small.setNlink {a : Dinode} (h : a.Small) {n : ℕ} (hn : n < 2 ^ 16) : { a with nlink := n }.Small :=
  { h with nlink := hn }

lemma goodName_dot : GoodName dot := ⟨by decide, by simp⟩

lemma goodName_dotdot : GoodName dotdot := ⟨by decide, by simp⟩

section

variable (hok : Allowed (.const Z G) ok) (hl : Layout sb)

include hok hl

/-! ### The entries of a new inode -/

variable {ip dp : Fin NINODE} {i d : ℕ} {T : Tree}

/-- **`.` and `..`** are entries 0 and 1 of a new directory. -/
lemma dotEntries_spec (h : Inv sb (.const Z G) s [(ip, i), (dp, d)] [ip, dp])
    (hT : Z → T.ZeroHeld) (htree : Z → tree sb s = (T.alloc i T_DIR).setNlink i 1) :
    wp (dotEntries sb ip dp) ok (fun r s' =>
      After sb (.const Z G) s [(ip, i), (dp, d)] [ip, dp] s' ∧ (tree sb s').type i = (tree sb s).type i ∧
      (Z → if r = true then tree sb s' = T.newDir d i
        else (tree sb s').free i = (tree sb s).free i ∧ (tree sb s').type i = T_DIR ∧
          (tree sb s').held = T.held) ∧
      ((Sel.const Z G).All → Kept sb (fun j => j = i) s.disk s'.disk)) s := by
  have hnum : (s.ino ip).inum = i := h.nums (ip, i) mem_cons_self
  have hi : sb.Inum i := h.inum_of_mem (x := (ip, i)) mem_cons_self
  have hd : sb.Inum d := h.inum_of_mem (x := (dp, d)) (by simp)
  have hKL : ∀ e' ∈ [ip, dp], ∃ i', (e', i') ∈ [(ip, i), (dp, d)] := by simp
  have hzero : Z → (tree sb s).ZeroHeld := by
    intro hz
    rw [htree hz]
    exact (hT hz).alloc i T_DIR
  simp only [dotEntries, inode, wp_bind, wp_read, wp_pure]
  rw [hnum]
  refine (dirlink_spec hok hl h mem_cons_self hKL goodName_dot hi).mono ?_
  rintro r s1 ⟨h1, hr, hkept1⟩
  rw [hnum] at hr hkept1
  have hkept : (Sel.const Z G).All → Kept sb (fun j => j = i) s.disk s1.disk :=
    fun hz => (hkept1 hz).1.mono fun _ hj => hj.2
  rcases hr with ⟨rfl, hfrees⟩ | ⟨rfl, -, -, k, hempty, hfirst, ht1⟩
  · rw [if_pos (by decide)]
    refine ⟨h1, h1.inv.type_of_frees mem_cons_self mem_cons_self hfrees, fun hz => ?_, hkept⟩
    rw [hfrees.eq (hzero hz), htree hz]
    simp
  · have hnum1 : (s1.ino ip).inum = i := h1.inv.nums (ip, i) mem_cons_self
    have hnum1' : (s1.ino dp).inum = d := h1.inv.nums (dp, d) (by simp)
    rw [if_neg (by decide)]
    simp only [wp_bind, wp_read, wp_pure]
    rw [hnum1']
    refine (dirlink_spec hok hl h1.inv mem_cons_self hKL goodName_dotdot hd).mono ?_
    rintro r s2 ⟨h2, hr, hkept2⟩
    rw [hnum1] at hr hkept2
    have hkept' : (Sel.const Z G).All → Kept sb (fun j => j = i) s.disk s2.disk :=
      fun hz => (hkept hz).trans ((hkept2 hz).1.mono fun _ hj => hj.2)
    -- the new directory is empty, so `.` has gone to its first place
    have hfst : Z → tree sb s1 = ((T.alloc i T_DIR).setNlink i 1).setEnt i 0 (i, dot) := by
      intro hz
      have hk : k = 0 := by
        by_contra hk
        refine hfirst 0 (Nat.pos_of_ne_zero hk) ?_
        rw [htree hz]
        simp
      rw [ht1, hk, htree hz]
    rcases hr with ⟨rfl, hfrees⟩ | ⟨rfl, -, -, k', hempty', hfirst', ht2⟩
    · have hty := h2.inv.type_of_frees mem_cons_self mem_cons_self hfrees
      refine ⟨h1.trans h2, hty.trans (by rw [ht1]; rfl), fun hz => ?_, hkept'⟩
      have hzero1 : (tree sb s1).ZeroHeld := by
        rw [ht1]
        exact hzero hz
      rw [hfrees.eq hzero1, hfst hz, htree hz]
      simp
    · refine ⟨h1.trans h2, by rw [ht2, ht1]; rfl, fun hz => ?_, hkept'⟩
      have hk' : k' = 1 := by
        rw [hfst hz] at hempty' hfirst'
        have h0 : k' ≠ 0 := by
          rintro rfl
          simp only [Tree.setEnt_ent, update_self] at hempty'
          exact hi.1.ne' hempty'
        by_contra hk
        refine hfirst' 1 (by omega) ?_
        simp
      rw [if_pos (by decide), ht2, hk', hfst hz]
      rfl

/-- The tree with a new inode `i` before it has an entry in `d`. -/
def Tree.fresh (T : Tree) (d i t : ℕ) : Tree :=
  if t = T_DIR then T.newDir d i else (T.alloc i t).setNlink i 1

omit hok hl in
lemma Tree.fresh_of_ne (T : Tree) (hj : j ≠ i) :
    (T.fresh d i t).type j = T.type j ∧ (T.fresh d i t).nlink j = T.nlink j ∧ (T.fresh d i t).ent j = T.ent j := by
  unfold Tree.fresh Tree.newDir
  split <;> simp [update_of_ne hj]

omit hok hl in
lemma Tree.fresh_self (T : Tree) (d i t : ℕ) :
    (T.fresh d i t).type i = t ∧ (T.fresh d i t).nlink i = 1 ∧ (T.fresh d i t).held = T.held ∧
      (T.fresh d i t).free i = (T.alloc i t).free i := by
  unfold Tree.fresh Tree.newDir
  split <;> simp [*]

omit hok hl in
lemma Tree.fresh_zeroHeld (h : T.ZeroHeld) (d i t : ℕ) : (T.fresh d i t).ZeroHeld := by
  unfold Tree.fresh
  split
  · exact h.alloc i T_DIR
  · exact h.alloc i t

lemma createEntries_spec (hname : GoodName name) (h : Inv sb (.const Z G) s [(ip, i), (dp, d)] [ip, dp]) (hne : d ≠ i)
    (hT : Z → T.ZeroHeld) (htree : Z → tree sb s = (T.alloc i t).setNlink i 1) :
    wp (createEntries sb dp name ip t) ok (fun r s' =>
      After sb (.const Z G) s [(ip, i), (dp, d)] [ip, dp] s' ∧ (tree sb s').type i = (tree sb s).type i ∧
      (Z → if r = true then ∃ k, T.Vacant d k name ∧ tree sb s' = (T.fresh d i t).setEnt d k (i, name)
        else (tree sb s').free i = (T.alloc i t).free i ∧ (tree sb s').type i = t ∧
          (tree sb s').held = T.held) ∧
      ((Sel.const Z G).All → Kept sb (fun j => j = i ∨ r = true ∧ j = d) s.disk s'.disk)) s := by
  have hi : sb.Inum i := h.inum_of_mem (x := (ip, i)) mem_cons_self
  have hKL : ∀ e' ∈ [ip, dp], ∃ i', (e', i') ∈ [(ip, i), (dp, d)] := by simp
  -- the entry in `d`, after the entries of a new directory
  have hentry : ∀ s1 : State P, After sb (.const Z G) s [(ip, i), (dp, d)] [ip, dp] s1 →
      (tree sb s1).type i = (tree sb s).type i → (Z → tree sb s1 = T.fresh d i t) →
      ((Sel.const Z G).All → Kept sb (fun j => j = i) s.disk s1.disk) →
      wp (do
        let i ← inode ip
        let r ← dirlink sb dp name i.inum
        pure (decide (0 ≤ r))) ok (fun r s' =>
        After sb (.const Z G) s [(ip, i), (dp, d)] [ip, dp] s' ∧ (tree sb s').type i = (tree sb s).type i ∧
        (Z → if r = true then ∃ k, T.Vacant d k name ∧ tree sb s' = (T.fresh d i t).setEnt d k (i, name)
          else (tree sb s').free i = (T.alloc i t).free i ∧ (tree sb s').type i = t ∧
            (tree sb s').held = T.held) ∧
        ((Sel.const Z G).All → Kept sb (fun j => j = i ∨ r = true ∧ j = d) s.disk s'.disk)) s1 := by
    intro s1 h1 hty ht1 hkept1
    have hnum : (s1.ino ip).inum = i := h1.inv.nums (ip, i) mem_cons_self
    have hnum' : (s1.ino dp).inum = d := h1.inv.nums (dp, d) (by simp)
    have hdp : dp ∈ [ip, dp] := by simp
    simp only [inode, wp_bind, wp_read, wp_pure]
    rw [hnum]
    refine (dirlink_spec hok hl h1.inv hdp hKL hname hi).mono ?_
    rintro r s2 ⟨h2, hr, hkept2⟩
    have htd := h1.inv.type_of_locked hdp
    rw [hnum'] at hr htd hkept2
    have hkept : (Sel.const Z G).All → Kept sb (fun j => j = i ∨ decide (0 ≤ r) = true ∧ j = d) s.disk s2.disk := by
      intro hz
      refine ((hkept1 hz).mono fun _ hj => .inl hj).trans ((hkept2 hz).1.mono ?_)
      rintro j ⟨rfl, hj⟩
      exact .inr ⟨by decide, hj⟩
    have hty2 : (tree sb s2).type i = (tree sb s1).type i := by
      rcases hr with ⟨-, hfrees⟩ | ⟨-, -, -, k, -, -, ht2⟩
      · exact h2.inv.type_of_frees mem_cons_self mem_cons_self hfrees
      · rw [ht2]
        rfl
    refine ⟨h1.trans h2, hty2.trans hty, fun hz => ?_, hkept⟩
    obtain ⟨hself1, hself2, hself3, hself4⟩ := T.fresh_self d i t
    obtain ⟨hd1, hd2, hd3⟩ := T.fresh_of_ne (d := d) (t := t) hne
    rcases hr with ⟨rfl, hfrees⟩ | ⟨rfl, hdir, habsent, k, hempty, hfirst, ht2⟩
    · rw [ht1 hz] at hfrees
      rw [hfrees.eq (Tree.fresh_zeroHeld (hT hz) d i t)]
      exact ⟨hself4, hself1, hself3⟩
    · rw [ht1 hz] at habsent hempty hfirst ht2 htd
      unfold Tree.Absent at habsent
      rw [hd3] at habsent hempty hfirst
      refine ⟨k, ⟨?_, habsent, hempty, hfirst⟩, ht2⟩
      rw [← hd1, htd.1, hdir]
  rw [createEntries]
  refine wp_ite.mpr ⟨fun ht => ?_, fun ht => ?_⟩
  · subst ht
    rw [wp_bind]
    refine (dotEntries_spec hok hl h hT htree).mono ?_
    rintro r s1 ⟨h1, hty, hr, hkept1⟩
    cases r with
    | true => exact hentry s1 h1 hty (fun hz => (hr hz).trans (by rw [Tree.fresh, if_pos rfl])) hkept1
    | false =>
      refine ⟨h1, hty, fun hz => ?_, fun hz => (hkept1 hz).mono fun _ hj => .inl hj⟩
      have := hr hz
      rw [htree hz, Tree.setNlink_free] at this
      exact this
  · exact hentry s (After.refl h) rfl (fun hz => (htree hz).trans (by rw [Tree.fresh, if_neg ht])) fun _ => .of_eq rfl

/-! ### `create` -/

section

variable (hname : GoodName name) (hmajor : major < 2 ^ 16) (hminor : minor < 2 ^ 16) (ht : t ≠ 0)

include hname hmajor hminor ht

/-- **`create` with a new inode** `i` of type `t`: it gets its entry in `d`, or it is freed again. -/
lemma createNew_spec (hne : d ≠ i) (h : Inv sb (.without (.const Z G) i) s [(ip, i), (dp, d)] [dp])
    (htree : tree sb s = T.alloc i t) (hfree : T.type i = 0) (hnlink : T.nlink i = 0)
    (hent : T.ent i = fun _ => (0, [])) (hT : Z → T.Calm) :
    wp (createNew sb dp name ip t major minor) ok (fun r s' => s'.proc = s.proc ∧ s'.file = s.file ∧
      (Z → T.Effects (tree sb s')) ∧
      match r with
      | none => After sb (.const Z G) s [] [] s' ∧
          ((Sel.const Z G).All → tree sb s' = T ∧ Kept sb (fun j => j = i) s.disk s'.disk)
      | some e => Inv sb (.const Z G) s' [(e, i)] [e] ∧ (s'.ino e).d.type = t ∧ (Z → (tree sb s').nlink i ≠ 0)) s := by
  have hnum : (s.ino ip).inum = i := h.nums (ip, i) mem_cons_self
  have hpos := h.ref_pos_of_mem (x := (ip, i)) mem_cons_self
  have hmem : (ip, i) ∈ [(ip, i), (dp, d)] ∧ (dp, d) ∈ [(ip, i), (dp, d)] := by simp
  have hneE : ip ≠ dp := h.fst_ne hmem.1 hmem.2 hne.symm
  rw [createNew, wp_bind]
  refine (ilock_exact h hpos (.inl (hok _ (by decide) fun _ => by decide)) (.inr ?_)).mono ?_
  · rw [hnum, htree, Tree.alloc_type, update_self]
    exact ht
  rintro _ s1 ⟨h1, ht1, -, hd1⟩
  have hnum1 : (s1.ino ip).inum = i := h1.inv.nums (ip, i) mem_cons_self
  have hsmall := h1.inv.small_of_locked (e := ip) mem_cons_self
  rw [wp_bind_assoc]
  refine (update_exact hl h1.inv mem_cons_self rfl rfl rfl ?_).mono ?_
  · exact { hsmall with major := hmajor, minor := hminor, nlink := show 1 < 2 ^ 16 by decide }
  rintro _ s2 ⟨h2, ht2, hkept2⟩
  rw [hnum1, ht1, htree] at ht2
  have hinv2 : Inv sb (.const Z G) s2 [(ip, i), (dp, d)] [ip, dp] := by
    apply h2.inv.regain
    rw [ht2, Tree.setNlink_nlink, update_self]
    exact Nat.one_ne_zero
  rw [wp_bind]
  refine (createEntries_spec hok hl hname hinv2 hne (fun hz => (hT hz).zero) fun _ => ht2).mono ?_
  rintro r s3 ⟨h3, hty3, hr, hkept3⟩
  have hproc3 : s3.proc = s.proc := h3.proc.trans (h2.proc.trans h1.proc)
  have hfile3 : s3.file = s.file := h3.file.trans (h2.file.trans h1.file)
  rw [ht2, Tree.setNlink_type, Tree.alloc_type, update_self] at hty3
  have hnum3 : (s3.ino ip).inum = i := h3.inv.nums (ip, i) mem_cons_self
  have hsmall3 := h3.inv.small_of_locked (e := ip) mem_cons_self
  cases r with
  | true =>
    -- the rest after the entries, and possibly the link that `..` is
    have hrest : ∀ s4 : State P, After sb (.const Z G) s3 [(ip, i), (dp, d)] [ip, dp] s4 → (tree sb s4).type i = t →
        (Z → (tree sb s4).nlink i ≠ 0 ∧ ∀ T', (tree sb s4).Frees T' → T.Effect T') →
        wp (do
          iunlockput sb dp
          pure (some ip)) ok (fun r s' => s'.proc = s.proc ∧ s'.file = s.file ∧
          (Z → T.Effects (tree sb s')) ∧
          match r with
          | none => After sb (.const Z G) s [] [] s' ∧
              ((Sel.const Z G).All → tree sb s' = T ∧ Kept sb (fun j => j = i) s.disk s'.disk)
          | some e => Inv sb (.const Z G) s' [(e, i)] [e] ∧ (s'.ino e).d.type = t ∧
              (Z → (tree sb s').nlink i ≠ 0)) s4 := by
      intro s4 h4 hty4 heff
      have hinv4 : Inv sb (.const Z G) s4 [(dp, d), (ip, i)] [dp, ip] :=
        (h4.inv.perm (List.Perm.swap _ _ _)).permK (by simp [or_comm])
      rw [wp_bind]
      refine (iunlockput_spec hl hinv4 (by simpa using hneE.symm)).mono ?_
      rintro _ s5 ⟨h5, hfrees⟩
      have hty5 := h5.inv.type_of_frees (e := ip) mem_cons_self mem_cons_self hfrees
      have hlock5 := h5.inv.type_of_locked (e := ip) mem_cons_self
      rw [h5.inv.nums (ip, i) mem_cons_self, hty5, hty4] at hlock5
      refine ⟨h5.proc.trans (h4.proc.trans hproc3), h5.file.trans (h4.file.trans hfile3), fun hz => ?_,
        h5.inv, hlock5.1.symm, fun hz => ?_⟩
      · obtain ⟨hn, heff⟩ := heff hz
        refine Tree.Effects.single (heff _ hfrees) (h5.inv.zeroHeld_of (fun _ => hz) ?_)
        intro x hx
        rw [mem_singleton.mp hx, (hfrees.of_nlink hn).2.1]
        exact hn
      · have hn := (heff hz).1
        rwa [(hfrees.of_nlink hn).2.1]
    rw [if_pos rfl]
    refine wp_ite.mpr ⟨fun hdir => ?_, fun hdir => ?_⟩
    · subst hdir
      have hnum3' : (s3.ino dp).inum = d := h3.inv.nums (dp, d) (by simp)
      have hdp : dp ∈ [ip, dp] := by simp
      have hsmall3' := h3.inv.small_of_locked hdp
      have hnlink3 := h3.inv.nlink_of_locked hdp
      rw [hnum3'] at hnlink3
      rw [nlinkInc, wp_bind]
      refine (update_spec hl h3.inv hdp rfl rfl rfl ?_).mono ?_
      · exact hsmall3'.setNlink (Nat.mod_lt _ (Nat.two_pow_pos 16))
      rintro _ s4 ⟨h4, ht4⟩
      rw [hnum3'] at ht4
      refine hrest s4 h4 (by rwa [ht4]) fun hz => ?_
      obtain ⟨k, hv, ht3⟩ := hr hz
      have hT' : tree sb s4 = T.mkdir d k i name := by
        have hd := (T.fresh_of_ne (d := d) (t := T_DIR) hne).2.1
        rw [ht3, Tree.setEnt_nlink, hd] at hnlink3
        simp only [← hnlink3] at ht4
        rw [ht4, ht3, Tree.fresh, if_pos rfl]
        rfl
      rw [hT']
      refine ⟨?_, fun T' hfrees => .mkdir hv hname (hinv2.inum_of_mem mem_cons_self).1.ne' hfree hfrees⟩
      simp [Tree.mkdir, Tree.newDir, hne.symm]
    · refine hrest s3 (After.refl h3.inv) hty3 fun hz => ?_
      obtain ⟨k, hv, ht3⟩ := hr hz
      rw [Tree.fresh, if_neg hdir] at ht3
      rw [ht3]
      refine ⟨by simp, fun T' hfrees => ?_⟩
      exact .mknod hv hname (hinv2.inum_of_mem mem_cons_self).1.ne' hfree ht hdir hfrees
  | false =>
    rw [if_neg (by decide), wp_bind_assoc]
    refine (update_exact hl h3.inv mem_cons_self rfl rfl rfl ?_).mono ?_
    · exact hsmall3.setNlink (Nat.two_pow_pos 16)
    rintro _ s4 ⟨h4, ht4, hkept4⟩
    rw [hnum3] at ht4
    rw [wp_bind]
    refine (iunlockput_exact hl h4.inv (by simpa using hneE)).mono ?_
    rintro _ s5 ⟨h5, hfrees5, hd5, -⟩
    -- the directory is as in `T`: if it has no links, it is held
    have ht5 : Z → (tree sb s5).ZeroHeld ∧ tree sb s5 = T := by
      intro hz
      obtain ⟨hback, -, hheld⟩ := hr hz
      rw [Tree.alloc_free hfree hnlink hent] at hback
      have hheld4 : (tree sb s4).held = T.held := by rw [ht4, Tree.setNlink_held, hheld]
      have hdir : (tree sb s4).type d = T.type d ∧ (tree sb s4).nlink d = T.nlink d := by
        rw [ht4, Tree.setNlink_type, Tree.setNlink_nlink, update_of_ne hne, ← hback, Tree.free_type, Tree.free_nlink,
          update_of_ne hne, update_of_ne hne]
        exact ⟨rfl, rfl⟩
      have hzero : (tree sb s5).ZeroHeld := by
        intro j ha hn
        rcases h5.inv.zeroRef (fun _ => hz) j ha hn with hj | ⟨e', he'⟩
        · exact hj
        · obtain rfl : j = d := congrArg Prod.snd (mem_singleton.mp he')
          rcases hfrees5.cases j with ⟨hty, hnl, -⟩ | ⟨-, -, -, h0, -⟩
          · rw [hfrees5.held_eq, hheld4]
            exact (hT hz).zero j (by rwa [← hdir.1, ← hty]) (by rwa [← hdir.2, ← hnl])
          · exact absurd h0 ha
      refine ⟨hzero, hfrees5.undo (hT hz).zero (i := i) ?_ ?_ ?_ ?_ hzero⟩
      · rw [ht4, Tree.setNlink_free, hback]
      · rw [ht4, Tree.setNlink_type, hty3]
        exact ht
      · rw [ht4, Tree.setNlink_nlink, update_self]
      · rw [hheld4]
        exact fun hc => (hT hz).held i hc hfree
    rw [wp_bind]
    refine (iunlockput_exact hl h5.inv (by simp)).mono ?_
    rintro _ s6 ⟨h6, -, -, hstill6⟩
    have hend : Z → tree sb s6 = T ∧ s6.disk = s5.disk := by
      intro hz
      obtain ⟨hzero, ht5⟩ := ht5 hz
      obtain ⟨ht6, hd6⟩ := hstill6 fun j ha hn => .inl (hzero j ha hn)
      exact ⟨ht6.trans ht5, hd6⟩
    have h06 := h1.trans (h2.trans (h3.trans (h4.trans (h5.trans h6))))
    refine ⟨h06.proc, h06.file, fun hz => Tree.Effects.of_eq (hend hz).1, h06, fun hz => ⟨(hend hz.2.1).1, ?_⟩⟩
    have hkept1 : Kept sb (fun j => j = i) s.disk s2.disk := .trans (.of_eq hd1) ((hkept2 hz.1).mono fun _ hj => hj.elim)
    have hkept34 : Kept sb (fun j => j = i) s2.disk s4.disk := by
      refine ((hkept3 hz).mono fun j hj => ?_).trans ((hkept4 hz.1).mono fun _ hj => hj.elim)
      exact hj.resolve_right fun hc => Bool.false_ne_true hc.1
    have hkept5 : Kept sb (fun j => j = i) s4.disk s5.disk := by
      rcases hd5 with hd5 | ⟨a, hset⟩
      · exact .of_eq hd5
      · exact kept_of_setInode hset h4.inv.disk hz.1
    exact hkept1.trans (hkept34.trans (hkept5.trans (.of_eq (hend hz.2.1).2)))

/-- **`create` in a directory** `d`. -/
lemma createIn_spec (ht' : t < 2 ^ 16) (h : Inv sb (.const Z G) s [(dp, d)] []) (hZ : Z → (tree sb s).Calm) :
    wp (createIn sb dp name t major minor) ok (fun r s' => s'.proc = s.proc ∧ s'.file = s.file ∧
      (Z → (tree sb s).Effects (tree sb s')) ∧
      match r with
      | none => Undone sb (.const Z G) s [] [] s'
      | some e => ∃ i, Inv sb (.const Z G) s' [(e, i)] [e] ∧ (t = T_FILE → (s'.ino e).d.type ≠ T_DIR) ∧
          ((tree sb s).Absent d name ∧ (s'.ino e).d.type = t ∧ (tree sb s).type i = 0 ∧ (Z → (tree sb s').nlink i ≠ 0) ∨
            ¬ (tree sb s).Absent d name ∧ Undone sb (.const Z G) s [(e, i)] [e] s')) s := by
  have hpos := h.ref_pos_of_mem (x := (dp, d)) mem_cons_self
  have hnum : (s.ino dp).inum = d := h.nums (dp, d) mem_cons_self
  -- giving a reference back changes nothing
  have hzero : ∀ (s' : State P) (L : List (Fin NINODE × ℕ)), tree sb s' = tree sb s → Z → ZeroRef sb s' L := by
    intro s' L hs' hz
    apply ZeroRef.of_zeroHeld
    rw [hs']
    exact (hZ hz).zero
  rw [createIn, wp_bind]
  refine (ilock_spec hok h hpos).mono ?_
  rintro _ s1 ⟨h1, ht1, -, hd1⟩
  have hnum1 : (s1.ino dp).inum = d := h1.inv.nums (dp, d) mem_cons_self
  have hdp := h1.inv.type_of_locked (e := dp) mem_cons_self
  rw [hnum1] at hdp
  rw [wp_bind]
  refine (dirlookup_spec hok h1.inv mem_cons_self name).mono ?_
  rintro r s2 ⟨-, hr⟩
  cases r with
  | some x =>
    obtain ⟨e, off⟩ := x
    obtain ⟨k, j, -, hj0, hent, h2, ht2, hd2⟩ := hr
    have ht02 := ht2.trans ht1
    rw [hnum1, ht1] at hent
    simp only [wp_bind]
    refine (iunlockput_exact hl (h2.inv.perm (List.Perm.swap _ _ _)) (by simp)).mono ?_
    rintro _ s3 ⟨h3, ht3, -, hstill3⟩
    rw [ht02] at ht3 hstill3
    have hnum3 : (s3.ino e).inum = j := h3.inv.nums (e, j) mem_cons_self
    rw [wp_bind]
    refine (ilock_spec hok h3.inv (h3.inv.ref_pos_of_mem (x := (e, j)) mem_cons_self)).mono ?_
    rintro _ s4 ⟨h4, ht4, -, hd4⟩
    have h04 := h1.trans (h2.trans (h3.trans h4))
    simp only [inode, wp_bind, wp_read, wp_pure]
    refine wp_ite.mpr ⟨fun hty => ?_, fun _ => ?_⟩
    · refine ⟨h04.proc, h04.file, fun hz => Tree.Effects.of_eq (ht4.trans (ht3.eq (hZ hz).zero)), j, h4.inv,
        fun _ hc => ?_, .inr ⟨fun hc => ?_, .of_disk h04 fun hz => ?_⟩⟩
      · rcases hty.2 with hty | hty <;> rw [hty] at hc <;> exact absurd hc (by decide)
      · have := hc k
        rw [hent] at this
        exact this.elim hj0 fun hne => hne rfl
      · obtain ⟨hs3, hd3⟩ := hstill3 (hzero s2 _ ht02 hz.2.1)
        exact ⟨ht4.trans hs3, hd4.trans (hd3.trans (hd2.trans hd1))⟩
    · rw [wp_bind]
      refine (iunlockput_exact hl h4.inv (by simp)).mono ?_
      rintro _ s5 ⟨h5, ht5, -, hstill5⟩
      rw [ht4] at ht5 hstill5
      have h05 := h04.trans h5
      refine ⟨h05.proc, h05.file, fun hz => .frees (ht3.trans ht5) (h5.inv.zeroHeld fun _ => hz), .of_disk h05 fun hz => ?_⟩
      obtain ⟨hs3, hd3⟩ := hstill3 (hzero s2 _ ht02 hz.2.1)
      obtain ⟨hs5, hd5⟩ := hstill5 (hzero s4 _ (ht4.trans hs3) hz.2.1)
      exact ⟨hs5.trans hs3, hd5.trans (hd4.trans (hd3.trans (hd2.trans hd1)))⟩
  | none =>
    obtain ⟨rfl, habsent⟩ := hr
    rename_i s1
    rw [hnum1, ht1] at habsent
    simp only [wp_bind]
    refine ((ialloc_spec hl hok h1.inv ht ht').and (ialloc_kept hl h1.inv hok ht ht')).mono ?_
    rintro r s3 ⟨hr, hkept3⟩
    cases r with
    | none =>
      obtain rfl := hr
      rename_i s1
      simp only [wp_bind]
      refine (iunlockput_exact hl h1.inv (by simp)).mono ?_
      rintro _ s4 ⟨h4, ht4, -, hstill4⟩
      rw [ht1] at ht4 hstill4
      rw [hd1] at hstill4
      exact ⟨h4.proc.trans h1.proc, h4.file.trans h1.file, fun hz => .frees ht4 (h4.inv.zeroHeld fun _ => hz),
        .of_disk (h1.trans h4) fun hz => hstill4 (hzero _ _ ht1 hz.2.1)⟩
    | some ip =>
      obtain ⟨i, hi, hfree, h3, ht3⟩ := hr
      have hne : d ≠ i := by
        rintro rfl
        exact hdp.2 (hdp.1.symm.trans hfree)
      rw [ht1] at hfree ht3
      obtain ⟨hnlink, hent⟩ := tree_of_free hfree
      refine (createNew_spec hok hl hname hmajor hminor ht hne h3.inv ht3 hfree hnlink hent hZ).mono ?_
      rintro r s4 ⟨hproc, hfile, heff, hr⟩
      refine ⟨hproc.trans (h3.proc.trans h1.proc), hfile.trans (h3.file.trans h1.file), heff, ?_⟩
      cases r with
      | none =>
        refine ⟨h1.trans (h3.trans hr.1), fun hz => ⟨(hr.2 hz).1, ?_⟩⟩
        rw [← hd1]
        refine (((hkept3 hz.1).mono fun _ hj => hj.elim).trans ((hr.2 hz).2.mono fun _ hj => .inr hj)).of_free (i := i) ?_
        rw [tree_type, if_pos hi] at hfree
        rwa [hd1]
      | some e =>
        refine ⟨i, hr.1, fun htf hc => ?_, .inl ⟨habsent, hr.2.1, hfree, hr.2.2⟩⟩
        rw [hr.2.1, htf] at hc
        exact absurd hc (by decide)

end

variable (hroot : sb.Inum ROOTINO)

include hroot

/-- **`create`** of a path, by a process that holds its current directory.  A new file needs a directory for it. -/
lemma create_spec {cwd : Fin NINODE} {path : Name} (hpath : GoodPath path) (hmajor : major < 2 ^ 16)
    (hminor : minor < 2 ^ 16) (ht : t ≠ 0) (ht' : t < 2 ^ 16) (h : Inv sb (.const Z G) s [] [])
    (hcwd : 0 < s.holders cwd) (hZ : Z → (tree sb s).Calm) :
    wp (create sb cwd path t major minor) ok (fun r s' => s'.proc = s.proc ∧ s'.file = s.file ∧
      (Z → (tree sb s).Effects (tree sb s')) ∧
      match r with
      | none => Undone sb (.const Z G) s [] [] s'
      | some e => ∃ i, Inv sb (.const Z G) s' [(e, i)] [e] ∧ (t = T_FILE → (s'.ino e).d.type ≠ T_DIR) ∧
          ((Z → (tree sb s).resolve (s.start cwd path) (pieces path) = none ∧
              (tree sb s).resolveParent (s.start cwd path) (pieces path) ≠ none ∧ (tree sb s).type i = 0 ∧
              (tree sb s').nlink i ≠ 0) ∧ (s'.ino e).d.type = t ∨
            (Z → (tree sb s).resolve (s.start cwd path) (pieces path) ≠ none) ∧
              Undone sb (.const Z G) s [(e, i)] [e] s')) s := by
  rw [create, wp_bind, nameiparent]
  refine (namex_spec hok hl hroot true h hcwd hpath).mono ?_
  rintro r s1 ⟨hfrees, hstill, hr⟩
  have hstill' : Z → tree sb s1 = tree sb s ∧ s1.disk = s.disk := fun hz => hstill (h.zeroRef fun _ => hz)
  cases r with
  | none => exact ⟨hr.proc, hr.file, fun hz => .frees hfrees (hr.inv.zeroHeld fun _ => hz),
      .of_disk hr fun hz => hstill' hz.2.1⟩
  | some x =>
    obtain ⟨dp, name⟩ := x
    obtain ⟨hname, d, h1, hdest⟩ := hr
    have hsame : (tree sb s).ZeroHeld → tree sb s1 = tree sb s := fun hz => hfrees.eq hz
    refine (createIn_spec hok hl (hname rfl) hmajor hminor ht ht' h1.inv fun hz => ?_).mono ?_
    · rw [hsame (hZ hz).zero]
      exact hZ hz
    · rintro r s2 ⟨hproc, hfile, heff, hr⟩
      refine ⟨hproc.trans h1.proc, hfile.trans h1.file, fun hz => ?_, ?_⟩
      · rw [← hsame (hZ hz).zero]
        exact heff hz
      · cases r with
        | none => exact (Undone.of_disk h1 fun hz => hstill' hz.2.1).trans hr
        | some e =>
          obtain ⟨i, h2, hnd, hr⟩ := hr
          refine ⟨i, h2, hnd, hr.imp (fun hnew => ⟨fun hz => ?_, hnew.2.1⟩) fun hold => ⟨fun hz hc => ?_,
            (Undone.of_disk h1 fun hz => hstill' hz.2.1).trans hold.2⟩⟩
          · obtain ⟨habsent, -, hfree, hlinked⟩ := hnew
            rw [(hstill' hz).1] at habsent hfree
            have hto := hdest (h.zeroRef fun _ => hz)
            refine ⟨(Tree.resolve_of_walkTo hto).trans (Tree.lookup_of_absent habsent), ?_, hfree, hlinked hz⟩
            rw [← Tree.walkTo_true, hto]
            exact Option.some_ne_none _
          · rw [Tree.resolve_of_walkTo (hdest (h.zeroRef fun _ => hz)), ← (hstill' hz).1] at hc
            exact hold.1 (Tree.absent_of_lookup hc)

end

end Xv6.Fs
