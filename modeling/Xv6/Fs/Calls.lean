import Xv6.Fs.Create

/-!
# System calls

Every call keeps the invariant of the file system, and what it does to the tree is a sequence of
effects.
-/

namespace Xv6.Fs

open Lib Log Function List

variable {P : Type} [Fintype P] {sb : Superblock} {s s1 s' : State P}
  {L : List (Fin NINODE × ℕ)} {K : List (Fin NINODE)} {ok : Stop → Prop} {Z G : Prop}

/-- What a call from `s` has established when it returns. -/
structure Done (sb : Superblock) (Z G : Prop) (s s' : State P) : Prop where
  inv : Inv sb (.const Z G) s' [] []
  files : FilesOk s'
  effects : Z → (tree sb s).Effects (tree sb s')

/-- What a call needs when it starts. -/
structure Ready (sb : Superblock) (Z G : Prop) (s : State P) : Prop where
  inv : Inv sb (.const Z G) s [] []
  files : FilesOk s
  calm : Z → (tree sb s).Calm

/-- The same for a part of a call that changes nothing but references. -/
structure Rested (sb : Superblock) (Z G : Prop) (s s' : State P) : Prop where
  inv : Inv sb (.const Z G) s' [] []
  files : FilesOk s'
  effects : Z → (tree sb s).Rests (tree sb s')

lemma Rested.done (h : Rested sb Z G s s') : Done sb Z G s s' :=
  ⟨h.inv, h.files, fun hz => (h.effects hz).effects⟩

lemma Rested.after (h : Rested sb Z G s1 s') (heff : Z → (tree sb s).Effects (tree sb s1)) : Done sb Z G s s' :=
  ⟨h.inv, h.files, fun hz => (heff hz).rests (h.effects hz)⟩

namespace Done

lemma refl (h : Inv sb (.const Z G) s [] []) (hfiles : FilesOk s) : Done sb Z G s s :=
  ⟨h, hfiles, fun _ => .of_eq rfl⟩

section

variable (h : Inv sb (.const Z G) s' [] []) (hfiles : FilesOk s) (hfile : s'.file = s.file)

include h hfiles hfile

lemma frees (hfrees : (tree sb s).Frees (tree sb s')) : Done sb Z G s s' :=
  ⟨h, hfiles.congr hfile, fun hz => .frees hfrees (h.zeroHeld fun _ => hz)⟩

lemma effect (heff : Z → (tree sb s).Effect (tree sb s')) : Done sb Z G s s' :=
  ⟨h, hfiles.congr hfile, fun hz => .single (heff hz) (h.zeroHeld fun _ => hz)⟩

end

lemma of_eq (h : Done sb Z G s1 s') (heq : Z → tree sb s1 = tree sb s) : Done sb Z G s s' :=
  ⟨h.inv, h.files, fun hz => heq hz ▸ h.effects hz⟩

end Done

variable {e ip dp : Fin NINODE} {i t d j k : ℕ} {name : Name} {p : P}

section

variable (hok : Allowed (.const Z G) ok) (hl : Layout sb)

include hok hl

/-! ### `open` -/

omit hok in
lemma iunlockput_done (h : Inv sb (.const Z G) s [(e, i)] [e]) (hfiles : FilesOk s) : wp (do
      iunlockput sb e
      pure r) ok (fun r' s' => r' = r ∧ Rested sb Z G s s' ∧ After sb (.const Z G) s [] [] s' ∧
        (ZeroRef sb s [] → tree sb s' = tree sb s ∧ s'.disk = s.disk)) s := by
  rw [wp_bind]
  refine (iunlockput_exact hl h (by simp)).mono ?_
  rintro _ s1 ⟨h1, hfrees, -, hstill⟩
  exact ⟨rfl, ⟨h1.inv, hfiles.congr h1.file, fun hz => .frees hfrees (h1.inv.zeroHeld fun _ => hz)⟩, h1, hstill⟩

/-- No file is free, or no descriptor of the process is. -/
def Crowded (s : State P) (p : P) : Prop := (∀ f, (s.file f).ref ≠ 0) ∨ ∀ fd, (s.proc p).ofile fd ≠ none

omit hok in
/-- **From the locked inode on.**  A directory is opened for reading only.  If it fails, only the reference to the inode
is gone. -/
lemma openInode_spec [DecidableEq P] (p : P) {omode : ℕ} (h : Inv sb (.const Z G) s [(e, i)] [e]) (hfiles : FilesOk s)
    (hdir : (s.ino e).d.type = T_DIR → omode = O_RDONLY) :
    wp (openInode sb p e omode) ok (fun r s' => Rested sb Z G s s' ∧ (r = -1 →
      (After sb (.const Z G) s [] [] s' ∧ (ZeroRef sb s [] → tree sb s' = tree sb s ∧ s'.disk = s.disk)) ∧
      ((s.ino e).d.type = T_DEVICE ∨ Crowded s p))) s := by
  have hlocked := h.type_of_locked (e := e) mem_cons_self
  have hnum : (s.ino e).inum = i := h.nums (e, i) mem_cons_self
  rw [hnum] at hlocked
  -- the exits that give the inode back
  have hback : (s.ino e).d.type = T_DEVICE ∨ Crowded s p → wp (do
      iunlockput sb e
      pure (-1)) ok (fun r s' => Rested sb Z G s s' ∧ (r = -1 →
        (After sb (.const Z G) s [] [] s' ∧ (ZeroRef sb s [] → tree sb s' = tree sb s ∧ s'.disk = s.disk)) ∧
        ((s.ino e).d.type = T_DEVICE ∨ Crowded s p))) s := by
    intro hwhy
    refine (iunlockput_done hl h hfiles).mono ?_
    rintro r s' ⟨-, hrested, hafter⟩
    exact ⟨hrested, fun _ => ⟨hafter, hwhy⟩⟩
  simp only [openInode, inode, wp_bind, wp_read, wp_pure]
  refine wp_ite.mpr ⟨fun hdev => hback (.inl hdev.1), fun _ => ?_⟩
  rw [wp_bind]
  refine filealloc_spec.mono ?_
  intro r s1 hr
  cases r with
  | none =>
    obtain ⟨rfl, hfull⟩ := hr
    exact hback (.inr (.inl hfull))
  | some f =>
    obtain ⟨href, rfl⟩ := hr
    set s1 := s.withFile f { s.file f with ref := 1 }
    have hnone : (s.file f).type = .none := hfiles f href
    obtain ⟨h1, ht1⟩ := h.keepFile (f := f) (x := { s.file f with ref := 1 }) rfl rfl rfl
    have hfiles1 : FilesOk s1 := by
      apply hfiles.withFile
      intro h0
      exact absurd h0 Nat.one_ne_zero
    have hnone1 : (s1.file f).type = .none := by
      rw [State.withFile_self]
      exact hnone
    rw [wp_bind]
    refine (fdalloc_spec p f).mono ?_
    intro r s2 hr
    cases r with
    | none =>
      obtain ⟨rfl, hfull⟩ := hr
      rw [wp_bind]
      refine (fileclose_fresh href hnone).mono ?_
      rintro _ s3 rfl
      exact hback (.inr (.inr hfull))
    | some fd =>
      obtain ⟨q, hq, rfl⟩ := hr
      obtain ⟨h2, ht2⟩ := h1.keepProc (p := p) hq
      rw [ht1] at ht2
      simp only [wp_bind]
      -- from here on the reference belongs to the file
      have hvalid := (h.locked e mem_cons_self).2
      obtain ⟨h3, hheld⟩ := h2.openFile (f := f)
        (x := opened e (s.ino e).d omode (s1.file f))
        hnone1 (by unfold opened; simp only; split <;> decide) rfl fun hw => ⟨hvalid, fun hc => by
          rw [hdir hc] at hw
          exact absurd hw (by simp [opened])⟩
      change wp _ ok _ (State.withFile _ f _)
      have hfiles3 : FilesOk ((s1.withProc p q).withFile f
          (opened e (s.ino e).d omode (s1.file f))) := by
        refine FilesOk.withFile hfiles1 fun h0 => ?_
        rw [State.withFile_self] at h0
        exact absurd h0 Nat.one_ne_zero
      have ht3 : tree sb ((s1.withProc p q).withFile f
          (opened e (s.ino e).d omode (s1.file f))) = _ :=
        tree_rehold (s := s1.withProc p q) rfl
      rw [ht2] at ht3 hheld
      -- what remains leaves the tree as it is
      have hrest : ∀ s4 : State P, Inv sb (.const Z G) s4 [] [e] → FilesOk s4 →
          tree sb s4 = tree sb ((s1.withProc p q).withFile f
            (opened e (s.ino e).d omode (s1.file f))) →
          wp (do
            iunlock e
            pure (fd.1 : ℤ)) ok (fun r s' => Rested sb Z G s s' ∧ (r = -1 →
              (After sb (.const Z G) s [] [] s' ∧ (ZeroRef sb s [] → tree sb s' = tree sb s ∧ s'.disk = s.disk)) ∧
              ((s.ino e).d.type = T_DEVICE ∨ Crowded s p))) s4 := by
        intro s4 h4 hfiles4 ht4
        rw [wp_bind]
        refine (iunlock_spec h4 (by simp)).mono ?_
        rintro _ s5 ⟨h5, ht5⟩
        refine ⟨⟨h5.inv, hfiles4.congr h5.file, fun hz => ?_⟩, fun hc => absurd hc (by omega)⟩
        have hzero := h5.inv.zeroHeld fun _ => hz
        rw [ht5, ht4, ht3] at hzero ⊢
        refine .single (fun j hj => (hheld j hj).imp_right fun hji => ?_) (.refl _) hzero
        rw [hji, hlocked.1]
        exact hlocked.2
      refine wp_ite.mpr ⟨fun htrunc => ?_, fun _ => hrest _ h3 hfiles3 rfl⟩
      rw [wp_bind]
      refine (itrunc_inv hl h3 mem_cons_self ?_).mono ?_
      · change (s.ino e).d.type ≠ T_DIR
        rw [htrunc.2]
        decide
      · rintro _ s4 ⟨h4, ht4⟩
        exact hrest s4 h4.inv (hfiles3.congr h4.file) ht4

/-- The path leads nowhere, but to a directory up to its last piece; and an inode is free. -/
def Addable (sb : Superblock) (T : Tree) (i : ℕ) (names : List Name) : Prop :=
  T.resolve i names = none ∧ T.resolveParent i names ≠ none ∧ ∃ j, sb.Inum j ∧ T.type j = 0

/-- `create` returns a file. -/
def Creatable (sb : Superblock) (s : State P) (cwd : Fin NINODE) (path : Name) : Prop :=
  ∃ e s', create sb cwd path T_FILE 0 0 s = .ok (some e, s')

variable (hroot : sb.Inum ROOTINO) {cwd : Fin NINODE} {path : Name} (h : Ready sb Z G s)
  (hcwd : 0 < s.holders cwd)

include hroot h hcwd

lemma namei_spec (hpath : GoodPath path) : wp (namei sb cwd path) ok (fun r s' => (tree sb s).Frees (tree sb s') ∧
      (Z → tree sb s' = tree sb s ∧ s'.disk = s.disk) ∧
      match r with
      | none => After sb (.const Z G) s [] [] s'
      | some e => ∃ i, After sb (.const Z G) s [(e, i)] [] s') s := by
  rw [namei, wp_bind]
  refine (namex_spec hok hl hroot false h.inv hcwd hpath).mono ?_
  rintro r s1 ⟨hfrees, hstill, hr⟩
  refine ⟨hfrees, fun hz => hstill (h.inv.zeroRef fun _ => hz), ?_⟩
  cases r with
  | none => exact hr
  | some x =>
    obtain ⟨-, i, hafter, -⟩ := hr
    exact ⟨i, hafter⟩

/-- **`sys_open`.**  If it fails, nothing has changed, unless the file was created and there was no room to open it. -/
lemma sysOpen_spec [DecidableEq P] (p : P) (hpath : GoodPath path) (omode : ℕ) :
    wp (sysOpen sb p cwd (some path) omode) ok (fun r s' => Done sb Z G s s' ∧ (r = -1 →
      Undone sb (.const Z G) s [] [] s' ∧ (omode &&& O_CREATE ≠ 0 → ¬ Creatable sb s cwd path ∨
        (Z → (tree sb s).resolve (s.start cwd path) (pieces path) ≠ none)) ∨
      omode &&& O_CREATE ≠ 0 ∧ Crowded s p ∧ Creatable sb s cwd path ∧
        (Z → Addable sb (tree sb s) (s.start cwd path) (pieces path) ∧ tree sb s' ≠ tree sb s))) s := by
  have hback : ∀ {s1 s2 : State P} {e : Fin NINODE} {i : ℕ}, Undone sb (.const Z G) s [(e, i)] [e] s1 →
      After sb (.const Z G) s1 [] [] s2 ∧ (ZeroRef sb s1 [] → tree sb s2 = tree sb s1 ∧ s2.disk = s1.disk) →
      Undone sb (.const Z G) s [] [] s2 := by
    intro s1 s2 e i hu hend
    refine hu.trans (.of_disk hend.1 fun hz => hend.2 (.of_zeroHeld ?_))
    rw [(hu.same hz).1]
    exact (h.calm hz.2.1).zero
  rw [sysOpen]
  refine wp_ite.mpr ⟨fun hcreate => ?_, fun hcreate => ?_⟩
  · rw [wp_bind]
    refine (create_spec hok hl hroot hpath (Nat.two_pow_pos 16) (Nat.two_pow_pos 16) (by decide) (by decide)
      h.inv hcwd h.calm).eqn.mono ?_
    rintro r s1 ⟨hrun, hproc, hfile, heff, hr⟩
    cases r with
    | none =>
      refine ⟨⟨hr.after.inv, h.files.congr hfile, heff⟩, fun _ => .inl ⟨hr, fun _ => .inl ?_⟩⟩
      rintro ⟨e, s2, hrun'⟩
      rw [hrun] at hrun'
      cases hrun'
    | some e =>
      obtain ⟨i, h1, hnd, hr⟩ := hr
      refine (openInode_spec hl p h1 (h.files.congr hfile) fun hc => absurd hc (hnd rfl)).mono ?_
      rintro r s2 ⟨hdone, hfail⟩
      refine ⟨hdone.after heff, fun hr1 => ?_⟩
      obtain ⟨hend, hwhy⟩ := hfail hr1
      rcases hr with ⟨hnew, hfty⟩ | hold
      · rw [Crowded, hproc, hfile, hfty] at hwhy
        refine .inr ⟨hcreate, hwhy.resolve_left (by decide), ⟨e, s1, hrun⟩, fun hz => ?_⟩
        obtain ⟨hnone, hparent, hfree, hlinked⟩ := hnew hz
        refine ⟨⟨hnone, hparent, i, h1.inum_of_mem mem_cons_self, hfree⟩, fun hsame => ?_⟩
        -- the inode that was free is still allocated, for it has a link
        have hzero : ZeroRef sb s1 [] := by
          intro j ha hn
          refine (h1.zeroRef (fun _ => hz) j ha hn).imp_right ?_
          rintro ⟨e', hmem⟩
          cases mem_singleton.mp hmem
          exact absurd hn hlinked
        have hlocked := h1.type_of_locked (e := e) mem_cons_self
        rw [h1.nums (e, i) mem_cons_self, ← (hend.2 hzero).1, hsame, hfree] at hlocked
        exact hlocked.2 hlocked.1.symm
      · exact .inl ⟨hback hold.2 hend, fun _ => .inr hold.1⟩
  · rw [wp_bind]
    refine (namei_spec hok hl hroot h hcwd hpath).mono ?_
    rintro r s1 ⟨hfrees, hstill, hr⟩
    cases r with
    | none =>
      exact ⟨.frees hr.inv h.files hr.file hfrees,
        fun _ => .inl ⟨.of_disk hr fun hz => hstill hz.2.1, fun hc => absurd hc hcreate⟩⟩
    | some e =>
      obtain ⟨i, h1⟩ := hr
      have hnum : (s1.ino e).inum = i := h1.inv.nums (e, i) mem_cons_self
      have hpos := h1.inv.ref_pos_of_mem (x := (e, i)) mem_cons_self
      simp only [wp_bind]
      refine (ilock_spec hok h1.inv hpos).mono ?_
      rintro _ s2 ⟨h2, ht2, -, hd2⟩
      have hfiles2 : FilesOk s2 := h.files.congr (h2.file.trans h1.file)
      have heff : Z → (tree sb s).Effects (tree sb s2) := by
        intro hz
        apply Tree.Effects.of_eq
        rw [ht2, hfrees.eq (h.calm hz).zero]
      have hold : Undone sb (.const Z G) s [(e, i)] [e] s2 := by
        refine .of_disk (h1.trans h2) fun hz => ?_
        rw [ht2, hd2]
        exact hstill hz.2.1
      simp only [inode, wp_bind, wp_read, wp_pure]
      refine wp_ite.mpr ⟨fun _ => ?_, fun hmode => ?_⟩
      · refine (iunlockput_done hl h2.inv hfiles2).mono ?_
        rintro r s3 ⟨-, hdone, hend⟩
        exact ⟨hdone.after heff, fun _ => .inl ⟨hback hold hend, fun hc => absurd hc hcreate⟩⟩
      · refine (openInode_spec hl p h2.inv hfiles2 fun hc => ?_).mono ?_
        · by_contra hne
          exact hmode ⟨hc, hne⟩
        · rintro r s3 ⟨hdone, hfail⟩
          exact ⟨hdone.after heff, fun hr1 => .inl ⟨hback hold (hfail hr1).1, fun hc => absurd hc hcreate⟩⟩

/-! ### `mkdir` and `mknod` -/

lemma makeNode_spec (hpath : GoodPath path) {major minor : ℕ} (hmajor : major < 2 ^ 16) (hminor : minor < 2 ^ 16)
    (ht : t ≠ 0) (ht' : t < 2 ^ 16) :
    wp (makeNode sb cwd (some path) t major minor) ok (fun r s' => Done sb Z G s s' ∧
      (r = -1 → Undone sb (.const Z G) s [] [] s')) s := by
  rw [makeNode, wp_bind]
  refine (create_spec hok hl hroot hpath hmajor hminor ht ht' h.inv hcwd h.calm).mono ?_
  rintro r s1 ⟨-, hfile, heff, hr⟩
  cases r with
  | none => exact ⟨⟨hr.after.inv, h.files.congr hfile, heff⟩, fun _ => hr⟩
  | some e =>
    obtain ⟨i, h1, -⟩ := hr
    refine (iunlockput_done hl h1 (h.files.congr hfile)).mono ?_
    rintro r s2 ⟨rfl, hdone, -⟩
    exact ⟨hdone.after heff, fun hc => absurd hc (by decide)⟩

/-! ### `link` -/

lemma linkOld_spec (hpath : GoodPath path) : wp (linkOld sb cwd path) ok (fun r s' =>
      match r with
      | none => Undone sb (.const Z G) s [] [] s' ∧ (tree sb s).Frees (tree sb s')
      | some e => ∃ i, After sb (.const Z G) s [(e, i)] [] s' ∧ ∃ T0, (tree sb s).Frees T0 ∧
          T0.type i ≠ 0 ∧ T0.type i ≠ T_DIR ∧ tree sb s' = T0.incNlink i ∧ T0.nlink i < 2 ^ 16 ∧
          ((Sel.const Z G).All → Kept sb (fun _ => False) s.disk s'.disk)) s := by
  rw [linkOld, wp_bind]
  refine (namei_spec hok hl hroot h hcwd hpath).mono ?_
  rintro r s1 ⟨hfrees, hstill, hr⟩
  cases r with
  | none => exact ⟨.of_disk hr fun hz => hstill hz.2.1, hfrees⟩
  | some e =>
    obtain ⟨i, h1⟩ := hr
    have hnum : (s1.ino e).inum = i := h1.inv.nums (e, i) mem_cons_self
    have hpos := h1.inv.ref_pos_of_mem (x := (e, i)) mem_cons_self
    simp only [wp_bind]
    refine (ilock_spec hok h1.inv hpos).mono ?_
    rintro _ s2 ⟨h2, ht2, -, hd2⟩
    have hnum2 : (s2.ino e).inum = i := h2.inv.nums (e, i) mem_cons_self
    have hlocked := h2.inv.type_of_locked (e := e) mem_cons_self
    have hnlink := h2.inv.nlink_of_locked (e := e) mem_cons_self
    have hsmall := h2.inv.small_of_locked (e := e) mem_cons_self
    rw [hnum2] at hlocked hnlink
    simp only [inode, wp_bind, wp_read, wp_pure]
    refine wp_ite.mpr ⟨fun _ => ?_, fun hdir => ?_⟩
    · rw [wp_bind]
      refine (iunlockput_exact hl h2.inv (by simp)).mono ?_
      rintro _ s3 ⟨h3, hfrees3, -, hstill3⟩
      rw [ht2] at hfrees3 hstill3
      rw [hd2] at hstill3
      refine ⟨.of_disk (h1.trans (h2.trans h3)) fun hz => ?_, hfrees.trans hfrees3⟩
      obtain ⟨ht1, hd1⟩ := hstill hz.2.1
      have hzero : ZeroRef sb s2 [] := (h.inv.zeroRef hz.2.2).congr (ht2.trans ht1)
      exact ⟨(hstill3 hzero).1.trans ht1, (hstill3 hzero).2.trans hd1⟩
    · rw [nlinkInc, wp_bind]
      refine (update_exact hl h2.inv mem_cons_self rfl rfl rfl ?_).mono ?_
      · exact hsmall.setNlink (Nat.mod_lt _ (Nat.two_pow_pos 16))
      rintro _ s3 ⟨h3, ht3, hkept3⟩
      rw [wp_bind]
      refine (iunlock_exact h3.inv (by simp)).mono ?_
      rintro _ s4 ⟨h4, ht4, hd4⟩
      refine ⟨i, h1.trans (h2.trans (h3.trans h4)), tree sb s2, ?_, ?_, ?_, ?_, ?_, fun hz => ?_⟩
      · rw [ht2]
        exact hfrees
      · rw [hlocked.1]
        exact hlocked.2
      · rw [hlocked.1]
        exact hdir
      · rw [ht4, ht3, hnum2, ← hnlink]
        rfl
      · rw [hnlink]
        exact hsmall.nlink
      · rw [hd4, ← (hstill hz.2.1).2, ← hd2]
        exact hkept3 hz.1

omit hroot h hcwd in
lemma linkBad_spec (h : Inv sb (.const Z G) s [(e, i)] []) :
    wp (linkBad sb e) ok (fun r s' => r = -1 ∧ After sb (.const Z G) s [] [] s' ∧
      ((tree sb s).decNlink i).Frees (tree sb s') ∧ ((Sel.const Z G).All → ((tree sb s).decNlink i).ZeroHeld →
        tree sb s' = (tree sb s).decNlink i ∧ Kept sb (fun _ => False) s.disk s'.disk)) s := by
  have hnum : (s.ino e).inum = i := h.nums (e, i) mem_cons_self
  have hpos := h.ref_pos_of_mem (x := (e, i)) mem_cons_self
  rw [linkBad, wp_bind]
  refine (ilock_spec hok h hpos).mono ?_
  rintro _ s1 ⟨h1, ht1, -, hd1⟩
  have hnum1 : (s1.ino e).inum = i := h1.inv.nums (e, i) mem_cons_self
  have hnlink := h1.inv.nlink_of_locked (e := e) mem_cons_self
  have hsmall := h1.inv.small_of_locked (e := e) mem_cons_self
  rw [hnum1] at hnlink
  rw [nlinkDec, wp_bind]
  refine (update_exact hl h1.inv mem_cons_self rfl rfl rfl ?_).mono ?_
  · exact hsmall.setNlink (Nat.mod_lt _ (Nat.two_pow_pos 16))
  rintro _ s2 ⟨h2, ht2, hkept2⟩
  rw [wp_bind]
  refine (iunlockput_exact hl h2.inv (by simp)).mono ?_
  rintro _ s3 ⟨h3, hfrees, -, hstill⟩
  have ht02 : tree sb s2 = (tree sb s).decNlink i := by
    rw [ht2, hnum1, ← hnlink, ht1]
    rfl
  rw [ht02] at hfrees
  refine ⟨rfl, h1.trans (h2.trans h3), hfrees, fun hz hzero => ?_⟩
  obtain ⟨ht3, hd3⟩ := hstill fun j ha hn => .inl (by rw [ht02] at ha hn ⊢; exact hzero j ha hn)
  exact ⟨ht3.trans ht02, .trans (.of_eq hd1) ((hkept2 hz.1).trans (.of_eq hd3))⟩

omit hroot h hcwd in
lemma linkIn_spec (hname : GoodName name) (h : Inv sb (.const Z G) s [(dp, d), (ip, i)] []) :
    wp (linkIn sb ip dp name) ok (fun r s' => After sb (.const Z G) s [] [] s' ∧
      ((r = -1 ∧ (∃ T1, (tree sb s).Frees T1 ∧ (T1.decNlink i).Frees (tree sb s')) ∧
          ((Sel.const Z G).All → ZeroRef sb s [(ip, i)] → ((tree sb s).decNlink i).ZeroHeld →
            tree sb s' = (tree sb s).decNlink i ∧ Kept sb (fun _ => False) s.disk s'.disk)) ∨
        (r = 0 ∧ ∃ k, (tree sb s).Vacant d k name ∧ ((tree sb s).setEnt d k (i, name)).Frees (tree sb s')))) s := by
  have hnum : (s.ino dp).inum = d := h.nums (dp, d) mem_cons_self
  have hpos := h.ref_pos_of_mem (x := (dp, d)) mem_cons_self
  rw [linkIn, wp_bind]
  refine (ilock_spec hok h hpos).mono ?_
  rintro _ s1 ⟨h1, ht1, -, hd1⟩
  have hnum1 : (s1.ino dp).inum = d := h1.inv.nums (dp, d) mem_cons_self
  have hnum1' : (s1.ino ip).inum = i := h1.inv.nums (ip, i) (by simp)
  have hinum : sb.Inum i := h1.inv.inum_of_mem (x := (ip, i)) (by simp)
  have hlocked := h1.inv.type_of_locked (e := dp) mem_cons_self
  simp only [inode, wp_bind, wp_read, wp_pure]
  rw [hnum1']
  refine (dirlink_spec hok hl h1.inv mem_cons_self (by simp) hname hinum).mono ?_
  rintro r s2 ⟨h2, hr, hkept2⟩
  rw [hnum1] at hr hlocked
  rcases hr with ⟨rfl, hfrees⟩ | ⟨rfl, hdir, habsent, k, hempty, hfirst, ht2⟩
  · rw [if_pos (by decide), wp_bind]
    refine (iunlockput_exact hl h2.inv (by simp)).mono ?_
    rintro _ s3 ⟨h3, hfrees3, -, hstill3⟩
    rw [ht1] at hfrees
    have hfrees' := hfrees.trans hfrees3
    refine (linkBad_spec hok hl h3.inv).mono ?_
    · rintro _ s4 ⟨rfl, h4, hfrees4, hstill4⟩
      refine ⟨h1.trans (h2.trans (h3.trans h4)), .inl ⟨rfl, ⟨_, hfrees', hfrees4⟩, fun hz hzref hzero => ?_⟩⟩
      have ht02 : tree sb s2 = tree sb s := ((hkept2 hz).2 (by decide)).trans ht1
      obtain ⟨ht3, hd3⟩ := hstill3 (hzref.congr ht02)
      have ht03 := ht3.trans ht02
      rw [ht03] at hstill4
      obtain ⟨ht4, hkept4⟩ := hstill4 hz hzero
      have hkept : Kept sb (fun _ => False) s1.disk s2.disk := (hkept2 hz).1.mono fun _ hj => absurd hj.1 (by decide)
      exact ⟨ht4, .trans (.of_eq hd1) (hkept.trans (.trans (.of_eq hd3) hkept4))⟩
  · rw [if_neg (by decide), wp_bind]
    refine (iunlockput_spec hl h2.inv (by simp)).mono ?_
    rintro _ s3 ⟨h3, hfrees3⟩
    rw [wp_bind]
    refine (iput_spec hl h3.inv (by rintro ⟨⟩)).mono ?_
    rintro _ s4 ⟨h4, hfrees4⟩
    rw [ht1] at habsent hempty hfirst ht2 hlocked
    rw [ht2] at hfrees3
    exact ⟨h1.trans (h2.trans (h3.trans h4)),
      .inr ⟨rfl, k, ⟨by rw [hlocked.1, hdir], habsent, hempty, hfirst⟩, hfrees3.trans hfrees4⟩⟩

omit [Fintype P] hok hl hroot h hcwd in
lemma Tree.decNlink_incNlink {T : Tree} (h : T.nlink i < 2 ^ 16) : (T.incNlink i).decNlink i = T := by
  refine Tree.ext rfl (funext fun j => ?_) rfl rfl
  unfold Tree.decNlink Tree.incNlink
  simp only [Tree.setNlink_nlink, update_self, update_idem]
  rw [show ((T.nlink i + 1) % 2 ^ 16 + (2 ^ 16 - 1)) % 2 ^ 16 = T.nlink i by omega, update_eq_self]

lemma sysLink_spec {new : Name} (hpath : GoodPath path) (hnew : GoodPath new) :
    wp (sysLink sb cwd (some path) (some new)) ok (fun r s' => Done sb Z G s s' ∧
      (r = -1 → Undone sb (.const Z G) s [] [] s')) s := by
  rw [sysLink, wp_bind]
  refine (linkOld_spec hok hl hroot h hcwd hpath).mono ?_
  intro r s1 hr
  cases r with
  | none =>
    obtain ⟨h1, hfrees⟩ := hr
    exact ⟨.frees h1.after.inv h.files h1.after.file hfrees, fun _ => h1⟩
  | some e =>
    obtain ⟨i, h1, T0, hfrees, ha, hdir, ht1, hn, hkept1⟩ := hr
    have hi0 : i ≠ 0 := (h1.inv.inum_of_mem (x := (e, i)) mem_cons_self).1.ne'
    have hcwd1 : 0 < s1.holders cwd := by rwa [holders_congr h1.proc h1.file]
    rw [wp_bind, nameiparent]
    refine (namex_spec hok hl hroot true h1.inv hcwd1 hnew).mono ?_
    rintro r s2 ⟨hfrees2, hstill2, hr⟩
    -- the link that is taken back leaves the tree as it was
    have hback : (Sel.const Z G).All → (tree sb s2).decNlink i = tree sb s ∧
        ((tree sb s2).decNlink i).ZeroHeld ∧ ZeroRef sb s2 [(e, i)] ∧ Kept sb (fun _ => False) s.disk s2.disk := by
      intro hz
      have hzref := h1.inv.zeroRef hz.2.2
      obtain ⟨ht2, hd2⟩ := hstill2 hzref
      have hdec : (tree sb s2).decNlink i = tree sb s := by
        rw [ht2, ht1, Tree.decNlink_incNlink hn]
        exact hfrees.eq (h.calm hz.2.1).zero
      exact ⟨hdec, hdec ▸ (h.calm hz.2.1).zero, hzref.congr ht2, (hkept1 hz).trans (.of_eq hd2)⟩
    rw [ht1] at hfrees2
    cases r with
    | none =>
      refine (linkBad_spec hok hl hr.inv).mono ?_
      rintro _ s3 ⟨-, h3, hfrees3, hstill3⟩
      have h03 := h1.trans (hr.trans h3)
      refine ⟨.effect h3.inv h.files h03.file fun hz => ?_, fun _ => ⟨h03, fun hz => ?_⟩⟩
      · obtain rfl := hfrees.eq (h.calm hz).zero
        exact .linkFail ha hfrees2 hfrees3
      · obtain ⟨hdec, hzero, -, hkept⟩ := hback hz
        obtain ⟨ht3, hkept3⟩ := hstill3 hz hzero
        exact ⟨ht3.trans hdec, hkept.trans hkept3⟩
    | some x =>
      obtain ⟨dp, name⟩ := x
      obtain ⟨hname, d, h2, -⟩ := hr
      refine (linkIn_spec hok hl (hname rfl) h2.inv).mono ?_
      rintro _ s3 ⟨h3, heff⟩
      have h03 := h1.trans (h2.trans h3)
      rcases heff with ⟨rfl, ⟨T1, hfrees3, hfrees4⟩, hstill3⟩ | ⟨rfl, k, hv, hfrees3⟩
      · refine ⟨.effect h3.inv h.files h03.file fun hz => ?_, fun _ => ⟨h03, fun hz => ?_⟩⟩
        · obtain rfl := hfrees.eq (h.calm hz).zero
          exact .linkFail ha (hfrees2.trans hfrees3) hfrees4
        · obtain ⟨hdec, hzero, hzref, hkept⟩ := hback hz
          obtain ⟨ht3, hkept3⟩ := hstill3 hz hzref hzero
          exact ⟨ht3.trans hdec, hkept.trans hkept3⟩
      · refine ⟨.effect h3.inv h.files h03.file fun hz => ?_, fun hc => absurd hc (by decide)⟩
        obtain rfl := hfrees.eq (h.calm hz).zero
        exact .link hi0 ha hdir hfrees2 hv (hname rfl) hfrees3

/-! ### `unlink` -/

omit hroot h hcwd in
lemma removeEntry_spec (h : Inv sb (.const Z G) s [(ip, j), (dp, d)] [ip, dp]) (hfiles : FilesOk s)
    (hr : (tree sb s).Removable d k j name) (ht : (tree sb s).type j = t)
    (hempty : t = T_DIR → ∀ k', 2 ≤ k' → ((tree sb s).ent j k').1 = 0) :
    wp (removeEntry sb dp ip (16 * k) t) ok (fun r s' => Done sb Z G s s' ∧ r = 0) s := by
  have hdp : dp ∈ [ip, dp] := by simp
  have hnum : (s.ino dp).inum = d := h.nums (dp, d) (by simp)
  have hmem : (ip, j) ∈ [(ip, j), (dp, d)] ∧ (dp, d) ∈ [(ip, j), (dp, d)] := by simp
  have hneE : ip ≠ dp := h.fst_ne hmem.1 hmem.2 hr.ne.symm
  have htd := h.type_of_locked hdp
  rw [hnum, hr.dir] at htd
  have hpos : 0 < sb.ninodes := (h.inum_of_mem hmem.1).1.trans (h.inum_of_mem hmem.1).2
  rw [removeEntry, wp_bind]
  refine (writei_dirent hl h hdp htd.1.symm (fun _ => rfl) k (x := (0, [])) (by decide) hpos).mono ?_
  rintro w s1 ⟨h1, hw⟩
  refine wp_ite.mpr ⟨fun _ => hok _ (by decide) fun _ => by decide, fun hw16 => ?_⟩
  have ht1 : tree sb s1 = (tree sb s).setEnt d k (0, []) := by
    rcases hw with ⟨hw, -⟩ | ⟨-, ht1⟩
    · exact absurd hw hw16
    · rwa [hnum] at ht1
  -- the end of the call, from the tree `U` without the entry
  have hrest : ∀ (s2 : State P) (U : Tree), After sb (.const Z G) s1 [(ip, j), (dp, d)] [ip, dp] s2 →
      tree sb s2 = U → (∀ T1 T', U.Frees T1 → (T1.decNlink j).Frees T' → (tree sb s).Effect T') →
      wp (do
        iunlockput sb dp
        nlinkDec sb ip
        iunlockput sb ip
        pure (0 : ℤ)) ok (fun r s' => Done sb Z G s s' ∧ r = 0) s2 := by
    intro s2 U h2 ht2 heff
    have hinv2 : Inv sb (.const Z G) s2 [(dp, d), (ip, j)] [dp, ip] :=
      (h2.inv.perm (List.Perm.swap _ _ _)).permK (by simp [or_comm])
    rw [wp_bind]
    refine (iunlockput_spec hl hinv2 (by simpa using hneE.symm)).mono ?_
    rintro _ s3 ⟨h3, hfrees3⟩
    have hnum3 : (s3.ino ip).inum = j := h3.inv.nums (ip, j) mem_cons_self
    have hnlink := h3.inv.nlink_of_locked (e := ip) mem_cons_self
    have hsmall := h3.inv.small_of_locked (e := ip) mem_cons_self
    rw [hnum3] at hnlink
    rw [nlinkDec, wp_bind]
    refine (update_spec hl h3.inv mem_cons_self rfl rfl rfl ?_).mono ?_
    · exact hsmall.setNlink (Nat.mod_lt _ (Nat.two_pow_pos 16))
    rintro _ s4 ⟨h4, ht4⟩
    rw [hnum3, ← hnlink] at ht4
    rw [wp_bind]
    refine (iunlockput_spec hl h4.inv (by simp)).mono ?_
    rintro _ s5 ⟨h5, hfrees5⟩
    rw [ht2] at hfrees3
    rw [ht4] at hfrees5
    refine ⟨.effect h5.inv hfiles ?_ fun _ => heff _ _ hfrees3 hfrees5, rfl⟩
    exact h5.file.trans (h4.file.trans (h3.file.trans (h2.file.trans h1.file)))
  refine wp_ite.mpr ⟨fun hdir => ?_, fun hdir => ?_⟩
  · have hnum1 : (s1.ino dp).inum = d := h1.inv.nums (dp, d) (by simp)
    have hnlink := h1.inv.nlink_of_locked hdp
    have hsmall := h1.inv.small_of_locked hdp
    rw [hnum1] at hnlink
    rw [nlinkDec, wp_bind]
    refine (update_spec hl h1.inv hdp rfl rfl rfl ?_).mono ?_
    · exact hsmall.setNlink (Nat.mod_lt _ (Nat.two_pow_pos 16))
    rintro _ s2 ⟨h2, ht2⟩
    rw [hnum1, ← hnlink, ht1] at ht2
    refine hrest s2 _ h2 ht2 fun T1 T' hfrees hfrees' => ?_
    exact .rmdir hr (ht.trans hdir) (hempty hdir) hfrees hfrees'
  · refine hrest s1 _ (After.refl h1.inv) ht1 fun T1 T' hfrees hfrees' => ?_
    exact .unlink hr (by rwa [ht]) hfrees hfrees'

omit hroot h hcwd in
lemma unlinkEntry_spec (h : Inv sb (.const Z G) s [(ip, j), (dp, d)] [dp]) (hfiles : FilesOk s)
    (hdir : (tree sb s).type d = T_DIR) (hent : (tree sb s).ent d k = (j, name)) (hj : j ≠ 0) (hdot : name ≠ dot)
    (hdotdot : name ≠ dotdot) (hzero : Z → (tree sb s).ZeroHeld) :
    wp (unlinkEntry sb dp ip (16 * k)) ok (fun r s' => Done sb Z G s s' ∧
      (r = -1 → Undone sb (.const Z G) s [] [] s')) s := by
  have hnum : (s.ino ip).inum = j := h.nums (ip, j) mem_cons_self
  have hpos := h.ref_pos_of_mem (x := (ip, j)) mem_cons_self
  rw [unlinkEntry, wp_bind]
  refine (ilock_spec hok h hpos).mono ?_
  rintro _ s1 ⟨h1, ht1, hnotin, hd1⟩
  have hneE : ip ≠ dp := fun hc => hnotin (by simp [hc])
  have hnum1 : (s1.ino ip).inum = j := h1.inv.nums (ip, j) mem_cons_self
  have hnum1' : (s1.ino dp).inum = d := h1.inv.nums (dp, d) (by simp)
  have hne : d ≠ j := by
    intro hc
    refine hneE (h1.inv.uniq ip dp (h1.inv.locked ip (by simp)).1 (h1.inv.locked dp (by simp)).1 ?_)
    rw [hnum1, hnum1', hc]
  have hty := h1.inv.type_of_locked (e := ip) mem_cons_self
  have hnlink := h1.inv.nlink_of_locked (e := ip) mem_cons_self
  rw [hnum1] at hty hnlink
  have hfiles1 : FilesOk s1 := hfiles.congr h1.file
  have hback : ∀ s' : State P, Done sb Z G s1 s' → Done sb Z G s s' :=
    fun s' hdone => hdone.of_eq fun _ => ht1
  simp only [inode, wp_bind, wp_read, wp_pure]
  refine wp_ite.mpr ⟨fun _ => hok _ (by decide) fun _ => by decide, fun hlinks => ?_⟩
  have hremovable : (tree sb s1).Removable d k j name := by
    refine ⟨by rw [ht1]; exact hdir, by rw [ht1]; exact hent, hj, hne, hdot, hdotdot, ?_, ?_⟩
    · rw [hnlink]
      omega
    · rw [hty.1]
      exact hty.2
  refine wp_ite.mpr ⟨fun hd => ?_, fun hd => ?_⟩
  · rw [wp_bind]
    refine (isdirempty_spec (fun _ => hok _ (by decide) fun _ => by decide)
      (fun hs => hok _ (by decide) fun hc => absurd hc hs) h1.inv mem_cons_self hd).mono ?_
    rintro r _ ⟨rfl, hempty⟩
    rename_i s1
    cases r with
    | false =>
      rw [if_pos (by decide), wp_bind]
      refine (iunlockput_exact hl h1.inv hnotin).mono ?_
      rintro _ s3 ⟨h3, hfrees3, -, hstill3⟩
      rw [wp_bind]
      refine (iunlockput_exact hl h3.inv (by simp)).mono ?_
      rintro _ s4 ⟨h4, hfrees4, -, hstill4⟩
      refine ⟨hback _ (.frees h4.inv hfiles1 (h4.file.trans h3.file) (hfrees3.trans hfrees4)), fun _ =>
        .of_disk (h1.trans (h3.trans h4)) fun hz => ?_⟩
      have hzref : ZeroRef sb _ [] := fun j ha hn => .inl (hzero hz.2.1 j ha hn)
      obtain ⟨ht3, hd3⟩ := hstill3 ((hzref.congr ht1).cons _)
      obtain ⟨ht4, hd4⟩ := hstill4 (hzref.congr (ht3.trans ht1))
      exact ⟨ht4.trans (ht3.trans ht1), hd4.trans (hd3.trans hd1)⟩
    | true =>
      rw [if_neg (by decide)]
      refine (removeEntry_spec hok hl h1.inv hfiles1 hremovable hty.1 fun _ k' hk' => ?_).mono ?_
      · have := hempty.mp rfl k' hk'
        rwa [hnum1] at this
      · rintro _ s' ⟨hdone, rfl⟩
        exact ⟨hback s' hdone, fun hc => absurd hc (by decide)⟩
  · rw [wp_bind, wp_pure, if_neg (by decide)]
    refine (removeEntry_spec hok hl h1.inv hfiles1 hremovable hty.1 fun hc => absurd hc hd).mono ?_
    rintro _ s' ⟨hdone, rfl⟩
    exact ⟨hback s' hdone, fun hc => absurd hc (by decide)⟩

lemma sysUnlink_spec (hpath : GoodPath path) : wp (sysUnlink sb cwd (some path)) ok (fun r s' => Done sb Z G s s' ∧
      (r = -1 → Undone sb (.const Z G) s [] [] s')) s := by
  rw [sysUnlink, wp_bind, nameiparent]
  refine (namex_spec hok hl hroot true h.inv hcwd hpath).mono ?_
  rintro r s1 ⟨hfrees, hstill, hr⟩
  have hstill1 : Z → tree sb s1 = tree sb s ∧ s1.disk = s.disk := fun hz => hstill (h.inv.zeroRef fun _ => hz)
  cases r with
  | none => exact ⟨.frees hr.inv h.files hr.file hfrees, fun _ => .of_disk hr fun hz => hstill1 hz.2.1⟩
  | some x =>
    obtain ⟨dp, name⟩ := x
    obtain ⟨-, d, h1, -⟩ := hr
    have hnum : (s1.ino dp).inum = d := h1.inv.nums (dp, d) mem_cons_self
    have hpos := h1.inv.ref_pos_of_mem (x := (dp, d)) mem_cons_self
    simp only [wp_bind]
    refine (ilock_spec hok h1.inv hpos).mono ?_
    rintro _ s2 ⟨h2, ht2, -, hd2⟩
    have hfiles2 : FilesOk s2 := h.files.congr (h2.file.trans h1.file)
    have heq : Z → tree sb s2 = tree sb s := fun hz => ht2.trans (hstill1 hz).1
    have hundone : Undone sb (.const Z G) s [(dp, d)] [dp] s2 :=
      .of_disk (h1.trans h2) fun hz => ⟨heq hz.2.1, hd2.trans (hstill1 hz.2.1).2⟩
    have hback : wp (do
        iunlockput sb dp
        pure (-1 : ℤ)) ok (fun r s' => Done sb Z G s s' ∧ (r = -1 → Undone sb (.const Z G) s [] [] s')) s2 := by
      refine (iunlockput_done hl h2.inv hfiles2).mono ?_
      rintro _ s3 ⟨-, hdone, h3, hstill3⟩
      refine ⟨hdone.done.of_eq heq, fun _ => hundone.trans (.of_disk h3 fun hz => hstill3 ?_)⟩
      exact (h.inv.zeroRef hz.2.2).congr (heq hz.2.1)
    refine wp_ite.mpr ⟨fun _ => hback, fun hdots => ?_⟩
    rw [wp_bind]
    have hnum2 : (s2.ino dp).inum = d := h2.inv.nums (dp, d) mem_cons_self
    have hty := h2.inv.type_of_locked (e := dp) mem_cons_self
    rw [hnum2] at hty
    refine (dirlookup_spec hok h2.inv mem_cons_self name).mono ?_
    rintro r s3 ⟨hdir, hr⟩
    cases r with
    | none =>
      obtain ⟨rfl, -⟩ := hr
      exact hback
    | some x =>
      obtain ⟨ip, off⟩ := x
      obtain ⟨k, j, rfl, hj, hent, h3, ht3, hd3⟩ := hr
      rw [hnum2] at hent
      refine (unlinkEntry_spec hok hl (k := k) h3.inv (hfiles2.congr h3.file) (by rw [ht3, hty.1, hdir])
        (by rwa [ht3]) hj (fun hc => hdots (.inl hc)) (fun hc => hdots (.inr hc)) fun hz => ?_).mono ?_
      · rw [ht3, heq hz]
        exact (h.calm hz).zero
      · rintro r s' ⟨hdone, hfail⟩
        refine ⟨hdone.of_eq fun hz => ht3.trans (heq hz), fun hr => ?_⟩
        exact hundone.trans (.trans (.of_disk h3 fun _ => ⟨ht3, hd3⟩) (hfail hr))

/-! ### `chdir`, `close`, `write` and `exit` -/

omit hok hroot h hcwd in
/-- A process drops its current directory and takes over a reference `L'` of the call, if any.  The
code gives the old reference back first; `iput` does not look at processes. -/
lemma leaveCwd_spec [DecidableEq P] {cwd : Fin NINODE} (h : Inv sb (.const Z G) s L' []) (hfiles : FilesOk s)
    (hcwd : (s.proc p).cwd = some cwd)
    (hg : ∀ e, (if (g (s.proc p)).cwd = some e then 1 else 0) = (L'.map Prod.fst).count e)
    (hL : ∀ x ∈ L', (tree sb s).type x.2 ≠ 0) :
    wp (do
      iput sb cwd
      setProc p g
      pure r) ok (fun _ s' => Rested sb Z G s s') s := by
  simp only [wp_bind, setProc]
  refine (commutes_iput sb p g cwd).wp_iff.mpr ?_
  obtain ⟨h1, hheld⟩ := h.moveCwd (L := []) (q := g (s.proc p)) hcwd (by simpa using hg) (by simp)
  refine (iput_spec hl h1 (by rintro ⟨⟩)).mono ?_
  rintro _ s2 ⟨h2, hfrees⟩
  refine ⟨h2.inv, hfiles.congr h2.file, fun hz => ?_⟩
  have ht1 : tree sb (s.withProc p (g (s.proc p))) = _ := tree_rehold (s := s) rfl
  rw [ht1] at hfrees
  refine .single (fun j hj => (hheld j hj).imp_right ?_) hfrees (h2.inv.zeroHeld fun _ => hz)
  rintro ⟨x, hx, rfl⟩
  exact hL x hx

omit hcwd in
lemma sysChdir_spec [DecidableEq P] (hp : (s.proc p).cwd = some cwd) (hpath : GoodPath path) :
    wp (sysChdir sb p cwd (some path)) ok (fun _ s' => Done sb Z G s s') s := by
  have hcwd : 0 < s.holders cwd := holders_pos_of_cwd hp
  rw [sysChdir, wp_bind]
  refine (namei_spec hok hl hroot h hcwd hpath).mono ?_
  rintro r s1 ⟨hfrees, -, hr⟩
  cases r with
  | none => exact .frees hr.inv h.files hr.file hfrees
  | some e =>
    obtain ⟨i, h1⟩ := hr
    have hnum : (s1.ino e).inum = i := h1.inv.nums (e, i) mem_cons_self
    have hpos := h1.inv.ref_pos_of_mem (x := (e, i)) mem_cons_self
    simp only [wp_bind]
    refine (ilock_spec hok h1.inv hpos).mono ?_
    rintro _ s2 ⟨h2, ht2, -⟩
    have hfiles2 : FilesOk s2 := h.files.congr (h2.file.trans h1.file)
    have heff : Z → (tree sb s).Effects (tree sb s2) := by
      intro hz
      apply Tree.Effects.of_eq
      rw [ht2, hfrees.eq (h.calm hz).zero]
    simp only [inode, wp_bind, wp_read, wp_pure]
    refine wp_ite.mpr ⟨fun _ => ?_, fun _ => ?_⟩
    · refine (iunlockput_done hl h2.inv hfiles2).mono ?_
      exact fun _ _ hdone => hdone.2.1.after heff
    · have hlocked := h2.inv.type_of_locked (e := e) mem_cons_self
      rw [h2.inv.nums (e, i) mem_cons_self] at hlocked
      rw [wp_bind]
      refine (iunlock_spec h2.inv (by simp)).mono ?_
      rintro _ s3 ⟨h3, ht3⟩
      have hp3 : (s3.proc p).cwd = some cwd := by rwa [h3.proc, h2.proc, h1.proc]
      refine (leaveCwd_spec hl h3.inv (hfiles2.congr h3.file) hp3 ?_ ?_).mono ?_
      · intro e'
        simp [count_cons]
      · intro x hx
        rw [mem_singleton.mp hx, ht3, hlocked.1]
        exact hlocked.2
      · intro _ s' hdone
        refine hdone.after fun hz => ?_
        rw [ht3]
        exact heff hz

omit [Fintype P] hok hl hroot h hcwd in
lemma argfd_spec (p : P) (fd : ℕ) : wp (argfd p fd) ok (fun _ s' => s' = s) s := by
  simp only [argfd, wp_bind, wp_read]
  split
  · split <;> exact rfl
  · exact rfl

omit hroot h hcwd in
lemma fileclose_done (h : Inv sb (.const Z G) s [] []) (hfiles : FilesOk s) (f : Fin NFILE) :
    wp (fileclose sb f) ok (fun _ s' => Rested sb Z G s s' ∧ s'.proc = s.proc) s := by
  refine (fileclose_spec hok hl h hfiles fun _ => not_mem_nil).mono ?_
  rintro _ s1 ⟨h1, hfiles1, hproc, H, hH, hfrees⟩
  refine ⟨⟨h1, hfiles1, fun hz => ?_⟩, hproc⟩
  exact .single (fun j hj => .inl (hH j hj)) hfrees (h1.zeroHeld fun _ => hz)

omit hroot hcwd in
lemma sysClose_spec [DecidableEq P] (p : P) (fd : ℕ) : wp (sysClose sb p fd) ok (fun _ s' => Done sb Z G s s') s := by
  rw [sysClose, wp_bind]
  refine (argfd_spec p fd).mono ?_
  rintro r _ rfl
  rename_i s
  cases r with
  | none => exact .refl h.inv h.files
  | some x =>
    obtain ⟨fd, f⟩ := x
    obtain ⟨h1, ht1⟩ := h.inv.keepProc (p := p)
      (q := { s.proc p with ofile := update (s.proc p).ofile fd none }) rfl
    simp only [wp_bind]
    change wp _ ok _ (s.withProc p { s.proc p with ofile := update (s.proc p).ofile fd none })
    rw [wp_bind]
    refine (fileclose_done hok hl h1 (h.files.congr rfl) f).mono ?_
    rintro _ s2 ⟨hdone, -⟩
    exact hdone.after fun _ => .of_eq ht1

omit hroot hcwd in
lemma sysWrite_spec (p : P) (fd : ℕ) (src : ℕ → Option ℕ) (n : ℤ) :
    wp (sysWrite sb p fd src n) ok (fun _ s' => Done sb Z G s s') s := by
  rw [sysWrite, wp_bind]
  refine (argfd_spec p fd).mono ?_
  rintro r _ rfl
  rename_i s
  cases r with
  | none => exact .refl h.inv h.files
  | some x =>
    obtain ⟨_, f⟩ := x
    simp only [filewrite, file, wp_bind, wp_read, wp_pure]
    refine wp_ite.mpr ⟨fun _ => .refl h.inv h.files, fun hw => ?_⟩
    cases ht : (s.file f).type with
    | none => exact hok _ (by decide) fun _ => by decide
    | device => exact wp_ite.mpr ⟨fun _ => .refl h.inv h.files, fun _ => .refl h.inv h.files⟩
    | inode =>
      simp only [wp_bind]
      refine (filewriteLoop_spec hok hl n.toNat 0 h.inv h.files ht (by simpa using hw)).mono ?_
      rintro _ s1 ⟨h1, hfiles1, ht1⟩
      exact ⟨h1, hfiles1, fun _ => .of_eq ht1⟩

omit hroot hcwd in
lemma sysExit_spec [DecidableEq P] (hp : (s.proc p).cwd = some cwd) :
    wp (sysExit sb p cwd) ok (fun _ s' => Done sb Z G s s') s := by
  rw [sysExit, wp_bind]
  -- each pass closes one descriptor, and keeps the current directory
  refine (wp_eachM (I := fun _ s' => Rested sb Z G s s' ∧ (s'.proc p).cwd = some cwd) ?_ _ s
    ⟨⟨h.inv, h.files, fun _ => .refl⟩, hp⟩).mono ?_
  · rintro fd _ s1 ⟨hdone, hp1⟩
    simp only [wp_bind, wp_read]
    cases (s1.proc p).ofile fd with
    | none => exact ⟨hdone, hp1⟩
    | some f =>
      simp only [wp_bind]
      refine (fileclose_done hok hl hdone.inv hdone.files f).mono ?_
      rintro _ s2 ⟨hdone2, hproc⟩
      obtain ⟨h3, ht3⟩ := hdone2.inv.keepProc (p := p)
        (q := { s2.proc p with ofile := update (s2.proc p).ofile fd none }) rfl
      refine ⟨⟨h3, hdone2.files.congr rfl, fun hz => ?_⟩, ?_⟩
      · change (tree sb s).Rests (tree sb (s2.withProc p _))
        rw [ht3]
        exact (hdone.effects hz).trans (hdone2.effects hz)
      · change (update s2.proc p _ p).cwd = some cwd
        rw [update_self, hproc]
        exact hp1
  · rintro _ s1 ⟨hdone, hp1⟩
    refine (leaveCwd_spec hl hdone.inv hdone.files hp1 (by simp) (by simp)).mono ?_
    exact fun _ _ hdone2 => hdone2.after hdone.done.effects

omit hl hroot hcwd in
lemma sysFork_spec [DecidableEq P] {child : P} (hp : (s.proc p).cwd = some cwd) :
    wp (sysFork p cwd child) ok (fun _ s' => Done sb Z G s s') s := by
  simp only [sysFork, wp_bind, wp_read]
  cases hchild : (s.proc child).cwd with
  | some e => exact .refl h.inv h.files
  | none =>
    simp only [wp_bind]
    refine (wp_eachM (I := fun _ s' => Inv sb (.const Z G) s' [] [] ∧ FilesOk s' ∧ tree sb s' = tree sb s ∧
      ∀ q, (s'.proc q).cwd = (s.proc q).cwd) ?_ _ s ⟨h.inv, h.files, rfl, fun _ => rfl⟩).mono ?_
    · rintro fd _ s1 ⟨h1, hfiles1, ht1, hcwd1⟩
      simp only [wp_bind, wp_read]
      cases (s1.proc p).ofile fd with
      | none => exact ⟨h1, hfiles1, ht1, hcwd1⟩
      | some f =>
        simp only [wp_bind]
        refine (filedup_spec hok h1 hfiles1).mono ?_
        rintro _ s2 ⟨h2, hfiles2, hproc, ht2⟩
        obtain ⟨h3, ht3⟩ := h2.keepProc (p := child)
          (q := { s2.proc child with ofile := update (s2.proc child).ofile fd (some f) }) rfl
        refine ⟨h3, hfiles2.congr rfl, ht3.trans (ht2.trans ht1), fun q => ?_⟩
        rw [← hcwd1, ← hproc]
        change (update s2.proc child _ q).cwd = _
        by_cases hq : q = child
        · subst hq
          rw [update_self]
        · rw [update_of_ne hq]
    · rintro _ s1 ⟨h1, hfiles1, ht1, hcwd1⟩
      have hhold : 0 < s1.holders cwd := holders_pos_of_cwd (p := p) (by rw [hcwd1, hp])
      rw [wp_bind]
      refine (idup_spec h1 (h1.ref_pos_of_holders hhold)).mono ?_
      rintro _ s2 ⟨h2, ht2⟩
      have hchild2 : (s2.proc child).cwd = none := by rw [h2.proc, hcwd1, hchild]
      obtain ⟨h3, hheld⟩ := h2.inv.takeCwd (q := { s2.proc child with cwd := some cwd }) hchild2 rfl
      refine ⟨h3, (hfiles1.congr h2.file).congr rfl, fun hz => ?_⟩
      change (tree sb s).Effects (tree sb (s2.withProc child { s2.proc child with cwd := some cwd }))
      apply Tree.Effects.single _ (h3.zeroHeld fun _ => hz)
      have ht3 : tree sb (s2.withProc child { s2.proc child with cwd := some cwd }) = _ :=
        tree_rehold (s := s2) rfl
      rw [ht3, ht2, ht1]
      refine .hold _ (fun j hj => ?_) (.refl _)
      rcases hheld j hj with hj | rfl
      · rw [ht2, ht1] at hj
        exact .inl hj
      · rw [← ht1]
        exact .inl ⟨cwd, hhold, rfl⟩

omit [Fintype P] hok hl hroot h hcwd in
/-- `link`, `unlink`, `mkdir` and `mknod`. -/
def Call.Names : Call P → Prop
  | .link .. | .unlink .. | .mkdir .. | .mknod .. => True
  | _ => False

omit hcwd in
/-- **Every call** keeps the invariant and changes the tree by effects only; a call on names that fails changes
nothing. -/
lemma call_exact [DecidableEq P] (hp : (s.proc p).cwd = some cwd) (c : Call P) :
    wp (call sb p cwd c) ok (fun r s' => Done sb Z G s s' ∧
      (c.Names → r = -1 → Undone sb (.const Z G) s [] [] s')) s := by
  have hcwd : 0 < s.holders cwd := holders_pos_of_cwd hp
  have hnone : ∀ Q : Prop, Done sb Z G s s ∧ (Q → (-1 : ℤ) = -1 → Undone sb (.const Z G) s [] [] s) :=
    fun _ => ⟨.refl h.inv h.files, fun _ _ => .of_disk (After.refl h.inv) fun _ => ⟨rfl, rfl⟩⟩
  have hgood : ∀ {src : Mem} {path : Name}, argstr src = some path → GoodPath path := fun hsrc => fetchstr_good hsrc
  have hother : ∀ {m : M P ℤ}, wp m ok (fun _ s' => Done sb Z G s s') s → wp m ok (fun r s' => Done sb Z G s s' ∧
      (False → r = -1 → Undone sb (.const Z G) s [] [] s')) s :=
    fun hm => hm.mono fun _ _ hdone => ⟨hdone, fun hc => hc.elim⟩
  have hnames : ∀ {m : M P ℤ}, wp m ok (fun r s' => Done sb Z G s s' ∧
      (r = -1 → Undone sb (.const Z G) s [] [] s')) s → wp m ok (fun r s' => Done sb Z G s s' ∧
      (True → r = -1 → Undone sb (.const Z G) s [] [] s')) s :=
    fun hm => hm.mono fun _ _ hdone => ⟨hdone.1, fun _ => hdone.2⟩
  cases c with
  | «open» src omode =>
    rw [call]
    cases hsrc : argstr src with
    | none => exact hnone _
    | some path => exact hother ((sysOpen_spec hok hl hroot h hcwd p (hgood hsrc) omode).mono fun _ _ h => h.1)
  | write fd src n => exact hother (sysWrite_spec hok hl h p fd _ n)
  | link old new =>
    rw [call]
    cases hold : argstr old with
    | none => exact hnone _
    | some path =>
      cases hnew : argstr new with
      | none => exact hnone _
      | some path' => exact hnames (sysLink_spec hok hl hroot h hcwd (hgood hold) (hgood hnew))
  | unlink src =>
    rw [call]
    cases hsrc : argstr src with
    | none => exact hnone _
    | some path => exact hnames (sysUnlink_spec hok hl hroot h hcwd (hgood hsrc))
  | mkdir src =>
    rw [call, sysMkdir]
    cases hsrc : argstr src with
    | none => exact hnone _
    | some path =>
      apply hnames
      exact makeNode_spec hok hl hroot h hcwd (hgood hsrc) (Nat.two_pow_pos 16) (Nat.two_pow_pos 16)
        (by decide) (by decide)
  | mknod src major minor =>
    rw [call, sysMknod]
    cases hsrc : argstr src with
    | none => exact hnone _
    | some path =>
      apply hnames
      exact makeNode_spec hok hl hroot h hcwd (hgood hsrc) (Nat.mod_lt _ (Nat.two_pow_pos 16))
        (Nat.mod_lt _ (Nat.two_pow_pos 16)) (by decide) (by decide)
  | chdir src =>
    rw [call]
    cases hsrc : argstr src with
    | none => exact hnone _
    | some path => exact hother (sysChdir_spec hok hl hroot h hp (hgood hsrc))
  | close fd => exact hother (sysClose_spec hok hl h p fd)
  | fork child => exact hother (sysFork_spec hok h hp)
  | exit => exact hother (sysExit_spec hok hl h hp)

omit hcwd in
lemma call_spec [DecidableEq P] (hp : (s.proc p).cwd = some cwd) (c : Call P) :
    wp (call sb p cwd c) ok (fun _ s' => Done sb Z G s s') s :=
  (call_exact hok hl hroot h hp c).mono fun _ _ hdone => hdone.1

end

end Xv6.Fs
