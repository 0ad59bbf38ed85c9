import Xv6.Fs.Effect

/-!
# Open files and processes

References that outlive a call are those of current directories and open files.  `Inv.rehold` moves
a reference between them and the call.
-/

namespace Xv6.Fs

open Lib Log Function List

variable {P : Type} [Fintype P] {sb : Superblock} {z : Sel} {s s' : State P}
  {L L' : List (Fin NINODE × ℕ)} {K : List (Fin NINODE)} {ok : Stop → Prop}

/-! ### Who holds references -/

def State.withFile (s : State P) (f : Fin NFILE) (x : File) : State P :=
  { s with file := update s.file f x }

omit [Fintype P] in
lemma State.withFile_self (s : State P) (f : Fin NFILE) (x : File) : (s.withFile f x).file f = x :=
  update_self ..

variable {f : Fin NFILE} {x : File} {p : P} {q : Proc} {e : Fin NINODE} {i : ℕ}

omit [Fintype P] in
lemma State.withFile_of_ne (s : State P) (h : g ≠ f) (x : File) :
    (s.withFile f x).file g = s.file g :=
  update_of_ne h ..

def State.withProc [DecidableEq P] (s : State P) (p : P) (q : Proc) : State P :=
  { s with proc := update s.proc p q }

def File.Holds (x : File) (e : Fin NINODE) : Prop := x.type ≠ .none ∧ x.ip = e
  deriving Decidable

lemma holders_withFile (s : State P) (f : Fin NFILE) (x : File) (e : Fin NINODE) :
    (s.withFile f x).holders e + (if (s.file f).Holds e then 1 else 0) =
      s.holders e + (if x.Holds e then 1 else 0) := by
  have hsum := sum_change (f := fun g => if ((s.withFile f x).file g).Holds e then 1 else 0)
    (g := fun g => if (s.file g).Holds e then 1 else 0) f fun g hg => by
      rw [s.withFile_of_ne hg]
  rw [s.withFile_self] at hsum
  change (∑ p, if (s.proc p).cwd = some e then 1 else 0) +
    (∑ g, if ((s.withFile f x).file g).Holds e then 1 else 0) + _ =
    (∑ p, if (s.proc p).cwd = some e then 1 else 0) + (∑ g, if (s.file g).Holds e then 1 else 0) + _
  omega

lemma holders_withProc [DecidableEq P] (s : State P) (p : P) (q : Proc) (e : Fin NINODE) :
    (s.withProc p q).holders e + (if (s.proc p).cwd = some e then 1 else 0) =
      s.holders e + (if q.cwd = some e then 1 else 0) := by
  have hsum := sum_change (f := fun r => if ((s.withProc p q).proc r).cwd = some e then 1 else 0)
    (g := fun r => if (s.proc r).cwd = some e then 1 else 0) p fun r hr => by
      rw [show (s.withProc p q).proc r = s.proc r from update_of_ne hr _ _]
  rw [show (s.withProc p q).proc p = q from update_self ..] at hsum
  change (∑ r, if ((s.withProc p q).proc r).cwd = some e then 1 else 0) +
    (∑ f, if (s.file f).Holds e then 1 else 0) + _ =
    (∑ r, if (s.proc r).cwd = some e then 1 else 0) + (∑ f, if (s.file f).Holds e then 1 else 0) + _
  omega

/-- **References change hands**; the disk and the inode table stay. -/
lemma Inv.rehold (h : Inv sb z s L K) (hdisk : s'.disk = s.disk) (hino : s'.ino = s.ino)
    (hcount : ∀ e, s'.holders e + (L'.map Prod.fst).count e = s.holders e + (L.map Prod.fst).count e)
    (hnums : ∀ x ∈ L', (s.ino x.1).inum = x.2)
    (hw : ∀ f, (s'.file f).type = .inode → (s'.file f).writable = true →
      (s.ino (s'.file f).ip).valid = true ∧ (s.ino (s'.file f).ip).d.type ≠ T_DIR) :
    Inv sb z s' L' K where
  disk := by rw [hdisk]; exact h.disk
  range := by rw [hino]; exact h.range
  uniq := by rw [hino]; exact h.uniq
  sync := by rw [hino, hdisk]; exact h.sync
  refs e := by rw [hino, h.refs, hcount]
  nums := by rw [hino]; exact hnums
  locks := by rw [hino]; exact h.locks
  locked := by rw [hino]; exact h.locked
  writable := by rw [hino]; exact hw
  zero i hz := by
    rw [tree_type, tree_nlink, hino, hdisk]
    exact h.zero i hz

lemma tree_rehold (hdisk : s'.disk = s.disk) : tree sb s' = (tree sb s).withHeld (tree sb s').held := by
  unfold tree Tree.withHeld
  rw [hdisk]

lemma tree_congr (hdisk : s'.disk = s.disk) (hino : s'.ino = s.ino)
    (hcount : ∀ e, s'.holders e = s.holders e) : tree sb s' = tree sb s := by
  unfold tree
  simp only [hdisk, hino, hcount]

lemma Inv.zeroHeld (h : Inv sb z s [] K) (hz : ∀ i, z.zero i) : (tree sb s).ZeroHeld := by
  intro i ha hn
  obtain ⟨e, hpos, hi, -⟩ := h.zero i (hz i) ha hn
  refine ⟨e, ?_, hi⟩
  rw [h.refs] at hpos
  simpa using hpos

/-! ### `iput` does not look at processes -/

section

variable (sb) (p : P) (g : Proc → Proc)

/-- A change of a process. -/
def onProc [DecidableEq P] (s : State P) : State P := s.withProc p (g (s.proc p))

section

variable [DecidableEq P]

omit [Fintype P]

lemma commutes_setInode (e : Fin NINODE) (k : Inode → Inode) :
    Prog.Commutes (onProc p g) (setInode e k : M P Unit) := Prog.commutes_modify fun _ => rfl

lemma commutes_inode (e : Fin NINODE) : Prog.Commutes (onProc p g) (inode e : M P Inode) :=
  Prog.commutes_get fun _ => rfl

lemma commutes_bread (b : ℕ) : Prog.Commutes (onProc p g) (bread b : M P Block) :=
  Prog.commutes_get fun _ => rfl

lemma commutes_bfree (b : ℕ) : Prog.Commutes (onProc p g) (bfree sb b : M P Unit) :=
  Prog.commutes_bind (commutes_bread p g _) fun _ =>
    Prog.commutes_ite (Prog.commutes_modify fun _ => rfl) (Prog.commutes_stop _)

section

variable (e : Fin NINODE)

lemma commutes_iupdate : Prog.Commutes (onProc p g) (iupdate sb e : M P Unit) :=
  Prog.commutes_bind (commutes_inode p g e) fun _ => Prog.commutes_modify fun _ => rfl

lemma commutes_itruncDirect : Prog.Commutes (onProc p g) (itruncDirect sb e : M P Unit) :=
  Prog.commutes_eachM (fun _ => Prog.commutes_bind (commutes_inode p g e) fun _ =>
    Prog.commutes_ite (Prog.commutes_bind (commutes_bfree sb p g _) fun _ => commutes_setInode p g e _)
      (Prog.commutes_pure ())) _

lemma commutes_itruncIndirect : Prog.Commutes (onProc p g) (itruncIndirect sb e : M P Unit) := by
  refine Prog.commutes_bind (commutes_inode p g e) fun ip => Prog.commutes_ite ?_ (Prog.commutes_pure ())
  refine Prog.commutes_bind (commutes_bread p g _) fun bp => Prog.commutes_bind ?_ fun _ =>
    Prog.commutes_bind (commutes_bfree sb p g _) fun _ => commutes_setInode p g e _
  exact Prog.commutes_eachM (fun j => Prog.commutes_ite (commutes_bfree sb p g _) (Prog.commutes_pure ())) _

lemma commutes_itrunc : Prog.Commutes (onProc p g) (itrunc sb e : M P Unit) :=
  Prog.commutes_bind (commutes_itruncDirect sb p g e) fun _ =>
    Prog.commutes_bind (commutes_itruncIndirect sb p g e) fun _ =>
      Prog.commutes_bind (commutes_setInode p g e _) fun _ => commutes_iupdate sb p g e

lemma commutes_iputFree : Prog.Commutes (onProc p g) (iputFree sb e : M P Unit) :=
  Prog.commutes_bind (commutes_setInode p g e _) fun _ =>
    Prog.commutes_bind (commutes_itrunc sb p g e) fun _ =>
      Prog.commutes_bind (commutes_setInode p g e _) fun _ =>
        Prog.commutes_bind (commutes_iupdate sb p g e) fun _ => commutes_setInode p g e _

lemma commutes_iput : Prog.Commutes (onProc p g) (iput sb e : M P Unit) := by
  refine Prog.commutes_bind (commutes_inode p g e) fun ip => Prog.commutes_ite (Prog.commutes_ite ?_ ?_) ?_
  · exact Prog.commutes_bind (Prog.commutes_stop _) fun _ => commutes_setInode p g e _
  · exact Prog.commutes_bind (commutes_iputFree sb p g e) fun _ => commutes_setInode p g e _
  · exact Prog.commutes_bind (Prog.commutes_pure ()) fun _ => commutes_setInode p g e _

end

end

end

/-! ### Changes of files and processes -/

lemma writable_withFile (h : Inv sb z s L K) (hx : x.type = .inode → x.writable = true →
      (s.ino x.ip).valid = true ∧ (s.ino x.ip).d.type ≠ T_DIR) (g : Fin NFILE)
    (ht : ((s.withFile f x).file g).type = .inode) (hw : ((s.withFile f x).file g).writable = true) :
    (s.ino ((s.withFile f x).file g).ip).valid = true ∧ (s.ino ((s.withFile f x).file g).ip).d.type ≠ T_DIR := by
  by_cases hg : g = f
  · subst hg
    rw [s.withFile_self] at ht hw ⊢
    exact hx ht hw
  · rw [s.withFile_of_ne hg] at ht hw ⊢
    exact h.writable g ht hw

lemma Inv.keepFile (h : Inv sb z s L K) (ht : x.type = (s.file f).type) (hip : x.ip = (s.file f).ip)
    (hw : x.writable = (s.file f).writable) :
    Inv sb z (s.withFile f x) L K ∧ tree sb (s.withFile f x) = tree sb s := by
  have hcount : ∀ e, (s.withFile f x).holders e = s.holders e := by
    intro e
    have := holders_withFile s f x e
    have hiff : x.Holds e ↔ (s.file f).Holds e := by
      unfold File.Holds
      rw [ht, hip]
    simp only [hiff] at this
    omega
  refine ⟨h.rehold rfl rfl (fun e => by rw [hcount]) h.nums ?_, tree_congr rfl rfl hcount⟩
  apply writable_withFile h
  rw [ht, hip, hw]
  exact h.writable f

lemma Inv.keepProc [DecidableEq P] (h : Inv sb z s L K) (hq : q.cwd = (s.proc p).cwd) :
    Inv sb z (s.withProc p q) L K ∧ tree sb (s.withProc p q) = tree sb s := by
  have hcount : ∀ e, (s.withProc p q).holders e = s.holders e := by
    intro e
    have := holders_withProc s p q e
    rw [hq] at this
    omega
  exact ⟨h.rehold rfl rfl (fun e => by rw [hcount]) h.nums h.writable, tree_congr rfl rfl hcount⟩

lemma held_of_count (h : Inv sb z s ((e, i) :: L) K) (hino : s'.ino = s.ino)
    (hcount : ∀ e', s'.holders e' = s.holders e' + if e = e' then 1 else 0) (j : ℕ) (hj : (tree sb s').held j) :
    (tree sb s).held j ∨ j = i := by
  obtain ⟨e', hpos, hj⟩ := hj
  rw [hino] at hj
  rw [hcount] at hpos
  by_cases he : e = e'
  · subst he
    exact .inr (hj.symm.trans (h.nums (e, i) mem_cons_self))
  · rw [if_neg he, Nat.add_zero] at hpos
    exact .inl ⟨e', hpos, hj⟩

lemma Inv.openFile (h : Inv sb z s ((e, i) :: L) K) (hf : (s.file f).type = .none) (ht : x.type ≠ .none)
    (hip : x.ip = e) (hx : x.writable = true → (s.ino e).valid = true ∧ (s.ino e).d.type ≠ T_DIR) :
    Inv sb z (s.withFile f x) L K ∧ ∀ j, (tree sb (s.withFile f x)).held j → (tree sb s).held j ∨ j = i := by
  have hcount : ∀ e', (s.withFile f x).holders e' = s.holders e' + if e = e' then 1 else 0 := by
    intro e'
    have := holders_withFile s f x e'
    have h1 : ¬ (s.file f).Holds e' := fun hc => hc.1 hf
    have h2 : x.Holds e' ↔ e = e' := by
      unfold File.Holds
      rw [hip]
      exact ⟨And.right, fun he => ⟨ht, he⟩⟩
    rw [if_neg h1] at this
    simp only [h2] at this
    omega
  constructor
  · refine h.rehold rfl rfl (fun e' => ?_) (fun y hy => h.nums y (mem_cons_of_mem _ hy)) ?_
    · rw [hcount, map_cons, count_cons]
      simp only [beq_iff_eq]
      omega
    · apply writable_withFile h
      rw [hip]
      exact fun _ => hx
  · exact held_of_count h rfl hcount

lemma Inv.closeFile (h : Inv sb z s L K) (hf : (s.file f).type ≠ .none) (ht : x.type = .none) :
    Inv sb z (s.withFile f x) (((s.file f).ip, (s.ino (s.file f).ip).inum) :: L) K ∧
      ∀ j, (tree sb (s.withFile f x)).held j → (tree sb s).held j := by
  have hcount : ∀ e, (s.withFile f x).holders e + (if (s.file f).ip = e then 1 else 0) = s.holders e := by
    intro e
    have := holders_withFile s f x e
    have h1 : (s.file f).Holds e ↔ (s.file f).ip = e := ⟨And.right, fun he => ⟨hf, he⟩⟩
    rw [if_neg (show ¬ x.Holds e from fun hc => hc.1 ht)] at this
    simp only [h1] at this
    omega
  constructor
  · refine h.rehold rfl rfl (fun e => ?_) ?_ ?_
    · have := hcount e
      rw [map_cons, count_cons]
      simp only [beq_iff_eq]
      omega
    · intro y hy
      rcases mem_cons.mp hy with rfl | hy
      · rfl
      · exact h.nums y hy
    · apply writable_withFile h
      intro hc
      rw [ht] at hc
      cases hc
  · rintro j ⟨e, hpos, hj⟩
    have := hcount e
    exact ⟨e, show 0 < s.holders e by omega, hj⟩

/-- A process moves to another current directory, or to none: it takes over a reference of the
call, and gives its own. -/
lemma Inv.moveCwd [DecidableEq P] (h : Inv sb z s L' K) {cwd : Fin NINODE} (hcwd : (s.proc p).cwd = some cwd)
    (hq : ∀ e, (if q.cwd = some e then 1 else 0) + (L.map Prod.fst).count e = (L'.map Prod.fst).count e)
    (hL : ∀ x ∈ L, x ∈ L') :
    Inv sb z (s.withProc p q) ((cwd, (s.ino cwd).inum) :: L) K ∧
      ∀ j, (tree sb (s.withProc p q)).held j → (tree sb s).held j ∨ ∃ x ∈ L', x.2 = j := by
  have hcount : ∀ e, (s.withProc p q).holders e + (if cwd = e then 1 else 0) =
      s.holders e + if q.cwd = some e then 1 else 0 := by
    intro e
    have := holders_withProc s p q e
    rw [hcwd] at this
    simpa using this
  constructor
  · refine h.rehold rfl rfl (fun e => ?_) ?_ h.writable
    · have h1 := hcount e
      have h2 := hq e
      rw [map_cons, count_cons]
      simp only [beq_iff_eq]
      omega
    · intro y hy
      rcases mem_cons.mp hy with rfl | hy
      · rfl
      · exact h.nums y (hL y hy)
  · rintro j ⟨e, hpos, hj⟩
    have h1 := hcount e
    have h2 := hq e
    by_cases hold : 0 < s.holders e
    · exact .inl ⟨e, hold, hj⟩
    · have hin : 0 < (L'.map Prod.fst).count e := by omega
      obtain ⟨x, hx, rfl⟩ := mem_map.mp (count_pos_iff.mp hin)
      exact .inr ⟨x, hx, (h.nums x hx).symm.trans hj⟩

lemma Inv.takeCwd [DecidableEq P] (h : Inv sb z s ((e, i) :: L) K) (hp : (s.proc p).cwd = none) (hq : q.cwd = some e)
    :
    Inv sb z (s.withProc p q) L K ∧ ∀ j, (tree sb (s.withProc p q)).held j → (tree sb s).held j ∨ j = i := by
  have hcount : ∀ e', (s.withProc p q).holders e' = s.holders e' + if e = e' then 1 else 0 := by
    intro e'
    have := holders_withProc s p q e'
    rw [hp, hq] at this
    simpa using this
  constructor
  · refine h.rehold rfl rfl (fun e' => ?_) (fun y hy => h.nums y (mem_cons_of_mem _ hy)) h.writable
    rw [hcount, map_cons, count_cons]
    simp only [beq_iff_eq]
    omega
  · exact held_of_count h rfl hcount

/-! ### `file.c` -/

/-- A file that is not in use has no type. -/
def FilesOk (s : State P) : Prop := ∀ f, (s.file f).ref = 0 → (s.file f).type = .none

omit [Fintype P] in
lemma FilesOk.congr (h : FilesOk s) (hfile : s'.file = s.file) : FilesOk s' := by
  unfold FilesOk
  rw [hfile]
  exact h

omit [Fintype P] in
lemma FilesOk.withFile (h : FilesOk s) (hx : x.ref = 0 → x.type = .none) : FilesOk (s.withFile f x) := by
  intro g hg
  by_cases hgf : g = f
  · subst hgf
    rw [s.withFile_self] at hg ⊢
    exact hx hg
  · rw [s.withFile_of_ne hgf] at hg ⊢
    exact h g hg

omit [Fintype P] in
lemma filealloc_spec : wp filealloc ok (fun r s' =>
      match r with
      | none => s' = s ∧ ∀ f, (s.file f).ref ≠ 0
      | some f => (s.file f).ref = 0 ∧ s' = s.withFile f { s.file f with ref := 1 }) s := by
  simp only [filealloc, wp_bind, wp_read]
  cases hfind : (List.finRange NFILE).find? fun f => (s.file f).ref = 0 with
  | none => exact ⟨rfl, fun f => by simpa using find?_eq_none.mp hfind f (mem_finRange f)⟩
  | some f =>
    have hf := find?_some hfind
    simp only [decide_eq_true_eq] at hf
    exact ⟨hf, rfl⟩

lemma filedup_spec (hok : Allowed z ok) (h : Inv sb z s L K) (hfiles : FilesOk s) :
    wp (filedup f) ok (fun _ s' => Inv sb z s' L K ∧ FilesOk s' ∧ s'.proc = s.proc ∧ tree sb s' = tree sb s) s := by
  simp only [filedup, file, wp_bind, wp_read, wp_pure]
  refine wp_ite.mpr ⟨fun _ => hok _ (by decide) fun _ => by decide, fun _ => ?_⟩
  obtain ⟨h', htree⟩ := h.keepFile (f := f) (x := { s.file f with ref := (s.file f).ref + 1 }) rfl rfl rfl
  exact ⟨h', hfiles.withFile fun h0 => absurd h0 (Nat.succ_ne_zero _), rfl, htree⟩

omit [Fintype P] in
lemma fdalloc_spec [DecidableEq P] (p : P) (f : Fin NFILE) : wp (fdalloc p f) ok (fun r s' =>
      match r with
      | none => s' = s ∧ ∀ fd, (s.proc p).ofile fd ≠ none
      | some _ => ∃ q, q.cwd = (s.proc p).cwd ∧ s' = s.withProc p q) s := by
  simp only [fdalloc, wp_bind, wp_read]
  cases hfind : (List.finRange NOFILE).find? fun fd => (s.proc p).ofile fd = none with
  | none => exact ⟨rfl, fun fd => by simpa using find?_eq_none.mp hfind fd (mem_finRange fd)⟩
  | some fd => exact ⟨{ s.proc p with ofile := update (s.proc p).ofile fd (some f) }, rfl, rfl⟩

omit [Fintype P] in
lemma fileclose_fresh (href : (s.file f).ref = 0) (hnone : (s.file f).type = .none) :
    wp (fileclose sb f) ok (fun _ s' => s' = s) (s.withFile f { s.file f with ref := 1 }) := by
  simp only [fileclose, file, setFile, wp_bind, wp_read, wp_pure, State.withFile_self]
  rw [if_neg (by decide), if_neg (by decide)]
  simp only [wp_bind, wp_modify, hnone]
  rw [if_neg (by decide), wp_pure]
  refine congrArg (fun x => { s with file := x }) (funext fun g => ?_)
  by_cases hg : g = f
  · subst hg
    rw [update_self, ← href, ← hnone]
    simp [State.withFile]
  · rw [update_of_ne hg]
    exact update_of_ne hg _ _

section

variable (hok : Allowed z ok) (hl : Layout sb)

include hok hl

/-- **`fileclose`** gives back at most one reference. -/
lemma fileclose_spec (h : Inv sb z s L K) (hfiles : FilesOk s) (hK : (s.file f).type ≠ .none → (s.file f).ip ∉ K) :
    wp (fileclose sb f) ok (fun _ s' => Inv sb z s' L K ∧ FilesOk s' ∧ s'.proc = s.proc ∧
      ∃ H, (∀ j, H j → (tree sb s).held j) ∧ ((tree sb s).withHeld H).Frees (tree sb s')) s := by
  have hsame : ∀ s' : State P, tree sb s' = tree sb s →
      ∃ H, (∀ j, H j → (tree sb s).held j) ∧ ((tree sb s).withHeld H).Frees (tree sb s') := by
    intro s' htree
    exact ⟨(tree sb s).held, fun _ hj => hj, by rw [htree]; exact .refl _⟩
  simp only [fileclose, file, wp_bind, wp_read, wp_pure]
  refine wp_ite.mpr ⟨fun _ => hok _ (by decide) fun _ => by decide, fun hpos => wp_ite.mpr ⟨fun hmore => ?_, fun hlast => ?_⟩⟩
  · -- other descriptors still refer to the file
    obtain ⟨h', htree⟩ := h.keepFile (f := f) (x := { s.file f with ref := (s.file f).ref - 1 }) rfl rfl rfl
    exact ⟨h', hfiles.withFile fun h0 => absurd h0 (by simp only; omega), rfl, hsame _ htree⟩
  · rw [wp_bind]
    change wp _ ok _ (s.withFile f { s.file f with ref := 0, type := .none })
    have hfiles' : FilesOk (s.withFile f { s.file f with ref := 0, type := .none }) :=
      hfiles.withFile fun _ => rfl
    refine wp_ite.mpr ⟨fun ht => ?_, fun ht => ?_⟩
    · have hne : (s.file f).type ≠ .none := by rcases ht with ht | ht <;> rw [ht] <;> decide
      obtain ⟨h1, hheld⟩ := h.closeFile (x := { s.file f with ref := 0, type := .none }) hne rfl
      refine (iput_spec hl h1 fun hc => absurd hc (hK hne)).mono ?_
      rintro _ s2 ⟨h2, hfrees⟩
      refine ⟨h2.inv, hfiles'.congr h2.file, h2.proc, _, hheld, ?_⟩
      have ht1 : tree sb (s.withFile f { s.file f with ref := 0, type := .none }) = _ := tree_rehold (s := s) rfl
      rwa [ht1] at hfrees
    · have hnone : (s.file f).type = .none := by
        cases hty : (s.file f).type with
        | none => rfl
        | inode => exact absurd (.inl hty) ht
        | device => exact absurd (.inr hty) ht
      obtain ⟨h', htree⟩ := h.keepFile (f := f) (x := { s.file f with ref := 0, type := .none })
        hnone.symm rfl rfl
      exact ⟨h', hfiles', rfl, hsame _ htree⟩

/-- The loop of **`filewrite`** leaves the tree as it is. -/
lemma filewriteLoop_spec {src : ℕ → Option ℕ} (fuel i : ℕ) (h : Inv sb z s L []) (hfiles : FilesOk s)
    (ht : (s.file f).type = .inode) (hw : (s.file f).writable = true) :
    wp (filewriteLoop sb f src n fuel i) ok (fun _ s' => Inv sb z s' L [] ∧ FilesOk s' ∧
      tree sb s' = tree sb s) s := by
  induction fuel generalizing s i with
  | zero => exact ⟨h, hfiles, rfl⟩
  | succ fuel ih =>
    rw [filewriteLoop]
    refine wp_ite.mpr ⟨fun _ => ?_, fun _ => ⟨h, hfiles, rfl⟩⟩
    have hhold : 0 < s.holders (s.file f).ip := holders_pos_of_file (by rw [ht]; decide)
    simp only [file, wp_bind, wp_read, wp_pure]
    refine (ilock_spec hok h (h.ref_pos_of_holders hhold)).mono ?_
    rintro _ s1 ⟨h1, ht1, -⟩
    have hf1 : s1.file = s.file := h1.file
    have hnd : (s1.ino (s.file f).ip).d.type ≠ T_DIR := by
      have := h1.inv.writable f
      rw [hf1] at this
      exact (this ht hw).2
    rw [wp_bind]
    refine (writei_file hl h1.inv mem_cons_self hnd _ _ _).mono ?_
    rintro r s2 ⟨h2, ht2⟩
    have hf2 : s2.file = s.file := h2.file.trans hf1
    have hfiles2 : FilesOk s2 := hfiles.congr hf2
    -- the offset is moved, or not
    have hrest : ∀ s3 : State P, Inv sb z s3 L [(s.file f).ip] → FilesOk s3 → tree sb s3 = tree sb s →
        (s3.file f).type = .inode → (s3.file f).writable = true →
        wp (do
          iunlock (s.file f).ip
          if r ≠ ((min (n - i) ((MAXOPBLOCKS - 1 - 1 - 2) / 2 * BSIZE) : ℕ) : ℤ) then pure i
          else filewriteLoop sb f src n fuel (i + min (n - i) ((MAXOPBLOCKS - 1 - 1 - 2) / 2 * BSIZE))) ok
          (fun _ s' => Inv sb z s' L [] ∧ FilesOk s' ∧ tree sb s' = tree sb s) s3 := by
      intro s3 h3 hfiles3 ht3 hty hwr
      rw [wp_bind]
      refine (iunlock_spec h3 (by simp)).mono ?_
      rintro _ s4 ⟨h4, ht4⟩
      have hfiles4 := hfiles3.congr h4.file
      refine wp_ite.mpr ⟨fun _ => ⟨h4.inv, hfiles4, ht4.trans ht3⟩, fun _ => ?_⟩
      refine (ih _ h4.inv hfiles4 (by rwa [h4.file]) (by rwa [h4.file])).mono ?_
      rintro _ s5 ⟨h5, hfiles5, ht5⟩
      exact ⟨h5, hfiles5, ht5.trans (ht4.trans ht3)⟩
    refine wp_ite.mpr ⟨fun _ => ?_, fun _ => ?_⟩
    · obtain ⟨h3, ht3⟩ := h2.inv.keepFile (f := f)
        (x := { s2.file f with off := (s2.file f).off + r.toNat }) rfl rfl rfl
      rw [wp_bind]
      refine hrest (s2.withFile f { s2.file f with off := (s2.file f).off + r.toNat }) h3
        (hfiles2.withFile fun h0 => hfiles2 f h0) (ht3.trans (ht2.trans ht1)) ?_ ?_
      · rw [State.withFile_self, hf2]
        exact ht
      · rw [State.withFile_self, hf2]
        exact hw
    · refine hrest _ h2.inv hfiles2 (ht2.trans ht1) ?_ ?_
      · rw [hf2]
        exact ht
      · rw [hf2]
        exact hw

end

end Xv6.Fs
