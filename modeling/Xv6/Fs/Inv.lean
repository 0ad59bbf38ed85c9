import Xv6.Fs.Syscall
import Xv6.Fs.Tree
import Xv6.Lib.Sum

/-!
# The inode table

The invariant of the file system inside a call: `Inv z s L K` lists the references `L` that the call
itself holds, each with its inode number, and the locks `K` it holds.  Every copy in memory that is
valid agrees with the disk, reference counts are exact, and the free map and the directories are
right.  `z` selects what is followed beyond that: the inodes of which none without links lies about
unreferenced, and whether files have holes.
-/

namespace Xv6.Fs

open Lib Log Function List

variable {P : Type} [Fintype P]

/-- The references to entry `e` that outlive a call: current directories and open files. -/
def State.holders (s : State P) (e : Fin NINODE) : ℕ :=
  (∑ p, if (s.proc p).cwd = some e then 1 else 0) + ∑ f, if (s.file f).type ≠ .none ∧ (s.file f).ip = e then 1 else 0

variable {e : Fin NINODE} {i : ℕ} {y : Fin NINODE × ℕ}

section

variable (sb : Superblock)

/-- What is followed of the inodes on disk: that files have no holes, and that directories have a whole
number of entries. -/
structure Gates where
  solid : Prop
  aligned : Prop

/-- What the invariant follows. -/
structure Sel extends Gates where
  zero : ℕ → Prop

/-- The same for all inodes. -/
abbrev Sel.const (Z G : Prop) : Sel := ⟨⟨G, Z⟩, fun _ => Z⟩

abbrev Sel.without (z : Sel) (i : ℕ) : Sel := ⟨z.toGates, fun j => z.zero j ∧ j ≠ i⟩

/-- The stops that the specifications leave open: all but `freeing free block` and, where files have no
holes, `bmap: out of range`. -/
def Allowed (z : Sel) (ok : Stop → Prop) : Prop :=
  ∀ e, e ≠ .panic .freeingFreeBlock → (z.solid → e ≠ .panic .bmapOutOfRange) → ok e

lemma Allowed.without {ok : Stop → Prop} (h : Allowed z ok) (i : ℕ) : Allowed (z.without i) ok := h

/-- The free map is exact and directories are well formed; what `g` says is followed. -/
structure DiskOk (g : Gates) (d : Disk) : Prop where
  owned : Owned sb (slot sb (dinode sb d) d) d
  dirs : Dirs sb (dinode sb d) d
  solid : g.solid → Solid sb (dinode sb d) d
  aligned : g.aligned → Aligned sb (dinode sb d)

/-- The tree on the disk, and who holds its inodes. -/
def tree (s : State P) : Tree where
  type i := if sb.Inum i then (dinode sb s.disk i).type else 0
  nlink i := if sb.Inum i ∧ (dinode sb s.disk i).type ≠ 0 then (dinode sb s.disk i).nlink else 0
  ent i k := ent sb (dinode sb s.disk) s.disk i k
  held i := ∃ e, 0 < s.holders e ∧ (s.ino e).inum = i

structure Inv (z : Sel) (s : State P) (L : List (Fin NINODE × ℕ)) (K : List (Fin NINODE)) : Prop where
  disk : DiskOk sb z.toGates s.disk
  range : ∀ e, 0 < (s.ino e).ref → sb.Inum (s.ino e).inum
  uniq : ∀ e e', 0 < (s.ino e).ref → 0 < (s.ino e').ref → (s.ino e).inum = (s.ino e').inum → e = e'
  sync : ∀ e, 0 < (s.ino e).ref → (s.ino e).valid = true →
    (s.ino e).d = dinode sb s.disk (s.ino e).inum ∧ (s.ino e).d.type ≠ 0
  refs : ∀ e, (s.ino e).ref = s.holders e + (L.map Prod.fst).count e
  nums : ∀ x ∈ L, (s.ino x.1).inum = x.2
  locks : ∀ e, (s.ino e).locked = true ↔ e ∈ K
  locked : ∀ e ∈ K, 0 < (s.ino e).ref ∧ (s.ino e).valid = true
  writable : ∀ f, (s.file f).type = .inode → (s.file f).writable = true →
    (s.ino (s.file f).ip).valid = true ∧ (s.ino (s.file f).ip).d.type ≠ T_DIR
  zero : ∀ i, z.zero i → (tree sb s).type i ≠ 0 → (tree sb s).nlink i = 0 →
    ∃ e, 0 < (s.ino e).ref ∧ (s.ino e).inum = i ∧ (s.ino e).valid = true

/-- The invariant after a part of a call, which does not touch processes and open files; an entry that one of
them holds stays with its inode. -/
structure After (z : Sel) (s : State P) (L : List (Fin NINODE × ℕ)) (K : List (Fin NINODE))
    (s' : State P) : Prop where
  inv : Inv sb z s' L K
  proc : s'.proc = s.proc
  file : s'.file = s.file
  pinned : ∀ e, 0 < s.holders e → (s'.ino e).inum = (s.ino e).inum

end

variable {sb : Superblock} {z : Sel} {s s' s'' : State P} {L L' : List (Fin NINODE × ℕ)}
  {K K' : List (Fin NINODE)} {ok : Stop → Prop}

lemma tree_type (i : ℕ) : (tree sb s).type i = if sb.Inum i then (dinode sb s.disk i).type else 0 := rfl

lemma tree_nlink (i : ℕ) : (tree sb s).nlink i =
      if sb.Inum i ∧ (dinode sb s.disk i).type ≠ 0 then (dinode sb s.disk i).nlink else 0 := rfl

lemma holders_congr (hp : s'.proc = s.proc) (hf : s'.file = s.file) (e : Fin NINODE) :
    s'.holders e = s.holders e := by
  unfold State.holders
  rw [hp, hf]

lemma After.refl (h : Inv sb z s L K) : After sb z s L K s := ⟨h, rfl, rfl, fun _ _ => rfl⟩

lemma After.trans {y : Sel} (h : After sb y s L K s') (h' : After sb z s' L' K' s'') : After sb z s L' K' s'' where
  inv := h'.inv
  proc := h'.proc.trans h.proc
  file := h'.file.trans h.file
  pinned e he := (h'.pinned e (by rwa [holders_congr h.proc h.file])).trans (h.pinned e he)

lemma holders_pos_of_file (h : (s.file f).type ≠ .none) : 0 < s.holders (s.file f).ip := by
  have : 0 < ∑ g, if (s.file g).type ≠ .none ∧ (s.file g).ip = (s.file f).ip then 1 else 0 := by
    refine Finset.sum_pos' (fun _ _ => Nat.zero_le _) ⟨f, Finset.mem_univ f, ?_⟩
    rw [if_pos ⟨h, rfl⟩]
    exact Nat.one_pos
  unfold State.holders
  omega

lemma holders_pos_of_cwd (h : (s.proc p).cwd = some e) : 0 < s.holders e := by
  have : 0 < ∑ q, if (s.proc q).cwd = some e then 1 else 0 := by
    refine Finset.sum_pos' (fun _ _ => Nat.zero_le _) ⟨p, Finset.mem_univ p, ?_⟩
    rw [if_pos h]
    exact Nat.one_pos
  unfold State.holders
  omega

namespace Inv

section

variable (h : Inv sb z s L K)

include h

lemma ref_pos_of_holders (he : 0 < s.holders e) : 0 < (s.ino e).ref := by
  rw [h.refs]
  omega

lemma ref_pos_of_mem (hx : x ∈ L) : 0 < (s.ino x.1).ref := by
  have : 0 < (L.map Prod.fst).count x.1 := count_pos_iff.mpr (mem_map.mpr ⟨x, hx, rfl⟩)
  rw [h.refs]
  omega

lemma inum_of_mem (hx : x ∈ L) : sb.Inum x.2 := by
  rw [← h.nums x hx]
  exact h.range _ (h.ref_pos_of_mem hx)

lemma perm (hL : L.Perm L') : Inv sb z s L' K where
  disk := h.disk
  range := h.range
  uniq := h.uniq
  sync := h.sync
  refs e := by rw [h.refs, (hL.map Prod.fst).count_eq]
  nums x hx := h.nums x (hL.mem_iff.mpr hx)
  locks := h.locks
  locked := h.locked
  writable := h.writable
  zero := h.zero

lemma permK (hK : ∀ e, e ∈ K ↔ e ∈ K') : Inv sb z s L K' where
  disk := h.disk
  range := h.range
  uniq := h.uniq
  sync := h.sync
  refs := h.refs
  nums := h.nums
  locks e := by rw [h.locks, hK]
  locked e he := h.locked e ((hK e).mpr he)
  writable := h.writable
  zero := h.zero

end

lemma tree_eq (hheld : 0 < s.holders e → x.inum = (s.ino e).inum) :
    tree sb { s with ino := update s.ino e x } = tree sb s := by
  have hholders : ∀ e', State.holders { s with ino := update s.ino e x } e' = s.holders e' :=
    fun _ => rfl
  unfold tree
  simp only [Tree.mk.injEq, true_and]
  funext i
  refine propext (exists_congr fun e' => ?_)
  rw [hholders]
  refine and_congr_right fun hpos => ?_
  by_cases he : e' = e
  · subst he
    rw [update_self, hheld hpos]
  · rw [update_of_ne he]

/-- **One entry of the table changes**, and with it the references `L` or the locks `K`. -/
lemma setEntry (h : Inv sb z s L K) (hrange : 0 < x.ref → sb.Inum x.inum)
    (huniq : 0 < x.ref → ∀ e', e' ≠ e → 0 < (s.ino e').ref → (s.ino e').inum ≠ x.inum)
    (hsync : 0 < x.ref → x.valid = true → x.d = dinode sb s.disk x.inum ∧ x.d.type ≠ 0)
    (href : x.ref = s.holders e + (L'.map Prod.fst).count e)
    (hcount : ∀ e', e' ≠ e → (L'.map Prod.fst).count e' = (L.map Prod.fst).count e')
    (hmem : ∀ y : Fin NINODE × ℕ, y.1 ≠ e → (y ∈ L' ↔ y ∈ L)) (hnum : ∀ y ∈ L', y.1 = e → x.inum = y.2)
    (hlock : x.locked = true ↔ e ∈ K') (hlocks : ∀ e', e' ≠ e → (e' ∈ K' ↔ e' ∈ K))
    (hlocked : e ∈ K' → 0 < x.ref ∧ x.valid = true) (hheld : 0 < s.holders e → x.inum = (s.ino e).inum ∧
      ((s.ino e).valid = true → x.valid = true ∧ x.d = (s.ino e).d))
    (hzero : 0 < (s.ino e).ref → (s.ino e).valid = true → (tree sb s).nlink (s.ino e).inum = 0 →
      0 < x.ref ∧ x.inum = (s.ino e).inum ∧ x.valid = true) :
    After sb z s L' K' { s with ino := update s.ino e x } ∧
      tree sb { s with ino := update s.ino e x } = tree sb s := by
  have hother : ∀ e', e' ≠ e → update s.ino e x e' = s.ino e' :=
    fun e' he' => update_of_ne he' _ _
  have hself : update s.ino e x e = x := update_self _ _ _
  have htree : tree sb { s with ino := update s.ino e x } = tree sb s := tree_eq fun hpos => (hheld hpos).1
  have hpinned : ∀ e', 0 < s.holders e' → (update s.ino e x e').inum = (s.ino e').inum := by
    intro e' hpos
    by_cases he : e' = e
    · subst he
      rw [hself]
      exact (hheld hpos).1
    · rw [hother e' he]
  refine ⟨⟨⟨h.disk, ?_, ?_, ?_, ?_, ?_, ?_, ?_, ?_, ?_⟩, rfl, rfl, hpinned⟩, htree⟩
  · intro e' hpos
    by_cases he : e' = e
    · subst he
      simp only [hself] at hpos ⊢
      exact hrange hpos
    · simp only [hother e' he] at hpos ⊢
      exact h.range e' hpos
  · intro e1 e2 h1 h2 hsame
    by_cases he1 : e1 = e
    · by_cases he2 : e2 = e
      · rw [he1, he2]
      · subst he1
        simp only [hself, hother e2 he2] at h1 h2 hsame
        exact absurd hsame.symm (huniq h1 e2 he2 h2)
    · by_cases he2 : e2 = e
      · subst he2
        simp only [hself, hother e1 he1] at h1 h2 hsame
        exact absurd hsame (huniq h2 e1 he1 h1)
      · simp only [hother e1 he1, hother e2 he2] at h1 h2 hsame
        exact h.uniq e1 e2 h1 h2 hsame
  · intro e' hpos hv
    by_cases he : e' = e
    · subst he
      simp only [hself] at hpos hv ⊢
      exact hsync hpos hv
    · simp only [hother e' he] at hpos hv ⊢
      exact h.sync e' hpos hv
  · intro e'
    have hh : State.holders { s with ino := update s.ino e x } e' = s.holders e' := rfl
    rw [hh]
    by_cases he : e' = e
    · subst he
      simp only [hself]
      exact href
    · simp only [hother e' he]
      rw [h.refs, hcount e' he]
  · intro y hy
    by_cases he : y.1 = e
    · simp only [he, hself]
      exact hnum y hy he
    · simp only [hother y.1 he]
      exact h.nums y ((hmem y he).mp hy)
  · intro e'
    by_cases he : e' = e
    · subst he
      simp only [hself]
      exact hlock
    · simp only [hother e' he]
      rw [h.locks, hlocks e' he]
  · intro e' he'
    by_cases he : e' = e
    · subst he
      simp only [hself]
      exact hlocked he'
    · simp only [hother e' he]
      exact h.locked e' ((hlocks e' he).mp he')
  · intro f hf hw
    have hpos : 0 < s.holders (s.file f).ip := holders_pos_of_file (by rw [hf]; decide)
    by_cases he : (s.file f).ip = e
    · obtain ⟨hv, ht⟩ := h.writable f hf hw
      rw [he] at hv ht hpos
      obtain ⟨hv', hd⟩ := (hheld hpos).2 hv
      simp only [he, hself]
      rw [hd]
      exact ⟨hv', ht⟩
    · simp only [hother _ he]
      exact h.writable f hf hw
  · intro i hz ha hn
    rw [htree] at ha hn
    obtain ⟨e', hpos, rfl, hv⟩ := h.zero i hz ha hn
    by_cases he : e' = e
    · subst he
      refine ⟨e', ?_⟩
      simp only [hself]
      exact hzero hpos hv hn
    · refine ⟨e', ?_⟩
      simp only [hother e' he]
      exact ⟨hpos, trivial, hv⟩

end Inv

/-! ### References and locks -/

lemma count_cons_ne (h : e' ≠ e) :
    (((e, i) :: L).map Prod.fst).count e' = (L.map Prod.fst).count e' := by
  simp [Ne.symm h]

lemma count_cons_self (e : Fin NINODE) (i : ℕ) (L : List (Fin NINODE × ℕ)) :
    (((e, i) :: L).map Prod.fst).count e = (L.map Prod.fst).count e + 1 := by
  simp

lemma mem_cons_of_fst_ne (h : y.1 ≠ e) : y ∈ (e, i) :: L ↔ y ∈ L := by
  refine ⟨fun hy => ?_, mem_cons_of_mem _⟩
  rcases mem_cons.mp hy with rfl | hy
  · exact absurd rfl h
  · exact hy

lemma count_pos_of_mem (h : y ∈ L) : 0 < (L.map Prod.fst).count y.1 :=
  count_pos_iff.mpr (mem_map.mpr ⟨y, h, rfl⟩)

lemma Inv.addRef (h : Inv sb z s L K) (he : 0 < (s.ino e).ref) :
    After sb z s ((e, (s.ino e).inum) :: L) K (s.setIno e fun ip => { ip with ref := ip.ref + 1 }) ∧
      tree sb (s.setIno e fun ip => { ip with ref := ip.ref + 1 }) = tree sb s := by
  refine h.setEntry (fun _ => h.range e he) (fun _ e' hne hpos hsame => hne (h.uniq e' e hpos he hsame))
    (fun _ hv => h.sync e he hv) ?_ (fun e' hne => count_cons_ne hne) (fun y hne => mem_cons_of_fst_ne hne)
    ?_ (h.locks e) (fun _ _ => Iff.rfl) (fun hK => ⟨Nat.succ_pos _, (h.locked e hK).2⟩)
    (fun _ => ⟨rfl, fun hv => ⟨hv, rfl⟩⟩) ?_
  · rw [count_cons_self]
    have := h.refs e
    simp only
    omega
  · intro y hy hye
    rcases mem_cons.mp hy with rfl | hy
    · rfl
    · rw [← hye]
      exact h.nums y hy
  · intro _ hv _
    exact ⟨Nat.succ_pos _, rfl, hv⟩

lemma Inv.recycle (h : Inv sb z s L K) (he : (s.ino e).ref = 0) (hi : sb.Inum i)
    (hnew : ∀ e', 0 < (s.ino e').ref → (s.ino e').inum ≠ i) :
    After sb z s ((e, i) :: L) K (s.setIno e fun ip => { ip with inum := i, ref := 1, valid := false }) ∧
      tree sb (s.setIno e fun ip => { ip with inum := i, ref := 1, valid := false }) = tree sb s := by
  have hrefs := h.refs e
  have hcount : (L.map Prod.fst).count e = 0 := by omega
  have hnone : ∀ y ∈ L, y.1 ≠ e := by
    rintro y hy rfl
    exact absurd (h.ref_pos_of_mem hy) (by omega)
  have hK : e ∉ K := fun hK => absurd (h.locked e hK).1 (by omega)
  refine h.setEntry (fun _ => hi) (fun _ e' _ hpos => hnew e' hpos) (fun _ hv => nomatch hv) ?_
    (fun e' hne => count_cons_ne hne) (fun y hne => mem_cons_of_fst_ne hne) ?_ (h.locks e)
    (fun _ _ => Iff.rfl) (fun hK' => absurd hK' hK) (fun hpos => by omega) ?_
  · rw [count_cons_self]
    simp only
    omega
  · intro y hy hye
    rcases mem_cons.mp hy with rfl | hy
    · rfl
    · exact absurd hye (hnone y hy)
  · intro hpos
    omega

section

/-- The inode is in the table, or there is an empty entry for it. -/
def State.Takes (s : State P) (i : ℕ) : Prop :=
  (∃ e, 0 < (s.ino e).ref ∧ (s.ino e).inum = i) ∨ ∃ e, (s.ino e).ref = 0

/-- **`iget`** stops only when the table has neither the inode nor a free entry. -/
lemma iget_exact (h : Inv sb z s L K) (hi : sb.Inum i) (hget : ok (.panic .igetNoInodes) ∨ s.Takes i) :
    wp (iget i) ok (fun e s' => s.Takes i ∧ After sb z s ((e, i) :: L) K s' ∧ tree sb s' = tree sb s ∧
      s'.disk = s.disk) s := by
  simp only [iget, wp_bind, wp_read]
  cases hfind : (List.finRange NINODE).find? fun e => 0 < (s.ino e).ref ∧ (s.ino e).inum = i with
  | some e =>
    have hp := find?_some hfind
    simp only [decide_eq_true_eq] at hp
    obtain ⟨hpos, rfl⟩ := hp
    simp only [setInode, wp_bind, wp_modify, wp_pure]
    obtain ⟨hafter, htree⟩ := h.addRef hpos
    exact ⟨.inl ⟨e, hpos, rfl⟩, hafter, htree, rfl⟩
  | none =>
    simp only
    have hout : ∀ e', 0 < (s.ino e').ref → (s.ino e').inum = i → False := by
      intro e' hpos hsame
      have := find?_eq_none.mp hfind e' (mem_finRange e')
      simp [hpos, hsame] at this
    cases hfree : (List.finRange NINODE).find? fun e => (s.ino e).ref = 0 with
    | some e =>
      have hp := find?_some hfree
      simp only [decide_eq_true_eq] at hp
      simp only [setInode, wp_bind, wp_modify, wp_pure]
      obtain ⟨hafter, htree⟩ := h.recycle hp hi hout
      exact ⟨.inr ⟨e, hp⟩, hafter, htree, rfl⟩
    | none =>
      rcases hget with hget | ⟨e, hpos, hsame⟩ | ⟨e, he⟩
      · exact hget
      · exact (hout e hpos hsame).elim
      · have := find?_eq_none.mp hfree e (mem_finRange e)
        simp [he] at this

lemma idup_spec (h : Inv sb z s L K) (he : 0 < (s.ino e).ref) :
    wp (idup e) ok (fun _ s' => After sb z s ((e, (s.ino e).inum) :: L) K s' ∧ tree sb s' = tree sb s) s :=
  h.addRef he

/-- **`ilock`** waits only for itself. -/
lemma ilock_exact (h : Inv sb z s L K) (he : 0 < (s.ino e).ref) (hwait : ok .hang ∨ e ∉ K)
    (hno : ok (.panic .ilockNoType) ∨ (tree sb s).type (s.ino e).inum ≠ 0) :
    wp (ilock sb e) ok (fun _ s' => After sb z s L (e :: K) s' ∧ tree sb s' = tree sb s ∧ e ∉ K ∧ s'.disk = s.disk) s := by
  have hi := h.range e he
  simp only [ilock, inode, wp_bind, wp_read, wp_pure]
  rw [if_neg (by omega)]
  by_cases hlocked : (s.ino e).locked = true
  · rw [if_pos hlocked]
    exact hwait.resolve_right fun hK => hK ((h.locks e).mp hlocked)
  · have hK : e ∉ K := fun hK => hlocked ((h.locks e).mpr hK)
    rw [if_neg hlocked]
    simp only [setInode, wp_bind, wp_modify]
    by_cases hv : (s.ino e).valid = true
    · rw [if_pos hv, wp_pure]
      have hset : After sb z s L (e :: K) _ ∧ _ := h.setEntry (e := e) (x := { s.ino e with locked := true })
        (fun _ => hi) (fun _ e' hne hpos hsame => hne (h.uniq e' e hpos he hsame)) (fun _ _ => h.sync e he hv)
        (h.refs e) (fun _ _ => rfl) (fun _ _ => Iff.rfl) (fun y hy hye => by rw [← hye]; exact h.nums y hy)
        (by simp) (fun e' hne => by simp [hne]) (fun _ => ⟨he, hv⟩) (fun _ => ⟨rfl, fun hv => ⟨hv, rfl⟩⟩)
        (fun _ _ _ => ⟨he, rfl, hv⟩)
      exact ⟨hset.1, hset.2, hK, rfl⟩
    · rw [if_neg hv]
      simp only [wp_bind, wp_read, wp_modify]
      refine wp_ite.mpr ⟨fun ht => ?_, fun ht => ?_⟩
      · rcases hno with hno | hno
        · exact hno
        · exfalso
          apply hno
          rw [tree_type, if_pos hi]
          exact ht
      · rw [wp_pure]
        have hset : After sb z s L (e :: K) _ ∧ _ := h.setEntry (e := e)
          (x := { s.ino e with locked := true, d := dinode sb s.disk (s.ino e).inum, valid := true })
          (fun _ => hi) (fun _ e' hne hpos hsame => hne (h.uniq e' e hpos he hsame)) (fun _ _ => ⟨rfl, ht⟩)
          (h.refs e) (fun _ _ => rfl) (fun _ _ => Iff.rfl) (fun y hy hye => by rw [← hye]; exact h.nums y hy)
          (by simp) (fun e' hne => by simp [hne]) (fun _ => ⟨he, rfl⟩)
          (fun _ => ⟨rfl, fun hv' => absurd hv' hv⟩)
          (fun _ hv' => absurd hv' hv)
        rw [State.setIno_setIno]
        exact ⟨hset.1, hset.2, hK, rfl⟩

lemma iunlock_exact (h : Inv sb z s L (e :: K)) (hK : e ∉ K) :
    wp (iunlock e) ok (fun _ s' => After sb z s L K s' ∧ tree sb s' = tree sb s ∧ s'.disk = s.disk) s := by
  obtain ⟨he, hv⟩ := h.locked e mem_cons_self
  have hi := h.range e he
  simp only [iunlock, inode, wp_bind, wp_read, wp_pure]
  rw [if_neg (by rw [(h.locks e).mpr mem_cons_self]; simp; omega)]
  have hset : After sb z s L K _ ∧ _ := h.setEntry (e := e) (x := { s.ino e with locked := false }) (fun _ => hi)
    (fun _ e' hne hpos hsame => hne (h.uniq e' e hpos he hsame)) (fun _ _ => h.sync e he hv)
    (h.refs e) (fun _ _ => rfl) (fun _ _ => Iff.rfl) (fun y hy hye => by rw [← hye]; exact h.nums y hy)
    (by simp [hK]) (fun e' hne => by simp [hne]) (fun hc => absurd hc hK)
    (fun _ => ⟨rfl, fun hv => ⟨hv, rfl⟩⟩)
    (fun _ _ _ => ⟨he, rfl, hv⟩)
  exact ⟨hset.1, hset.2, rfl⟩

lemma iunlock_spec (h : Inv sb z s L (e :: K)) (hK : e ∉ K) :
    wp (iunlock e) ok (fun _ s' => After sb z s L K s' ∧ tree sb s' = tree sb s) s :=
  (iunlock_exact h hK).mono fun _ _ h => ⟨h.1, h.2.1⟩

variable (hok : Allowed z ok)

include hok

lemma iget_spec (h : Inv sb z s L K) (hi : sb.Inum i) :
    wp (iget i) ok (fun e s' => After sb z s ((e, i) :: L) K s' ∧ tree sb s' = tree sb s) s :=
  (iget_exact h hi (Or.inl (hok _ (by decide) fun _ => by decide))).mono fun _ _ h => ⟨h.2.1, h.2.2.1⟩

lemma ilock_spec (h : Inv sb z s L K) (he : 0 < (s.ino e).ref) :
    wp (ilock sb e) ok (fun _ s' => After sb z s L (e :: K) s' ∧ tree sb s' = tree sb s ∧ e ∉ K ∧ s'.disk = s.disk) s :=
  ilock_exact h he (Or.inl (hok _ (by decide) fun _ => by decide)) (Or.inl (hok _ (by decide) fun _ => by decide))

end

end Xv6.Fs
