import Xv6.Fs.Planted

/-!
# Path resolution
-/

namespace Xv6.Fs

open Lib Log

variable {P : Type} [Fintype P] {sb : Superblock} {z : Sel} {s s' : State P} {L : List (Fin NINODE × ℕ)}
  {K : List (Fin NINODE)} {ok : Stop → Prop} {e : Fin NINODE}

/-! ### `namei` and `nameiparent` -/

/-- Nothing has changed but that there is one reference more, to the entry that was returned, if any. -/
structure Outcome (s : State P) (r : Option (Fin NINODE)) (s' : State P) : Prop where
  refs : ∀ e, (s'.ino e).ref = (s.ino e).ref + if r = some e then 1 else 0
  unlocked : ∀ e, (s'.ino e).locked = false
  disk : s'.disk = s.disk
  proc : s'.proc = s.proc
  file : s'.file = s.file

lemma Outcome.of_after (h : Inv sb z s [] []) (hafter : After sb z s L' [] s') (hdisk : s'.disk = s.disk)
    (hcount : ∀ e, (L'.map Prod.fst).count e = if r = some e then 1 else 0) : Outcome s r s' where
  refs e := by
    rw [hafter.inv.refs, h.refs, holders_congr hafter.proc hafter.file, hcount, List.map_nil, List.count_nil, Nat.add_zero]
  unlocked e := by
    have := hafter.inv.locks e
    simpa using this
  disk := hdisk
  proc := hafter.proc
  file := hafter.file

/-- The numbers of the inodes that processes and open files refer to. -/
def State.inUse (s : State P) : Finset ℕ := (Finset.univ.filter fun e => 0 < s.holders e).image fun e => (s.ino e).inum

lemma After.inUse (h : After sb z s L K s') : s'.inUse = s.inUse := by
  have hholders : s'.holders = s.holders := funext (holders_congr h.proc h.file)
  unfold State.inUse
  rw [hholders]
  refine Finset.image_congr fun e he => h.pinned e ?_
  simpa using he

/-- The table has the inodes in use and those that the call refers to, one entry each. -/
lemma Inv.takes_iff (h : Inv sb z s L K) {j : ℕ} :
    s.Takes j ↔ j ∈ (L.map Prod.snd).toFinset ∪ s.inUse ∨ ((L.map Prod.snd).toFinset ∪ s.inUse).card < NINODE := by
  have himage : (Finset.univ.filter fun e => 0 < (s.ino e).ref).image (fun e => (s.ino e).inum) =
      (L.map Prod.snd).toFinset ∪ s.inUse := by
    ext j
    simp only [Finset.mem_image, Finset.mem_filter, Finset.mem_univ, true_and, Finset.mem_union, List.mem_toFinset,
      List.mem_map, State.inUse]
    constructor
    · rintro ⟨e, hpos, rfl⟩
      by_cases hold : 0 < s.holders e
      · exact .inr ⟨e, hold, rfl⟩
      · have hcount : 0 < (L.map Prod.fst).count e := by
          have := h.refs e
          omega
        obtain ⟨x, hx, rfl⟩ := List.mem_map.mp (List.count_pos_iff.mp hcount)
        exact .inl ⟨x, hx, (h.nums x hx).symm⟩
    · rintro (⟨x, hx, rfl⟩ | ⟨e, hold, rfl⟩)
      · exact ⟨x.1, h.ref_pos_of_mem hx, h.nums x hx⟩
      · exact ⟨e, h.ref_pos_of_holders hold, rfl⟩
  have hcard : ((L.map Prod.snd).toFinset ∪ s.inUse).card = (Finset.univ.filter fun e => 0 < (s.ino e).ref).card := by
    rw [← himage]
    refine Finset.card_image_of_injOn fun e he e' he' => ?_
    simp only [Finset.coe_filter, Finset.mem_univ, true_and, Set.mem_ofPred_eq] at he he'
    exact h.uniq e e' he he'
  rw [State.Takes, hcard, ← himage]
  refine or_congr (by simp) ⟨fun hex => ?_, fun hlt => ?_⟩
  · obtain ⟨e, he⟩ := hex
    have hsub : (Finset.univ.filter fun e => 0 < (s.ino e).ref) ⊂ Finset.univ :=
      Finset.filter_ssubset.mpr ⟨e, Finset.mem_univ e, by omega⟩
    simpa using Finset.card_lt_card hsub
  · by_contra hall
    push Not at hall
    rw [Finset.filter_true_of_mem fun e _ => Nat.pos_of_ne_zero (hall e), Finset.card_univ, Fintype.card_fin] at hlt
    exact Nat.lt_irrefl _ hlt

/-- The walk of a path meets nothing that stops it, `U` being the inodes in use: each inode in which it looks a piece
up is allocated, and the table has an entry for what it finds there. -/
def Tree.Passable (T : Tree) (U : Finset ℕ) (parent : Bool) : ℕ → List Name → Prop
  | _, [] => True
  | i, name :: rest => T.type i ≠ 0 ∧ (T.type i = T_DIR → ¬ (parent = true ∧ rest = []) → ∀ j, T.lookup i name = some j →
      (j ∈ insert i U ∨ (insert i U).card < NINODE) ∧ T.Passable U parent j rest)

/-- Nothing stops `namex` in this state on this path. -/
def Passable (sb : Superblock) (s : State P) (cwd : Fin NINODE) (path : Name) (parent : Bool) : Prop :=
  (path.head? = some 47 → ROOTINO ∈ s.inUse ∨ s.inUse.card < NINODE) ∧
    (tree sb s).Passable s.inUse parent (s.start cwd path) (pieces path)

/-- The loop of `namex` stops on the paths that are not passable, and returns on the others. -/
lemma walk_passes (hl : Layout sb) (parent : Bool) (names : List Name) {i : ℕ}
    (h : Inv sb (.const True True) s [(e, i)] []) (hz : ZeroRef sb s []) :
    wp (walk sb parent e names) (fun _ => ¬ (tree sb s).Passable s.inUse parent i names)
      (fun _ _ => (tree sb s).Passable s.inUse parent i names) s := by
  induction names generalizing s e i with
  | nil =>
    rw [walk]
    refine wp_ite.mpr ⟨fun _ => ?_, fun _ => trivial⟩
    rw [wp_bind]
    exact (iput_exact hl h (by rintro ⟨⟩)).mono fun _ _ _ => trivial
  | cons name rest ih =>
    have hpos := h.ref_pos_of_mem (x := (e, i)) List.mem_cons_self
    have hnum : (s.ino e).inum = i := h.nums (e, i) List.mem_cons_self
    rw [walk, wp_bind]
    refine (ilock_exact h hpos (.inr List.not_mem_nil) ?_).mono ?_
    · rw [hnum]
      exact (em _).symm.imp_left fun hty hpass => hty hpass.1
    rintro _ s1 ⟨h1, ht1, -, hd1⟩
    have hnum1 : (s1.ino e).inum = i := h1.inv.nums (e, i) List.mem_cons_self
    have hlocked := h1.inv.type_of_locked (e := e) List.mem_cons_self
    rw [hnum1, ht1] at hlocked
    have hty : (tree sb s).type i ≠ 0 := by
      rw [hlocked.1]
      exact hlocked.2
    -- the exits that give the inode back
    have hback : (tree sb s).Passable s.inUse parent i (name :: rest) → wp (do
        iunlockput sb e
        pure none) (fun _ => ¬ (tree sb s).Passable s.inUse parent i (name :: rest))
        (fun (_ : Option (Fin NINODE × Name)) _ => (tree sb s).Passable s.inUse parent i (name :: rest)) s1 := by
      intro hpass
      rw [wp_bind]
      exact (iunlockput_exact hl h1.inv List.not_mem_nil).mono fun _ _ _ => hpass
    simp only [inode, wp_bind, wp_read, wp_pure]
    rw [← hlocked.1]
    refine wp_ite.mpr ⟨fun hdir => hback ⟨hty, fun hc => absurd hc hdir⟩, fun hdir => wp_ite.mpr ⟨fun hlast => ?_,
      fun hlast => ?_⟩⟩
    · rw [wp_bind]
      exact (iunlock_exact h1.inv List.not_mem_nil).mono fun _ _ _ => ⟨hty, fun _ hc => absurd hlast hc⟩
    · have htakes : ∀ j, s1.Takes j ↔ j ∈ insert i s.inUse ∨ (insert i s.inUse).card < NINODE := by
        intro j
        rw [h1.inv.takes_iff, h1.inUse, Finset.insert_eq]
        rfl
      rw [wp_bind]
      refine (dirlookup_exact h1.inv List.mem_cons_self name (.inr (hlocked.1.symm.trans (not_not.mp hdir)))
        (fun hna => absurd trivial hna) (fun hns => absurd trivial hns) ?_).mono ?_
      · rw [hnum1, ht1]
        exact (em _).symm.imp_right fun hpass j hj => (htakes j).mpr (hpass.2 (not_not.mp hdir) hlast j hj).1
      rintro r s2 ⟨-, hr⟩
      cases r with
      | none =>
        obtain ⟨rfl, habsent⟩ := hr
        rw [hnum1, ht1] at habsent
        refine hback ⟨hty, fun _ _ j hj => ?_⟩
        rw [Tree.lookup_of_absent habsent] at hj
        cases hj
      | some x =>
        obtain ⟨next, off⟩ := x
        obtain ⟨k, j, -, hj, hent, hfirst, htake, h2, ht2, -⟩ := hr
        rw [hnum1, ht1] at hent hfirst
        rw [wp_bind]
        refine (iunlockput_exact hl (h2.inv.perm (List.Perm.swap _ _ _)) List.not_mem_nil).mono ?_
        rintro _ s3 ⟨h3, -, -, hs3⟩
        have ht02 := ht2.trans ht1
        have ht3 : tree sb s3 = tree sb s := (hs3 ((hz.congr ht02).cons _)).1.trans ht02
        have hrest : (tree sb s).Passable s.inUse parent i (name :: rest) ↔ (tree sb s).Passable s.inUse parent j rest := by
          have hlook := Tree.lookup_of_first hj hent hfirst
          refine ⟨fun hpass => (hpass.2 (not_not.mp hdir) hlast j hlook).2, fun hpass => ⟨hty, fun _ _ j' hj' => ?_⟩⟩
          obtain rfl : j = j' := Option.some.inj (hlook.symm.trans hj')
          exact ⟨(htakes j).mp htake, hpass⟩
        have hnext := ih h3.inv (hz.congr ht3)
        rw [ht3, (h1.trans (h2.trans h3)).inUse] at hnext
        rw [hrest]
        exact hnext

lemma namex_passes (hl : Layout sb) (hroot : sb.Inum ROOTINO) (h : Inv sb (.const True True) s [] []) {cwd : Fin NINODE}
    (hcwd : 0 < s.holders cwd) (path : Name) (parent : Bool) :
    wp (namex sb cwd path parent) (fun _ => ¬ Passable sb s cwd path parent)
      (fun _ _ => Passable sb s cwd path parent) s := by
  -- the walk from an inode to which the call refers
  have hwalk : ∀ e s1, After sb (.const True True) s [(e, s.start cwd path)] [] s1 → tree sb s1 = tree sb s →
      (path.head? = some 47 → ROOTINO ∈ s.inUse ∨ s.inUse.card < NINODE) →
      wp (walk sb parent e (elements path.length path)) (fun _ => ¬ Passable sb s cwd path parent)
        (fun _ _ => Passable sb s cwd path parent) s1 := by
    intro e s1 h1 ht1 hfirst
    have hw := walk_passes hl parent (pieces path) h1.inv ((h.zeroRef fun _ => trivial).congr ht1)
    rw [ht1, h1.inUse] at hw
    rwa [elements_eq_pieces (Nat.le_refl _), Passable, and_iff_right hfirst]
  rw [namex]
  refine wp_ite.mpr ⟨fun hslash => ?_, fun hslash => ?_⟩
  · have htakes : s.Takes ROOTINO ↔ ROOTINO ∈ s.inUse ∨ s.inUse.card < NINODE := by
      rw [h.takes_iff, List.map_nil, List.toFinset_nil, Finset.empty_union]
    rw [wp_bind]
    refine (iget_exact h hroot ((em _).symm.imp_left fun hno hpass => hno (htakes.mpr (hpass.1 hslash)))).mono ?_
    rintro e s1 ⟨htake, h1, ht1, -⟩
    rw [show ROOTINO = s.start cwd path from (if_pos hslash).symm] at h1
    exact hwalk e s1 h1 ht1 fun _ => htakes.mp htake
  · have hstart : s.start cwd path = (s.ino cwd).inum := if_neg hslash
    obtain ⟨h1, ht1⟩ := h.addRef (h.ref_pos_of_holders hcwd)
    rw [← hstart] at h1
    exact hwalk cwd _ h1 ht1 fun hc => absurd hc hslash

/-- `namei` returns the inode that the pieces of the path lead to from the root or from the current directory, with
one reference more, or fails with none; no lock is held, and nothing else has changed. -/
def NameiLooksUp (sb : Superblock) (s : State P) (cwd : Fin NINODE) (path : Name) : Prop :=
  ∃ r s', namei sb cwd path s = .ok (r, s') ∧ Outcome s r s' ∧
    r.map (fun e => (s'.ino e).inum) = (tree sb s).resolve (s.start cwd path) (pieces path)

/-- The same of `nameiparent`, with the directory that all but the last piece lead to, and the last piece. -/
def NameiparentLooksUp (sb : Superblock) (s : State P) (cwd : Fin NINODE) (path : Name) : Prop :=
  ∃ r s', nameiparent sb cwd path s = .ok (r, s') ∧ Outcome s (r.map Prod.fst) s' ∧
    r.map (fun x => ((s'.ino x.1).inum, x.2)) = (tree sb s).resolveParent (s.start cwd path) (pieces path)

/-- **Path resolution is component-wise lookup**, on the paths that are passable and on no others. -/
theorem namei_component_wise (hl : Layout sb) (hroot : sb.Inum ROOTINO) (h : Inv sb (.const True True) s [] []) {p : P}
    {cwd : Fin NINODE} (hcwd : (s.proc p).cwd = some cwd) (path : Name) :
    (NameiLooksUp sb s cwd path ↔ Passable sb s cwd path false) ∧
    (NameiparentLooksUp sb s cwd path ↔ Passable sb s cwd path true) := by
  have hpos := holders_pos_of_cwd hcwd
  have hzero := h.zeroRef fun _ => trivial
  have hpasses := namex_passes hl hroot h hpos path
  have hspec : ∀ parent, Passable sb s cwd path parent → wp (namex sb cwd path parent) (fun _ => False)
      (fun r s' => Walked sb (.const True True) s []
        ((tree sb s).walkTo parent (s.start cwd path) (pieces path)) r s') s := by
    intro parent hpass
    have hall : wp (namex sb cwd path parent) (fun _ => True) _ s := namex_exact hl (fun hna => absurd trivial hna)
      (fun hns => absurd trivial hns) hroot path parent h hpos trivial trivial
    unfold wp
    cases hrun : namex sb cwd path parent s with
    | ok x => exact (hall.of_ok hrun).1
    | error stop => exact (hpasses parent).of_error hrun hpass
  refine ⟨⟨?_, fun hpass => ?_⟩, ?_, fun hpass => ?_⟩
  · rintro ⟨r, s', hrun, -⟩
    have hnamei : wp (namei sb cwd path) (fun _ => ¬ Passable sb s cwd path false)
        (fun _ _ => Passable sb s cwd path false) s := by
      rw [namei, wp_bind]
      exact (hpasses false).mono fun _ _ hpass => hpass
    exact hnamei.of_ok hrun
  · have hnamei : wp (namei sb cwd path) (fun _ => False) (fun r' s' => ∃ r, r' = r.map Prod.fst ∧
        Walked sb (.const True True) s [] ((tree sb s).walkTo false (s.start cwd path) (pieces path)) r s') s := by
      rw [namei, wp_bind]
      exact (hspec false hpass).mono fun r s' hw => ⟨r, rfl, hw⟩
    obtain ⟨_, s', hrun, r, rfl, -, hstill, hr⟩ := hnamei.returns
    obtain ⟨-, hdisk⟩ := hstill hzero
    rw [Tree.walkTo_false] at hr
    refine ⟨r.map Prod.fst, s', hrun, ?_⟩
    cases r with
    | none => exact ⟨.of_after h hr.1 hdisk fun e => rfl, (Option.map_eq_none_iff.mp (hr.2 hzero)).symm⟩
    | some x =>
      obtain ⟨j, hafter, hj⟩ := hr
      obtain ⟨j', hj', heq⟩ := Option.map_eq_some_iff.mp (hj hzero)
      obtain rfl : j' = j := congrArg Prod.fst heq
      have hnum : (s'.ino x.1).inum = j' := hafter.inv.nums (x.1, j') List.mem_cons_self
      refine ⟨.of_after h hafter hdisk fun e => by simp [List.count_singleton], ?_⟩
      rw [hj', Option.map_some, Option.map_some, hnum]
  · rintro ⟨r, s', hrun, -⟩
    exact (hpasses true).of_ok hrun
  · obtain ⟨r, s', hrun, -, hstill, hr⟩ := (hspec true hpass).returns
    obtain ⟨-, hdisk⟩ := hstill hzero
    rw [Tree.walkTo_true] at hr
    refine ⟨r, s', hrun, ?_⟩
    cases r with
    | none => exact ⟨.of_after h hr.1 hdisk fun e => rfl, (hr.2 hzero).symm⟩
    | some x =>
      obtain ⟨j, hafter, hj⟩ := hr
      have hnum : (s'.ino x.1).inum = j := hafter.inv.nums (x.1, j) List.mem_cons_self
      refine ⟨.of_after h hafter hdisk fun e => by simp [List.count_singleton], ?_⟩
      rw [hj hzero, Option.map_some, hnum]

/-! ### A small image -/

lemma boot_passable : Passable smallSb (boot emptyDisk ()) 0 [46, 46] false := by
  have hroot : (tree smallSb (boot emptyDisk ())).type 1 ≠ 0 := by
    rw [emptyDisk_root]
    decide
  have hcard : (insert 1 (boot emptyDisk ()).inUse).card < NINODE := by
    have hsub : (boot emptyDisk ()).inUse ⊆ {1} := by
      rw [State.inUse, Finset.image_subset_iff]
      intro e he
      rw [Finset.mem_filter, holders_boot] at he
      split_ifs at he with h0
      · rw [h0]
        exact Finset.mem_singleton_self 1
      · exact absurd he.2 (Nat.lt_irrefl 0)
    have := Finset.card_le_card hsub
    have := Finset.card_insert_le 1 (boot emptyDisk ()).inUse
    rw [Finset.card_singleton] at *
    simp only [NINODE]
    omega
  exact ⟨fun hc => absurd hc (by decide), hroot, fun _ _ j _ => ⟨.inr hcard, trivial⟩⟩

theorem namei_component_wise_boot : Passable smallSb (boot emptyDisk ()) 0 [46, 46] false ∧
    NameiLooksUp smallSb (boot emptyDisk ()) 0 [46, 46] :=
  ⟨boot_passable, (namei_component_wise smallSb_layout planted_emptyDisk.root planted_emptyDisk.ready.inv
    (p := ()) rfl [46, 46]).1.mpr boot_passable⟩

/-- `a` is an empty directory; inode 3 was a directory in it. -/
def removedDisk : Disk :=
  putDinode smallSb (putDinode smallSb (putDinode smallSb (fun b =>
    if b = 33 then mapBlock 37
    else if b = 34 then dirBlock [(dot, 1), (dotdot, 1), ([97], 2)]
    else if b = 35 then dirBlock [(dot, 2), (dotdot, 1)]
    else if b = 36 then dirBlock [(dot, 3), (dotdot, 2)]
    else Bytes.zero _) 1 { dirInode 48 34 with nlink := 2 }) 2 (dirInode 48 35)) 3 { dirInode 32 36 with nlink := 0 }

/-- A process whose current directory `/a/b` has been removed. -/
def removed : State Unit :=
  { boot removedDisk () with ino := fun e => { (boot removedDisk ()).ino e with
      inum := if e = 0 then 3 else 0, valid := e = 0, d := dinode smallSb removedDisk 3 } }

lemma removedDisk_ok : DiskOk smallSb ⟨True, True⟩ removedDisk where
  owned := by
    have hdirect : ∀ i < smallSb.ninodes, (dinode smallSb removedDisk i).addrs NDIRECT = 0 := by decide +kernel
    have hown : BlocksOwned smallSb (boot removedDisk ()) := by
      refine .of_direct hdirect ?_ ?_ <;> decide +kernel
    have hdata : ∀ t, (boot removedDisk ()).slot smallSb t ≠ 0 →
        smallSb.nmeta ≤ (boot removedDisk ()).slot smallSb t ∧ (boot removedDisk ()).slot smallSb t < smallSb.size := by
      intro t ht
      rw [slot_boot] at ht ⊢
      have hall : ∀ t ∈ directSlots smallSb, slot smallSb (dinode smallSb removedDisk) removedDisk t ≠ 0 →
          smallSb.nmeta ≤ slot smallSb (dinode smallSb removedDisk) removedDisk t ∧
          slot smallSb (dinode smallSb removedDisk) removedDisk t < smallSb.size := by decide +kernel
      exact hall t (mem_directSlots hdirect ht) ht
    have := hown.owned smallSb_layout hdata
    rwa [slot_boot] at this
  dirs := by refine .of_small (by decide) ?_ ?_ <;> decide +kernel
  solid _ := by refine .of_small ?_ ?_ <;> decide +kernel
  aligned _ i hi := by
    have hall : ∀ i < 5, (dinode smallSb removedDisk i).type = T_DIR → 16 ∣ (dinode smallSb removedDisk i).size := by
      decide +kernel
    exact hall i hi.2

lemma removed_inv : Inv smallSb (.const True True) removed [] [] := by
  have href : ∀ e, (removed.ino e).ref = if e = 0 then 1 else 0 := fun _ => rfl
  have hzero : ∀ e, 0 < (removed.ino e).ref → e = 0 := by
    intro e he
    by_contra hne
    rw [href, if_neg hne] at he
    exact absurd he (Nat.lt_irrefl 0)
  refine ⟨removedDisk_ok, fun e he => ?_, fun e e' he he' _ => ?_, fun e he _ => ?_, fun e => ?_, fun x hx => (nomatch hx),
    fun e => ⟨fun hc => absurd hc Bool.false_ne_true, fun hc => (nomatch hc)⟩, fun e he => (nomatch he),
    fun f hf => (nomatch hf), fun i _ ha hn => ?_⟩
  · rw [hzero e he]
    decide
  · rw [hzero e he, hzero e' he']
  · rw [hzero e he]
    exact ⟨rfl, by decide +kernel⟩
  · have hholders : removed.holders e = (boot removedDisk ()).holders e := rfl
    rw [href, hholders, holders_boot, List.map_nil, List.count_nil, Nat.add_zero]
  · have hall : ∀ i < 5, (dinode smallSb removedDisk i).type ≠ 0 → (dinode smallSb removedDisk i).nlink = 0 → i = 3 := by
      decide +kernel
    by_cases hi : smallSb.Inum i
    · rw [tree_type, if_pos hi] at ha
      rw [tree_nlink, if_pos ⟨hi, ha⟩] at hn
      exact ⟨0, Nat.one_pos, (hall i hi.2 ha hn).symm, rfl⟩
    · rw [tree_type, if_neg hi] at ha
      exact absurd rfl ha

/-- When the parent of a removed directory is removed too, `..` names a free inode. -/
theorem namei_orphan : Inv smallSb (.const True True) removed [] [] ∧
    ∃ s, sysUnlink smallSb 0 (some [47, 97]) removed = .ok (0, s) ∧
      namei smallSb 0 [46, 46, 47, 120] s = .error (.panic .ilockNoType) := by
  refine ⟨removed_inv, ?_⟩
  have hrun : (match sysUnlink smallSb 0 (some [47, 97]) removed with
      | .ok (r, s) => decide (r = 0) && match namei smallSb 0 [46, 46, 47, 120] s with
        | .ok _ => false
        | .error e => decide (e = .panic .ilockNoType)
      | .error _ => false) = true := by decide +kernel
  revert hrun
  cases hs : sysUnlink smallSb 0 (some [47, 97]) removed with
  | error e => exact fun h => nomatch h
  | ok x =>
    obtain ⟨r, s⟩ := x
    simp only [Bool.and_eq_true, decide_eq_true_eq]
    rintro ⟨rfl, h⟩
    refine ⟨s, rfl, ?_⟩
    cases hn : namei smallSb 0 [46, 46, 47, 120] s with
    | ok x =>
      rw [hn] at h
      cases h
    | error e =>
      rw [hn] at h
      rw [of_decide_eq_true h]

end Xv6.Fs
