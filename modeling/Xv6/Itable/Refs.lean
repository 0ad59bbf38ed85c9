import Xv6.Itable.Model
import Xv6.Lib.Sum

/-!
# References to inode table entries

The count of an entry is the number of references to it: from processes, in local variables and as current
directory, and from open files.  No two entries in use have the same inode.
-/

namespace Xv6.Itable

open Lib Function List

/-- The references of a process to entry `e`. -/
def Slot.holds (e : Entry) : Slot → ℕ
  | .used q => q.held.count e + if q.cwd = e then 1 else 0
  | _ => 0

namespace State

def refs (s : State) (e : Entry) : ℕ := ∑ p, (s.proc p).holds e + ∑ f, if s.fip f = some e then 1 else 0

lemma refs_setProc (s : State) (p : Fin NPROC) (x : Slot) (e : Entry) :
    (s.setProc p x).refs e + (s.proc p).holds e = s.refs e + x.holds e := by
  have hsum := sum_change (f := fun q => ((s.setProc p x).proc q).holds e) (g := fun q => (s.proc q).holds e) p
    fun q hq => congrArg (Slot.holds e) (update_of_ne hq _ _)
  have hself : (s.setProc p x).proc p = x := update_self _ _ _
  simp only [hself] at hsum
  have hfip : (s.setProc p x).fip = s.fip := rfl
  unfold refs
  rw [hfip]
  omega

lemma refs_setFile (s : State) (f : Fin NFILE) (n : ℕ) (ip : Option Entry) (e : Entry) :
    (s.setFile f n ip).refs e + (if s.fip f = some e then 1 else 0) = s.refs e + if ip = some e then 1 else 0 := by
  have hsum := sum_change (f := fun g => if (s.setFile f n ip).fip g = some e then 1 else 0)
    (g := fun g => if s.fip g = some e then 1 else 0) f fun g hg => congrArg (fun o => if o = some e then 1 else 0) (update_of_ne hg _ _)
  have hself : (s.setFile f n ip).fip f = ip := update_self _ _ _
  simp only [hself] at hsum
  have hproc : (s.setFile f n ip).proc = s.proc := rfl
  unfold refs
  rw [hproc]
  omega

lemma holds_le_refs (s : State) (p : Fin NPROC) (e : Entry) : (s.proc p).holds e ≤ s.refs e :=
  (Finset.single_le_sum (f := fun p => (s.proc p).holds e) (fun _ _ => Nat.zero_le _) (Finset.mem_univ p)).trans
    (Nat.le_add_right _ _)

lemma ref_addRef (s : State) (c e : Entry) : (s.addRef c).ref e = s.ref e + if c = e then 1 else 0 := by
  change update s.ref c (s.ref c + 1) e = _
  by_cases h : c = e
  · subst h
    simp
  · rw [update_of_ne (Ne.symm h), if_neg h, Nat.add_zero]

variable {c : Entry} {inum : ℕ} {x : Slot} {f : Fin NFILE}

lemma ref_dropRef {s : State} (hc : 0 < s.ref c) (e : Entry) :
    (s.dropRef c).ref e + (if c = e then 1 else 0) = s.ref e := by
  change update s.ref c (s.ref c - 1) e + _ = _
  by_cases h : c = e
  · subst h
    rw [update_self, if_pos rfl]
    omega
  · rw [update_of_ne (Ne.symm h), if_neg h, Nat.add_zero]

end State

/-- The counts are the numbers of references, and an inode has one entry. -/
structure Inv (s : State) : Prop where
  ref : ∀ e, s.ref e = s.refs e
  once : ∀ e e', 0 < s.ref e → 0 < s.ref e' → s.inum e = s.inum e' → e = e'
  /-- A free file has no inode. -/
  files : ∀ f, s.fref f = 0 → s.fip f = none

section

variable {s s' : State} {p : Fin NPROC} {q : Proc} {e : Entry}

lemma Inv.ref_pos (h : Inv s) (he : 0 < (s.proc p).holds e) : 0 < s.ref e := by
  rw [h.ref]
  exact lt_of_lt_of_le he (s.holds_le_refs p e)

lemma Inv.move (h : Inv s) (hinum : s'.inum = s.inum) (href : ∀ e, s'.ref e + s.refs e = s.ref e + s'.refs e)
    (hpos : ∀ e, 0 < s'.ref e → 0 < s.ref e) (hfiles : ∀ f, s'.fref f = 0 → s'.fip f = none) : Inv s' where
  files := hfiles
  ref e := by
    have h1 := h.ref e
    have h2 := href e
    omega
  once e e' he he' heq := h.once e e' (hpos e he) (hpos e' he') (by rwa [hinum] at heq)

lemma boot_inv : Inv boot where
  ref e := by
    have hsum : ∑ p : Fin NPROC, (boot.proc p).holds e = (boot.proc 0).holds e := by
      refine Finset.sum_eq_single 0 (fun p _ hp => ?_) fun h => absurd (Finset.mem_univ 0) h
      have hproc : boot.proc p = .unused := if_neg hp
      rw [hproc]
      rfl
    have hfip : ∑ f, (if boot.fip f = some e then 1 else 0) = 0 := by simp [boot]
    have hzero : (boot.proc 0).holds e = if (0 : Entry) = e then 1 else 0 := by simp [boot, Slot.holds]
    rw [State.refs, hsum, hfip, hzero]
    change (if e = 0 then 1 else 0) = _
    simp only [eq_comm, Nat.add_zero]
  once e e' he he' _ := by
    have hzero : ∀ x : Entry, 0 < boot.ref x → x = 0 := by
      intro x hx
      by_contra hne
      have hx' : 0 < if x = 0 then 1 else 0 := hx
      rw [if_neg hne] at hx'
      exact absurd hx' (Nat.lt_irrefl 0)
    rw [hzero e he, hzero e' he']
  files _ _ := rfl

lemma iget_cases (hget : s.iget inum = some (e, s')) : (0 < s.ref e ∧ s.inum e = inum ∧ s' = s.addRef e) ∨
    (s.ref e = 0 ∧ (∀ e', 0 < s.ref e' → s.inum e' ≠ inum) ∧
      s' = { s with inum := update s.inum e inum, ref := update s.ref e 1 }) := by
  unfold State.iget at hget
  split at hget
  · rename_i e' hfind
    cases hget
    have hfound := find?_some hfind
    simp only [decide_eq_true_eq] at hfound
    exact .inl ⟨hfound.1, hfound.2, rfl⟩
  · rename_i hnone
    split at hget
    · rename_i e' hfind
      cases hget
      have hfound := find?_some hfind
      simp only [decide_eq_true_eq] at hfound
      refine .inr ⟨hfound, fun e' he' hi => ?_, rfl⟩
      have := find?_eq_none.mp hnone e' (mem_finRange e')
      exact this (decide_eq_true ⟨he', hi⟩)
    · cases hget

lemma iget_eq_none : s.iget inum = none ↔ (∀ e, 0 < s.ref e) ∧ ∀ e, s.inum e ≠ inum := by
  have hmem : ∀ e, e ∈ List.finRange NINODE := mem_finRange
  unfold State.iget
  split
  · rename_i e hfind
    have hfound := find?_some hfind
    simp only [decide_eq_true_eq] at hfound
    exact ⟨fun h => (by cases h), fun h => absurd hfound.2 (h.2 e)⟩
  · rename_i hmiss
    split
    · rename_i e hfind
      have hfound := find?_some hfind
      simp only [decide_eq_true_eq] at hfound
      exact ⟨fun h => (by cases h), fun h => absurd (h.1 e) (by omega)⟩
    · rename_i hfull
      have hpos : ∀ e, 0 < s.ref e := fun e =>
        Nat.pos_of_ne_zero fun h0 => find?_eq_none.mp hfull e (hmem e) (decide_eq_true h0)
      refine ⟨fun _ => ⟨hpos, fun e hi => ?_⟩, fun _ => rfl⟩
      exact find?_eq_none.mp hmiss e (hmem e) (decide_eq_true ⟨hpos e, hi⟩)

lemma iget_inv (h : Inv s) (hp : ∀ e, (s.proc p).holds e = (Slot.used q).holds e) (hget : s.iget inum = some (e, s'))
    : Inv (s'.setProc p (.used { q with held := e :: q.held })) := by
  have hholds : ∀ e', (Slot.used { q with held := e :: q.held }).holds e' =
      (Slot.used q).holds e' + if e = e' then 1 else 0 := by
    intro e'
    simp only [Slot.holds, List.count_cons, beq_iff_eq]
    omega
  rcases iget_cases hget with ⟨hpos, -, rfl⟩ | ⟨hfree, hmiss, rfl⟩
  · refine h.move rfl (fun e' => ?_) (fun e' he' => ?_) h.files
    · have h1 := (s.addRef e).refs_setProc p (.used { q with held := e :: q.held }) e'
      have h2 : (s.addRef e).refs e' = s.refs e' := rfl
      have h3 : ((s.addRef e).proc p).holds e' = (Slot.used q).holds e' := hp e'
      have h4 := hholds e'
      have h5 := s.ref_addRef e e'
      change (s.addRef e).ref e' + s.refs e' = _
      omega
    · change 0 < (s.addRef e).ref e' at he'
      rw [State.ref_addRef] at he'
      by_cases heq : e = e'
      · exact heq ▸ hpos
      · rwa [if_neg heq, Nat.add_zero] at he'
  · refine ⟨fun e' => ?_, fun a b ha hb hab => ?_, h.files⟩
    · have h1 := State.refs_setProc { s with inum := update s.inum e inum, ref := update s.ref e 1 } p
        (.used { q with held := e :: q.held }) e'
      have h2 : State.refs { s with inum := update s.inum e inum, ref := update s.ref e 1 } e' =
        s.refs e' := rfl
      have h3 := hp e'
      have h4 := hholds e'
      have h5 := h.ref e'
      change update s.ref e 1 e' = _
      simp only at h1
      by_cases heq : e = e'
      · subst heq
        rw [update_self]
        rw [if_pos rfl] at h4
        omega
      · rw [update_of_ne (Ne.symm heq)]
        rw [if_neg heq] at h4
        omega
    · change 0 < update s.ref e 1 a at ha
      change 0 < update s.ref e 1 b at hb
      change update s.inum e inum a = update s.inum e inum b at hab
      by_cases hae : a = e
      · by_cases hbe : b = e
        · rw [hae, hbe]
        · rw [update_of_ne hbe] at hb hab
          rw [hae, update_self] at hab
          exact absurd hab.symm (hmiss b hb)
      · rw [update_of_ne hae] at ha hab
        by_cases hbe : b = e
        · rw [hbe, update_self] at hab
          exact absurd hab (hmiss a ha)
        · rw [update_of_ne hbe] at hb hab
          exact h.once a b ha hb hab

/-! ### The other sections -/

lemma holds_used (q : Proc) (e : Entry) : (Slot.used q).holds e = q.held.count e + if q.cwd = e then 1 else 0 := rfl

section

variable (h : Inv s)

include h

lemma Inv.setProc (hx : ∀ e, x.holds e = (s.proc p).holds e) : Inv (s.setProc p x) :=
  h.move rfl (fun e => by
    have h1 := s.refs_setProc p x e
    have h2 := hx e
    change s.ref e + _ = _
    omega) (fun _ he => he) h.files

lemma Inv.addRef (hc : 0 < s.ref c) (hx : ∀ e, x.holds e = (s.proc p).holds e + if c = e then 1 else 0) :
    Inv ((s.addRef c).setProc p x) := by
  refine h.move rfl (fun e => ?_) (fun e he => ?_) h.files
  · have h1 := (s.addRef c).refs_setProc p x e
    have h2 := hx e
    have h3 := s.ref_addRef c e
    have h4 : (s.addRef c).refs e = s.refs e := rfl
    have h5 : ((s.addRef c).proc p).holds e = (s.proc p).holds e := rfl
    change (s.addRef c).ref e + _ = _
    omega
  · change 0 < (s.addRef c).ref e at he
    rw [State.ref_addRef] at he
    by_cases heq : c = e
    · exact heq ▸ hc
    · rwa [if_neg heq, Nat.add_zero] at he

lemma Inv.dropRef (hx : ∀ e, x.holds e + (if c = e then 1 else 0) = (s.proc p).holds e) :
    Inv ((s.dropRef c).setProc p x) := by
  have hc : 0 < s.ref c := h.ref_pos (p := p) (by
    have := hx c
    rw [if_pos rfl] at this
    omega)
  refine h.move rfl (fun e => ?_) (fun e he => ?_) h.files
  · have h1 := (s.dropRef c).refs_setProc p x e
    have h2 := hx e
    have h3 := State.ref_dropRef hc e
    have h4 : (s.dropRef c).refs e = s.refs e := rfl
    have h5 : ((s.dropRef c).proc p).holds e = (s.proc p).holds e := rfl
    change (s.dropRef c).ref e + _ = _
    omega
  · have h3 := State.ref_dropRef hc e
    change 0 < (s.dropRef c).ref e at he
    omega

lemma Inv.setFile {ip : Option Entry} (hn : n = 0 → ip = none)
    (hx : ∀ e, x.holds e + (if ip = some e then 1 else 0) = (s.proc p).holds e + if s.fip f = some e then 1 else 0) :
    Inv ((s.setFile f n ip).setProc p x) :=
  h.move rfl (fun e => by
    have h1 := (s.setFile f n ip).refs_setProc p x e
    have h2 := s.refs_setFile f n ip e
    have h3 : ((s.setFile f n ip).proc p).holds e = (s.proc p).holds e := rfl
    have h4 := hx e
    change s.ref e + _ = _
    omega) (fun _ he => he) fun g hg => by
    change update s.fref f n g = 0 at hg
    change update s.fip f ip g = none
    by_cases hgf : g = f
    · rw [hgf, update_self] at hg ⊢
      exact hn hg
    · rw [update_of_ne hgf] at hg ⊢
      exact h.files g hg

lemma Inv.filealloc_fip (hf : s.filealloc = some f) : s.fip f = none := by
  have hfound := find?_some hf
  simp only [decide_eq_true_eq] at hfound
  exact h.files f hfound

lemma openFile_inv (hp : ∀ e', (s.proc p).holds e' = (Slot.used q).holds e' + if e = e' then 1 else 0) :
    Inv (openFile s p q e) := by
  unfold openFile
  split
  · rename_i f fd hf hfd
    refine h.setFile (fun h0 => absurd h0 Nat.one_ne_zero) fun e' => ?_
    rw [hp e', h.filealloc_fip hf, holds_used, holds_used]
    simp
  · exact h.dropRef fun e' => (hp e').symm

lemma fileclose_inv (hp : ∀ e, (s.proc p).holds e = (Slot.used q).holds e) : Inv (fileclose s p q f) := by
  unfold fileclose
  split
  · exact h.setFile (fun h0 => by omega) fun e => by rw [hp e]
  · split
    · rename_i c hc
      refine h.setFile (fun _ => rfl) fun e => ?_
      rw [hp e, hc, holds_used, holds_used, List.count_cons]
      simp only [reduceCtorEq, if_false, Nat.add_zero, Option.some.injEq, beq_iff_eq]
      omega
    · rename_i hc
      exact h.setFile (fun _ => rfl) fun e => by rw [hp e, hc]

lemma fork_inv (hp : ∀ e, (s.proc p).holds e = (Slot.used q).holds e) {child : Fin NPROC}
    (hchild : s.proc child = .unused) :
    Inv (({ s.addRef q.cwd with fref := fun f => s.fref f + q.count f }.setProc child
      (.used ⟨[], [], q.cwd, q.ofile⟩)).setProc p (.used q)) := by
  have hcwd : 0 < s.ref q.cwd := h.ref_pos (p := p) (by rw [hp, holds_used, if_pos rfl]; omega)
  have hne : p ≠ child := by
    rintro rfl
    have hzero := hp q.cwd
    rw [hchild, holds_used, if_pos rfl] at hzero
    change 0 = _ at hzero
    omega
  have hfork : Inv ((s.addRef q.cwd).setProc child (.used ⟨[], [], q.cwd, q.ofile⟩)) := by
    refine h.addRef hcwd fun e => ?_
    rw [hchild, holds_used]
    simp [Slot.holds]
  have hfref : Inv ({ s.addRef q.cwd with fref := fun f => s.fref f + q.count f }.setProc child
      (.used ⟨[], [], q.cwd, q.ofile⟩)) :=
    ⟨hfork.ref, hfork.once, fun f hf => h.files f (Nat.eq_zero_of_add_eq_zero_right hf)⟩
  refine hfref.setProc fun e => ?_
  rw [← hp e]
  exact congrArg (Slot.holds e) (update_of_ne hne _ _).symm

lemma perform_inv (hp : ∀ e, (s.proc p).holds e = (Slot.used q).holds e) {op : Op} (hs : s.perform p q op = some s') :
    Inv s' := by
  cases op with
  | iget inum =>
    simp only [State.perform] at hs
    split at hs
    · rename_i e t hget
      cases hs
      exact iget_inv h hp hget
    · cases hs
      exact ⟨h.ref, h.once, h.files⟩
  | idupCwd =>
    cases hs
    refine h.addRef (h.ref_pos (p := p) (by rw [hp, holds_used, if_pos rfl]; omega)) fun e => ?_
    rw [hp e, holds_used, holds_used, List.count_cons]
    simp only [beq_iff_eq]
  | iput k =>
    simp only [State.perform] at hs
    split at hs
    · rename_i e hk
      cases hs
      refine h.dropRef fun e' => ?_
      obtain ⟨hlt, rfl⟩ := List.getElem?_eq_some_iff.mp hk
      have hcount := (List.getElem_cons_eraseIdx_perm hlt).count_eq e'
      rw [List.count_cons] at hcount
      simp only [beq_iff_eq] at hcount
      rw [hp e', holds_used, holds_used]
      dsimp only
      omega
    · cases hs
  | openFile =>
    simp only [State.perform] at hs
    split at hs
    · rename_i e held hheld
      cases hs
      refine openFile_inv h fun e' => ?_
      rw [hp e', holds_used, holds_used, hheld, List.count_cons]
      simp only [beq_iff_eq]
      omega
    · cases hs
  | setCwd =>
    simp only [State.perform] at hs
    split at hs
    · rename_i e held hheld
      cases hs
      refine h.dropRef fun e' => ?_
      rw [hp e', holds_used, holds_used, hheld, List.count_cons]
      simp only [beq_iff_eq]
    · cases hs
  | fileclose fd =>
    simp only [State.perform] at hs
    split at hs
    · cases hs
      exact fileclose_inv h hp
    · cases hs
      exact h.setProc fun e => (hp e).symm
  | filedup fd =>
    simp only [State.perform] at hs
    split at hs
    · cases hs
      exact h.setFile (fun h0 => absurd h0 (Nat.succ_ne_zero _)) fun e => by rw [hp e, holds_used, holds_used]
    · cases hs
      exact h.setProc fun e => (hp e).symm
  | fork child =>
    simp only [State.perform] at hs
    split at hs
    · rename_i hchild
      cases hs
      exact fork_inv h hp hchild
    · cases hs
      exact h.setProc fun e => (hp e).symm
  | exit =>
    simp only [State.perform] at hs
    split at hs
    · rename_i hheld
      cases hs
      refine h.dropRef fun e => ?_
      rw [hp e, holds_used, hheld]
      simp [Slot.holds]
    · cases hs

end

lemma step_inv (hs : step s a = some s') (h : Inv s) : Inv s' := by
  unfold step at hs
  split at hs
  · cases hs
  · cases a with
    | call p c =>
      dsimp only at hs
      split at hs
      · rename_i q hq
        split at hs
        · cases hs
          exact h.setProc fun e => by rw [hq, holds_used, holds_used]
        · cases hs
      · cases hs
    | step p =>
      dsimp only at hs
      split at hs
      · rename_i q hq
        split at hs
        · exact perform_inv h (fun e => by rw [hq, holds_used, holds_used]) hs
        · cases hs
      · cases hs
    | wait p =>
      dsimp only at hs
      split at hs
      · rename_i hq
        cases hs
        exact h.setProc fun e => by rw [hq]; rfl
      · cases hs

lemma run_inv {as : List Act} (h : run step boot as = some s) : Inv s :=
  run_invariant (fun _ _ _ => step_inv) h boot_inv

end

end Xv6.Itable
