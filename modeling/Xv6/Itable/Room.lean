import Xv6.Itable.Refs

/-!
# Room in the inode table

An entry is in use exactly if a process or an open file refers to it, and the entries in use have different
inodes.
-/

namespace Xv6.Itable

open Lib Finset

def Slot.Refers (e : Entry) : Slot → Prop
  | .used q => e ∈ q.held ∨ q.cwd = e
  | _ => False

instance (e : Entry) : DecidablePred (Slot.Refers e) := fun x => by
  cases x <;> unfold Slot.Refers <;> infer_instance

namespace State

/-- A process, in a local variable or as its directory, or an open file refers to entry `e`. -/
def Referred (s : State) (e : Entry) : Prop := (∃ p, (s.proc p).Refers e) ∨ ∃ f, s.fip f = some e
  deriving Decidable

/-- The inodes that are referred to. -/
def inodes (s : State) : Finset ℕ := ((univ : Finset Entry).filter s.Referred).image s.inum

end State

section

variable {s : State} {e : Entry}

lemma holds_pos_iff {x : Slot} : 0 < x.holds e ↔ x.Refers e := by
  cases x with
  | used q =>
    rw [holds_used, Slot.Refers, Nat.add_pos_iff_pos_or_pos, List.count_pos_iff]
    refine or_congr Iff.rfl ?_
    split <;> simp [*]
  | unused | zombie => exact iff_of_false (Nat.lt_irrefl 0) not_false

lemma Inv.ref_pos_iff (h : Inv s) : 0 < s.ref e ↔ s.Referred e := by
  have hproc : 0 < ∑ p, (s.proc p).holds e ↔ ∃ p, (s.proc p).Refers e := by
    rw [sum_pos_iff]
    simp only [mem_univ, true_and, holds_pos_iff]
  have hfile : (0 < ∑ f, if s.fip f = some e then 1 else 0) ↔ ∃ f, s.fip f = some e := by
    rw [sum_pos_iff]
    refine exists_congr fun f => ?_
    split <;> simp [*]
  rw [h.ref, State.refs, Nat.add_pos_iff_pos_or_pos, hproc, hfile]
  rfl

lemma Inv.card_inodes (h : Inv s) : s.inodes.card = ((univ : Finset Entry).filter s.Referred).card := by
  refine card_image_of_injOn fun a ha b hb hab => ?_
  have ha := (mem_filter.mp ha).2
  have hb := (mem_filter.mp hb).2
  exact h.once a b (h.ref_pos_iff.mpr ha) (h.ref_pos_iff.mpr hb) hab

lemma Inv.card_of_full (h : Inv s) (hfull : ∀ e, 0 < s.ref e) : s.inodes.card = NINODE := by
  rw [h.card_inodes, filter_true_of_mem fun e _ => h.ref_pos_iff.mp (hfull e)]
  exact card_fin _

end

section

variable {s s' : State} {p : Fin NPROC} {q : Proc}

lemma iget_panicked {inum : ℕ} (h : s.iget inum = some (e, s')) : s'.panicked = s.panicked := by
  rcases iget_cases h with ⟨-, -, rfl⟩ | ⟨-, -, rfl⟩ <;> rfl

lemma openFile_panicked (s : State) (p : Fin NPROC) (q : Proc) (e : Entry) :
    (openFile s p q e).panicked = s.panicked := by
  unfold openFile
  split <;> rfl

lemma fileclose_panicked (s : State) (p : Fin NPROC) (q : Proc) (f : Fin NFILE) :
    (fileclose s p q f).panicked = s.panicked := by
  unfold fileclose
  repeat' split
  all_goals rfl

lemma perform_panicked {op : Op} (hs : s.perform p q op = some s') (h : s.panicked = false) (h' : s'.panicked = true) :
    ∃ inum, op = .iget inum ∧ s.iget inum = none := by
  have hno : s'.panicked = s.panicked → ∃ inum, op = .iget inum ∧ s.iget inum = none := by
    intro heq
    rw [heq, h] at h'
    cases h'
  cases op with
  | iget inum =>
    simp only [State.perform] at hs
    split at hs
    · rename_i hget
      cases hs
      have hsame := iget_panicked hget
      exact hno hsame
    · exact ⟨inum, rfl, ‹_›⟩
  | idupCwd => cases hs; exact hno rfl
  | openFile =>
    simp only [State.perform] at hs
    split at hs
    · cases hs
      exact hno (openFile_panicked _ _ _ _)
    · cases hs
  | fileclose fd =>
    simp only [State.perform] at hs
    split at hs <;> cases hs
    · exact hno (fileclose_panicked _ _ _ _)
    · exact hno rfl
  | iput k | setCwd | filedup fd | fork child | exit =>
    simp only [State.perform] at hs
    split at hs <;> cases hs <;> exact hno rfl

/-- A step that panics is a lookup which finds no entry. -/
lemma step_panics (hs : step s a = some s') (h : s.panicked = false) (h' : s'.panicked = true) :
    ∃ p q inum code, s.proc p = .used q ∧ q.code = .iget inum :: code ∧ s.iget inum = none := by
  unfold step at hs
  rw [h, if_neg Bool.false_ne_true] at hs
  cases a with
  | call p c =>
    dsimp only at hs
    split at hs
    · split at hs <;> cases hs
      exact absurd (h.symm.trans h') Bool.false_ne_true
    · cases hs
  | step p =>
    dsimp only at hs
    split at hs
    · rename_i q hq
      split at hs
      · rename_i op code hcode
        obtain ⟨inum, rfl, hnone⟩ := perform_panicked hs h h'
        exact ⟨p, q, inum, code, hq, hcode, hnone⟩
      · cases hs
    · cases hs
  | wait p =>
    dsimp only at hs
    split at hs <;> cases hs
    exact absurd (h.symm.trans h') Bool.false_ne_true

end

/-! ### What calls may need -/

/-- The most references that a call which holds `n` has until its end.  One that becomes an open file or the current
directory counts until then. -/
def peak : List Op → ℕ → ℕ
  | [], n => n
  | .iget _ :: code, n | .idupCwd :: code, n => peak code (n + 1)
  | .iput _ :: code, n => max n (peak code (n - 1))
  | .openFile :: code, n | .setCwd :: code, n => max n (peak code (n - 1) + 1)
  | .fileclose _ :: code, n => max (n + 1) (peak code n)
  | .filedup _ :: code, n | .fork _ :: code, n | .exit :: code, n => peak code n

/-- What a call needs. -/
def Call.need (c : Call) : ℕ := peak c.code 0

def Slot.peak : Slot → ℕ
  | .used q => Itable.peak q.code q.held.length
  | _ => 0

def Slot.held : Slot → List Entry
  | .used q => q.held
  | _ => []

def Slot.dir : Slot → Option Entry
  | .used q => some q.cwd
  | _ => none

namespace State

/-- Entry `e` is the current directory of a process or an open file. -/
def Kept (s : State) (e : Entry) : Prop := (∃ p, (s.proc p).dir = some e) ∨ ∃ f, s.fip f = some e
  deriving Decidable

/-- The different inodes that are current directories or open files, and what the calls in progress need. -/
def load (s : State) : ℕ := (((univ : Finset Entry).filter s.Kept).image s.inum).card + ∑ p, (s.proc p).peak

end State

/-- A call starts only when there is room for what it needs. -/
def Modest (s : State) : Act → Prop
  | .call _ c => s.load + c.need ≤ NINODE
  | _ => True

instance (s : State) : DecidablePred (Modest s) := fun a => by
  cases a <;> unfold Modest <;> infer_instance

section

variable {s s' : State} {p : Fin NPROC} {q : Proc} {e : Entry}

lemma le_peak (code : List Op) (n : ℕ) : n ≤ peak code n := by
  induction code generalizing n with
  | nil => exact le_rfl
  | cons op code ih =>
    cases op with
    | iget | idupCwd => exact (Nat.le_succ n).trans (ih (n + 1))
    | iput | openFile | setCwd => exact le_max_left _ _
    | fileclose => exact (Nat.le_succ n).trans (le_max_left _ _)
    | filedup | fork | exit => exact ih n

lemma peak_succ (code : List Op) (n : ℕ) : peak code (n + 1) ≤ peak code n + 1 := by
  induction code generalizing n with
  | nil => exact le_rfl
  | cons op code ih =>
    cases op with
    | iget | idupCwd => exact ih (n + 1)
    | iput | openFile | setCwd =>
      have hpred : peak code n ≤ peak code (n - 1) + 1 := by
        cases n with
        | zero => exact Nat.le_succ _
        | succ m => exact ih m
      simp only [peak, Nat.add_sub_cancel]
      omega
    | fileclose =>
      have := ih n
      simp only [peak]
      omega
    | filedup | fork | exit => exact ih n

lemma peak_le (code : List Op) (n : ℕ) : peak code n ≤ n + peak code 0 := by
  induction n with
  | zero => exact (Nat.zero_add _).ge
  | succ n ih =>
    have := peak_succ code n
    omega

lemma peak_walk (inums : List ℕ) (code : List Op) (n : ℕ) :
    peak ((inums.flatMap fun inum => [.iget inum, .iput 1]) ++ code) n ≤ max (n + 1) (peak code n) := by
  induction inums with
  | nil => exact le_max_right _ _
  | cons inum inums ih => exact max_le (le_max_left _ _) ih

lemma peak_namex (path : Path) (code : List Op) (n : ℕ) :
    peak (path.namex ++ code) n ≤ max (n + 2) (peak code (n + 1)) := by
  unfold Path.namex
  split <;> exact peak_walk path.inums code (n + 1)

/-- `link` holds three inodes at a time, other calls at most two. -/
lemma Call.need_le (c : Call) : c.need ≤ 3 := by
  have hpath : ∀ (path : Path) (code : List Op), peak code 1 ≤ 3 → peak (path.namex ++ code) 0 ≤ 3 :=
    fun path code h => (peak_namex path code 0).trans (max_le (by decide) h)
  have hlink : ∀ (old dir : Path) (code : List Op), peak code 2 ≤ 3 → peak (old.namex ++ dir.namex ++ code) 0 ≤ 3 := by
    intro old dir code h
    rw [List.append_assoc]
    exact hpath _ _ ((peak_namex dir code 1).trans (max_le (by decide) h))
  cases c with
  | lookup path | «open» path | chdir path => exact hpath _ _ (by decide)
  | create dir inum result => cases result <;> exact hpath _ _ (by simp [peak])
  | link old dir found => cases found <;> exact hlink _ _ _ (by simp [peak])
  | unlink dir inum removed => cases removed <;> exact hpath _ _ (by simp [peak])
  | close | dup | fork => simp [Call.need, Call.code, peak]
  | exit => decide

lemma Slot.length_held (x : Slot) : x.held.length ≤ x.peak := by
  cases x with
  | used q => exact le_peak q.code q.held.length
  | unused | zombie => exact le_rfl

lemma State.Kept.referred (h : s.Kept e) : s.Referred e := by
  refine h.imp_left fun ⟨p, hp⟩ => ⟨p, ?_⟩
  generalize s.proc p = x at hp ⊢
  cases x with
  | used q => exact .inr (Option.some.inj hp)
  | unused | zombie => cases hp

lemma Slot.Refers.cases {x : Slot} (h : x.Refers e) : e ∈ x.held ∨ x.dir = some e := by
  cases x with
  | used q => exact h.imp_right (congrArg some)
  | unused | zombie => exact h.elim

lemma card_inodes_le (s : State) :
    s.inodes.card ≤ (((univ : Finset Entry).filter s.Kept).image s.inum).card + ∑ p, (s.proc p).held.length := by
  have hsub : s.inodes ⊆ ((univ : Finset Entry).filter s.Kept).image s.inum ∪
      univ.biUnion fun p => (s.proc p).held.toFinset.image s.inum := by
    rw [State.inodes, image_subset_iff]
    intro e he
    have hkept : s.Kept e → s.inum e ∈ ((univ : Finset Entry).filter s.Kept).image s.inum := fun hk =>
      mem_image_of_mem _ (mem_filter.mpr ⟨mem_univ e, hk⟩)
    rw [mem_union, mem_biUnion]
    obtain ⟨p, hp⟩ | hf := (mem_filter.mp he).2
    · obtain hheld | hdir := hp.cases
      · exact .inr ⟨p, mem_univ p, mem_image_of_mem _ (List.mem_toFinset.mpr hheld)⟩
      · exact .inl (hkept (.inl ⟨p, hdir⟩))
    · exact .inl (hkept (.inr hf))
  refine (card_le_card hsub).trans ((card_union_le _ _).trans (Nat.add_le_add_left ?_ _))
  refine card_biUnion_le.trans (sum_le_sum fun p _ => card_image_le.trans ?_)
  exact (s.proc p).held.toFinset_card_le

/-- A process that is about to look an inode up needs one more than are held. -/
lemma not_panics_of_load (h : Inv s) (hl : s.load ≤ NINODE) (hs : step s a = some s') (hp : s.panicked = false) :
    s'.panicked = false := by
  refine Bool.eq_false_iff.mpr fun hp' => ?_
  obtain ⟨p, q, inum, code, hq, hcode, hnone⟩ := step_panics hs hp hp'
  have hlt : (s.proc p).held.length < (s.proc p).peak := by
    rw [hq, Slot.peak, hcode]
    exact le_peak _ _
  have hsum : ∑ p, (s.proc p).held.length < ∑ p, (s.proc p).peak :=
    sum_lt_sum (fun p _ => (s.proc p).length_held) ⟨p, mem_univ p, hlt⟩
  have hcard := (card_inodes_le s).trans_lt (Nat.add_lt_add_left hsum _)
  rw [h.card_of_full (iget_eq_none.mp hnone).1] at hcard
  exact absurd hcard (Nat.not_lt.mpr hl)

/-- A process moves, and entries in `X` become kept, which its call has counted. -/
lemma load_le {X : Finset Entry} (hproc : ∀ r, r ≠ p → (s'.proc r).peak ≤ (s.proc r).peak)
    (hp : (s'.proc p).peak + X.card ≤ (s.proc p).peak + n) (hkept : ∀ e, s'.Kept e → s.Kept e ∨ e ∈ X)
    (hinum : ∀ e, s.Kept e → s'.inum e = s.inum e) : s'.load ≤ s.load + n := by
  have hsub : ((univ : Finset Entry).filter s'.Kept).image s'.inum ⊆
      ((univ : Finset Entry).filter s.Kept).image s.inum ∪ X.image s'.inum := by
    intro inum hmem
    obtain ⟨e, he, rfl⟩ := mem_image.mp hmem
    obtain hold | hnew := hkept e (mem_filter.mp he).2
    · refine mem_union_left _ ?_
      rw [hinum e hold]
      exact mem_image_of_mem _ (mem_filter.mpr ⟨mem_univ e, hold⟩)
    · exact mem_union_right _ (mem_image_of_mem _ hnew)
  have hcard := (card_le_card hsub).trans ((card_union_le _ _).trans (Nat.add_le_add_left card_image_le _))
  have hsum : ∑ r ∈ univ.erase p, (s'.proc r).peak ≤ ∑ r ∈ univ.erase p, (s.proc r).peak :=
    sum_le_sum fun r hr => hproc r (ne_of_mem_erase hr)
  unfold State.load
  rw [← add_sum_erase _ _ (mem_univ p), ← add_sum_erase univ (fun r => (s.proc r).peak) (mem_univ p)]
  omega

lemma kept_setProc {x : Slot} (h : (s.setProc p x).Kept e) : s.Kept e ∨ x.dir = some e := by
  obtain ⟨r, hr⟩ | hf := h
  · by_cases hrp : r = p
    · subst hrp
      simp only [State.setProc, Function.update_self] at hr
      exact .inr hr
    · simp only [State.setProc, Function.update_of_ne hrp] at hr
      exact .inl (.inl ⟨r, hr⟩)
  · exact .inl (.inr hf)

lemma kept_setFile {ip : Option Entry} (h : (s.setFile f n ip).Kept e) : s.Kept e ∨ ip = some e := by
  obtain hp | ⟨g, hg⟩ := h
  · exact .inl (.inl hp)
  · by_cases hgf : g = f
    · subst hgf
      simp only [State.setFile, Function.update_self] at hg
      exact .inr hg
    · simp only [State.setFile, Function.update_of_ne hgf] at hg
      exact .inl (.inr ⟨g, hg⟩)

/-- Process `p` becomes `x`, in a state `t` that differs from `s` in references and files only. -/
lemma load_setProc {t : State} {x : Slot} {X : Finset Entry} (hproc : t.proc = s.proc)
    (hp : x.peak + X.card ≤ (s.proc p).peak + n) (hkept : ∀ e, t.Kept e ∨ x.dir = some e → s.Kept e ∨ e ∈ X)
    (hinum : ∀ e, s.Kept e → t.inum e = s.inum e) : (t.setProc p x).load ≤ s.load + n := by
  refine load_le (p := p) (X := X) (fun r hr => ?_) ?_ (fun e he => hkept e (kept_setProc he)) hinum
  · simp only [State.setProc, Function.update_of_ne hr, hproc]
    exact le_rfl
  · simp only [State.setProc, Function.update_self]
    exact hp

lemma load_move {t : State} {x : Slot} {X : Finset Entry} (hproc : t.proc = s.proc)
    (hp : x.peak + X.card ≤ (s.proc p).peak) (hkept : ∀ e, t.Kept e ∨ x.dir = some e → s.Kept e ∨ e ∈ X)
    (hinum : ∀ e, s.Kept e → t.inum e = s.inum e) : (t.setProc p x).load ≤ s.load :=
  (load_setProc (n := 0) hproc hp hkept hinum).trans_eq (Nat.add_zero _)

end

section

variable {s s' : State} {p : Fin NPROC} {q : Proc}

lemma perform_load (h : Inv s) {op : Op} {code : List Op} (hq : s.proc p = .used q) (hcode : q.code = op :: code)
    (hs : s.perform p { q with code := code } op = some s') : s'.load ≤ s.load := by
  have hold : (s.proc p).peak = peak (op :: code) q.held.length := by rw [hq, Slot.peak, hcode]
  have hdir : ∀ e, some q.cwd = some e → s.Kept e := fun e he => .inl ⟨p, by rw [hq]; exact he⟩
  -- a step that leaves files and the directory
  have hsame : ∀ (t : State) (q' : Proc), t.proc = s.proc → t.fip = s.fip → (∀ e, s.Kept e → t.inum e = s.inum e) →
      q'.cwd = q.cwd → peak q'.code q'.held.length ≤ peak (op :: code) q.held.length →
      (t.setProc p (.used q')).load ≤ s.load := by
    intro t q' hproc hfip hinum hcwd hpeak
    refine load_move (X := ∅) hproc (by rw [hold]; exact hpeak) (fun e he => .inl ?_) hinum
    obtain hk | hd := he
    · rw [State.Kept, hproc, hfip] at hk
      exact hk
    · exact hdir e (by rw [← hcwd]; exact hd)
  cases op with
  | iget inum =>
    simp only [State.perform] at hs
    split at hs
    · rename_i e t hget
      cases hs
      obtain ⟨-, -, rfl⟩ | ⟨h0, -, rfl⟩ := iget_cases hget
      · exact hsame _ _ rfl rfl (fun _ _ => rfl) rfl le_rfl
      · refine hsame _ _ rfl rfl (fun e' he' => Function.update_of_ne ?_ _ _) rfl le_rfl
        rintro rfl
        have hpos := h.ref_pos_iff.mpr he'.referred
        omega
    · cases hs
      exact le_rfl
  | idupCwd =>
    cases hs
    exact hsame _ _ rfl rfl (fun _ _ => rfl) rfl le_rfl
  | iput k =>
    simp only [State.perform] at hs
    split at hs <;> cases hs
    rename_i e hk
    obtain ⟨hlt, -⟩ := List.getElem?_eq_some_iff.mp hk
    refine hsame _ _ rfl rfl (fun _ _ => rfl) rfl ?_
    simp only [List.length_eraseIdx_of_lt hlt]
    exact le_max_right _ _
  | openFile =>
    simp only [State.perform] at hs
    split at hs <;> cases hs
    rename_i e held hheld
    rw [hheld] at hold hsame
    unfold openFile
    split
    · rename_i f fd hf hfd
      refine load_move (X := {e}) rfl ?_ (fun e' he' => ?_) fun _ _ => rfl
      · rw [hold, card_singleton]
        exact le_max_right _ _
      · obtain hk | hd := he'
        · exact (kept_setFile hk).imp_right fun he => mem_singleton.mpr (Option.some.inj he).symm
        · exact .inl (hdir e' hd)
    · exact hsame _ _ rfl rfl (fun _ _ => rfl) rfl ((Nat.le_succ _).trans (le_max_right _ _))
  | setCwd =>
    simp only [State.perform] at hs
    split at hs <;> cases hs
    rename_i e held hheld
    rw [hheld] at hold
    refine load_move (X := {e}) rfl ?_ (fun e' he' => ?_) fun _ _ => rfl
    · rw [hold, card_singleton]
      exact le_max_right _ _
    · exact he'.imp_right fun hd => mem_singleton.mpr (Option.some.inj hd).symm
  | fileclose fd =>
    have hless : peak code q.held.length ≤ peak (.fileclose fd :: code) q.held.length := le_max_right _ _
    simp only [State.perform] at hs
    split at hs <;> cases hs
    · rename_i f hf
      unfold fileclose
      -- without its last reference the file is free, and its inode is held
      have hfree : ∀ q' : Proc, q'.cwd = q.cwd →
          peak q'.code q'.held.length ≤ peak (.fileclose fd :: code) q.held.length →
          ((s.setFile f 0 none).setProc p (.used q')).load ≤ s.load := by
        intro q' hcwd hpeak
        refine load_move (X := ∅) rfl (by rw [hold]; exact hpeak) (fun e' he' => .inl ?_) fun _ _ => rfl
        obtain hk | hd := he'
        · exact (kept_setFile hk).resolve_right (by rintro ⟨⟩)
        · exact hdir e' (by rw [← hcwd]; exact hd)
      split
      · exact hsame _ _ rfl (Function.update_eq_self _ _) (fun _ _ => rfl) rfl hless
      · split
        · exact hfree _ rfl le_rfl
        · exact hfree _ rfl hless
    · exact hsame _ _ rfl rfl (fun _ _ => rfl) rfl hless
  | filedup fd =>
    simp only [State.perform] at hs
    split at hs <;> cases hs
    · exact hsame _ _ rfl (Function.update_eq_self _ _) (fun _ _ => rfl) rfl le_rfl
    · exact hsame _ _ rfl rfl (fun _ _ => rfl) rfl le_rfl
  | fork child =>
    simp only [State.perform] at hs
    split at hs <;> cases hs
    · rename_i hchild
      have hne : child ≠ p := by
        rintro rfl
        cases hchild.symm.trans hq
      -- the child has the directory of its parent
      set t := { s.addRef q.cwd with fref := fun f => s.fref f + Proc.count { q with code := code } f }.setProc child
        (.used ⟨[], [], q.cwd, q.ofile⟩)
      have ht : t.load ≤ s.load :=
        load_move (X := ∅) rfl (Nat.zero_le _) (fun e he => .inl (he.elim id (hdir e))) fun _ _ => rfl
      have hp : t.proc p = s.proc p := Function.update_of_ne (Ne.symm hne) _ _
      refine le_trans (load_move (X := ∅) rfl ?_ (fun e he => .inl ?_) fun _ _ => rfl) ht
      · rw [hp, hold]
        exact le_rfl
      · exact he.elim id fun hd => .inl ⟨p, by rw [hp, hq]; exact hd⟩
    · exact hsame _ _ rfl rfl (fun _ _ => rfl) rfl le_rfl
  | exit =>
    obtain ⟨-, hs⟩ := Option.ite_none_right_eq_some.mp hs
    cases hs
    refine load_move (X := ∅) rfl (Nat.zero_le _) (fun e he => .inl ?_) fun _ _ => rfl
    exact he.resolve_right (by rintro ⟨⟩)

lemma step_load (h : Inv s) (hm : Modest s a) (hs : step s a = some s') (hl : s.load ≤ NINODE) : s'.load ≤ NINODE := by
  unfold step at hs
  split at hs
  · cases hs
  cases a with
  | call p c =>
    dsimp only at hs
    split at hs
    · rename_i q hq
      obtain ⟨hcode, hs⟩ := Option.ite_none_right_eq_some.mp hs
      cases hs
      refine (load_setProc (X := ∅) rfl ?_ (fun e he => .inl ?_) fun _ _ => rfl).trans hm
      · rw [hq, Slot.peak, Slot.peak, hcode]
        exact peak_le c.code q.held.length
      · exact he.elim id fun hd => .inl ⟨p, by rw [hq]; exact hd⟩
    · cases hs
  | step p =>
    dsimp only at hs
    split at hs
    · rename_i q hq
      split at hs
      · exact (perform_load h hq ‹_› hs).trans hl
      · cases hs
    · cases hs
  | wait p =>
    dsimp only at hs
    split at hs <;> cases hs
    refine (load_move (X := ∅) rfl (Nat.zero_le _) (fun e he => .inl ?_) fun _ _ => rfl).trans hl
    exact he.resolve_right (by rintro ⟨⟩)

/-- **`iget` finds an entry as long as processes are modest**: in every run in which a call starts only when the
different inodes that are open or current directories, what the calls in progress need and what it needs itself
are `NINODE` together at most, no state has panicked.  A call needs three at most. -/
theorem iget_finds {as : List Act} (h : run (guarded Modest step) boot as = some s) :
    s.panicked = false ∧ ∀ c : Call, c.need ≤ 3 := by
  have hok : Inv s ∧ s.load ≤ NINODE ∧ s.panicked = false := by
    refine run_invariant (I := fun s => Inv s ∧ s.load ≤ NINODE ∧ s.panicked = false) ?_ h
      ⟨boot_inv, by decide +kernel, rfl⟩
    rintro s a s' hs ⟨hi, hl, hp⟩
    obtain ⟨hm, hs⟩ := guarded_eq_some.mp hs
    exact ⟨step_inv hs hi, step_load hi hm hs hl, not_panics_of_load hi hl hs hp⟩
  exact ⟨hok.2.2, Call.need_le⟩

end

/-- `open("/name", ...)` of inode `inum`. -/
def opens (p : Fin NPROC) (inum : ℕ) : List Act := .call p (.open ⟨true, [inum]⟩) :: List.replicate 4 (.step p)

theorem iget_finds_opens : ∃ s, run (guarded Modest step) boot (opens 0 2) = some s ∧ s.panicked = false := by
  have hrun : (run (guarded Modest step) boot (opens 0 2)).isSome = true := by decide +kernel
  obtain ⟨s, hs⟩ := Option.isSome_iff_exists.mp hrun
  exact ⟨s, hs, (iget_finds hs).1⟩

/-- Four processes open 49 files, each at most 16; then one opens another. -/
def exhaust : List Act :=
  ([1, 2, 3].flatMap fun p => [.call 0 (.fork p), .step 0]) ++
    ((List.range 49).flatMap fun i => opens (Fin.ofNat NPROC (i / NOFILE)) (i + 2)) ++
    [.call 3 (.open ⟨true, [51]⟩), .step 3, .step 3]

/-- The last lookup panics. -/
theorem iget_panics : ∃ s, run step boot exhaust = some s ∧ s.panicked = true := by
  have hrun : (run step boot exhaust).map State.panicked = some true := by decide +kernel
  exact Option.map_eq_some_iff.mp hrun

end Xv6.Itable
