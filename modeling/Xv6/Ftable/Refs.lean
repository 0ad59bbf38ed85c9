import Xv6.Ftable.Model
import Xv6.Lib.Sum

/-!
# Reference counts of open files

Inside a call, `Inv s L D` counts the references `L` that the call itself holds, and the slots `D` that
have no reference yet, or no longer.
-/

namespace Xv6.Ftable

open Lib Function List

variable {P Q : Type}

/-! ### Files and pipes -/

/-- The files that are ends of pipes, and the pages that are pipes. -/
structure Pipes (file : Fin NFILE → File Q) (page : Q → Option Pipe) (opens : Q → ℕ) (closes : Q → Bool → ℕ) : Prop where
  free : ∀ f, (file f).ref = 0 → (file f).type = .none
  pipe : ∀ f, (file f).type = .pipe → ∃ q pi, (file f).pipe = some q ∧ page q = some pi ∧ pi.isOpen (file f).writable = true
  inj : ∀ f g, (file f).type = .pipe → (file g).type = .pipe → (file f).pipe = (file g).pipe →
    (file f).writable = (file g).writable → f = g
  ends : ∀ q pi w, page q = some pi → pi.isOpen w = true →
    ∃ f, (file f).type = .pipe ∧ (file f).pipe = some q ∧ (file f).writable = w
  live : ∀ q pi, page q = some pi → ∃ w, pi.isOpen w = true
  /-- Each end of each pipe is closed once, unless it is open. -/
  once : ∀ q w, closes q w + ((page q).elim 0 fun pi => if pi.isOpen w then 1 else 0) = opens q

section

variable {file : Fin NFILE → File Q} {page : Q → Option Pipe} {opens : Q → ℕ} {closes : Q → Bool → ℕ} {f : Fin NFILE} {x : File Q}

lemma Pipes.setFile (h : Pipes file page opens closes) (hfree : x.ref = 0 → x.type = .none)
    (hx : (file f).type ≠ .pipe ∧ x.type ≠ .pipe ∨
      x.type = (file f).type ∧ x.pipe = (file f).pipe ∧ x.writable = (file f).writable) :
    Pipes (update file f x) page opens closes := by
  -- every file is the same end as before
  have hend : ∀ g, ((update file f x g).type = .pipe ↔ (file g).type = .pipe) ∧
      ((file g).type = .pipe → (update file f x g).pipe = (file g).pipe ∧
        (update file f x g).writable = (file g).writable) := by
    intro g
    by_cases hg : g = f
    · subst hg
      rw [update_self]
      obtain ⟨h1, h2⟩ | ⟨h1, h2, h3⟩ := hx
      · exact ⟨iff_of_false h2 h1, fun hc => absurd hc h1⟩
      · exact ⟨by rw [h1], fun _ => ⟨h2, h3⟩⟩
    · rw [update_of_ne hg]
      exact ⟨Iff.rfl, fun _ => ⟨rfl, rfl⟩⟩
  refine ⟨fun g hg => ?_, fun g hg => ?_, fun g g' hg hg' hp hw => ?_, fun q pi w hq hw => ?_, h.live, h.once⟩
  · by_cases hgf : g = f
    · subst hgf
      rw [update_self] at hg ⊢
      exact hfree hg
    · rw [update_of_ne hgf] at hg ⊢
      exact h.free g hg
  · have ht := (hend g).1.mp hg
    rw [((hend g).2 ht).1, ((hend g).2 ht).2]
    exact h.pipe g ht
  · have ht := (hend g).1.mp hg
    have ht' := (hend g').1.mp hg'
    rw [((hend g).2 ht).1, ((hend g').2 ht').1] at hp
    rw [((hend g).2 ht).2, ((hend g').2 ht').2] at hw
    exact h.inj g g' ht ht' hp hw
  · obtain ⟨g, ht, hp, hgw⟩ := h.ends q pi w hq hw
    refine ⟨g, (hend g).1.mpr ht, ?_⟩
    rw [((hend g).2 ht).1, ((hend g).2 ht).2]
    exact ⟨hp, hgw⟩

lemma Pipe.isOpen_close (pi : Pipe) (w v : Bool) : (pi.close w).isOpen v = (pi.isOpen v && decide (v ≠ w)) := by
  cases w <;> cases v <;> simp [Pipe.close, Pipe.isOpen]

lemma Pipe.freed_iff (pi : Pipe) : pi.readopen = false ∧ pi.writeopen = false ↔ ∀ w, pi.isOpen w = false := by
  constructor
  · rintro ⟨hr, hw⟩ w
    cases w
    · exact hr
    · exact hw
  · exact fun h => ⟨h false, h true⟩

variable [DecidableEq Q]

/-- **The last reference to the end of a pipe goes**: the end is closed, and the page freed when the
other end is closed. -/
lemma Pipes.closeEnd {s : State P Q} (h : Pipes s.file s.page s.opens s.closes) {f : Fin NFILE} {q : Q} {pi : Pipe}
    {x : File Q} (ht : (s.file f).type = .pipe) (hp : (s.file f).pipe = some q) (hq : s.page q = some pi)
    (ho : pi.isOpen (s.file f).writable = true) (hx : x.type = .none) {s' : State P Q}
    (hs' : s' = { s with file := update s.file f x }.closeEnd q pi (s.file f).writable) :
    Pipes s'.file s'.page s'.opens s'.closes := by
  subst hs'
  simp only [State.closeEnd]
  generalize hw : (s.file f).writable = w at ho
  have hother : ∀ g, (update s.file f x g).type = .pipe → g ≠ f ∧ update s.file f x g = s.file g := by
    intro g hg
    have hgf : g ≠ f := by
      rintro rfl
      rw [update_self, hx] at hg
      cases hg
    exact ⟨hgf, update_of_ne hgf _ _⟩
  -- the other end of the page, if there is one
  have hrest : ∀ g, (s.file g).type = .pipe → (s.file g).pipe = some q → g ≠ f →
      pi.isOpen (s.file g).writable = true ∧ (s.file g).writable ≠ w := by
    intro g hg hgq hgf
    obtain ⟨q', pi', hq', hpi', hopen⟩ := h.pipe g hg
    cases hgq.symm.trans hq'
    cases hq.symm.trans hpi'
    exact ⟨hopen, fun hc => hgf (h.inj g f hg ht (hgq.trans hp.symm) (hc.trans hw.symm))⟩
  have hpage : ∀ q' pi', update s.page q (if (pi.close w).readopen = false ∧ (pi.close w).writeopen = false
      then none else some (pi.close w)) q' = some pi' → (q' = q ∧ pi' = pi.close w ∧ ∃ v, (pi.close w).isOpen v = true) ∨
        (q' ≠ q ∧ s.page q' = some pi') := by
    intro q' pi' hq'
    by_cases hqq : q' = q
    · subst hqq
      rw [update_self] at hq'
      split at hq'
      · cases hq'
      next hnf =>
        cases hq'
        rw [Pipe.freed_iff, not_forall] at hnf
        obtain ⟨v, hv⟩ := hnf
        exact .inl ⟨rfl, rfl, v, by simpa using hv⟩
    · rw [update_of_ne hqq] at hq'
      exact .inr ⟨hqq, hq'⟩
  refine ⟨fun g hg => ?_, fun g hg => ?_, fun g g' hg hg' hgp hgw => ?_, fun q' pi' v hq' hv => ?_, fun q' pi' hq' => ?_,
    fun q' v => ?_⟩
  · by_cases hgf : g = f
    · rw [hgf, update_self]
      exact hx
    · rw [update_of_ne hgf] at hg ⊢
      exact h.free g hg
  · obtain ⟨hgf, hge⟩ := hother g hg
    rw [hge] at hg ⊢
    obtain ⟨q', pi', hgq, hpi', hopen⟩ := h.pipe g hg
    by_cases hqq : q' = q
    · subst hqq
      obtain ⟨h1, h2⟩ := hrest g hg hgq hgf
      have hstill : (pi.close w).isOpen (s.file g).writable = true := by
        rw [Pipe.isOpen_close, h1]
        simpa using h2
      refine ⟨q', pi.close w, hgq, ?_, hstill⟩
      rw [update_self, if_neg]
      rw [Pipe.freed_iff]
      intro hc
      rw [hc] at hstill
      cases hstill
    · exact ⟨q', pi', hgq, by rw [update_of_ne hqq]; exact hpi', hopen⟩
  · obtain ⟨-, hge⟩ := hother g hg
    obtain ⟨-, hge'⟩ := hother g' hg'
    rw [hge] at hg hgp hgw
    rw [hge'] at hg' hgp hgw
    exact h.inj g g' hg hg' hgp hgw
  · have hfind : ∀ {q'' pi''}, s.page q'' = some pi'' → pi''.isOpen v = true → (q'' = q → v ≠ w) →
        ∃ g, (update s.file f x g).type = .pipe ∧ (update s.file f x g).pipe = some q'' ∧
          (update s.file f x g).writable = v := by
      intro q'' pi'' hq'' hv'' hne
      obtain ⟨g, hg, hgq, hgw⟩ := h.ends q'' pi'' v hq'' hv''
      have hgf : g ≠ f := by
        rintro rfl
        exact hne (Option.some.inj (hgq.symm.trans hp)) (hgw.symm.trans hw)
      exact ⟨g, by rw [update_of_ne hgf]; exact ⟨hg, hgq, hgw⟩⟩
    obtain ⟨rfl, rfl, -⟩ | ⟨hqq, hq'⟩ := hpage q' pi' hq'
    · rw [Pipe.isOpen_close, Bool.and_eq_true, decide_eq_true_eq] at hv
      exact hfind hq hv.1 fun _ => hv.2
    · exact hfind hq' hv fun hc => absurd hc hqq
  · obtain ⟨rfl, rfl, hv⟩ | ⟨-, hq'⟩ := hpage q' pi' hq'
    · exact hv
    · exact h.live q' pi' hq'
  · by_cases hqq : q' = q
    · subst hqq
      have hold := h.once q' v
      rw [hq] at hold
      -- what is left of the pipe, freed or not, has the ends that are still open
      have hnew : (update s.page q' (if (pi.close w).readopen = false ∧ (pi.close w).writeopen = false
          then none else some (pi.close w)) q').elim 0 (fun pi => if pi.isOpen v then 1 else 0) =
          if (pi.close w).isOpen v then 1 else 0 := by
        rw [update_self]
        split
        next hfreed => rw [(Pipe.freed_iff _).mp hfreed v]; rfl
        next => rfl
      rw [hnew, update_self, Pipe.isOpen_close, ← hold]
      by_cases hv : v = w
      · subst hv
        simp [ho]
      · simp [hv]
    · rw [update_of_ne hqq, update_of_ne hqq]
      exact h.once q' v

lemma Pipes.newPipe {s : State P Q} (h : Pipes s.file s.page s.opens s.closes) {f0 f1 : Fin NFILE} {q : Q} (hne : f0 ≠ f1)
    (h0 : (s.file f0).type = .none) (h1 : (s.file f1).type = .none) (hr0 : 0 < (s.file f0).ref)
    (hr1 : 0 < (s.file f1).ref) (hq : s.page q = none) :
    Pipes (s.newPipe f0 f1 q).file (s.newPipe f0 f1 q).page (s.newPipe f0 f1 q).opens (s.newPipe f0 f1 q).closes := by
  have hf0 : (s.newPipe f0 f1 q).file f0 = { s.file f0 with type := .pipe, readable := true, writable := false, pipe := some q } := by
    simp [State.newPipe, State.setFile, hne]
  have hf1 : (s.newPipe f0 f1 q).file f1 = { s.file f1 with type := .pipe, readable := false, writable := true, pipe := some q } := by
    simp [State.newPipe, State.setFile, Ne.symm hne]
  have hfo : ∀ g, g ≠ f0 → g ≠ f1 → (s.newPipe f0 f1 q).file g = s.file g := by
    intro g hg0 hg1
    simp [State.newPipe, State.setFile, hg0, hg1]
  have hpq : (s.newPipe f0 f1 q).page q = some ⟨true, true⟩ := update_self _ _ _
  have hpo : ∀ q', q' ≠ q → (s.newPipe f0 f1 q).page q' = s.page q' := fun q' hq' => update_of_ne hq' _ _
  have hboth : ∀ w, Pipe.isOpen ⟨true, true⟩ w = true := fun w => by cases w <;> rfl
  -- an end is one of the two new ones, or an old one of another page
  have hcases : ∀ g, ((s.newPipe f0 f1 q).file g).type = .pipe →
      (g = f0 ∧ ((s.newPipe f0 f1 q).file g).pipe = some q ∧ ((s.newPipe f0 f1 q).file g).writable = false) ∨
      (g = f1 ∧ ((s.newPipe f0 f1 q).file g).pipe = some q ∧ ((s.newPipe f0 f1 q).file g).writable = true) ∨
      ((s.newPipe f0 f1 q).file g = s.file g ∧ (s.file g).type = .pipe ∧ (s.file g).pipe ≠ some q) := by
    intro g hg
    by_cases hg0 : g = f0
    · rw [hg0, hf0]
      exact .inl ⟨rfl, rfl, rfl⟩
    · by_cases hg1 : g = f1
      · rw [hg1, hf1]
        exact .inr (.inl ⟨rfl, rfl, rfl⟩)
      · rw [hfo g hg0 hg1] at hg
        refine .inr (.inr ⟨hfo g hg0 hg1, hg, fun hc => ?_⟩)
        obtain ⟨q', pi, hq', hpi, -⟩ := h.pipe g hg
        cases hc.symm.trans hq'
        cases hq.symm.trans hpi
  have hpage : ∀ q' pi, (s.newPipe f0 f1 q).page q' = some pi → (q' = q ∧ pi = ⟨true, true⟩) ∨ (q' ≠ q ∧ s.page q' = some pi) := by
    intro q' pi hpi
    by_cases hqq : q' = q
    · subst hqq
      cases hpq.symm.trans hpi
      exact .inl ⟨rfl, rfl⟩
    · exact .inr ⟨hqq, (hpo q' hqq).symm.trans hpi⟩
  refine ⟨fun g hg => ?_, fun g hg => ?_, fun g g' hg hg' hgp hgw => ?_, fun q' pi w hpi hw => ?_, fun q' pi hpi => ?_,
    fun q' w => ?_⟩
  · by_cases hg0 : g = f0
    · rw [hg0, hf0] at hg
      exact absurd hg hr0.ne'
    · by_cases hg1 : g = f1
      · rw [hg1, hf1] at hg
        exact absurd hg hr1.ne'
      · rw [hfo g hg0 hg1] at hg ⊢
        exact h.free g hg
  · obtain ⟨-, hp, hw⟩ | ⟨-, hp, hw⟩ | ⟨he, ht, hne⟩ := hcases g hg
    · exact ⟨q, _, hp, hpq, hboth _⟩
    · exact ⟨q, _, hp, hpq, hboth _⟩
    · rw [he]
      obtain ⟨q', pi, hq', hpi, ho⟩ := h.pipe g ht
      refine ⟨q', pi, hq', ?_, ho⟩
      rw [hpo q' (by rintro rfl; exact hne hq')]
      exact hpi
  · obtain ⟨e, hp, hw⟩ | ⟨e, hp, hw⟩ | ⟨he, ht, hne⟩ := hcases g hg <;>
      obtain ⟨e', hp', hw'⟩ | ⟨e', hp', hw'⟩ | ⟨he', ht', hne'⟩ := hcases g' hg'
    · rw [e, e']
    · rw [hw, hw'] at hgw
      cases hgw
    · rw [hp, he'] at hgp
      exact absurd hgp.symm hne'
    · rw [hw, hw'] at hgw
      cases hgw
    · rw [e, e']
    · rw [hp, he'] at hgp
      exact absurd hgp.symm hne'
    · rw [hp', he] at hgp
      exact absurd hgp hne
    · rw [hp', he] at hgp
      exact absurd hgp hne
    · rw [he, he'] at hgp hgw
      exact h.inj g g' ht ht' hgp hgw
  · obtain ⟨rfl, rfl⟩ | ⟨hqq, hpi⟩ := hpage q' pi hpi
    · cases w
      · exact ⟨f0, by rw [hf0]; exact ⟨rfl, rfl, rfl⟩⟩
      · exact ⟨f1, by rw [hf1]; exact ⟨rfl, rfl, rfl⟩⟩
    · obtain ⟨g, ht, hp, hgw⟩ := h.ends q' pi w hpi hw
      have hg0 : g ≠ f0 := by
        rintro rfl
        cases h0.symm.trans ht
      have hg1 : g ≠ f1 := by
        rintro rfl
        cases h1.symm.trans ht
      exact ⟨g, by rw [hfo g hg0 hg1]; exact ⟨ht, hp, hgw⟩⟩
  · obtain ⟨rfl, rfl⟩ | ⟨hqq, hpi⟩ := hpage q' pi hpi
    · exact ⟨true, rfl⟩
    · exact h.live q' pi hpi
  · have hold := h.once q' w
    change s.closes q' w + _ = _
    by_cases hqq : q' = q
    · subst hqq
      rw [hq] at hold
      have hopens : (s.newPipe f0 f1 q').opens q' = s.opens q' + 1 := update_self _ _ _
      rw [hpq, hopens, ← hold]
      simp [hboth]
    · have hopens : (s.newPipe f0 f1 q).opens q' = s.opens q' := update_of_ne hqq _ _
      rw [hpo q' hqq, hopens]
      exact hold

end

/-! ### Slots -/

section

variable [Fintype P]

/-- The slots of descriptors that point to a file. -/
def State.slots (s : State P Q) (f : Fin NFILE) : ℕ := ∑ p, ∑ fd, if s.ofile p fd = some f then 1 else 0

lemma slots_setOfile [DecidableEq P] (s : State P Q) (p : P) (fd : Fin NOFILE) (o : Option (Fin NFILE)) (f : Fin NFILE) :
    (s.setOfile p fd o).slots f + (if s.ofile p fd = some f then 1 else 0) = s.slots f + if o = some f then 1 else 0 := by
  have hfd := sum_change (f := fun d => if (s.setOfile p fd o).ofile p d = some f then 1 else 0)
    (g := fun d => if s.ofile p d = some f then 1 else 0) fd fun d hd => by simp [State.setOfile, hd]
  have hp := sum_change (f := fun r => ∑ d, if (s.setOfile p fd o).ofile r d = some f then 1 else 0)
    (g := fun r => ∑ d, if s.ofile r d = some f then 1 else 0) p fun r hr => by simp [State.setOfile, hr]
  have hself : (s.setOfile p fd o).ofile p fd = o := by simp [State.setOfile]
  rw [hself] at hfd
  simp only [State.slots]
  omega

lemma slots_pos_iff {s : State P Q} {f : Fin NFILE} : 0 < s.slots f ↔ ∃ p fd, s.ofile p fd = some f := by
  simp only [State.slots, Nat.pos_iff_ne_zero, ne_eq, Finset.sum_eq_zero_iff, Finset.mem_univ, true_implies, not_forall]
  refine exists_congr fun p => exists_congr fun fd => ?_
  by_cases h : s.ofile p fd = some f <;> simp [h]

/-- The invariant inside a call that holds the references `L`; the slots `D` have none. -/
structure Inv (s : State P Q) (L D : List (Fin NFILE)) : Prop where
  refs : ∀ f, (s.file f).ref + D.count f = s.slots f + L.count f
  pipes : Pipes s.file s.page s.opens s.closes
  idle : ∀ p, s.proc p ≠ .used → ∀ fd, s.ofile p fd = none

variable {s : State P Q} {L D : List (Fin NFILE)} {f : Fin NFILE} {p : P} {fd : Fin NOFILE} {ok : Stop → Prop}

lemma Inv.ref_pos (h : Inv s [] []) (hf : s.ofile p fd = some f) : 0 < (s.file f).ref := by
  have := h.refs f
  have hpos : 0 < s.slots f := slots_pos_iff.mpr ⟨p, fd, hf⟩
  simp only [count_nil] at this
  omega

lemma Inv.ref_pos_of_mem (h : Inv s L []) (hf : f ∈ L) : 0 < (s.file f).ref := by
  have := h.refs f
  have hpos : 0 < L.count f := count_pos_iff.mpr hf
  simp only [count_nil] at this
  omega

lemma Inv.cons (h : Inv s L D) (f : Fin NFILE) : Inv s (f :: L) (f :: D) where
  refs g := by
    have := h.refs g
    simp only [count_cons]
    omega
  pipes := h.pipes
  idle := h.idle

lemma Inv.uncons (h : Inv s (f :: L) (f :: D)) : Inv s L D where
  refs g := by
    have := h.refs g
    simp only [count_cons] at this
    omega
  pipes := h.pipes
  idle := h.idle

lemma Inv.fill [DecidableEq P] (h : Inv s L D) (hp : s.proc p = .used) (hfd : s.ofile p fd = none) (f : Fin NFILE) :
    Inv (s.setOfile p fd (some f)) L (f :: D) where
  refs g := by
    have h1 := h.refs g
    have h2 := slots_setOfile s p fd (some f) g
    rw [hfd] at h2
    simp only [Option.some.injEq, reduceCtorEq, if_false] at h2
    change (s.file g).ref + _ = _
    rw [count_cons]
    simp only [beq_iff_eq]
    omega
  pipes := h.pipes
  idle q hq d := by
    have hqp : q ≠ p := by
      rintro rfl
      exact hq hp
    simpa [State.setOfile, hqp] using h.idle q hq d

lemma Inv.clear [DecidableEq P] (h : Inv s L D) (hfd : s.ofile p fd = some f) : Inv (s.setOfile p fd none) (f :: L) D where
  refs g := by
    have h1 := h.refs g
    have h2 := slots_setOfile s p fd none g
    rw [hfd] at h2
    simp only [Option.some.injEq, reduceCtorEq, if_false] at h2
    change (s.file g).ref + _ = _
    rw [count_cons]
    simp only [beq_iff_eq]
    omega
  pipes := h.pipes
  idle q hq d := by
    have hold := h.idle q hq d
    by_cases hqp : q = p
    · subst hqp
      simp only [State.setOfile, update_self]
      by_cases hd : d = fd
      · rw [hd, update_self]
      · rwa [update_of_ne hd]
    · simpa [State.setOfile, hqp] using hold

/-! ### The functions of `file.c` -/

lemma Inv.setFile (h : Inv s L D) (hself : (g (s.file f)).ref + D'.count f = s.slots f + L'.count f)
    (hother : ∀ e, e ≠ f → D'.count e = D.count e ∧ L'.count e = L.count e)
    (hfree : (g (s.file f)).ref = 0 → (g (s.file f)).type = .none)
    (hx : (s.file f).type ≠ .pipe ∧ (g (s.file f)).type ≠ .pipe ∨ (g (s.file f)).type = (s.file f).type ∧
      (g (s.file f)).pipe = (s.file f).pipe ∧ (g (s.file f)).writable = (s.file f).writable) :
    Inv (s.setFile f g) L' D' where
  refs e := by
    change (update s.file f (g (s.file f)) e).ref + _ = s.slots e + _
    by_cases he : e = f
    · subst he
      rw [update_self]
      exact hself
    · rw [update_of_ne he, (hother e he).1, (hother e he).2]
      exact h.refs e
  pipes := h.pipes.setFile hfree hx
  idle := h.idle

lemma filealloc_spec (h : Inv s L []) : wp filealloc ok (fun r s' =>
      match r with
      | none => s' = s
      | some f => (s.file f).ref = 0 ∧ s' = s.setFile f (fun x => { x with ref := 1 }) ∧ Inv s' (f :: L) []) s := by
  simp only [filealloc, wp_bind, wp_read]
  cases hfind : (List.finRange NFILE).find? fun f => (s.file f).ref = 0 with
  | none => rfl
  | some f =>
    have href := find?_some hfind
    rw [decide_eq_true_eq] at href
    simp only [setFile, wp_bind, wp_modify, wp_pure]
    have hcount := h.refs f
    refine ⟨href, trivial, h.setFile ?_ (fun e he => ⟨rfl, ?_⟩) (fun hc => by cases hc) (.inr ⟨rfl, rfl, rfl⟩)⟩
    · rw [count_cons_self]
      simp only
      omega
    · rw [count_cons_of_ne (Ne.symm he)]

lemma filedup_spec (h : Inv s L (f :: D)) (hpos : 0 < (s.file f).ref) :
    wp (filedup f) ok (fun _ s' => Inv s' L D ∧ s'.ofile = s.ofile ∧ s'.proc = s.proc) s := by
  simp only [filedup, file, wp_bind, wp_read, wp_pure]
  rw [if_neg (by omega)]
  simp only [setFile, wp_modify]
  refine ⟨h.setFile ?_ (fun e he => ⟨?_, rfl⟩) (fun hc => by cases hc) (.inr ⟨rfl, rfl, rfl⟩), rfl, rfl⟩
  · have := h.refs f
    rw [count_cons_self] at this
    simp only
    omega
  · rw [count_cons_of_ne (Ne.symm he)]

lemma fdalloc_spec [DecidableEq P] (h : Inv s L D) (hp : s.proc p = .used) (f : Fin NFILE) :
    wp (fdalloc p f) ok (fun r s' =>
      match r with
      | none => s' = s
      | some fd => s.ofile p fd = none ∧ s' = s.setOfile p fd (some f) ∧ Inv s' L (f :: D)) s := by
  simp only [fdalloc, wp_bind, wp_read]
  cases hfind : (List.finRange NOFILE).find? fun fd => s.ofile p fd = none with
  | none => rfl
  | some fd =>
    have hfd := find?_some hfind
    rw [decide_eq_true_eq] at hfd
    exact ⟨hfd, rfl, h.fill hp hfd f⟩

omit [Fintype P] in
lemma argfd_spec : wp (argfd p d) ok (fun r s' => s' = s ∧ ∀ fd f, r = some (fd, f) → s.ofile p fd = some f) s := by
  simp only [argfd, wp_bind, wp_read]
  split
  next hd =>
    cases hf : s.ofile p ⟨d, hd⟩ with
    | none => exact ⟨rfl, fun _ _ hc => by cases hc⟩
    | some f =>
      refine ⟨rfl, fun fd g hc => ?_⟩
      cases hc
      exact hf
  next => exact ⟨rfl, fun _ _ hc => by cases hc⟩

variable [DecidableEq Q]

/-- **`fileclose`** of a reference that the call holds. -/
lemma fileclose_spec (h : Inv s (f :: L) D) (hpos : 0 < (s.file f).ref) :
    wp (fileclose f) ok (fun _ s' => Inv s' L D ∧ s'.ofile = s.ofile ∧ s'.proc = s.proc) s := by
  have hcount := h.refs f
  rw [count_cons_self] at hcount
  have hother : ∀ e, e ≠ f → D.count e = D.count e ∧ L.count e = (f :: L).count e :=
    fun e he => ⟨rfl, (count_cons_of_ne (Ne.symm he)).symm⟩
  simp only [fileclose, file, wp_bind, wp_read, wp_pure]
  rw [if_neg (by omega)]
  refine wp_ite.mpr ⟨fun hmore => ?_, fun hlast => ?_⟩
  · refine ⟨h.setFile ?_ hother (fun hc => ?_) (.inr ⟨rfl, rfl, rfl⟩), rfl, rfl⟩
    · simp only
      omega
    · simp only at hc
      omega
  · simp only [setFile, wp_bind, wp_modify]
    refine wp_ite.mpr ⟨fun ht => ?_, fun ht => ?_⟩
    · -- the last reference to an end of a pipe
      obtain ⟨q, pi, hq, hpi, ho⟩ := h.pipes.pipe f ht
      have hpi' : (s.setFile f fun x => { x with ref := 0, type := .none }).page q = some pi := hpi
      simp only [pipeclose, hq, wp_bind, wp_read, hpi', wp_modify]
      refine ⟨⟨fun e => ?_, h.pipes.closeEnd (x := { s.file f with ref := 0, type := .none }) ht hq hpi ho rfl rfl, h.idle⟩, rfl, rfl⟩
      change (update s.file f _ e).ref + _ = s.slots e + _
      by_cases he : e = f
      · subst he
        rw [update_self]
        simp only
        omega
      · rw [update_of_ne he, (hother e he).2]
        exact h.refs e
    · refine ⟨h.setFile ?_ hother (fun _ => rfl) (.inl ⟨ht, fun hc => by cases hc⟩), rfl, rfl⟩
      simp only
      omega

end

end Xv6.Ftable
