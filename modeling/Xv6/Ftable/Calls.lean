import Xv6.Ftable.Refs

/-!
# Open files over whole runs

Every call, on each of its exits, gives back the references it does not hand to a descriptor.
-/

namespace Xv6.Ftable

open Lib List

variable {P Q : Type} [Fintype P] [DecidableEq P] [DecidableEq Q] {s s' : State P Q} {L : List (Fin NFILE)}
  {f : Fin NFILE} {p : P} {ok : Stop → Prop}

/-- After a call, or a part of one that leaves descriptors and processes alone. -/
structure After (s : State P Q) (L : List (Fin NFILE)) (s' : State P Q) : Prop where
  inv : Inv s' L []
  ofile : s'.ofile = s.ofile
  proc : s'.proc = s.proc

omit [DecidableEq P] in
lemma fileclose_after (h : Inv s (f :: L) []) : wp (fileclose f) ok (fun _ s' => After s L s') s :=
  (fileclose_spec h (h.ref_pos_of_mem mem_cons_self)).mono fun _ _ ⟨hi, ho, hp⟩ => ⟨hi, ho, hp⟩

omit [DecidableEq P] in
lemma pipeBad_spec {rf wf : Fin NFILE} (h : Inv s [rf, wf] []) :
    wp (pipeBad rf wf) ok (fun _ s' => Inv s' [] []) s := by
  simp only [pipeBad, wp_bind]
  refine (fileclose_after h).mono fun _ s' h' => ?_
  rw [wp_bind]
  exact (fileclose_after h'.inv).mono fun _ s'' h'' => h''.inv

section

variable (h : Inv s [] [])

include h

omit [DecidableEq P] in
lemma pipealloc_spec {page : Option Q} (hpage : ∀ q, page = some q → s.page q = none) :
    wp (pipealloc page) ok (fun r s' => s'.proc = s.proc ∧
      match r with
      | none => Inv s' [] []
      | some (rf, wf) => Inv s' [rf, wf] []) s := by
  simp only [pipealloc, wp_bind]
  refine (filealloc_spec h).mono fun r s1 h1 => ?_
  cases r with
  | none => subst h1; exact ⟨rfl, h⟩
  | some f0 =>
    obtain ⟨hz0, hs1, h1⟩ := h1
    simp only [wp_bind]
    refine (filealloc_spec h1).mono fun r s2 h2 => ?_
    cases r with
    | none =>
      subst h2
      simp only [wp_bind]
      refine (fileclose_after h1).mono fun _ s3 h3 => ⟨h3.proc.trans (by rw [hs1]; rfl), h3.inv⟩
    | some f1 =>
      obtain ⟨hz1, hs2, h2⟩ := h2
      have hproc : s2.proc = s.proc := by
        rw [hs2, hs1]
        rfl
      have hperm : Inv s2 [f0, f1] [] := ⟨fun g => by
        have := h2.refs g
        rw [List.Perm.count_eq (List.Perm.swap f0 f1 []).symm g]
        exact this, h2.pipes, h2.idle⟩
      cases page with
      | none =>
        simp only [wp_bind]
        refine (fileclose_after hperm).mono fun _ s3 h3 => ?_
        rw [wp_bind]
        exact (fileclose_after h3.inv).mono fun _ s4 h4 => ⟨h4.proc.trans (h3.proc.trans hproc), h4.inv⟩
      | some q =>
        have hne : f0 ≠ f1 := by
          rintro rfl
          rw [hs1] at hz1
          simp [State.setFile] at hz1
        have hr0 : 0 < (s2.file f0).ref := hperm.ref_pos_of_mem (by simp)
        have hr1 : 0 < (s2.file f1).ref := hperm.ref_pos_of_mem (by simp)
        have ht0 : (s2.file f0).type = .none := by
          have hfree := h.pipes.free f0 hz0
          rw [hs2, hs1]
          simpa [State.setFile, hne] using hfree
        have ht1 : (s2.file f1).type = .none := by
          have hfree := h1.pipes.free f1 hz1
          rw [hs2]
          simpa [State.setFile] using hfree
        have hq : s2.page q = none := by
          rw [hs2, hs1]
          exact hpage q rfl
        refine ⟨hproc, fun g => ?_, hperm.pipes.newPipe hne ht0 ht1 hr0 hr1 hq, hperm.idle⟩
        have hsame : ((s2.newPipe f0 f1 q).file g).ref = (s2.file g).ref := by
          simp only [State.newPipe, State.setFile]
          by_cases hg1 : g = f1
          · subst hg1
            simp [Ne.symm hne]
          · by_cases hg0 : g = f0
            · subst hg0
              simp [hne]
            · simp [hg0, hg1]
        rw [hsame]
        exact hperm.refs g

lemma sysOpen_spec (hp : s.proc p = .used) (found : Option Found) :
    wp (sysOpen p found) ok (fun _ s' => Inv s' [] []) s := by
  cases found with
  | none => exact h
  | some x =>
    simp only [sysOpen, wp_bind]
    refine (filealloc_spec h).mono fun r s1 h1 => ?_
    cases r with
    | none => subst h1; exact h
    | some f =>
      obtain ⟨hz, hs1, h1⟩ := h1
      have ht : (s1.file f).type = .none := by
        have hfree := h.pipes.free f hz
        rw [hs1]
        simpa [State.setFile] using hfree
      have hp1 : s1.proc p = .used := by
        rw [hs1]
        exact hp
      simp only [wp_bind]
      refine (fdalloc_spec h1 hp1 f).mono fun r s2 h2 => ?_
      cases r with
      | none =>
        subst h2
        simp only [wp_bind]
        exact (fileclose_after h1).mono fun _ s3 h3 => h3.inv
      | some fd =>
        obtain ⟨-, hs2, h2⟩ := h2
        have hr : 0 < (s2.file f).ref := by
          rw [hs2]
          exact h1.ref_pos_of_mem mem_cons_self
        have ht2 : (s2.file f).type = .none := by
          rw [hs2]
          exact ht
        have hi := h2.uncons
        refine hi.setFile ?_ (fun e _ => ⟨rfl, rfl⟩) (fun hc => absurd hc hr.ne') (.inl ⟨?_, ?_⟩)
        · exact hi.refs f
        · rw [ht2]
          decide
        · simp only [opened]
          split <;> decide

omit [DecidableEq Q] in
lemma sysDup_spec (hp : s.proc p = .used) (fd : ℕ) : wp (sysDup p fd) ok (fun _ s' => Inv s' [] []) s := by
  simp only [sysDup, wp_bind]
  refine argfd_spec.mono ?_
  rintro r s1 ⟨hs1, hf⟩
  subst hs1
  cases r with
  | none => exact h
  | some x =>
    obtain ⟨fd, f⟩ := x
    have hf := hf fd f rfl
    simp only [wp_bind]
    refine (fdalloc_spec h hp f).mono fun r s2 h2 => ?_
    cases r with
    | none => subst h2; exact h
    | some fd' =>
      obtain ⟨-, hs2, h2⟩ := h2
      simp only [wp_bind]
      have hpos : 0 < (s2.file f).ref := by
        rw [hs2]
        exact h.ref_pos hf
      exact (filedup_spec h2 hpos).mono fun _ s3 h3 => h3.1

lemma sysPipe_spec (hp : s.proc p = .used) {page : Option Q} (hpage : ∀ q, page = some q → s.page q = none)
    (copied : Bool) :
    wp (sysPipe p page copied) ok (fun _ s' => Inv s' [] []) s := by
  simp only [sysPipe, wp_bind]
  refine (pipealloc_spec h hpage).mono ?_
  rintro r s1 ⟨hproc, h1⟩
  cases r with
  | none => exact h1
  | some x =>
    obtain ⟨rf, wf⟩ := x
    have hp1 : s1.proc p = .used := by rw [hproc]; exact hp
    simp only [wp_bind]
    refine (fdalloc_spec h1 hp1 rf).mono fun r s2 h2 => ?_
    cases r with
    | none => subst h2; exact pipeBad_spec h1
    | some fd0 =>
      obtain ⟨-, hs2, h2⟩ := h2
      have h2 := h2.uncons
      have hp2 : s2.proc p = .used := by
        rw [hs2]
        exact hp1
      have hfd0 : s2.ofile p fd0 = some rf := by
        rw [hs2]
        simp [State.setOfile]
      simp only [wp_bind]
      refine (fdalloc_spec h2 hp2 wf).mono fun r s3 h3 => ?_
      cases r with
      | none =>
        subst h3
        exact pipeBad_spec (h2.clear hfd0)
      | some fd1 =>
        obtain ⟨hfree, hs3, h3⟩ := h3
        have h3 := h3.uncons
        refine wp_ite.mpr ⟨fun _ => h3, fun _ => ?_⟩
        have hne : fd0 ≠ fd1 := by
          rintro rfl
          rw [hfd0] at hfree
          cases hfree
        have hfd0' : s3.ofile p fd0 = some rf := by
          rw [hs3]
          simpa [State.setOfile, hne] using hfd0
        have hfd1 : (s3.setOfile p fd0 none).ofile p fd1 = some wf := by
          rw [hs3]
          simp [State.setOfile, Ne.symm hne]
        have hclear := (h3.clear hfd0').clear hfd1
        refine pipeBad_spec ⟨fun g => ?_, hclear.pipes, hclear.idle⟩
        rw [List.Perm.count_eq (List.Perm.swap rf wf []).symm g]
        exact hclear.refs g

lemma sysClose_spec (fd : ℕ) : wp (sysClose p fd) ok (fun _ s' => Inv s' [] []) s := by
  simp only [sysClose, wp_bind]
  refine argfd_spec.mono ?_
  rintro r s1 ⟨hs1, hf⟩
  subst hs1
  cases r with
  | none => exact h
  | some x =>
    obtain ⟨fd, f⟩ := x
    simp only [setOfile, wp_bind, wp_modify]
    exact (fileclose_after (h.clear (hf fd f rfl))).mono fun _ s2 h2 => h2.inv

omit [DecidableEq Q] in
lemma Inv.setProc (hp : ∀ fd, s.ofile p fd = none) (x : ProcState) :
    Inv { s with proc := Function.update s.proc p x } [] [] where
  refs := h.refs
  pipes := h.pipes
  idle q hq fd := by
    by_cases hqp : q = p
    · rw [hqp]
      exact hp fd
    · simp only [Function.update_of_ne hqp] at hq
      exact h.idle q hq fd

omit [DecidableEq Q] in
lemma fork_spec (hp : s.proc p = .used) (child : P) (memory : Bool) :
    wp (fork p child memory) ok (fun _ s' => Inv s' [] []) s := by
  simp only [fork, wp_bind, wp_read]
  refine wp_ite.mpr ⟨fun _ => h, fun hu => ?_⟩
  have hu : s.proc child = .unused := not_not.mp hu
  have hnone : ∀ fd, s.ofile child fd = none := h.idle child (by rw [hu]; decide)
  have hne : child ≠ p := by
    rintro rfl
    cases hu.symm.trans hp
  have h1 := h.setProc hnone .used
  simp only [setProc, wp_bind, wp_modify]
  refine wp_ite.mpr ⟨fun _ => ?_, fun _ => ?_⟩
  · -- each pass copies one descriptor; the ones to come are still empty in the child
    simp only [wp_bind]
    refine (wp_eachM (I := fun fds s' => Inv s' [] [] ∧ s'.proc child = .used ∧ fds.Nodup ∧
      ∀ fd ∈ fds, s'.ofile child fd = none) ?_ _ _ ⟨h1, by simp, nodup_finRange _, fun fd _ => hnone fd⟩).mono
        fun _ s' hs' => hs'.1
    rintro fd fds s2 ⟨h2, hc2, hnd, hn2⟩
    obtain ⟨hnot, hnd⟩ := nodup_cons.mp hnd
    simp only [wp_bind, wp_read]
    cases hf : s2.ofile p fd with
    | none => exact ⟨h2, hc2, hnd, fun d hd => hn2 d (mem_cons_of_mem _ hd)⟩
    | some f =>
      simp only [wp_bind]
      refine (filedup_spec (h2.cons f) (h2.ref_pos hf)).mono ?_
      rintro _ s3 ⟨h3, ho3, hp3⟩
      have hc3 : s3.proc child = .used := by rw [hp3]; exact hc2
      have hn3 : ∀ d ∈ fd :: fds, s3.ofile child d = none := by rw [ho3]; exact hn2
      refine ⟨(h3.fill hc3 (hn3 fd mem_cons_self) f).uncons, hc3, hnd, fun d hd => ?_⟩
      have hdf : d ≠ fd := by
        rintro rfl
        exact hnot hd
      simpa [State.setOfile, hdf] using hn3 d (mem_cons_of_mem _ hd)
  · exact h1.setProc hnone .unused

lemma exit_spec : wp (exit p) ok (fun _ s' => Inv s' [] []) s := by
  simp only [exit, wp_bind]
  -- the descriptors that have been passed are closed
  refine (wp_eachM (I := fun fds s' => Inv s' [] [] ∧ ∀ fd, fd ∉ fds → s'.ofile p fd = none) ?_ _ _
    ⟨h, fun fd hfd => absurd (mem_finRange fd) hfd⟩).mono fun _ s' h' => h'.1.setProc (fun fd => h'.2 fd not_mem_nil) _
  rintro fd fds s1 ⟨h1, hn1⟩
  simp only [wp_bind, wp_read]
  cases hf : s1.ofile p fd with
  | none =>
    refine ⟨h1, fun d hd => ?_⟩
    by_cases hdf : d = fd
    · rw [hdf]
      exact hf
    · exact hn1 d (by simp [hdf, hd])
  | some f =>
    simp only [wp_bind]
    refine (fileclose_spec (h1.cons f) (h1.ref_pos hf)).mono ?_
    rintro _ s2 ⟨h2, ho2, -⟩
    have hf2 : s2.ofile p fd = some f := by rw [ho2]; exact hf
    refine ⟨(h2.clear hf2).uncons, fun d hd => ?_⟩
    by_cases hdf : d = fd
    · rw [hdf]
      simp [State.setOfile]
    · have hn := hn1 d (by simp [hdf, hd])
      rw [← ho2] at hn
      simpa [State.setOfile, hdf] using hn

omit [DecidableEq Q] in
lemma wait_spec (child : P) : wp (wait child) ok (fun _ s' => Inv s' [] []) s := by
  simp only [wait, wp_bind, wp_read]
  refine wp_ite.mpr ⟨fun hz => ?_, fun _ => h⟩
  exact h.setProc (h.idle child (by rw [hz]; decide)) .unused

/-- **Every call keeps the invariant** and stops for no reason. -/
lemma call_spec (hc : Possible s p c) :
    wp (call p c) (fun _ => False) (fun _ s' => Inv s' [] []) s := by
  obtain ⟨hp, hc⟩ := hc
  cases c with
  | «open» found => exact sysOpen_spec h hp found
  | dup fd => exact sysDup_spec h hp fd
  | pipe page copied =>
    refine sysPipe_spec h hp (fun q hq => ?_) copied
    subst hq
    exact Option.isNone_iff_eq_none.mp hc
  | close fd => exact sysClose_spec h fd
  | fork child memory => exact fork_spec h hp child memory
  | exec => exact h
  | exit => exact exit_spec h
  | wait child => exact wait_spec h child

end

lemma step_inv (hs : step s a = some s') (h : Inv s [] []) : Inv s' [] [] := by
  obtain ⟨hc, hs⟩ := Option.ite_none_right_eq_some.mp hs
  have hspec := call_spec h hc
  split at hs
  next r s1 hcall =>
    cases hs
    exact hspec.of_ok hcall
  next => cases hs

omit [DecidableEq Q] in
lemma init_inv (first : P) : Inv (init Q first) [] [] where
  refs f := by simp [init, State.slots]
  pipes :=
    { free := fun _ _ => rfl
      pipe := fun _ hc => by cases hc
      inj := fun _ _ hc => by cases hc
      ends := fun _ _ _ hc => by cases hc
      live := fun _ _ hc => by cases hc
      once := fun _ _ => rfl }
  idle _ _ _ := rfl

/-- A descriptor refers to end `w` of the pipe at page `q`. -/
def State.Refers (s : State P Q) (q : Q) (w : Bool) : Prop :=
  ∃ p fd f, s.ofile p fd = some f ∧ (s.file f).type = .pipe ∧ (s.file f).pipe = some q ∧ (s.file f).writable = w

omit [DecidableEq P] [DecidableEq Q] in
lemma Inv.refers_iff (h : Inv s [] []) (q : Q) (w : Bool) :
    s.Refers q w ↔ ∃ pi, s.page q = some pi ∧ pi.isOpen w = true := by
  constructor
  · rintro ⟨p, fd, f, -, ht, hq, rfl⟩
    obtain ⟨q', pi, hq', hpi, ho⟩ := h.pipes.pipe f ht
    cases hq.symm.trans hq'
    exact ⟨pi, hpi, ho⟩
  · rintro ⟨pi, hpi, ho⟩
    obtain ⟨f, ht, hq, hw⟩ := h.pipes.ends q pi w hpi ho
    have hpos : (s.file f).ref ≠ 0 := by
      intro hz
      rw [h.pipes.free f hz] at ht
      cases ht
    have hrefs := h.refs f
    simp only [count_nil, Nat.add_zero] at hrefs
    obtain ⟨p, fd, hf⟩ := slots_pos_iff.mp (Nat.pos_of_ne_zero (hrefs ▸ hpos))
    exact ⟨p, fd, f, hf, ht, hq, hw⟩

/-- **Reference counts of open files are exact** after any sequence of calls: the count of a file is the number of
descriptors that point to it; no call stops; a page is a pipe exactly as long as a descriptor refers to one of its
ends; and `pipeclose` has been called once for each end that has been given up. -/
theorem file_refs_exact {first : P} {as : List (P × Call P Q)} (h : run step (init Q first) as = some s) :
    (∀ f, (s.file f).ref = s.slots f) ∧
    (∀ f, (s.file f).ref = 0 → (s.file f).type = .none) ∧
    (∀ p c, Possible s p c → ∃ r s', call p c s = .ok (r, s')) ∧
    (∀ q, s.page q ≠ none ↔ ∃ w, s.Refers q w) ∧
    ∀ q w, (s.Refers q w → s.closes q w + 1 = s.opens q) ∧ (¬ s.Refers q w → s.closes q w = s.opens q) := by
  have hi : Inv s [] [] := run_invariant (fun _ _ _ hs hi => step_inv hs hi) h (init_inv first)
  refine ⟨fun f => ?_, hi.pipes.free, fun p c hc => ?_, fun q => ⟨fun hq => ?_, fun hq => ?_⟩, fun q w => ⟨fun hr => ?_, fun hr => ?_⟩⟩
  · have hrefs := hi.refs f
    simpa only [count_nil, Nat.add_zero] using hrefs
  · have hspec := call_spec hi hc
    cases hcall : call p c s with
    | ok r => exact ⟨r.1, r.2, rfl⟩
    | error e => exact (hspec.of_error hcall).elim
  · obtain ⟨pi, hpi⟩ := Option.ne_none_iff_exists'.mp hq
    obtain ⟨w, hw⟩ := hi.pipes.live q pi hpi
    exact ⟨w, (hi.refers_iff q w).mpr ⟨pi, hpi, hw⟩⟩
  · obtain ⟨w, hw⟩ := hq
    obtain ⟨pi, hpi, -⟩ := (hi.refers_iff q w).mp hw
    rw [hpi]
    exact Option.some_ne_none pi
  · obtain ⟨pi, hpi, ho⟩ := (hi.refers_iff q w).mp hr
    have honce := hi.pipes.once q w
    rw [hpi] at honce
    simpa [ho] using honce
  · have honce := hi.pipes.once q w
    cases hpi : s.page q with
    | none =>
      rw [hpi] at honce
      exact honce
    | some pi =>
      have ho : pi.isOpen w ≠ true := fun ho => hr ((hi.refers_iff q w).mpr ⟨pi, hpi, ho⟩)
      rw [hpi] at honce
      simpa [ho] using honce

/-- A pipe, a second descriptor for its write end, a child that has them all, and two failed calls. -/
def pipeRun : List (Fin 2 × Call (Fin 2) (Fin 1)) :=
  [(0, .pipe (some 0) true), (0, .dup 1), (0, .fork 1 true), (0, .close 0), (1, .pipe none true), (1, .dup 7), (1, .exit)]

theorem file_refs_exact_pipeRun : ∃ s, run step (init (Fin 1) (0 : Fin 2)) pipeRun = some s ∧
    ∀ f, (s.file f).ref = s.slots f := by
  have hrun : (run step (init (Fin 1) (0 : Fin 2)) pipeRun).isSome = true := by decide +kernel
  obtain ⟨s, hs⟩ := Option.isSome_iff_exists.mp hrun
  exact ⟨s, hs, (file_refs_exact hs).1⟩

end Xv6.Ftable
