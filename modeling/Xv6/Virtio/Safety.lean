import Xv6.Virtio.Desc

/-!
# Every request is answered once, to its own caller

`Book` is a record of the requests, by their first descriptor: who made it, for which buffer, and whether
the device has completed it and the interrupt handler has cleared `b->disk`.  The driver simulates the book over every run in
which the callers hold the sleep-locks of their buffers.
-/

namespace Xv6.Virtio

open Lib Function List Option

inductive Stage where
  | posted | completed | cleared

abbrev Book (P B : Type) : Type := Fin NUM → Option (P × B × Stage)

section

variable {P B : Type} [DecidableEq P] [DecidableEq B]

/-- What may happen to a request. -/
def Book.step (T : Book P B) : Event P B → Option (Book P B)
  | .posted p b h =>
    match T h with
    | none => some (update T h (some (p, b, .posted)))
    | _ => none
  | .completed h =>
    match T h with
    | some (p, b, .posted) => some (update T h (some (p, b, .completed)))
    | _ => none
  | .cleared h b =>
    match T h with
    | some (p, c, .completed) => if c = b then some (update T h (some (p, c, .cleared))) else none
    | _ => none
  | .returned p b h =>
    match T h with
    | some (q, c, .cleared) => if q = p ∧ c = b then some (update T h none) else none
    | _ => none

end

/-! ### What a process holds -/

namespace Code

variable {B : Type}

def locked : Code B → Bool
  | alloc .. | post .. | wait .. | iloop => true
  | _ => false

/-- The buffer of a call of `virtio_disk_rw`. -/
def buf : Code B → Option B
  | rw b _ | alloc b _ | dozing b _ | post b _ _ | wait b _ | asleep b _ => some b
  | _ => none

/-- The three descriptors of a call. -/
def idx : Code B → Option Idx
  | post _ _ i | wait _ i | asleep _ i => some i
  | _ => none

/-- The request of a call, once it is published. -/
def request : Code B → Option (B × Idx)
  | wait b i | asleep b i => some (b, i)
  | _ => none

variable {i idx : Idx} {d : Fin NUM} {g g' : Stage} {write : Bool}

lemma of_request {k : Code B} {b : B} (h : k.request = some (b, i)) : k.buf = some b ∧ k.idx = some i := by
  cases k <;> cases h <;> exact ⟨rfl, rfl⟩

end Code

section

variable {P B : Type}

/-- Requests that the device has not completed. -/
def State.pending (s : State P B) : List (Fin NUM) :=
  Ring.contents s.avail s.fetched s.availIdx ++ (s.taken ++ s.answered)

/-- Completions that the interrupt handler has not seen. -/
def State.unseen (s : State P B) : List (Fin NUM) := Ring.contents s.used s.seenIdx s.usedIdx

/-- Locks and descriptors. -/
structure Driver (s : State P B) : Prop where
  lock : ∀ p, s.lock = some p ↔ (s.code p).locked = true
  held : ∀ p b, (s.code p).buf = some b → s.held b = some p
  distinct : ∀ p q i j k l, (s.code p).idx = some i → (s.code q).idx = some j → i k = j l → p = q ∧ k = l
  free : ∀ d, s.free d = false ↔ ∃ p i k, (s.code p).idx = some i ∧ i k = d

/-- The book has the requests of the callers that wait. -/
structure Requests (s : State P B) (T : Book P B) : Prop where
  formatted : ∀ p b i, (s.code p).request = some (b, i) → Formatted s b i
  booked : ∀ p b i, (s.code p).request = some (b, i) → ∃ g, T (i 0) = some (p, b, g)
  request : ∀ h p b g, T h = some (p, b, g) → ∃ i, (s.code p).request = some (b, i) ∧ i 0 = h

/-- The rings have the requests of each stage. -/
structure Rings (s : State P B) (T : Book P B) : Prop where
  nodup_pending : s.pending.Nodup
  pending : ∀ h, h ∈ s.pending ↔ ∃ p b, T h = some (p, b, .posted)
  nodup_unseen : s.unseen.Nodup
  unseen : ∀ h, h ∈ s.unseen ↔ ∃ p b, T h = some (p, b, .completed)
  status : ∀ h, h ∈ s.answered ∨ h ∈ s.unseen → s.status h = 0
  disk : ∀ b, s.disk b = true ↔ ∃ h p g, T h = some (p, b, g) ∧ g ≠ .cleared

structure Inv (s : State P B) (T : Book P B) : Prop where
  panic : s.panic = none
  driver : Driver s
  requests : Requests s T
  rings : Rings s T

lemma inv_init : Inv (init P B) (fun _ => none) where
  panic := rfl
  driver :=
    { lock := fun p => by simp [init, Code.locked]
      held := fun p b h => by cases h
      distinct := fun p q i j k l h => by cases h
      free := fun d => by simp [init, Code.idx] }
  requests :=
    { formatted := fun p b i h => by cases h
      booked := fun p b i h => by cases h
      request := fun h p b g hT => by cases hT }
  rings := by
    have hp : (init P B).pending = [] := by simp [State.pending, init, Ring.contents_self]
    have hu : (init P B).unseen = [] := Ring.contents_self ..
    constructor
    · rw [hp]
      exact nodup_nil
    · simp [hp]
    · rw [hu]
      exact nodup_nil
    · simp [hu]
    · exact fun _ _ => rfl
    · simp [init]

variable {s : State P B} {T : Book P B} {p : P}

lemma Inv.request_unique (h : Inv s T) {c : Fin NUM} {q : P} {b : B} (hc : T c = some (p, b, g))
    (hd : T d = some (q, b, g')) : c = d := by
  obtain ⟨i, hi, rfl⟩ := h.requests.request _ _ _ _ hc
  obtain ⟨j, hj, rfl⟩ := h.requests.request _ _ _ _ hd
  have hp := h.driver.held p b (Code.of_request hi).1
  have hq := h.driver.held q b (Code.of_request hj).1
  have hpq : p = q := some.inj (hp.symm.trans hq)
  subst hpq
  rw [hi] at hj
  cases hj
  rfl

lemma Rings.stage_cleared (h : Rings s T) {b : B} (hT : T d = some (p, b, g)) (hb : s.disk b = false) :
    g = .cleared := by
  by_contra hg
  have := (h.disk b).mpr ⟨d, p, g, hT, hg⟩
  rw [hb] at this
  cases this

lemma Driver.in_use (h : Driver s) {q : P} (hq : (s.code q).idx = some i) (k : Fin 3) : s.free (i k) = false :=
  (h.free _).mpr ⟨q, i, k, hq, rfl⟩

lemma Driver.injective (h : Driver s) (hp : (s.code p).idx = some i) : Injective i :=
  fun k l heq => (h.distinct p p i i k l hp hp heq).2

lemma Driver.disjoint (h : Driver s) {q : P} {j : Idx} (hp : (s.code p).idx = some i) (hq : (s.code q).idx = some j)
    (hne : q ≠ p) (k l : Fin 3) : j k ≠ i l :=
  fun heq => hne (h.distinct q p j i k l hq hp heq).1

lemma Requests.restage (h : Requests s T) {b : B} (hT : T d = some (p, b, g)) (g' : Stage) :
    Requests s (update T d (some (p, b, g'))) := by
  refine ⟨h.formatted, ?_, ?_⟩
  · intro q c i hq
    obtain ⟨g1, hg1⟩ := h.booked q c i hq
    by_cases hd : i 0 = d
    · rw [hd, hT] at hg1
      cases hg1
      exact ⟨g', by rw [hd, update_self]⟩
    · exact ⟨g1, by rw [update_of_ne hd, hg1]⟩
  · intro e q c g1 he
    by_cases hd : e = d
    · subst hd
      rw [update_self] at he
      cases he
      exact h.request e p b g hT
    · rw [update_of_ne hd] at he
      exact h.request e q c g1 he

lemma Inv.unbooked (h : Inv s T) {b : B} (hp : s.code p = .post b write idx) : T (idx 0) = none := by
  cases hT : T (idx 0) with
  | none => rfl
  | some r =>
    obtain ⟨q, c, g⟩ := r
    obtain ⟨i, hi, heq⟩ := h.requests.request _ _ _ _ hT
    have hpi : (s.code p).idx = some idx := by rw [hp]; rfl
    obtain ⟨rfl, -⟩ := h.driver.distinct q p i idx 0 0 (Code.of_request hi).2 hpi heq
    rw [hp] at hi
    cases hi

/-! ### The device -/

lemma busy_restage {b : B} (hT : T d = some (p, b, g)) (hg : g ≠ .cleared) (hg' : g' ≠ .cleared) (c : B) :
    (∃ e q f, update T d (some (p, b, g')) e = some (q, c, f) ∧ f ≠ .cleared) ↔
      ∃ e q f, T e = some (q, c, f) ∧ f ≠ .cleared := by
  constructor
  · rintro ⟨e, q, f, he, hf⟩
    by_cases hd : e = d
    · subst hd
      rw [update_self] at he
      cases he
      exact ⟨e, p, g, hT, hg⟩
    · rw [update_of_ne hd] at he
      exact ⟨e, q, f, he, hf⟩
  · rintro ⟨e, q, f, he, hf⟩
    by_cases hd : e = d
    · subst hd
      rw [hT] at he
      cases he
      exact ⟨e, p, g', by rw [update_self], hg'⟩
    · exact ⟨e, q, f, by rw [update_of_ne hd, he], hf⟩

lemma Inv.fetch (h : Inv s T) (hne : s.fetched ≠ s.availIdx) :
    Inv { s with taken := s.taken ++ [s.avail (Ring.cell NUM s.fetched)], fetched := s.fetched + 1 } T := by
  have hperm : (State.pending
      { s with taken := s.taken ++ [s.avail (Ring.cell NUM s.fetched)], fetched := s.fetched + 1 }).Perm s.pending := by
    unfold State.pending
    rw [Ring.contents_pop s.avail s.fetched s.availIdx hne]
    simp only [append_assoc, cons_append]
    rw [← append_assoc, ← append_assoc]
    exact perm_middle
  refine ⟨h.panic, ⟨h.driver.1, h.driver.2, h.driver.3, h.driver.4⟩,
    ⟨h.requests.1, h.requests.2, h.requests.3⟩, ⟨?_, ?_, h.rings.3, h.rings.4, h.rings.5, h.rings.6⟩⟩
  · exact hperm.nodup_iff.mpr h.rings.nodup_pending
  · intro d
    rw [hperm.mem_iff]
    exact h.rings.pending d

lemma Inv.formatted_of_booked (h : Inv s T) {b : B} (hT : T d = some (p, b, g)) :
    ∃ i, i 0 = d ∧ Formatted s b i := by
  obtain ⟨i, hi, hd⟩ := h.requests.request d p b g hT
  exact ⟨i, hd, h.requests.formatted p b i hi⟩

lemma Inv.answer (h : Inv s T) (hd : d ∈ s.taken) :
    Inv { s.setStatus d with taken := s.taken.erase d, answered := s.answered ++ [d] } T := by
  have hmem : d ∈ s.pending := mem_append_right _ (mem_append_left _ hd)
  obtain ⟨q, b, hT⟩ := (h.rings.pending d).mp hmem
  obtain ⟨i, rfl, hfmt⟩ := h.formatted_of_booked hT
  rw [setStatus_eq hfmt]
  have hperm : (Ring.contents s.avail s.fetched s.availIdx ++ (s.taken.erase (i 0) ++ (s.answered ++ [i 0]))).Perm
      s.pending := by
    refine List.Perm.append_left _ ?_
    have htaken : s.taken.Perm (i 0 :: s.taken.erase (i 0)) := perm_cons_erase hd
    refine List.Perm.trans ?_ (htaken.append_right _).symm
    rw [← append_assoc]
    exact perm_append_singleton ..
  refine ⟨h.panic, ⟨h.driver.1, h.driver.2, h.driver.3, h.driver.4⟩,
    ⟨h.requests.1, h.requests.2, h.requests.3⟩, ⟨?_, ?_, h.rings.3, h.rings.4, ?_, h.rings.6⟩⟩
  · exact hperm.nodup_iff.mpr h.rings.nodup_pending
  · exact fun e => hperm.mem_iff.trans (h.rings.pending e)
  · intro e he
    by_cases hei : e = i 0
    · subst hei
      exact update_self ..
    · refine (update_of_ne hei ..).trans (h.rings.status e ?_)
      rcases he with he | he
      · rcases mem_append.mp he with he | he
        · exact .inl he
        · exact absurd (mem_singleton.mp he) hei
      · exact .inr he

lemma Inv.complete (h : Inv s T) (hd : d ∈ s.answered) : ∃ q b, T d = some (q, b, .posted) ∧ Inv { s with
        answered := s.answered.erase d
        used := update s.used (Ring.cell NUM s.usedIdx) d
        usedIdx := s.usedIdx + 1 } (update T d (some (q, b, .completed))) := by
  have hmem : d ∈ s.pending := mem_append_right _ (mem_append_right _ hd)
  obtain ⟨q, b, hT⟩ := (h.rings.pending d).mp hmem
  refine ⟨q, b, hT, ?_⟩
  have hnew : (d :: s.unseen).Nodup := by
    refine nodup_cons.mpr ⟨fun hu => ?_, h.rings.nodup_unseen⟩
    obtain ⟨q', b', hT'⟩ := (h.rings.unseen d).mp hu
    rw [hT] at hT'
    cases hT'
  have hpush : Ring.contents (update s.used (Ring.cell NUM s.usedIdx) d) s.seenIdx (s.usedIdx + 1) = s.unseen ++ [d] :=
    Ring.contents_push_of_nodup (by decide) (by decide) hnew
  have hperm : s.pending.Perm (d :: (Ring.contents s.avail s.fetched s.availIdx ++ (s.taken ++ s.answered.erase d))) := by
    have hans : s.answered.Perm (d :: s.answered.erase d) := perm_cons_erase hd
    unfold State.pending
    rw [← append_assoc, ← append_assoc]
    exact (List.Perm.append_left _ hans).trans perm_middle
  have hnd := nodup_cons.mp (hperm.nodup_iff.mp h.rings.nodup_pending)
  have hreq := h.requests.restage hT .completed
  refine ⟨h.panic, ⟨h.driver.1, h.driver.2, h.driver.3, h.driver.4⟩, ⟨hreq.1, hreq.2, hreq.3⟩, ⟨hnd.2, ?_, ?_, ?_, ?_, ?_⟩⟩
  · intro e
    by_cases he : e = d
    · subst he
      refine iff_of_false hnd.1 ?_
      simp
    · rw [update_of_ne he, ← h.rings.pending, hperm.mem_iff, mem_cons]
      exact (or_iff_right he).symm
  · rw [State.unseen, hpush]
    exact (perm_append_singleton ..).nodup_iff.mpr hnew
  · intro e
    rw [State.unseen, hpush, mem_append, mem_singleton, h.rings.unseen]
    by_cases he : e = d
    · subst he
      simp
    · simp [he]
  · intro e he
    rw [State.unseen, hpush, mem_append, mem_singleton] at he
    rcases he with he | he | rfl
    · exact h.rings.status e (.inl (mem_of_mem_erase he))
    · exact h.rings.status e (.inr he)
    · exact h.rings.status e (.inl hd)
  · intro c
    have hdone : Stage.completed ≠ .cleared := nofun
    exact (h.rings.disk c).trans (busy_restage hT nofun hdone c).symm

/-! ### Allocation -/

lemma Inv.fail (h : Inv s T) {d : Fin NUM → Desc B} (hd : Untouched s d) (w : P → Option (Chan B)) :
    Inv { s with desc := d, sleeping := w } T where
  panic := h.panic
  driver := ⟨h.driver.lock, h.driver.held, h.driver.distinct, h.driver.free⟩
  requests := by
    refine ⟨fun q b i hq => ?_, h.requests.booked, h.requests.request⟩
    have huse := h.driver.in_use (Code.of_request hq).2
    obtain ⟨hb, write, h0, h1, h2⟩ := h.requests.formatted q b i hq
    exact ⟨hb, write, (hd _ (huse 0)).trans h0, (hd _ (huse 1)).trans h1, (hd _ (huse 2)).trans h2⟩
  rings := ⟨h.rings.1, h.rings.2, h.rings.3, h.rings.4, h.rings.5, h.rings.6⟩

end

section

variable {P B : Type} [DecidableEq P] {s : State P B} {T : Book P B} {p : P}

variable {b : B} {idx i : Idx} {d : Fin NUM} {g : Stage} {s' : State P B}

/-! ### Locks and sleeping -/

lemma lock_acquire (h : Driver s) (hl : s.lock = none) {k : Code B} (hk : k.locked = true) (q : P) :
    some p = some q ↔ (update s.code p k q).locked = true := by
  have hfree : (s.code q).locked ≠ true := by
    rw [ne_eq, ← h.lock, hl]
    exact nofun
  by_cases hq : q = p
  · simp [hq, hk]
  · rw [update_of_ne hq, some.injEq]
    exact iff_of_false (Ne.symm hq) hfree

lemma lock_release (h : Driver s) (hp : (s.code p).locked = true) {k : Code B} (hk : k.locked = false) (q : P) :
    none = some q ↔ (update s.code p k q).locked = true := by
  refine iff_of_false nofun ?_
  by_cases hq : q = p
  · simp [hq, hk]
  · rw [update_of_ne hq, ← h.lock, (h.lock p).mpr hp, some.injEq]
    exact Ne.symm hq

lemma lock_keep (h : Driver s) {k : Code B} (hk : k.locked = (s.code p).locked) (q : P) :
    s.lock = some q ↔ (update s.code p k q).locked = true := by
  by_cases hq : q = p
  · rw [hq, update_self, hk, h.lock]
  · rw [update_of_ne hq, h.lock]

lemma Driver.recode (h : Driver s) {k : Code B} {l : Option P}
    (hl : ∀ q, l = some q ↔ (update s.code p k q).locked = true) (hb : ∀ b, k.buf = some b → s.held b = some p)
    (hi : k.idx = (s.code p).idx) : Driver { s with lock := l, code := update s.code p k } := by
  have hidx : ∀ q, (update s.code p k q).idx = (s.code q).idx := by
    intro q
    by_cases hq : q = p
    · rw [hq, update_self, hi]
    · rw [update_of_ne hq]
  refine ⟨hl, ?_, ?_, ?_⟩
  · intro q b hq
    by_cases hqp : q = p
    · subst hqp
      simp only [update_self] at hq
      exact hb b hq
    · simp only [update_of_ne hqp] at hq
      exact h.held q b hq
  · simp only [hidx]
    exact h.distinct
  · simp only [hidx]
    exact h.free

lemma Requests.recode (h : Requests s T) {k : Code B} (hr : k.request = (s.code p).request) :
    Requests { s with code := update s.code p k } T := by
  have hreq : ∀ q, (update s.code p k q).request = (s.code q).request := by
    intro q
    by_cases hq : q = p
    · rw [hq, update_self, hr]
    · rw [update_of_ne hq]
  refine ⟨?_, ?_, ?_⟩
  · simp only [hreq]
    exact h.formatted
  · simp only [hreq]
    exact h.booked
  · simp only [hreq]
    exact h.request

lemma Inv.recode (h : Inv s T) {k : Code B} {l : Option P} {w : P → Option (Chan B)}
    (hl : ∀ q, l = some q ↔ (update s.code p k q).locked = true) (hb : ∀ b, k.buf = some b → s.held b = some p)
    (hi : k.idx = (s.code p).idx) (hr : k.request = (s.code p).request) :
    Inv { s with lock := l, sleeping := w, code := update s.code p k } T := by
  have hd := h.driver.recode hl hb hi
  have hq := h.requests.recode hr
  exact ⟨h.panic, ⟨hd.1, hd.2, hd.3, hd.4⟩, ⟨hq.1, hq.2, hq.3⟩,
    ⟨h.rings.1, h.rings.2, h.rings.3, h.rings.4, h.rings.5, h.rings.6⟩⟩

lemma Inv.acquire (h : Inv s T) {k : Code B} (hs : s.acquire p k = some s') (hk : k.locked = true)
    (hb : k.buf = (s.code p).buf) (hi : k.idx = (s.code p).idx) (hr : k.request = (s.code p).request) : Inv s' T := by
  unfold State.acquire at hs
  split at hs
  case isTrue hl =>
    cases hs
    exact h.recode (lock_acquire h.driver hl hk) (fun b hkb => h.driver.held p b (hb ▸ hkb)) hi hr
  case isFalse => cases hs

lemma Inv.resume (h : Inv s T) {k : Code B} (hs : s.resume p k = some s') (hk : k.locked = true)
    (hb : k.buf = (s.code p).buf) (hi : k.idx = (s.code p).idx) (hr : k.request = (s.code p).request) : Inv s' T := by
  unfold State.resume at hs
  split at hs
  · exact h.acquire hs hk hb hi hr
  · cases hs

lemma Inv.take (h : Inv s T) (hp : s.code p = .alloc b write) (hinj : Injective idx)
    (hfree : ∀ k, s.free (idx k) = true) : Inv ((s.take idx).goto p (.post b write idx)) T := by
  have hnew : ∀ q i k l, q ≠ p → (s.code q).idx = some i → i k ≠ idx l := by
    intro q i k l _ hq heq
    have huse := h.driver.in_use hq k
    rw [heq, hfree l] at huse
    cases huse
  have hidx : (s.code p).idx = none := by rw [hp]; rfl
  have hreq := h.requests.recode (p := p) (k := .post b write idx) (by rw [hp]; rfl)
  refine ⟨h.panic, ⟨?_, ?_, ?_, ?_⟩, ⟨hreq.1, hreq.2, hreq.3⟩, ?_⟩
  · exact lock_keep h.driver (by rw [hp]; rfl)
  · intro q c hq
    by_cases hqp : q = p
    · subst hqp
      refine h.driver.held q c ?_
      simp only [State.goto, update_self] at hq
      rw [hp]
      exact hq
    · simp only [State.goto, State.take, update_of_ne hqp] at hq
      exact h.driver.held q c hq
  · intro q r i j k l hq hr heq
    simp only [State.goto, State.take] at hq hr
    by_cases hqp : q = p
    · subst hqp
      simp only [update_self, Code.idx, some.injEq] at hq
      subst hq
      by_cases hrq : r = q
      · subst hrq
        simp only [update_self, Code.idx, some.injEq] at hr
        subst hr
        exact ⟨rfl, hinj heq⟩
      · rw [update_of_ne hrq] at hr
        exact absurd heq.symm (hnew r j l k hrq hr)
    · rw [update_of_ne hqp] at hq
      by_cases hrp : r = p
      · subst hrp
        simp only [update_self, Code.idx, some.injEq] at hr
        subst hr
        exact absurd heq (hnew q i k l hqp hq)
      · rw [update_of_ne hrp] at hr
        exact h.driver.distinct q r i j k l hq hr heq
  · intro d
    refine (take_free idx d).trans ?_
    rw [h.driver.free d]
    constructor
    · rintro (⟨q, i, k, hq, rfl⟩ | ⟨k, rfl⟩)
      · have hqp : q ≠ p := by
          rintro rfl
          rw [hidx] at hq
          cases hq
        exact ⟨q, i, k, by simpa only [State.goto, State.take, update_of_ne hqp] using hq, rfl⟩
      · exact ⟨p, idx, k, by simp only [State.goto, update_self, Code.idx], rfl⟩
    · rintro ⟨q, i, k, hq, rfl⟩
      simp only [State.goto, State.take] at hq
      by_cases hqp : q = p
      · subst hqp
        simp only [update_self, Code.idx, some.injEq] at hq
        subst hq
        exact .inr ⟨k, rfl⟩
      · rw [update_of_ne hqp] at hq
        exact .inl ⟨q, i, k, hq, rfl⟩
  · exact ⟨h.rings.1, h.rings.2, h.rings.3, h.rings.4, h.rings.5, h.rings.6⟩

variable [DecidableEq B]

omit [DecidableEq P] in
lemma publishChain_desc (h : ∀ k, idx k ≠ d) (sector : B → ℕ) (b : B) (write : Bool) :
    (publishChain s sector b write idx).desc d = s.desc d := by
  simp only [publishChain]
  rw [update_of_ne (h 2).symm, update_of_ne (h 1).symm, update_of_ne (h 0).symm]

omit [DecidableEq P] in
lemma formatted_publishChain (hinj : Injective idx) (sector : B → ℕ) (b : B) (write : Bool) :
    Formatted (publishChain s sector b write idx) b idx := by
  have h01 : idx 0 ≠ idx 1 := hinj.ne (by decide)
  have h02 : idx 0 ≠ idx 2 := hinj.ne (by decide)
  have h12 : idx 1 ≠ idx 2 := hinj.ne (by decide)
  refine ⟨update_self .., write, ?_, ?_, ?_⟩
  · simp only [publishChain]
    rw [update_of_ne h02, update_of_ne h01, update_self]
  · simp only [publishChain]
    rw [update_of_ne h12, update_self]
  · simp only [publishChain, update_self]

lemma Inv.requests_publish (h : Inv s T) (hp : s.code p = .post b write idx) (sector : B → ℕ) :
    Requests ((publishChain s sector b write idx).goto p (.wait b idx)) (update T (idx 0) (some (p, b, .posted))) := by
  have hpi : (s.code p).idx = some idx := by rw [hp]; rfl
  have hother : ∀ q c i, (update s.code p (.wait b idx) q).request = some (c, i) → q ≠ p →
      (s.code q).request = some (c, i) ∧ ∀ k l, i k ≠ idx l := by
    intro q c i hq hqp
    rw [update_of_ne hqp] at hq
    exact ⟨hq, h.driver.disjoint hpi (Code.of_request hq).2 hqp⟩
  have hself : ∀ c i, (update s.code p (.wait b idx) p).request = some (c, i) → c = b ∧ i = idx := by
    intro c i hq
    rw [update_self] at hq
    cases hq
    exact ⟨rfl, rfl⟩
  refine ⟨?_, ?_, ?_⟩
  · intro q c i hq
    by_cases hqp : q = p
    · subst hqp
      obtain ⟨rfl, rfl⟩ := hself c i hq
      exact formatted_publishChain (h.driver.injective hpi) sector c write
    · obtain ⟨hq, hne⟩ := hother q c i hq hqp
      obtain ⟨hc, write', h0, h1, h2⟩ := h.requests.formatted q c i hq
      have hdesc := fun k => publishChain_desc (s := s) (fun l => (hne k l).symm) sector b write
      exact ⟨(update_of_ne (hne 0 0) ..).trans hc, write', (hdesc 0).trans h0, (hdesc 1).trans h1, (hdesc 2).trans h2⟩
  · intro q c i hq
    by_cases hqp : q = p
    · subst hqp
      obtain ⟨rfl, rfl⟩ := hself c i hq
      exact ⟨.posted, update_self ..⟩
    · obtain ⟨hq, hne⟩ := hother q c i hq hqp
      rw [update_of_ne (hne 0 0)]
      exact h.requests.booked q c i hq
  · intro d q c g hT
    by_cases hd : d = idx 0
    · subst hd
      rw [update_self] at hT
      cases hT
      have hwait : update s.code p (.wait b idx) p = .wait b idx := update_self ..
      exact ⟨idx, congrArg Code.request hwait, rfl⟩
    · rw [update_of_ne hd] at hT
      obtain ⟨i, hi, hi0⟩ := h.requests.request d q c g hT
      have hqp : q ≠ p := by
        rintro rfl
        rw [hp] at hi
        cases hi
      exact ⟨i, (congrArg Code.request (update_of_ne hqp ..)).trans hi, hi0⟩

lemma Inv.publish (h : Inv s T) (hp : s.code p = .post b write idx) (sector : B → ℕ) :
    Inv ((publishChain s sector b write idx).goto p (.wait b idx)) (update T (idx 0) (some (p, b, .posted))) := by
  have hnone := h.unbooked hp
  have hpi : (s.code p).idx = some idx := by rw [hp]; rfl
  have hdriver : Driver { s with lock := s.lock, code := update s.code p (.wait b idx) } :=
    h.driver.recode (lock_keep h.driver (by rw [hp]; rfl)) (fun c hc => h.driver.held p c (by rwa [hp])) hpi.symm
  have hpend : (idx 0 :: s.pending).Nodup := by
    refine nodup_cons.mpr ⟨fun hmem => ?_, h.rings.nodup_pending⟩
    obtain ⟨q, c, hT⟩ := (h.rings.pending _).mp hmem
    rw [hnone] at hT
    cases hT
  have hpush : Ring.contents (update s.avail (Ring.cell NUM s.availIdx) (idx 0)) s.fetched (s.availIdx + 1) =
      Ring.contents s.avail s.fetched s.availIdx ++ [idx 0] := by
    refine Ring.contents_push_of_nodup (by decide) (by decide) (hpend.sublist ?_)
    exact (sublist_append_left ..).cons_cons _
  have hperm : ((publishChain s sector b write idx).goto p (.wait b idx)).pending.Perm (idx 0 :: s.pending) := by
    change (Ring.contents (update s.avail (Ring.cell NUM s.availIdx) (idx 0)) s.fetched (s.availIdx + 1) ++
      (s.taken ++ s.answered)).Perm _
    rw [hpush, append_assoc, singleton_append]
    exact perm_middle
  refine ⟨h.panic, ⟨hdriver.1, hdriver.2, hdriver.3, hdriver.4⟩, h.requests_publish hp sector,
    ⟨?_, ?_, ?_, ?_, ?_, ?_⟩⟩
  · exact hperm.nodup_iff.mpr hpend
  · intro d
    rw [hperm.mem_iff, mem_cons, h.rings.pending]
    by_cases hd : d = idx 0
    · subst hd
      simp [update_self]
    · simp [hd]
  · exact h.rings.nodup_unseen
  · intro d
    refine (h.rings.unseen d).trans ?_
    by_cases hd : d = idx 0
    · subst hd
      simp [hnone]
    · rw [update_of_ne hd]
  · intro d hd
    have hne : d ≠ idx 0 := by
      rintro rfl
      rcases hd with hd | hd
      · exact (nodup_cons.mp hpend).1 (mem_append_right _ (mem_append_right _ hd))
      · obtain ⟨q, c, hT⟩ := (h.rings.unseen _).mp hd
        rw [hnone] at hT
        cases hT
    exact (update_of_ne hne ..).trans (h.rings.status d hd)
  · intro c
    by_cases hc : c = b
    · subst hc
      refine iff_of_true (update_self ..) ⟨idx 0, p, .posted, by rw [update_self], nofun⟩
    · refine (Iff.of_eq (congrArg (· = true) (update_of_ne hc ..))).trans ((h.rings.disk c).trans ?_)
      constructor
      · rintro ⟨d, q, g, hT, hg⟩
        have hne : d ≠ idx 0 := by
          rintro rfl
          rw [hnone] at hT
          cases hT
        exact ⟨d, q, g, by rw [update_of_ne hne, hT], hg⟩
      · rintro ⟨d, q, g, hT, hg⟩
        by_cases hd : d = idx 0
        · subst hd
          rw [update_self] at hT
          cases hT
          exact absurd rfl hc
        · rw [update_of_ne hd] at hT
          exact ⟨d, q, g, hT, hg⟩

omit [DecidableEq P] in
lemma Inv.clear (h : Inv s T) (hne : s.seenIdx ≠ s.usedIdx) :
    ∃ q b, T (s.used (Ring.cell NUM s.seenIdx)) = some (q, b, .completed) ∧
      s.status (s.used (Ring.cell NUM s.seenIdx)) = 0 ∧ s.infoB (s.used (Ring.cell NUM s.seenIdx)) = some b ∧
      ∀ w, Inv { s with disk := update s.disk b false, seenIdx := s.seenIdx + 1, sleeping := w }
        (update T (s.used (Ring.cell NUM s.seenIdx)) (some (q, b, .cleared))) := by
  have hpop : s.unseen = s.used (Ring.cell NUM s.seenIdx) :: Ring.contents s.used (s.seenIdx + 1) s.usedIdx :=
    Ring.contents_pop _ _ _ hne
  generalize s.used (Ring.cell NUM s.seenIdx) = d at hpop ⊢
  have hmem : d ∈ s.unseen := by
    rw [hpop]
    exact mem_cons_self
  obtain ⟨q, b, hT⟩ := (h.rings.unseen d).mp hmem
  obtain ⟨i, hi, hfmt⟩ := h.formatted_of_booked hT
  have hnd := h.rings.nodup_unseen
  rw [hpop, nodup_cons] at hnd
  have hreq := h.requests.restage hT .cleared
  refine ⟨q, b, hT, h.rings.status d (.inr hmem), hi ▸ hfmt.1, fun w => ?_⟩
  refine ⟨h.panic, ⟨h.driver.1, h.driver.2, h.driver.3, h.driver.4⟩, ⟨hreq.1, hreq.2, hreq.3⟩,
    ⟨h.rings.nodup_pending, ?_, hnd.2, ?_, ?_, ?_⟩⟩
  · intro e
    refine (h.rings.pending e).trans ?_
    by_cases he : e = d
    · subst he
      simp [hT]
    · rw [update_of_ne he]
  · intro e
    by_cases he : e = d
    · subst he
      refine iff_of_false hnd.1 ?_
      simp
    · rw [update_of_ne he, ← h.rings.unseen, hpop, mem_cons]
      exact (or_iff_right he).symm
  · intro e he
    refine h.rings.status e (he.imp_right fun hu => ?_)
    rw [hpop]
    exact mem_cons_of_mem _ hu
  · intro c
    by_cases hc : c = b
    · -- no other request is for this buffer
      subst hc
      refine iff_of_false (by simp) ?_
      rintro ⟨e, q', g, he, hg⟩
      by_cases hed : e = d
      · subst hed
        rw [update_self] at he
        cases he
        exact hg rfl
      · rw [update_of_ne hed] at he
        exact hed (h.request_unique he hT)
    · refine (Iff.of_eq (congrArg (· = true) (update_of_ne hc ..))).trans ((h.rings.disk c).trans ?_)
      constructor
      · rintro ⟨e, q', g, he, hg⟩
        have hed : e ≠ d := by
          rintro rfl
          rw [hT] at he
          cases he
          exact hc rfl
        exact ⟨e, q', g, by rw [update_of_ne hed, he], hg⟩
      · rintro ⟨e, q', g, he, hg⟩
        by_cases hed : e = d
        · subst hed
          rw [update_self] at he
          cases he
          exact absurd rfl hc
        · rw [update_of_ne hed] at he
          exact ⟨e, q', g, he, hg⟩

omit [DecidableEq B] in
lemma Driver.give (h : Driver s) (hp : s.code p = .wait b idx) {info : Fin NUM → Option B} {w : P → Option (Chan B)} :
    Driver (State.unlock { s.give idx with infoB := info, sleeping := w } p .idle) := by
  have hpi : (s.code p).idx = some idx := by rw [hp]; rfl
  have hidle : ∀ q i, (update s.code p .idle q).idx = some i → q ≠ p ∧ (s.code q).idx = some i := by
    intro q i hq
    by_cases hqp : q = p
    · rw [hqp, update_self] at hq
      cases hq
    · rw [update_of_ne hqp] at hq
      exact ⟨hqp, hq⟩
  refine ⟨lock_release h (by rw [hp]; rfl) rfl, ?_, ?_, ?_⟩
  · intro q c hq
    by_cases hqp : q = p
    · simp only [State.unlock, State.goto, hqp, update_self] at hq
      cases hq
    · simp only [State.unlock, State.goto, State.give, update_of_ne hqp] at hq
      exact h.held q c hq
  · intro q r i j k l hq hr heq
    exact h.distinct q r i j k l (hidle q i hq).2 (hidle r j hr).2 heq
  · intro d
    refine (give_free idx d).trans ?_
    rw [h.free d]
    constructor
    · rintro ⟨⟨q, i, k, hq, rfl⟩, hne⟩
      have hqp : q ≠ p := by
        rintro rfl
        rw [hpi] at hq
        cases hq
        exact hne k rfl
      exact ⟨q, i, k, (congrArg Code.idx (update_of_ne hqp ..)).trans hq, rfl⟩
    · rintro ⟨q, i, k, hq, rfl⟩
      obtain ⟨hqp, hq⟩ := hidle q i hq
      exact ⟨⟨q, i, k, hq, rfl⟩, fun l => (h.disjoint hpi hq hqp k l).symm⟩

omit [DecidableEq B] in
lemma Inv.requests_give (h : Inv s T) (hp : s.code p = .wait b idx) {w : P → Option (Chan B)} :
    Requests (State.unlock { s.give idx with infoB := update s.infoB (idx 0) none, sleeping := w } p .idle)
      (update T (idx 0) none) := by
  have hpi : (s.code p).idx = some idx := by rw [hp]; rfl
  have hother : ∀ q c i, (update s.code p .idle q).request = some (c, i) →
      (s.code q).request = some (c, i) ∧ ∀ k l, i k ≠ idx l := by
    intro q c i hq
    by_cases hqp : q = p
    · rw [hqp, update_self] at hq
      cases hq
    · rw [update_of_ne hqp] at hq
      exact ⟨hq, h.driver.disjoint hpi (Code.of_request hq).2 hqp⟩
  refine ⟨?_, ?_, ?_⟩
  · intro q c i hq
    obtain ⟨hq, hne⟩ := hother q c i hq
    obtain ⟨hc, write, h0, h1, h2⟩ := h.requests.formatted q c i hq
    have hdesc := fun k => give_desc (s := s) (fun l => (hne k l).symm)
    exact ⟨(update_of_ne (hne 0 0) ..).trans hc, write, (hdesc 0).trans h0, (hdesc 1).trans h1, (hdesc 2).trans h2⟩
  · intro q c i hq
    obtain ⟨hq, hne⟩ := hother q c i hq
    rw [update_of_ne (hne 0 0)]
    exact h.requests.booked q c i hq
  · intro d q c g hT
    by_cases hd : d = idx 0
    · subst hd
      rw [update_self] at hT
      cases hT
    · rw [update_of_ne hd] at hT
      obtain ⟨i, hi, hi0⟩ := h.requests.request d q c g hT
      have hqp : q ≠ p := by
        rintro rfl
        rw [hp] at hi
        cases hi
        exact hd hi0.symm
      exact ⟨i, (congrArg Code.request (update_of_ne hqp ..)).trans hi, hi0⟩

lemma Inv.finish (h : Inv s T) (hp : s.code p = .wait b idx) (hb : s.disk b = false) :
    T (idx 0) = some (p, b, .cleared) ∧
      ∃ s', freeChain NUM { s with infoB := update s.infoB (idx 0) none } (idx 0) = .ok s' ∧
        Inv (s'.unlock p .idle) (update T (idx 0) none) := by
  have hpi : (s.code p).idx = some idx := by rw [hp]; rfl
  have hpr : (s.code p).request = some (b, idx) := by rw [hp]; rfl
  obtain ⟨g, hT⟩ := h.requests.booked p b idx hpr
  obtain rfl := h.rings.stage_cleared hT hb
  obtain ⟨w, hw⟩ := freeChain_spec (h.driver.injective hpi) (h.requests.formatted p b idx hpr) (h.driver.in_use hpi)
    (update s.infoB (idx 0) none)
  have hcleared : ∀ d q c g, g ≠ .cleared → (update T (idx 0) none d = some (q, c, g) ↔ T d = some (q, c, g)) := by
    intro d q c g hg
    by_cases hd : d = idx 0
    · subst hd
      rw [update_self, hT]
      refine iff_of_false nofun fun heq => hg ?_
      cases heq
      rfl
    · rw [update_of_ne hd]
  refine ⟨hT, _, hw, h.panic, h.driver.give hp, h.requests_give hp, ?_⟩
  refine ⟨h.rings.nodup_pending, ?_, h.rings.nodup_unseen, ?_, h.rings.status, ?_⟩
  · intro d
    refine (h.rings.pending d).trans ?_
    simp only [hcleared _ _ _ _ (show Stage.posted ≠ .cleared by exact nofun)]
  · intro d
    refine (h.rings.unseen d).trans ?_
    simp only [hcleared _ _ _ _ (show Stage.completed ≠ .cleared by exact nofun)]
  · intro c
    refine (h.rings.disk c).trans ?_
    constructor
    · rintro ⟨d, q, g, hd, hg⟩
      exact ⟨d, q, g, (hcleared d q c g hg).mpr hd, hg⟩
    · rintro ⟨d, q, g, hd, hg⟩
      exact ⟨d, q, g, (hcleared d q c g hg).mp hd, hg⟩

/-! ### One step -/

lemma Inv.stay (h : Inv s T) : ∃ T', run Book.step T [] = some T' ∧ Inv s T' := ⟨T, rfl, h⟩

lemma Inv.go (h : Inv s T) {sector : B → ℕ} {es : List (Event P B)} (hs : go s p sector = some (s', es)) :
    ∃ T', run Book.step T es = some T' ∧ Inv s' T' := by
  unfold Virtio.go at hs
  cases hp : s.code p with
  | idle =>
    simp only [hp] at hs
    cases hs
  | rw b write =>
    simp only [hp] at hs
    obtain ⟨u, hu, heq⟩ := map_eq_some_iff.mp hs
    cases heq
    exact (h.acquire hu rfl (by rw [hp]; rfl) (by rw [hp]; rfl) (by rw [hp]; rfl)).stay
  | alloc b write =>
    simp only [hp] at hs
    rcases alloc3Desc_spec s with ⟨d, w, heq, hd⟩ | ⟨idx, heq, hinj, hfree⟩
    · rw [heq] at hs
      cases hs
      have hfail := h.fail hd w
      exact (hfail.recode (lock_release hfail.driver (by simp only [hp]; rfl) rfl)
        (fun c hc => h.driver.held p c (by rwa [hp])) (by simp only [hp]; rfl) (by simp only [hp]; rfl)).stay
    · rw [heq] at hs
      cases hs
      exact (h.take hp hinj hfree).stay
  | dozing b write =>
    simp only [hp] at hs
    obtain ⟨u, hu, heq⟩ := map_eq_some_iff.mp hs
    cases heq
    exact (h.resume hu rfl (by rw [hp]; rfl) (by rw [hp]; rfl) (by rw [hp]; rfl)).stay
  | post b write idx =>
    simp only [hp] at hs
    cases hs
    refine ⟨update T (idx 0) (some (p, b, .posted)), ?_, h.publish hp sector⟩
    simp [run, Book.step, h.unbooked hp]
  | wait b idx =>
    simp only [hp] at hs
    cases hb : s.disk b with
    | true =>
      rw [if_pos hb] at hs
      cases hs
      exact (h.recode (lock_release h.driver (by rw [hp]; rfl) rfl)
        (fun c hc => h.driver.held p c (by rwa [hp])) (by rw [hp]; rfl) (by rw [hp]; rfl)).stay
    | false =>
      obtain ⟨hT, u, hu, hinv⟩ := h.finish hp hb
      rw [if_neg (by simp [hb]), hu] at hs
      cases hs
      refine ⟨_, ?_, hinv⟩
      simp [run, Book.step, hT]
  | asleep b idx =>
    simp only [hp] at hs
    obtain ⟨u, hu, heq⟩ := map_eq_some_iff.mp hs
    cases heq
    exact (h.resume hu rfl (by rw [hp]; rfl) (by rw [hp]; rfl) (by rw [hp]; rfl)).stay
  | intr =>
    simp only [hp] at hs
    obtain ⟨u, hu, heq⟩ := map_eq_some_iff.mp hs
    cases heq
    exact (h.acquire hu rfl (by rw [hp]; rfl) (by rw [hp]; rfl) (by rw [hp]; rfl)).stay
  | iloop =>
    simp only [hp] at hs
    by_cases heq : s.seenIdx = s.usedIdx
    · rw [if_pos heq] at hs
      cases hs
      exact (h.recode (lock_release h.driver (by rw [hp]; rfl) rfl) (fun _ hc => by cases hc) (by rw [hp]; rfl) (by rw [hp]; rfl)).stay
    · obtain ⟨q, b, hT, hstatus, hinfo, hinv⟩ := h.clear heq
      rw [if_neg heq, if_neg (not_not.mpr hstatus), hinfo] at hs
      cases hs
      refine ⟨_, ?_, hinv _⟩
      simp [run, Book.step, hT]

lemma Inv.fire (h : Inv s T) {sector : B → ℕ} {a : Act P B} {es : List (Event P B)} (ha : Held s a)
    (hs : fire sector s a = some (s', es)) : ∃ T', run Book.step T es = some T' ∧ Inv s' T' := by
  unfold Virtio.fire at hs
  rw [if_neg (by simp [h.panic])] at hs
  cases a with
  | hold p b =>
    dsimp only at hs
    split at hs
    case isTrue hfree =>
      cases hs
      refine Inv.stay ⟨h.panic, ⟨h.driver.lock, fun q c hq => ?_, h.driver.distinct, h.driver.free⟩,
        ⟨h.requests.1, h.requests.2, h.requests.3⟩, ⟨h.rings.1, h.rings.2, h.rings.3, h.rings.4, h.rings.5, h.rings.6⟩⟩
      have hc := h.driver.held q c hq
      have hne : c ≠ b := by
        rintro rfl
        rw [hfree] at hc
        cases hc
      exact (update_of_ne hne ..).trans hc
    case isFalse => cases hs
  | release p b =>
    cases hp : s.code p with
    | idle =>
      simp only [hp] at hs
      split at hs
      case isTrue hheld =>
        cases hs
        refine Inv.stay ⟨h.panic, ⟨h.driver.lock, fun q c hq => ?_, h.driver.distinct, h.driver.free⟩,
          ⟨h.requests.1, h.requests.2, h.requests.3⟩, ⟨h.rings.1, h.rings.2, h.rings.3, h.rings.4, h.rings.5, h.rings.6⟩⟩
        have hc := h.driver.held q c hq
        have hne : c ≠ b := by
          rintro rfl
          have hqp : p = q := some.inj (hheld.symm.trans hc)
          subst hqp
          simp only [hp] at hq
          cases hq
        exact (update_of_ne hne ..).trans hc
      case isFalse => cases hs
    | _ =>
      simp only [hp] at hs
      cases hs
  | rw p b write =>
    cases hp : s.code p with
    | idle =>
      simp only [hp] at hs
      cases hs
      refine (h.recode (lock_keep h.driver (by rw [hp]; rfl)) (fun c hc => ?_) (by rw [hp]; rfl) (by rw [hp]; rfl)).stay
      cases hc
      exact ha
    | _ =>
      simp only [hp] at hs
      cases hs
  | intr p =>
    cases hp : s.code p with
    | idle =>
      simp only [hp] at hs
      cases hs
      exact (h.recode (lock_keep h.driver (by rw [hp]; rfl)) (fun _ hc => by cases hc) (by rw [hp]; rfl) (by rw [hp]; rfl)).stay
    | _ =>
      simp only [hp] at hs
      cases hs
  | go p => exact h.go hs
  | fetch =>
    dsimp only at hs
    split at hs
    case isTrue => cases hs
    case isFalse hne =>
      cases hs
      exact (h.fetch hne).stay
  | answer d =>
    dsimp only at hs
    split at hs
    case isTrue hd =>
      cases hs
      exact (h.answer hd).stay
    case isFalse => cases hs
  | publish d =>
    dsimp only at hs
    split at hs
    case isTrue hd =>
      cases hs
      obtain ⟨q, b, hT, hinv⟩ := h.complete hd
      refine ⟨_, ?_, hinv⟩
      simp [run, Book.step, hT]
    case isFalse => cases hs

end

/-! ### Every run -/

section

variable {P B : Type} [DecidableEq P] [DecidableEq B]

/-- What is known of the driver's state when the book stands at `T`. -/
structure Safe (s : State P B) (T : Book P B) : Prop where
  panic : s.panic = none
  /-- The descriptors of the calls are distinct, also between two calls. -/
  distinct : ∀ p q i j k l, (s.code p).idx = some i → (s.code q).idx = some j → i k = j l → p = q ∧ k = l
  free : ∀ d, s.free d = true ↔ ¬ ∃ p i k, (s.code p).idx = some i ∧ i k = d
  /-- The book has exactly the requests of the calls that wait. -/
  booked : ∀ d p b, (∃ g, T d = some (p, b, g)) ↔ ∃ i, (s.code p).request = some (b, i) ∧ i 0 = d
  /-- `b->disk` is set exactly while a request for `b` is not cleared. -/
  disk : ∀ b, s.disk b = true ↔ ∃ d p g, T d = some (p, b, g) ∧ g ≠ .cleared
  /-- The completions that are not cleared are those that the handler will find, each once. -/
  unseen : s.unseen.Nodup ∧ ∀ d, d ∈ s.unseen ↔ ∃ p b, T d = some (p, b, .completed)

omit [DecidableEq P] [DecidableEq B] in
lemma Inv.safe {s : State P B} {T : Book P B} (h : Inv s T) : Safe s T where
  panic := h.panic
  distinct := h.driver.distinct
  free d := by rw [← h.driver.free d, Bool.not_eq_false]
  booked d p b := by
    constructor
    · rintro ⟨g, hT⟩
      exact h.requests.request d p b g hT
    · rintro ⟨i, hi, rfl⟩
      exact h.requests.booked p b i hi
  disk := h.rings.disk
  unseen := ⟨h.rings.nodup_unseen, h.rings.unseen⟩

/-- **Every request is completed, cleared and answered in this order, by its own descriptors**, as long as
the callers hold their buffers. -/
theorem driver_safe (sector : B → ℕ) {as : List (Act P B)} {s : State P B}
    (h : run (guarded Held (step sector)) (init P B) as = some s) :
    ∃ T, run Book.step (fun _ => none) (trace (guarded Held (step sector)) (obs sector) (init P B) as) = some T ∧
      Safe s T := by
  have hsim : ∀ (s : State P B) (T : Book P B) (a : Act P B) (s' : State P B), Inv s T →
      guarded Held (step sector) s a = some s' → ∃ T', run Book.step T (obs sector s a) = some T' ∧ Inv s' T' := by
    intro s T a s' hinv hs
    obtain ⟨ha, hs⟩ := guarded_eq_some.mp hs
    obtain ⟨⟨u, es⟩, hu, rfl⟩ := map_eq_some_iff.mp hs
    have hobs : obs sector s a = es := by rw [obs, hu]; rfl
    rw [hobs]
    exact hinv.fire ha hu
  obtain ⟨T, hT, hinv⟩ := run_simulation hsim h inv_init
  exact ⟨T, hT, hinv.safe⟩

/-- A read of a buffer by a process that holds it. -/
def heldRead : List (Act (Fin 2) (Fin 1)) :=
  [.hold 0 0, .rw 0 0 false, .go 0, .go 0, .go 0, .go 0, .fetch, .answer 0, .publish 0, .intr 1, .go 1, .go 1, .go 1,
    .go 0, .go 0]

theorem driver_safe_heldRead : ∃ s, run (guarded Held (step fun _ => 0)) (init (Fin 2) (Fin 1)) heldRead = some s ∧
      ∃ T, run Book.step (fun _ => none)
        (trace (guarded Held (step fun _ => 0)) (obs fun _ => 0) (init (Fin 2) (Fin 1)) heldRead) = some T ∧ Safe s T := by
  obtain ⟨s, hs⟩ := isSome_iff_exists.mp
    (show (run (guarded Held (step fun _ => 0)) (init (Fin 2) (Fin 1)) heldRead).isSome by decide)
  exact ⟨s, hs, driver_safe _ hs⟩

/-- Two processes read one buffer, which neither holds; the device completes the request of the first. -/
def sharedRead : List (Act (Fin 3) (Fin 1)) :=
  [.rw 0 0 false, .go 0, .go 0, .go 0, .go 0, .rw 1 0 false, .go 1, .go 1, .go 1, .go 1,
    .fetch, .answer 0, .publish 0, .intr 2, .go 2, .go 2, .go 2, .go 1, .go 1]

/-- The second call returns, though its request (first descriptor 3) was not completed. -/
theorem sharedRead_returns : trace (step fun _ => 0) (obs fun _ => 0) (init (Fin 3) (Fin 1)) sharedRead =
      [.posted 0 0 0, .posted 1 0 3, .completed 0, .cleared 0 0, .returned 1 0 3] := by
  decide

end

end Xv6.Virtio
