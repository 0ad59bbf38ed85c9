import Xv6.Bio.Check
import Xv6.Bio.Core

/-!
# A process inside `commit`

`Holds` ties what the code of `commit` relies on (`Known`) to the cache.
-/

namespace Xv6.Bio

open Lib Log Function List Option

variable {P : Type}

/-- The block that a process has asked for and not got yet. -/
def Micro.pending : Micro → List ℕ
  | .idle => []
  | .acq _ b => [b]
  | .fill _ b => [b]
  | .dec _ => []

namespace Cache

/-- Another process holds block `y` modified. -/
def Taken (c : Cache P) (p : P) (y : ℕ) : Prop :=
  ∃ q i, q ≠ p ∧ i ∈ c.stack q ∧ (c.buf i).dirty = true ∧ (c.buf i).blockno = y

structure Holds (L : LogArea) (c : Cache P) (f : Disk) (p : P) (a : Known) : Prop where
  /-- The buffers of `commit` lie above those that the process held when it called `end_op`. -/
  stack : ∃ top base, c.stack p = top ++ base ∧
    (c.micro p).pending ++ top.map (fun i => (c.buf i).blockno) = a.stack ∧
    ∀ i ∈ top, (c.buf i).dirty = true → (c.buf i).blockno ∈ a.dirty
  written : ∀ b ∈ a.written, c.disk b = f b ∧ ∃ i ∈ c.stack p, (c.buf i).blockno = b
  copies : ∀ x y, (x, y) ∈ a.copies → L.Mem x ∧ ¬ L.Mem y ∧ (f x = f y ∨ c.Taken p y)

variable {k x y : ℕ} {i : Fin NBUF} {v : Block} {q : P}

lemma holds_start {pend : List ℕ} (hp : c.micro p = .idle) : Holds L c f p (between [] pend) where
  stack := ⟨[], c.stack p, rfl, by simp [hp, Micro.pending, between], by simp⟩
  written := by simp [between]
  copies := by simp [between]

namespace Holds

variable {L : LogArea} {c c' : Cache P} {f f' : Disk} {p : P} {a : Known}

lemma frame (h : Holds L c f p a) (hstack : c'.stack p = c.stack p)
    (hmicro : (c'.micro p).pending = (c.micro p).pending)
    (hbuf : ∀ i ∈ c.stack p, (c'.buf i).blockno = (c.buf i).blockno ∧ (c'.buf i).dirty = (c.buf i).dirty)
    (hwritten : ∀ i ∈ c.stack p, c'.disk (c.buf i).blockno = c.disk (c.buf i).blockno ∧
      f' (c.buf i).blockno = f (c.buf i).blockno)
    (hcopies : ∀ x y, L.Mem x → ¬ L.Mem y → f x = f y ∨ c.Taken p y → f' x = f' y ∨ c'.Taken p y) :
    Holds L c' f' p a where
  stack := by
    obtain ⟨top, base, hs, ha, hd⟩ := h.stack
    have hmem : ∀ i ∈ top, i ∈ c.stack p := fun i hi => hs ▸ mem_append_left _ hi
    refine ⟨top, base, hstack.trans hs, ?_, fun i hi hdi => ?_⟩
    · rw [hmicro, ← ha, map_congr_left fun i hi => (hbuf i (hmem i hi)).1]
    · rw [(hbuf i (hmem i hi)).2] at hdi
      rw [(hbuf i (hmem i hi)).1]
      exact hd i hi hdi
  written b hb := by
    obtain ⟨hd, i, hi, rfl⟩ := h.written b hb
    obtain ⟨h1, h2⟩ := hwritten i hi
    exact ⟨by rw [h1, h2, hd], i, hstack ▸ hi, (hbuf i hi).1⟩
  copies x y hxy := by
    obtain ⟨hx, hy, h'⟩ := h.copies x y hxy
    exact ⟨hx, hy, hcopies x y hx hy h'⟩

lemma pos (h : Holds L c f p a) (hp : c.micro p = .idle) (hk : a.stack[k]? = some x) :
    ∃ i, (c.stack p)[k]? = some i ∧ (c.buf i).blockno = x ∧ ((c.buf i).dirty = true → x ∈ a.dirty) := by
  obtain ⟨top, base, hs, ha, hd⟩ := h.stack
  rw [hp, Micro.pending, nil_append] at ha
  rw [← ha, getElem?_map, map_eq_some_iff] at hk
  obtain ⟨i, hi, rfl⟩ := hk
  refine ⟨i, ?_, rfl, hd i (List.mem_of_getElem? hi)⟩
  obtain ⟨hlen, -⟩ := List.getElem?_eq_some_iff.mp hi
  rw [hs, List.getElem?_append_left hlen, hi]

variable [Fintype P] {pinned : List ℕ}

lemma not_taken (hc : Core c f pinned) (hi : i ∈ c.stack p) : ¬ c.Taken p (c.buf i).blockno := by
  rintro ⟨q, j, hq, hj, -, hb⟩
  have hji := hc.uniq j i (hc.held q j hj).2 (hc.held p i hi).2 hb
  exact hq (hc.holder hj (hji ▸ hi))

lemma taken_of_ne (hc : Core c f pinned) (c' : Cache P) (hi : i ∈ c.stack p) (hstack : c'.stack = c.stack)
    (hbuf : ∀ j, j ≠ i → c'.buf j = c.buf j) (h : c.Taken p y) : c'.Taken p y := by
  obtain ⟨q, j, hq, hj, hd, hb⟩ := h
  have hji : j ≠ i := by
    rintro rfl
    exact hq (hc.holder hj hi)
  exact ⟨q, j, hq, hstack ▸ hj, by rw [hbuf j hji]; exact hd, by rw [hbuf j hji]; exact hb⟩

section

variable (h : Holds L c f p a) (hc : Core c f pinned) (hi : (c.stack p)[k]? = some i)

include h hc hi

lemma store (hx : ∀ x y, (x, y) ∈ a.copies → (x = (c.buf i).blockno ∨ y = (c.buf i).blockno) → v = f (c.buf i).blockno)
    :
    Holds L (c.store i v) (update f (c.buf i).blockno v) p (a.touch (c.buf i).blockno) where
  stack := by
    obtain ⟨top, base, hs, ha, hd⟩ := h.stack
    have hb : ∀ j, ((c.store i v).buf j).blockno = (c.buf j).blockno := by
      intro j
      simp only [Cache.store, setBuf_buf]
      split
      · rename_i hj
        rw [hj]
      · rfl
    refine ⟨top, base, hs, ?_, fun j hj hdj => ?_⟩
    · simp only [hb]
      exact ha
    · rw [hb, Known.touch, mem_cons]
      by_cases hji : j = i
      · exact .inl (hji ▸ rfl)
      · exact .inr (hd j hj (by simpa [Cache.store, hji] using hdj))
  written b hb := by
    rw [Known.touch, mem_filter, decide_eq_true_eq] at hb
    obtain ⟨hd, j, hj, hbj⟩ := h.written b hb.1
    refine ⟨by rw [update_of_ne hb.2]; exact hd, j, hj, ?_⟩
    have hji : j ≠ i := by
      rintro rfl
      exact hb.2 hbj.symm
    simpa [Cache.store, hji] using hbj
  copies x y hxy := by
    obtain ⟨hx', hy, h'⟩ := h.copies x y hxy
    refine ⟨hx', hy, ?_⟩
    by_cases hold : x = (c.buf i).blockno ∨ y = (c.buf i).blockno
    · rw [hx x y hxy hold, update_eq_self]
      refine h'.imp id fun ht => taken_of_ne hc (c.store i _) (List.mem_of_getElem? hi) rfl (fun j hj => ?_) ht
      simp [Cache.store, hj]
    · rw [not_or] at hold
      rw [update_of_ne hold.1, update_of_ne hold.2]
      refine h'.imp id fun ht => taken_of_ne hc (c.store i _) (List.mem_of_getElem? hi) rfl (fun j hj => ?_) ht
      simp [Cache.store, hj]

lemma bwrite :
    Holds L (c.bwrite i) f p { a with dirty := a.dirty.filter (· ≠ (c.buf i).blockno),
                                      written := (c.buf i).blockno :: a.written } := by
  have hmem : i ∈ c.stack p := List.mem_of_getElem? hi
  obtain ⟨hvalid, hdev⟩ := hc.held p i hmem
  have hb : ∀ j, ((c.bwrite i).buf j).blockno = (c.buf j).blockno := by
    intro j
    simp only [Cache.bwrite, setBuf_buf]
    split
    · rename_i hj
      rw [hj]
    · rfl
  constructor
  case stack =>
    obtain ⟨top, base, hs, ha, hd⟩ := h.stack
    refine ⟨top, base, hs, ?_, fun j hj hdj => ?_⟩
    · simp only [hb]
      exact ha
    · have hji : j ≠ i := by
        rintro rfl
        simp [Cache.bwrite] at hdj
      have hjs : j ∈ c.stack p := hs ▸ mem_append_left _ hj
      have hne : (c.buf j).blockno ≠ (c.buf i).blockno :=
        fun he => hji (hc.uniq j i (hc.held p j hjs).2 hdev he)
      have hdj' : (c.buf j).dirty = true := by simpa [Cache.bwrite, hji] using hdj
      rw [hb, mem_filter]
      exact ⟨hd j hj hdj', by simpa using hne⟩
  case written =>
    intro b hbw
    by_cases hbi : b = (c.buf i).blockno
    · refine ⟨?_, i, hmem, by rw [hb, hbi]⟩
      simp [Cache.bwrite, hbi, hc.data i hdev hvalid]
    · obtain ⟨hd, j, hj, hbj⟩ := h.written b ((mem_cons.mp hbw).resolve_left hbi)
      refine ⟨?_, j, hj, by rw [hb, hbj]⟩
      simpa [Cache.bwrite, update_of_ne hbi] using hd
  case copies =>
    intro x y hxy
    obtain ⟨hx, hy, h'⟩ := h.copies x y hxy
    refine ⟨hx, hy, h'.imp id fun ht => taken_of_ne hc (c.bwrite i) hmem rfl (fun j hj => ?_) ht⟩
    simp [Cache.bwrite, hj]

end

omit [Fintype P] in
lemma bunpin (h : Holds L c f p a) (pend : List ℕ) : Holds L (c.bunpin i) f p { a with pend := pend } := by
  have hb : ∀ j, ((c.bunpin i).buf j).blockno = (c.buf j).blockno ∧ ((c.bunpin i).buf j).dirty = (c.buf j).dirty := by
    intro j
    simp only [Cache.bunpin, setBuf_buf]
    split
    · rename_i hj
      rw [hj]
      exact ⟨rfl, rfl⟩
    · exact ⟨rfl, rfl⟩
  have h' : Holds L c f p { a with pend := pend } := ⟨h.stack, h.written, h.copies⟩
  refine h'.frame rfl rfl (fun j _ => hb j) (fun j _ => ⟨rfl, rfl⟩) fun x y _ _ hxy => ?_
  refine hxy.imp id ?_
  rintro ⟨q, j, hq, hj, hd, hbj⟩
  exact ⟨q, j, hq, hj, (hb j).2.trans hd, (hb j).1.trans hbj⟩

variable [DecidableEq P]

omit [Fintype P] in
lemma brelse (h : Holds L c f p a) (hp : c.micro p = .idle) (hk : a.stack[k]? = some x)
    (hi : (c.stack p)[k]? = some i) :
    Holds L (c.brelse p k i) f p { a with stack := a.stack.eraseIdx k, written := a.written.filter (· ≠ x) } := by
  obtain ⟨top, base, hs, ha, hd⟩ := h.stack
  rw [hp, Micro.pending, nil_append] at ha
  have hlen : k < top.length := by
    obtain ⟨hlen, -⟩ := List.getElem?_eq_some_iff.mp hk
    simpa [← ha] using hlen
  have hx : (c.buf i).blockno = x := by
    rw [hs, List.getElem?_append_left hlen] at hi
    rw [← ha, getElem?_map, hi] at hk
    simpa using hk
  have hb : ∀ j, ((c.brelse p k i).buf j).blockno = (c.buf j).blockno ∧
      ((c.brelse p k i).buf j).dirty = (c.buf j).dirty := by
    intro j
    simp only [Cache.brelse, setMicro_buf, setStack_buf, setBuf_buf]
    split
    · rename_i hj
      rw [hj]
      exact ⟨rfl, rfl⟩
    · exact ⟨rfl, rfl⟩
  have hstack : (c.brelse p k i).stack p = (c.stack p).eraseIdx k := by simp [Cache.brelse]
  have hmem : ∀ j ∈ c.stack p, j ≠ i → j ∈ (c.stack p).eraseIdx k := by
    intro j hj hji
    obtain ⟨n, hn, rfl⟩ := mem_iff_getElem.mp hj
    refine mem_eraseIdx_iff_getElem.mpr ⟨n, hn, ?_, rfl⟩
    rintro rfl
    rw [getElem?_eq_getElem hn, some.injEq] at hi
    exact hji hi
  constructor
  case stack =>
    refine ⟨top.eraseIdx k, base, ?_, ?_, fun j hj hdj => ?_⟩
    · rw [hstack, hs, eraseIdx_append_of_lt_length hlen]
    · simp only [hb]
      rw [← eraseIdx_map, ha]
      simp [Cache.brelse, Micro.pending]
    · rw [(hb j).2] at hdj
      rw [(hb j).1]
      exact hd j (mem_of_mem_eraseIdx hj) hdj
  case written =>
    intro b hbw
    rw [mem_filter, decide_eq_true_eq] at hbw
    obtain ⟨hdisk, j, hj, hbj⟩ := h.written b hbw.1
    refine ⟨hdisk, j, ?_, by rw [(hb j).1, hbj]⟩
    rw [hstack]
    refine hmem j hj ?_
    rintro rfl
    exact hbw.2 (hbj.symm.trans hx)
  case copies =>
    intro x' y hxy
    obtain ⟨hx', hy, h'⟩ := h.copies x' y hxy
    refine ⟨hx', hy, h'.imp id ?_⟩
    rintro ⟨q, j, hq, hj, hdj, hbj⟩
    refine ⟨q, j, hq, ?_, (hb j).2.trans hdj, (hb j).1.trans hbj⟩
    simpa [Cache.brelse, hq] using hj

lemma bread_held (hc : Core c f pinned) (hi : i ∈ c.stack q) (dev b : ℕ) :
    ((c.bread p dev b).buf i).blockno = (c.buf i).blockno ∧ ((c.bread p dev b).buf i).dirty = (c.buf i).dirty := by
  unfold Cache.bread
  split
  · rename_i j x hg
    simp only [setMicro_buf, setBuf_buf]
    rcases Core.bget_eq_some hg with ⟨-, -, rfl⟩ | ⟨-, h0, rfl⟩
    · split
      · rename_i hij
        rw [hij]
        exact ⟨rfl, rfl⟩
      · exact ⟨rfl, rfl⟩
    · have hij : i ≠ j := by
        rintro rfl
        exact ((hc.free h0).1 q).1 hi
      simp [hij]
  · exact ⟨rfl, rfl⟩

omit [Fintype P] in
lemma bread_stack (c : Cache P) (p : P) (dev b : ℕ) : (c.bread p dev b).stack = c.stack := by
  unfold Cache.bread
  split <;> rfl

omit [Fintype P] in
lemma bread_disk (c : Cache P) (p : P) (dev b : ℕ) : (c.bread p dev b).disk = c.disk := by
  unfold Cache.bread
  split <;> rfl

lemma taken_bread (hc : Core c f pinned) {dev b : ℕ} (h : c.Taken p y) : (c.bread q dev b).Taken p y := by
  obtain ⟨r, i, hr, hi, hd, hb⟩ := h
  have hheld := bread_held (p := q) hc hi dev b
  exact ⟨r, i, hr, by rw [bread_stack]; exact hi, hheld.2.trans hd, hheld.1.trans hb⟩

lemma bread (h : Holds L c f p a) (hc : Core c f pinned) (hp : c.micro p = .idle) (b : ℕ)
    (hok : (c.bread p ROOTDEV b).noBuffers = false) :
    Holds L (c.bread p ROOTDEV b) f p { a with stack := b :: a.stack } := by
  have hpend : ((c.bread p ROOTDEV b).micro p).pending = [b] := by
    unfold Cache.bread at hok ⊢
    split
    · simp [Micro.pending]
    · rename_i hn
      simp [hn] at hok
  have hheld := fun i hi => bread_held (p := p) (q := p) hc (i := i) hi ROOTDEV b
  constructor
  case stack =>
    obtain ⟨top, base, hs, ha, hd⟩ := h.stack
    have hmem : ∀ i ∈ top, i ∈ c.stack p := fun i hi => hs ▸ mem_append_left _ hi
    refine ⟨top, base, by rw [bread_stack]; exact hs, ?_, fun i hi hdi => ?_⟩
    · rw [hpend, map_congr_left fun i hi => (hheld i (hmem i hi)).1, ← ha, hp]
      rfl
    · rw [(hheld i (hmem i hi)).2] at hdi
      rw [(hheld i (hmem i hi)).1]
      exact hd i hi hdi
  case written =>
    intro b' hb'
    obtain ⟨hdisk, i, hi, hbi⟩ := h.written b' hb'
    exact ⟨by rw [bread_disk]; exact hdisk, i, by rw [bread_stack]; exact hi, (hheld i hi).1.trans hbi⟩
  case copies =>
    intro x y hxy
    obtain ⟨hx, hy, h'⟩ := h.copies x y hxy
    exact ⟨hx, hy, h'.imp id (taken_bread hc)⟩

omit [Fintype P] in
lemma advance_frame (hadv : c.advance q = some c') :
    (∀ j, (c'.buf j).blockno = (c.buf j).blockno ∧ (c'.buf j).dirty = (c.buf j).dirty) ∧
      c'.disk = c.disk ∧ (∀ r j, j ∈ c.stack r → j ∈ c'.stack r) ∧
      ∀ r, r ≠ q → c'.stack r = c.stack r ∧ c'.micro r = c.micro r := by
  unfold Cache.advance at hadv
  split at hadv
  · cases hadv
  · split at hadv <;> cases hadv
    refine ⟨fun j => ?_, rfl, fun r j hj => hj, fun r hr => ⟨rfl, by simp [hr]⟩⟩
    simp only [setMicro_buf, setBuf_buf]
    split
    · rename_i hj
      rw [hj]
      exact ⟨rfl, rfl⟩
    · exact ⟨rfl, rfl⟩
  · cases hadv
    refine ⟨fun j => ?_, rfl, fun r j hj => ?_, fun r hr => ⟨by simp [hr], by simp [hr]⟩⟩
    · simp only [setMicro_buf, setStack_buf, setBuf_buf]
      split
      · rename_i hj
        rw [hj]
        unfold filled
        split <;> exact ⟨rfl, rfl⟩
      · exact ⟨rfl, rfl⟩
    · simp only [setMicro_stack, setStack_stack, setBuf_stack]
      split
      · rename_i hr
        exact mem_cons_of_mem _ (hr ▸ hj)
      · exact hj
  · cases hadv
    refine ⟨fun j => ?_, rfl, fun r j hj => hj, fun r hr => ⟨rfl, by simp [hr]⟩⟩
    simp only [setMicro_buf, setBuf_buf]
    split
    · rename_i hj
      rw [hj]
      exact ⟨rfl, rfl⟩
    · exact ⟨rfl, rfl⟩

omit [Fintype P] in
lemma taken_advance (hadv : c.advance q = some c') (h : c.Taken p y) : c'.Taken p y := by
  obtain ⟨r, i, hr, hi, hd, hb⟩ := h
  obtain ⟨hbuf, -, hstack, -⟩ := advance_frame hadv
  exact ⟨r, i, hr, hstack r i hi, (hbuf i).2.trans hd, (hbuf i).1.trans hb⟩

section

variable (h : Holds L c f p a)

include h

omit [Fintype P] in
lemma advance_other (hq : p ≠ q) (hadv : c.advance q = some c') : Holds L c' f p a := by
  obtain ⟨hbuf, hdisk, -, hrest⟩ := advance_frame hadv
  obtain ⟨hs, hm⟩ := hrest p hq
  refine h.frame hs (by rw [hm]) (fun i _ => hbuf i) (fun i _ => ⟨by rw [hdisk], rfl⟩) ?_
  exact fun x y _ _ hxy => hxy.imp id (taken_advance hadv)

lemma advance (hc : Core c f pinned) (hadv : c.advance p = some c') : Holds L c' f p a := by
  obtain ⟨hbuf, hdisk, hmono, -⟩ := advance_frame hadv
  obtain ⟨top, base, hs, ha, hd⟩ := h.stack
  constructor
  case written =>
    intro b hb
    obtain ⟨hd, i, hi, hbi⟩ := h.written b hb
    exact ⟨by rw [hdisk]; exact hd, i, hmono p i hi, (hbuf i).1.trans hbi⟩
  case copies =>
    intro x y hxy
    obtain ⟨hx, hy, h'⟩ := h.copies x y hxy
    exact ⟨hx, hy, h'.imp id (taken_advance hadv)⟩
  case stack =>
    have hmap : ∀ l : List (Fin NBUF), l.map (fun i => (c'.buf i).blockno) =
        l.map fun i => (c.buf i).blockno := fun l => map_congr_left fun i _ => (hbuf i).1
    have hdirty : ∀ i ∈ top, (c'.buf i).dirty = true → (c'.buf i).blockno ∈ a.dirty := by
      intro i hi hdi
      rw [(hbuf i).1]
      exact hd i hi ((hbuf i).2.symm.trans hdi)
    unfold Cache.advance at hadv
    split at hadv
    · cases hadv
    · rename_i i b hp
      split at hadv <;> cases hadv
      refine ⟨top, base, hs, ?_, hdirty⟩
      rw [hmap, ← ha, hp]
      simp [Micro.pending]
    · -- the buffer that arrives is not modified: nobody held it
      rename_i i b hp
      cases hadv
      refine ⟨i :: top, base, by simp [hs], ?_, fun j hj hdj => ?_⟩
      · rw [hmap, ← ha, hp]
        simp [Micro.pending, (hc.want p i b (.inr hp)).2]
      · rcases mem_cons.mp hj with rfl | hj
        · rw [(hbuf j).2] at hdj
          obtain ⟨q, hq⟩ := hc.dirty j hdj
          have h1 := (hc.lock j q).mpr (.inl hq)
          have h2 := (hc.lock j p).mpr (.inr ⟨b, hp⟩)
          rw [h1, some.injEq] at h2
          exact absurd (h2 ▸ hq) (hc.fresh p j b hp)
        · exact hdirty j hj hdj
    · rename_i i hp
      cases hadv
      refine ⟨top, base, hs, ?_, hdirty⟩
      rw [hmap, ← ha, hp]
      simp [Micro.pending]

lemma bread_other (hc : Core c f pinned) (hq : p ≠ q) (dev b : ℕ) :
    Holds L (c.bread q dev b) f p a := by
  refine h.frame (by rw [bread_stack]) ?_ (fun i hi => bread_held hc hi dev b)
    (fun i _ => ⟨by rw [bread_disk], rfl⟩) fun x y _ _ hxy => hxy.imp id (taken_bread hc)
  unfold Cache.bread
  split
  · simp [hq]
  · rfl

omit [DecidableEq P] in
lemma store_other (hc : Core c f pinned) (hq : p ≠ q) (hi : i ∈ c.stack q) (hout : ¬ L.Mem (c.buf i).blockno)
    (v : Block) :
    Holds L (c.store i v) (update f (c.buf i).blockno v) p a := by
  have hne : ∀ j ∈ c.stack p, j ≠ i := by
    rintro j hj rfl
    exact hq (hc.holder hj hi)
  refine h.frame rfl rfl (fun j hj => ?_) (fun j hj => ⟨rfl, ?_⟩) fun x y hx hy hxy => ?_
  · simp [Cache.store, hne j hj]
  · refine update_of_ne (fun he => hne j hj ?_) _ _
    exact hc.uniq j i (hc.held p j hj).2 (hc.held q i hi).2 he
  · by_cases hyi : y = (c.buf i).blockno
    · exact .inr ⟨q, i, hq.symm, hi, by simp [Cache.store], by simp [Cache.store, hyi]⟩
    · have hxi : x ≠ (c.buf i).blockno := fun he => hout (he ▸ hx)
      rw [update_of_ne hxi, update_of_ne hyi]
      refine hxy.imp id ?_
      rintro ⟨r, j, hr, hj, hd, hb⟩
      have hji : j ≠ i := by
        rintro rfl
        exact hyi hb.symm
      exact ⟨r, j, hr, hj, by simpa [Cache.store, hji] using hd, by simpa [Cache.store, hji] using hb⟩

omit [Fintype P] in
lemma brelse_other (hq : p ≠ q) (hi : (c.stack q)[k]? = some i) (hclean : (c.buf i).dirty = false) :
    Holds L (c.brelse q k i) f p a := by
  have hb : ∀ j, ((c.brelse q k i).buf j).blockno = (c.buf j).blockno ∧
      ((c.brelse q k i).buf j).dirty = (c.buf j).dirty := by
    intro j
    simp only [Cache.brelse, setMicro_buf, setStack_buf, setBuf_buf]
    split
    · rename_i hj
      rw [hj]
      exact ⟨rfl, rfl⟩
    · exact ⟨rfl, rfl⟩
  refine h.frame (by simp [Cache.brelse, hq]) (by simp [Cache.brelse, hq]) (fun j _ => hb j)
    (fun j _ => ⟨rfl, rfl⟩) fun x y _ _ hxy => hxy.imp id ?_
  rintro ⟨r, j, hr, hj, hd, hbj⟩
  refine ⟨r, j, hr, ?_, (hb j).2.trans hd, (hb j).1.trans hbj⟩
  have hji : j ≠ i := by
    rintro rfl
    simp [hclean] at hd
  by_cases hrq : r = q
  · subst hrq
    have hstack : (c.brelse r k i).stack r = (c.stack r).eraseIdx k := by simp [Cache.brelse]
    rw [hstack]
    obtain ⟨n, hn, rfl⟩ := mem_iff_getElem.mp hj
    refine mem_eraseIdx_iff_getElem.mpr ⟨n, hn, ?_, rfl⟩
    rintro rfl
    rw [getElem?_eq_getElem hn, some.injEq] at hi
    exact hji hi
  · simpa [Cache.brelse, hrq] using hj

end

end Holds

section

variable [Fintype P] [DecidableEq P] {L : LogArea} {c c' : Cache P} {f : Disk} {p : P} {a a' : Known}
  {lh : List ℕ}

omit [Fintype P] [DecidableEq P] in
lemma flat_storeEv (f : Disk) (h : L.Mem (c.buf i).blockno) :
    run flatStep f (c.storeEv L i v) = some (update f (c.buf i).blockno v) := by
  rw [storeEv, if_pos h]
  rfl

omit [Fintype P] [DecidableEq P] in
lemma flat_storeEv_outside (f : Disk) (h : ¬ L.Mem (c.buf i).blockno) :
    run flatStep f (c.storeEv L i v) = some f := by
  rw [storeEv, if_neg h]
  rfl

section

variable (h : Holds L c f p a) (hc : Core c f a.pend)

include h hc

lemma exec_memmove (hp : c.micro p = .idle) {dst src : ℕ} (hn : a.next L (.memmove dst src) = some a')
    (he : c.exec p lh (.memmove dst src) = some c') :
    ∃ f', run flatStep f (c.cmdEv L p lh (.memmove dst src)) = some f' ∧ Core c' f' a'.pend ∧
      Holds L c' f' p a' ∧ a'.pend = a.pend := by
  simp only [Known.next] at hn
  split at hn
  swap
  · cases hn
  rename_i x y hx hy
  obtain ⟨i, hi, rfl, -⟩ := h.pos hp hx
  obtain ⟨j, hj, rfl, -⟩ := h.pos hp hy
  have him := List.mem_of_getElem? hi
  have hjm := List.mem_of_getElem? hj
  have hdata : (c.buf j).data = f (c.buf j).blockno :=
    hc.data j (hc.held p j hjm).2 (hc.held p j hjm).1
  simp only [exec, hi, hj, some.injEq] at he
  subst he
  simp only [cmdEv, hi, hj, hdata]
  split at hn
  · -- `write_log`: a new copy
    rename_i hfresh
    obtain ⟨⟨hmem, hnew⟩, hout⟩ := hfresh
    cases hn
    have hne : (c.buf j).blockno ≠ (c.buf i).blockno := fun e => hout (e ▸ hmem)
    have hstore := h.store hc hi (v := f (c.buf j).blockno) fun x y hxy hor => by
      rcases hor with rfl | rfl
      · exact absurd rfl (hnew _ hxy)
      · exact absurd hmem (h.copies _ _ hxy).2.1
    refine ⟨_, flat_storeEv f hmem, hc.store him _, ⟨hstore.stack, hstore.written, ?_⟩, rfl⟩
    intro x y hxy
    rcases mem_cons.mp hxy with hxy | hxy
    · cases hxy
      exact ⟨hmem, hout, .inl (by rw [update_self, update_of_ne hne])⟩
    · exact hstore.copies x y hxy
  · split at hn
    swap
    · cases hn
    -- `install_trans`: the log block has what the home block has
    rename_i hcopy
    obtain ⟨hout, hcopy⟩ := hcopy
    cases hn
    have heq : f (c.buf j).blockno = f (c.buf i).blockno :=
      (h.copies _ _ hcopy).2.2.resolve_right (Holds.not_taken hc him)
    have hstore := h.store hc hi (v := f (c.buf i).blockno) fun x y _ _ => rfl
    rw [update_eq_self] at hstore
    rw [heq]
    exact ⟨f, flat_storeEv_outside f hout, hc.store_same him, hstore, rfl⟩

lemma exec_putHead (hp : c.micro p = .idle) (hn : a.next L .putHead = some a') (he : c.exec p lh .putHead = some c') :
    ∃ f', run flatStep f (c.cmdEv L p lh .putHead) = some f' ∧ Core c' f' a'.pend ∧
      Holds L c' f' p a' ∧ a'.pend = a.pend := by
  simp only [Known.next] at hn
  split at hn
  swap
  · cases hn
  rename_i x hx
  split at hn <;> cases hn
  rename_i hfresh
  obtain ⟨i, hi, rfl, -⟩ := h.pos hp hx
  obtain ⟨hmem, hnew⟩ := hfresh
  simp only [exec, hi, map_some, some.injEq] at he
  subst he
  simp only [cmdEv, hi]
  refine ⟨_, flat_storeEv f hmem, hc.store (List.mem_of_getElem? hi) _, h.store hc hi ?_, rfl⟩
  intro x y hxy hor
  rcases hor with rfl | rfl
  · exact absurd rfl (hnew _ hxy)
  · exact absurd hmem (h.copies _ _ hxy).2.1

/-- **Every call that `commit` makes** keeps what it relies on, and changes the flat array only by
the stores that are seen. -/
lemma exec_holds (hnodup : a.pend.Nodup) (hp : c.micro p = .idle) {cmd : Cmd} (hn : a.next L cmd = some a')
    (he : c.exec p lh cmd = some c') :
    ∃ f', run flatStep f (c.cmdEv L p lh cmd) = some f' ∧ Core c' f' a'.pend ∧
      (c'.noBuffers = false → Holds L c' f' p a') ∧ a'.pend <:+ a.pend := by
  cases cmd with
  | bread b =>
    cases hn
    cases he
    exact ⟨f, rfl, hc.bread hp b, fun hok => h.bread hc hp b hok, suffix_rfl⟩
  | memmove dst src =>
    obtain ⟨f', hf, hc', hh, hpend⟩ := exec_memmove h hc hp hn he
    exact ⟨f', hf, hc', fun _ => hh, hpend ▸ suffix_rfl⟩
  | putHead =>
    obtain ⟨f', hf, hc', hh, hpend⟩ := exec_putHead h hc hp hn he
    exact ⟨f', hf, hc', fun _ => hh, hpend ▸ suffix_rfl⟩
  | getHead => cases hn
  | bwrite k =>
    simp only [Known.next] at hn
    split at hn <;> cases hn
    rename_i x hx
    obtain ⟨i, hi, rfl, -⟩ := h.pos hp hx
    simp only [exec, hi, map_some, some.injEq] at he
    subst he
    exact ⟨f, rfl, hc.bwrite (List.mem_of_getElem? hi), fun _ => h.bwrite hc hi, suffix_rfl⟩
  | bunpin k =>
    simp only [Known.next] at hn
    split at hn
    swap
    · cases hn
    rename_i x y ys hx hpend
    split at hn <;> cases hn
    rename_i hw
    obtain ⟨rfl, hw⟩ := hw
    obtain ⟨i, hi, rfl, -⟩ := h.pos hp hx
    simp only [exec, hi, map_some, some.injEq] at he
    subst he
    rw [hpend] at hc hnodup
    have him := List.mem_of_getElem? hi
    refine ⟨f, rfl, ?_, fun _ => h.bunpin ys, ?_⟩
    · exact hc.bunpin (nodup_cons.mp hnodup).1 ⟨(hc.held p i him).2, rfl⟩ (h.written _ hw).1
    · rw [hpend]
      exact suffix_cons _ _
  | brelse k =>
    simp only [Known.next] at hn
    split at hn
    swap
    · cases hn
    rename_i x hx
    split at hn <;> cases hn
    rename_i hclean
    obtain ⟨i, hi, hb, hd⟩ := h.pos hp hx
    simp only [exec, hi, map_some, some.injEq] at he
    subst he
    have hdirty : (c.buf i).dirty = false := by
      by_contra hdi
      exact hclean (hd (by simpa using hdi))
    exact ⟨f, rfl, hc.brelse hp hi hdirty, fun _ => h.brelse hp hx hi, suffix_rfl⟩
  | clear =>
    simp only [Known.next] at hn
    split at hn <;> cases hn
    cases he
    exact ⟨f, rfl, hc, fun _ => h, suffix_rfl⟩

end

end

end Cache

end Xv6.Bio
