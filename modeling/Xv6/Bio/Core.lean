import Xv6.Bio.Cache
import Xv6.Lib.Sum

/-!
# What the cache keeps

`Core c f pinned` relates the cache to the flat array `f` that its clients see, when the blocks
`pinned` are pinned.
-/

namespace Xv6.Bio

open Lib Log Function List

variable {P : Type}

/-- The buffer is the one of block `b`. -/
def Buf.Has (x : Buf P) (b : ℕ) : Prop := x.dev = ROOTDEV ∧ x.blockno = b

/-- The buffer that a call of `bio.c` is about. -/
def Micro.buf : Micro → Option (Fin NBUF)
  | .idle => none
  | .acq i _ => some i
  | .fill i _ => some i
  | .dec i => some i

/-- The references to buffer `i` of a process with stack `l` in the call `m`. -/
def refs (l : List (Fin NBUF)) (m : Micro) (i : Fin NBUF) : ℕ :=
  l.count i + if m.buf = some i then 1 else 0

namespace Cache

@[simp] lemma setBuf_buf (c : Cache P) (i j : Fin NBUF) (x : Buf P) :
    (c.setBuf i x).buf j = if j = i then x else c.buf j := update_apply ..

section

variable [DecidableEq P]

variable (c : Cache P)

@[simp] lemma setMicro_micro (p q : P) (m : Micro) :
    (c.setMicro p m).micro q = if q = p then m else c.micro q := update_apply ..

@[simp] lemma setStack_stack (p q : P) (l : List (Fin NBUF)) :
    (c.setStack p l).stack q = if q = p then l else c.stack q := update_apply ..

lemma setStack_self (p : P) : c.setStack p (c.stack p) = c := by simp [setStack]

end

variable [Fintype P]

/-- The references that processes hold to buffer `i`. -/
def total (c : Cache P) (i : Fin NBUF) : ℕ := ∑ p, refs (c.stack p) (c.micro p) i

@[simp] lemma total_setBuf (c : Cache P) (i j : Fin NBUF) (x : Buf P) : (c.setBuf i x).total j = c.total j := rfl

lemma total_move [DecidableEq P] (c : Cache P) (p : P) (l : List (Fin NBUF)) (m : Micro) (i : Fin NBUF) :
    ((c.setStack p l).setMicro p m).total i + refs (c.stack p) (c.micro p) i = c.total i + refs l m i := by
  have h := sum_change (f := fun q => refs (((c.setStack p l).setMicro p m).stack q)
      (((c.setStack p l).setMicro p m).micro q) i)
    (g := fun q => refs (c.stack q) (c.micro q) i) p fun q hq => by simp [hq]
  simpa [total] using h

lemma total_setMicro [DecidableEq P] (c : Cache P) (p : P) (m : Micro) (i : Fin NBUF) :
    (c.setMicro p m).total i + refs (c.stack p) (c.micro p) i = c.total i + refs (c.stack p) m i := by
  have h := c.total_move p (c.stack p) m i
  rwa [setStack_self] at h

lemma refs_le_total (c : Cache P) (p : P) (i : Fin NBUF) : refs (c.stack p) (c.micro p) i ≤ c.total i :=
  Finset.single_le_sum (f := fun q => refs (c.stack q) (c.micro q) i) (fun _ _ => Nat.zero_le _)
    (Finset.mem_univ p)

structure Core (c : Cache P) (f : Disk) (pinned : List ℕ) : Prop where
  lru : c.lru.Perm (List.finRange NBUF)
  /-- No block has two buffers. -/
  uniq : ∀ i j, (c.buf i).dev = ROOTDEV → (c.buf j).dev = ROOTDEV → (c.buf i).blockno = (c.buf j).blockno → i = j
  refcnt : ∀ i, (c.buf i).refcnt = c.total i + (c.buf i).pins
  lock : ∀ i p, (c.buf i).lock = some p ↔ i ∈ c.stack p ∨ ∃ b, c.micro p = .fill i b
  nodup : ∀ p, (c.stack p).Nodup
  fresh : ∀ p i b, c.micro p = .fill i b → i ∉ c.stack p
  want : ∀ p i b, c.micro p = .acq i b ∨ c.micro p = .fill i b → (c.buf i).Has b
  back : ∀ p i, c.micro p = .dec i → (c.buf i).dev = ROOTDEV
  held : ∀ p i, i ∈ c.stack p → (c.buf i).valid = true ∧ (c.buf i).dev = ROOTDEV
  data : ∀ i, (c.buf i).dev = ROOTDEV → (c.buf i).valid = true → (c.buf i).data = f (c.buf i).blockno
  dirty : ∀ i, (c.buf i).dirty = true → ∃ p, i ∈ c.stack p
  /-- The disk is up to date, or the buffer cannot be recycled. -/
  disk : ∀ b, c.disk b = f b ∨ ∃ i, (c.buf i).Has b ∧ (c.buf i).valid = true ∧
    ((c.buf i).dirty = true ∨ 0 < (c.buf i).pins)
  pin : ∀ i, (c.buf i).pins = if (c.buf i).dev = ROOTDEV ∧ (c.buf i).blockno ∈ pinned then 1 else 0
  cached : ∀ b ∈ pinned, ∃ i, (c.buf i).Has b ∧ (c.buf i).valid = true

namespace Core

variable {c : Cache P} {f : Disk} {pinned : List ℕ} {p : P} {i : Fin NBUF} {x : Buf P} {b n : ℕ} {c' : Cache P}
  {pinned' : List ℕ} {lru : List (Fin NBUF)}

lemma refcnt_pos (h : Core c f pinned) (hr : 0 < refs (c.stack p) (c.micro p) i) : 0 < (c.buf i).refcnt := by
  have h1 := h.refcnt i
  have h2 := refs_le_total c p i
  omega

lemma holder (h : Core c f pinned) (hp : i ∈ c.stack p) (hq : i ∈ c.stack q) : p = q := by
  have h1 := (h.lock i p).mpr (.inl hp)
  have h2 := (h.lock i q).mpr (.inl hq)
  simpa [h1] using h2

/-- The buffer has the same block, lock and references; data, dirty mark and pins may differ. -/
structure Same (x y : Buf P) : Prop where
  valid : y.valid = x.valid
  dev : y.dev = x.dev
  blockno : y.blockno = x.blockno
  lock : y.lock = x.lock
  refcnt : y.refcnt + x.pins = x.refcnt + y.pins

omit [Fintype P] in
lemma Same.has (h : Same x y) : y.Has b ↔ x.Has b := by
  rw [Buf.Has, Buf.Has, h.dev, h.blockno]

section

variable (h : Core c f pinned)

include h

lemma of_same (hlru : c'.lru = c.lru) (hstack : c'.stack = c.stack) (hmicro : c'.micro = c.micro)
    (hsame : ∀ j, Same (c.buf j) (c'.buf j)) (hdata : ∀ j, (c.buf j).dev = ROOTDEV → (c.buf j).valid = true →
      (c'.buf j).data = f' (c.buf j).blockno) (hdirty : ∀ j, (c'.buf j).dirty = true → ∃ p, j ∈ c.stack p)
    (hdisk : ∀ b, c'.disk b = f' b ∨ ∃ j, (c.buf j).Has b ∧ (c.buf j).valid = true ∧
      ((c'.buf j).dirty = true ∨ 0 < (c'.buf j).pins)) (hpin : ∀ j, (c'.buf j).pins =
      if (c.buf j).dev = ROOTDEV ∧ (c.buf j).blockno ∈ pinned' then 1 else 0)
    (hcached : ∀ b ∈ pinned', ∃ j, (c.buf j).Has b ∧ (c.buf j).valid = true) :
    Core c' f' pinned' where
  lru := hlru ▸ h.lru
  uniq i j hi hj hb := by
    rw [(hsame i).dev] at hi
    rw [(hsame j).dev] at hj
    rw [(hsame i).blockno, (hsame j).blockno] at hb
    exact h.uniq i j hi hj hb
  refcnt i := by
    have h1 := (hsame i).refcnt
    have h2 := h.refcnt i
    have h3 : c'.total i = c.total i := by simp only [total, hstack, hmicro]
    omega
  lock i p := by rw [(hsame i).lock, hstack, hmicro, h.lock]
  nodup := hstack ▸ h.nodup
  fresh := hstack ▸ hmicro ▸ h.fresh
  want p i b hm := by
    rw [hmicro] at hm
    exact (hsame i).has.mpr (h.want p i b hm)
  back p i hm := by
    rw [hmicro] at hm
    exact (hsame i).dev.trans (h.back p i hm)
  held p i hi := by
    rw [hstack] at hi
    rw [(hsame i).valid, (hsame i).dev]
    exact h.held p i hi
  data i hd hv := by
    rw [(hsame i).dev] at hd
    rw [(hsame i).valid] at hv
    rw [(hsame i).blockno]
    exact hdata i hd hv
  dirty i hd := by
    rw [hstack]
    exact hdirty i hd
  disk b := by
    refine (hdisk b).imp id ?_
    rintro ⟨j, hj, hv, hdp⟩
    exact ⟨j, (hsame j).has.mpr hj, (hsame j).valid.trans hv, hdp⟩
  pin i := by
    rw [(hsame i).dev, (hsame i).blockno]
    exact hpin i
  cached b hb := by
    obtain ⟨j, hj, hv⟩ := hcached b hb
    exact ⟨j, (hsame j).has.mpr hj, (hsame j).valid.trans hv⟩

lemma setData (hdata : ∀ j, (c.buf j).dev = ROOTDEV → (c.buf j).valid = true →
      (if j = i then v else (c.buf j).data) = f' (c.buf j).blockno) (hdirty : t = true → ∃ p, i ∈ c.stack p)
    (hdisk : ∀ b, d b = f' b ∨ ∃ j, (c.buf j).Has b ∧ (c.buf j).valid = true ∧
      ((if j = i then t else (c.buf j).dirty) = true ∨ 0 < (c.buf j).pins)) :
    Core { c.setBuf i { c.buf i with data := v, dirty := t } with disk := d } f' pinned := by
  have hbuf : ∀ j, (c.setBuf i { c.buf i with data := v, dirty := t }).buf j =
      if j = i then { c.buf j with data := v, dirty := t } else c.buf j := by
    intro j
    rw [setBuf_buf]
    split
    · rename_i hj
      rw [hj]
    · rfl
  refine h.of_same rfl rfl rfl (fun j => ?_) ?_ ?_ ?_ ?_ h.cached
  all_goals simp only [hbuf]
  · split <;> exact ⟨rfl, rfl, rfl, rfl, rfl⟩
  · intro j hd hv
    rw [← hdata j hd hv]
    split <;> rfl
  · intro j
    split
    · rename_i hj
      exact hj ▸ hdirty
    · exact h.dirty j
  · intro b
    refine (hdisk b).imp id ?_
    rintro ⟨j, hj, hv, hdp⟩
    refine ⟨j, hj, hv, ?_⟩
    split <;> simpa [*] using hdp
  · intro j
    rw [← h.pin j]
    split <;> rfl

lemma store (hi : i ∈ c.stack p) (v : Block) : Core (c.store i v) (update f (c.buf i).blockno v) pinned := by
  have hheld := h.held p i hi
  refine h.setData (fun j hj hv => ?_) (fun _ => ⟨p, hi⟩) fun b => ?_
  · by_cases hji : j = i
    · subst hji
      simp
    · have hne : (c.buf j).blockno ≠ (c.buf i).blockno := fun he => hji (h.uniq j i hj hheld.2 he)
      simpa [hji, hne] using h.data j hj hv
  · by_cases hb : b = (c.buf i).blockno
    · exact .inr ⟨i, ⟨hheld.2, hb.symm⟩, hheld.1, by simp⟩
    · rw [update_of_ne hb]
      rcases h.disk b with hd | ⟨j, hj, hv, hdp⟩
      · exact .inl hd
      · refine .inr ⟨j, hj, hv, hdp.imp (fun hd => ?_) id⟩
        split
        · rfl
        · exact hd

lemma store_same (hi : i ∈ c.stack p) : Core (c.store i (f (c.buf i).blockno)) f pinned := by
  have := h.store hi (f (c.buf i).blockno)
  rwa [update_eq_self] at this

lemma bwrite (hi : i ∈ c.stack p) : Core (c.bwrite i) f pinned := by
  have hheld := h.held p i hi
  refine h.setData (fun j hj hv => ?_) (by simp) fun b => ?_
  · split
    · rename_i hji
      rw [← hji]
      exact h.data j hj hv
    · exact h.data j hj hv
  · by_cases hb : b = (c.buf i).blockno
    · subst hb
      simpa using .inl (h.data i hheld.2 hheld.1)
    · rw [update_of_ne hb]
      rcases h.disk b with hd | ⟨j, hj, hv, hdp⟩
      · exact .inl hd
      · have hji : j ≠ i := by
          rintro rfl
          exact hb hj.2.symm
        exact .inr ⟨j, hj, hv, by simpa [hji] using hdp⟩

lemma clean (hi : 0 < (c.buf i).pins) : Core (c.setBuf i { c.buf i with dirty := false }) f pinned := by
  refine h.setData (fun j hj hv => ?_) (by simp) fun b => ?_
  · split
    · rename_i hji
      rw [← hji]
      exact h.data j hj hv
    · exact h.data j hj hv
  · rcases h.disk b with hd | ⟨j, hj, hv, hdp⟩
    · exact .inl hd
    · refine .inr ⟨j, hj, hv, ?_⟩
      by_cases hji : j = i
      · exact .inr (hji ▸ hi)
      · simpa [hji] using hdp

lemma setPins (hr : r + (c.buf i).pins = (c.buf i).refcnt + n)
    (hdisk : ∀ b, c.disk b = f b ∨ ∃ j, (c.buf j).Has b ∧ (c.buf j).valid = true ∧
      ((c.buf j).dirty = true ∨ 0 < if j = i then n else (c.buf j).pins))
    (hpin : ∀ j, (if j = i then n else (c.buf j).pins) =
      if (c.buf j).dev = ROOTDEV ∧ (c.buf j).blockno ∈ pinned' then 1 else 0)
    (hcached : ∀ b ∈ pinned', ∃ j, (c.buf j).Has b ∧ (c.buf j).valid = true) :
    Core (c.setBuf i { c.buf i with refcnt := r, pins := n }) f pinned' := by
  have hbuf : ∀ j, (c.setBuf i { c.buf i with refcnt := r, pins := n }).buf j =
      if j = i then { c.buf j with refcnt := r, pins := n } else c.buf j := by
    intro j
    rw [setBuf_buf]
    split
    · rename_i hj
      rw [hj]
    · rfl
  refine h.of_same rfl rfl rfl (fun j => ?_) ?_ ?_ ?_ ?_ hcached
  all_goals simp only [hbuf]
  · split
    · rename_i hj
      subst hj
      exact ⟨rfl, rfl, rfl, rfl, hr⟩
    · exact ⟨rfl, rfl, rfl, rfl, rfl⟩
  · intro j hd hv
    rw [← h.data j hd hv]
    split <;> rfl
  · intro j hj
    refine h.dirty j ?_
    split at hj <;> exact hj
  · intro b
    refine (hdisk b).imp id ?_
    rintro ⟨j, hj, hv, hdp⟩
    refine ⟨j, hj, hv, ?_⟩
    split <;> simpa [*] using hdp
  · intro j
    rw [← hpin j]
    split <;> rfl

lemma bpin (hi : i ∈ c.stack p) (hnew : (c.buf i).blockno ∉ pinned) :
    Core (c.bpin i) f (pinned ++ [(c.buf i).blockno]) := by
  obtain ⟨hvalid, hdev⟩ := h.held p i hi
  refine h.setPins (by omega) (fun b => ?_) (fun j => ?_) fun b hb => ?_
  · rcases h.disk b with hd | ⟨j, hj, hv, hdp⟩
    · exact .inl hd
    · refine .inr ⟨j, hj, hv, hdp.imp id fun hpos => ?_⟩
      split <;> omega
  · have hpin := h.pin j
    by_cases hj : j = i
    · subst hj
      simp only [hdev, hnew, and_false, if_false] at hpin
      simp [hdev, hpin]
    · have hne : (c.buf j).dev = ROOTDEV → (c.buf j).blockno ≠ (c.buf i).blockno :=
        fun hd he => hj (h.uniq j i hd hdev he)
      rw [if_neg hj, hpin]
      refine if_congr (and_congr_right fun hd => ?_) rfl rfl
      simp [hne hd]
  · rcases mem_append.mp hb with hb | hb
    · exact h.cached b hb
    · exact ⟨i, ⟨hdev, (mem_singleton.mp hb).symm⟩, hvalid⟩

end

lemma bunpin (h : Core c f (b :: pinned)) (hnodup : b ∉ pinned) (hi : (c.buf i).Has b) (hdisk : c.disk b = f b) :
    Core (c.bunpin i) f pinned := by
  have hpin_i : (c.buf i).pins = 1 := by rw [h.pin i, if_pos ⟨hi.1, by simp [hi.2]⟩]
  have href := h.refcnt i
  refine h.setPins (by omega) (fun b' => ?_) (fun j => ?_) fun b' hb' => ?_
  · rcases h.disk b' with hd | ⟨j, hj, hv, hdp⟩
    · exact .inl hd
    · by_cases hji : j = i
      · subst hji
        left
        rw [← hj.2, hi.2]
        exact hdisk
      · exact .inr ⟨j, hj, hv, by simpa [hji] using hdp⟩
  · have hpin := h.pin j
    by_cases hj : j = i
    · subst hj
      simp [hpin_i, hi.1, hi.2, hnodup]
    · have hne : (c.buf j).dev = ROOTDEV → (c.buf j).blockno ≠ b :=
        fun hd he => hj (h.uniq j i hd hi.1 (he.trans hi.2.symm))
      rw [if_neg hj, hpin]
      refine if_congr (and_congr_right fun hd => ?_) rfl rfl
      simp [hne hd]
  · exact h.cached b' (mem_cons_of_mem _ hb')

variable [DecidableEq P]

omit [Fintype P] [DecidableEq P] in
lemma bget_eq_some {dev : ℕ} (hg : c.bget dev b = some (i, x)) :
    ((c.buf i).dev = dev ∧ (c.buf i).blockno = b ∧ x = { c.buf i with refcnt := (c.buf i).refcnt + 1 }) ∨
      ((∀ j ∈ c.lru, ¬ ((c.buf j).dev = dev ∧ (c.buf j).blockno = b)) ∧ (c.buf i).refcnt = 0 ∧
        x = { c.buf i with dev := dev, blockno := b, valid := false, refcnt := 1 }) := by
  unfold Cache.bget at hg
  split at hg
  · rename_i j hj
    cases hg
    have := find?_some hj
    simp only [decide_eq_true_eq] at this
    exact .inl ⟨this.1, this.2, rfl⟩
  · rename_i hnone
    split at hg
    · rename_i j hj
      cases hg
      have hfree := find?_some hj
      simp only [decide_eq_true_eq] at hfree
      refine .inr ⟨?_, hfree, rfl⟩
      simpa using hnone
    · cases hg

section

variable (h : Core c f pinned)

include h

omit [DecidableEq P] in
lemma free (h0 : (c.buf i).refcnt = 0) :
    (∀ p, i ∉ c.stack p ∧ (c.micro p).buf ≠ some i) ∧ (c.buf i).pins = 0 ∧ (c.buf i).dirty = false := by
  have hno : ∀ p, i ∉ c.stack p ∧ (c.micro p).buf ≠ some i := by
    intro p
    have hz : ¬ 0 < refs (c.stack p) (c.micro p) i := fun hr => by
      have := h.refcnt_pos hr
      omega
    constructor
    · intro hi
      have := count_pos_iff.mpr hi
      unfold refs at hz
      omega
    · intro hm
      simp [refs, hm] at hz
  have href := h.refcnt i
  refine ⟨hno, by omega, ?_⟩
  by_contra hd
  obtain ⟨p, hp⟩ := h.dirty i (by simpa using hd)
  exact (hno p).1 hp

lemma move (p : P) (i : Fin NBUF) (hlru : lru.Perm (List.finRange NBUF)) (hdev : x.dev = (c.buf i).dev)
    (hblock : x.blockno = (c.buf i).blockno) (hmark : x.dirty = (c.buf i).dirty) (hpins : x.pins = (c.buf i).pins)
    (hvalid : (c.buf i).valid = true → x.valid = true) (hdata : x.dev = ROOTDEV → x.valid = true → x.data = f x.blockno)
    (href : ∀ j, (if j = i then x else c.buf j).refcnt + refs (c.stack p) (c.micro p) j = (c.buf j).refcnt + refs l m j)
    (hlock : ∀ j q, (if j = i then x else c.buf j).lock = some q ↔
      j ∈ (if q = p then l else c.stack q) ∨ ∃ b, (if q = p then m else c.micro q) = .fill j b) (hnodup : l.Nodup)
    (hfresh : ∀ j b, m = .fill j b → j ∉ l) (hback : ∀ j, m = .dec j → (c.buf j).dev = ROOTDEV)
    (hwant : ∀ j b, m = .acq j b ∨ m = .fill j b → (c.buf j).Has b)
    (hheld : ∀ j ∈ l, (if j = i then x else c.buf j).valid = true ∧ (c.buf j).dev = ROOTDEV)
    (hdirty : ∀ j ∈ c.stack p, (c.buf j).dirty = true → j ∈ l) :
    Core { ((c.setBuf i x).setStack p l).setMicro p m with lru := lru } f pinned := by
  have hbuf : ∀ j, (if j = i then x else c.buf j).dev = (c.buf j).dev ∧
      (if j = i then x else c.buf j).blockno = (c.buf j).blockno ∧
      (if j = i then x else c.buf j).dirty = (c.buf j).dirty ∧ (if j = i then x else c.buf j).pins = (c.buf j).pins ∧
      ((c.buf j).valid = true → (if j = i then x else c.buf j).valid = true) := by
    intro j
    split
    · rename_i hj
      subst hj
      exact ⟨hdev, hblock, hmark, hpins, hvalid⟩
    · exact ⟨rfl, rfl, rfl, rfl, id⟩
  constructor <;> simp only [setMicro_buf, setStack_buf, setBuf_buf, setMicro_stack, setStack_stack, setBuf_stack,
    setMicro_micro, setStack_micro, setBuf_micro, setMicro_disk, setStack_disk, setBuf_disk, Buf.Has, hbuf]
  case lru => exact hlru
  case uniq => exact h.uniq
  case refcnt =>
    intro j
    have h1 := h.refcnt j
    have h2 := (c.setBuf i x).total_move p l m j
    have h3 := href j
    simp only [setBuf_stack, setBuf_micro, total_setBuf] at h2
    change _ = (((c.setBuf i x).setStack p l).setMicro p m).total j + _
    omega
  case lock => exact hlock
  case nodup =>
    intro q
    split
    · exact hnodup
    · exact h.nodup q
  case fresh =>
    intro q
    split
    · exact hfresh
    · exact h.fresh q
  case want =>
    intro q
    split
    · exact hwant
    · exact h.want q
  case back =>
    intro q
    split
    · exact hback
    · exact h.back q
  case held =>
    intro q
    split
    · exact hheld
    · intro j hj
      obtain ⟨hv, hd⟩ := h.held q j hj
      exact ⟨(hbuf j).2.2.2.2 hv, hd⟩
  case data =>
    intro j hd hv
    by_cases hj : j = i
    · subst hj
      rw [if_pos rfl] at hv ⊢
      rw [hdata (hdev.trans hd) hv, hblock]
    · rw [if_neg hj] at hv ⊢
      exact h.data j hd hv
  case dirty =>
    intro j hj
    obtain ⟨q, hq⟩ := h.dirty j hj
    refine ⟨q, ?_⟩
    split
    · rename_i hqp
      exact hdirty j (hqp ▸ hq) hj
    · exact hq
  case disk =>
    intro b
    refine (h.disk b).imp id ?_
    rintro ⟨j, hj, hv, hdp⟩
    exact ⟨j, hj, (hbuf j).2.2.2.2 hv, hdp⟩
  case pin => exact h.pin
  case cached =>
    intro b hb
    obtain ⟨j, hj, hv⟩ := h.cached b hb
    exact ⟨j, hj, (hbuf j).2.2.2.2 hv⟩

lemma moveMicro (p : P) (i : Fin NBUF) (hlru : lru.Perm (List.finRange NBUF))
    (hx : x = { c.buf i with refcnt := n, lock := o })
    (href : ∀ j, (if j = i then n else (c.buf j).refcnt) + refs (c.stack p) (c.micro p) j =
      (c.buf j).refcnt + refs (c.stack p) m j) (hlock : ∀ j q, (if j = i then o else (c.buf j).lock) = some q ↔
      j ∈ c.stack q ∨ ∃ b, (if q = p then m else c.micro q) = .fill j b) (hfresh : ∀ j b, m = .fill j b → j ∉ c.stack p)
    (hback : ∀ j, m = .dec j → (c.buf j).dev = ROOTDEV)
    (hwant : ∀ j b, m = .acq j b ∨ m = .fill j b → (c.buf j).Has b) :
    Core { (c.setBuf i x).setMicro p m with lru := lru } f pinned := by
  have hself : (c.setBuf i x).setStack p (c.stack p) = c.setBuf i x := setStack_self _ p
  rw [← hself]
  subst hx
  refine h.move p i hlru rfl rfl rfl rfl id (h.data i) (fun j => ?_) (fun j q => ?_) (h.nodup p) hfresh hback hwant
    (fun j hj => ?_) fun j hj _ => hj
  · rw [← href j]
    split <;> rfl
  · have hsame : (if q = p then c.stack p else c.stack q) = c.stack q := by
      split
      · rename_i hq
        rw [hq]
      · rfl
    rw [hsame, ← hlock j q]
    split <;> rfl
  · obtain ⟨hv, hd⟩ := h.held p j hj
    refine ⟨?_, hd⟩
    split
    · rename_i hji
      exact hji ▸ hv
    · exact hv

lemma bread_hit (hp : c.micro p = .idle) (hi : (c.buf i).Has b) :
    Core ((c.setBuf i { c.buf i with refcnt := (c.buf i).refcnt + 1 }).setMicro p (.acq i b)) f pinned := by
  refine h.moveMicro p i h.lru rfl (fun j => ?_) (fun j q => ?_) nofun nofun fun j b' hm => ?_
  · rw [hp]
    simp only [refs, Micro.buf]
    grind
  · have := h.lock j q
    grind
  · obtain ⟨rfl, rfl⟩ : i = j ∧ b = b' := by simpa using hm
    exact hi

lemma bread_miss (hp : c.micro p = .idle) (hnone : ∀ j, ¬ (c.buf j).Has b) (h0 : (c.buf i).refcnt = 0) :
    Core ((c.setBuf i { c.buf i with dev := ROOTDEV, blockno := b, valid := false, refcnt := 1 }).setMicro
      p (.acq i b)) f pinned := by
  obtain ⟨hfree, hpins, hdirty⟩ := h.free h0
  have hb : b ∉ pinned := fun hb => by
    obtain ⟨j, hj, -⟩ := h.cached b hb
    exact hnone j hj
  constructor
  case lru => exact h.lru
  case uniq =>
    have := h.uniq
    simp only [setMicro_buf, setBuf_buf]
    grind [Buf.Has]
  case refcnt =>
    intro j
    have h1 := h.refcnt j
    have h2 := (c.setBuf i { c.buf i with dev := ROOTDEV, blockno := b, valid := false,
                                          refcnt := 1 }).total_setMicro p (.acq i b) j
    simp only [setBuf_stack, setBuf_micro, total_setBuf, hp, refs, Micro.buf] at h2
    simp only [setMicro_buf, setBuf_buf]
    grind
  case lock =>
    have := h.lock
    simp only [setMicro_buf, setBuf_buf, setMicro_stack, setMicro_micro, setBuf_stack, setBuf_micro]
    grind
  case nodup => exact h.nodup
  case fresh =>
    have := h.fresh
    simp only [setMicro_stack, setMicro_micro, setBuf_stack, setBuf_micro]
    grind
  case want =>
    have := h.want
    simp only [setMicro_buf, setBuf_buf, setMicro_micro, setBuf_micro]
    grind [Buf.Has, Micro.buf]
  case back =>
    have := h.back
    simp only [setMicro_buf, setBuf_buf, setMicro_micro, setBuf_micro]
    grind
  case held =>
    have := h.held
    simp only [setMicro_buf, setBuf_buf, setMicro_stack, setBuf_stack]
    grind
  case data => have := h.data; simp only [setMicro_buf, setBuf_buf]; grind
  case dirty => have := h.dirty; simp only [setMicro_buf, setBuf_buf, setMicro_stack, setBuf_stack]; grind
  case disk =>
    have := h.disk
    simp only [setMicro_buf, setBuf_buf, setMicro_disk, setBuf_disk]
    grind [Buf.Has]
  case pin => have := h.pin; simp only [setMicro_buf, setBuf_buf]; grind
  case cached =>
    have := h.cached
    have := h.pin
    simp only [setMicro_buf, setBuf_buf]
    grind [Buf.Has]

lemma bread (hp : c.micro p = .idle) (b : ℕ) : Core (c.bread p ROOTDEV b) f pinned := by
  unfold Cache.bread
  split
  · rename_i i x hg
    rcases bget_eq_some hg with ⟨hd, hb, rfl⟩ | ⟨hnone, h0, rfl⟩
    · exact h.bread_hit hp ⟨hd, hb⟩
    · exact h.bread_miss hp (fun j => hnone j (h.lru.mem_iff.mpr (mem_finRange j))) h0
  · exact ⟨h.lru, h.uniq, h.refcnt, h.lock, h.nodup, h.fresh, h.want, h.back, h.held, h.data, h.dirty, h.disk,
      h.pin, h.cached⟩

lemma acquire (hp : c.micro p = .acq i b) (hfree : (c.buf i).lock = none) :
    Core ((c.setBuf i { c.buf i with lock := some p }).setMicro p (.fill i b)) f pinned := by
  have hno : ∀ q, i ∉ c.stack q ∧ ∀ b', c.micro q ≠ .fill i b' := by
    intro q
    have := h.lock i q
    simp only [hfree, reduceCtorEq, false_iff, not_or, not_exists] at this
    exact this
  refine h.moveMicro p i h.lru rfl (fun j => ?_) (fun j q => ?_) (fun j b' hm => ?_) nofun fun j b' hm => ?_
  · rw [hp]
    simp only [refs, Micro.buf]
    grind
  · by_cases hj : j = i
    · subst hj
      by_cases hq : q = p
      · simp [hq]
      · simp [hno, hq, Ne.symm hq]
    · have := h.lock j q
      by_cases hq : q = p
      · subst hq
        simpa [hj, Ne.symm hj, hp] using this
      · simpa [hj, hq] using this
  · cases hm
    exact (hno p).1
  · obtain ⟨rfl, rfl⟩ : i = j ∧ b = b' := by simpa using hm
    exact h.want p i b (.inl hp)

lemma fill (hp : c.micro p = .fill i b) :
    Core (((c.setBuf i (c.filled i)).setStack p (i :: c.stack p)).setMicro p .idle) f pinned ∧
      (c.filled i).data = f b := by
  have hhas := h.want p i b (.inr hp)
  have hnew := h.fresh p i b hp
  have hlock := (h.lock i p).mpr (.inr ⟨b, hp⟩)
  -- an invalid buffer has an up-to-date disk block, since its block has no other buffer
  have hdata : (c.filled i).data = f b := by
    unfold filled
    split
    · rename_i hv
      rw [h.data i hhas.1 hv, hhas.2]
    · rename_i hv
      rcases h.disk b with hd | ⟨j, hj, hvj, -⟩
      · simpa [hhas.2] using hd
      · have : j = i := h.uniq j i hj.1 hhas.1 (hj.2.trans hhas.2.symm)
        exact absurd (this ▸ hvj) hv
  have hfill : (c.filled i).valid = true ∧ (c.filled i).dev = ROOTDEV ∧ (c.filled i).blockno = b ∧
      (c.filled i).lock = (c.buf i).lock ∧ (c.filled i).refcnt = (c.buf i).refcnt ∧
      (c.filled i).dirty = (c.buf i).dirty ∧ (c.filled i).pins = (c.buf i).pins := by
    unfold filled
    split
    · rename_i hv
      exact ⟨hv, hhas.1, hhas.2, rfl, rfl, rfl, rfl⟩
    · exact ⟨rfl, hhas.1, hhas.2, rfl, rfl, rfl, rfl⟩
  obtain ⟨hvalid, hdev, hblock, hlk, href, hdirty, hpins⟩ := hfill
  refine ⟨h.move p i h.lru (hdev.trans hhas.1.symm) (hblock.trans hhas.2.symm) hdirty hpins (fun _ => hvalid)
    (fun _ _ => by rw [hdata, hblock]) (fun j => ?_) (fun j q => ?_) (nodup_cons.mpr ⟨hnew, h.nodup p⟩) nofun nofun nofun
    (fun j hj => ?_) fun j hj _ => mem_cons_of_mem i hj, hdata⟩
  · rw [hp]
    simp only [refs, Micro.buf, count_cons, beq_iff_eq]
    grind
  · have := h.lock j q
    grind
  · have := h.held p j
    have := hhas.1
    grind

lemma dec (hp : c.micro p = .dec i) (hlru : lru.Perm (List.finRange NBUF)) :
    Core { (c.setBuf i { c.buf i with refcnt := (c.buf i).refcnt - 1 }).setMicro p .idle with lru := lru }
      f pinned := by
  have hpos : 0 < (c.buf i).refcnt := h.refcnt_pos (p := p) (by simp [refs, hp, Micro.buf])
  refine h.moveMicro p i hlru rfl (fun j => ?_) (fun j q => ?_) nofun nofun nofun
  · rw [hp]
    simp only [refs, Micro.buf]
    grind
  · have := h.lock j q
    grind

lemma advance (hc : c.advance p = some c') : Core c' f pinned := by
  unfold Cache.advance at hc
  split at hc
  · cases hc
  · rename_i i b hp
    split at hc <;> cases hc
    exact h.acquire hp (Option.isNone_iff_eq_none.mp ‹_›)
  · rename_i i b hp
    cases hc
    exact (h.fill hp).1
  · rename_i i hp
    cases hc
    refine h.dec hp ?_
    split
    · refine List.Perm.trans ?_ h.lru
      exact (perm_cons_erase (h.lru.mem_iff.mpr (mem_finRange i))).symm
    · exact h.lru

lemma brelse (hp : c.micro p = .idle) (hk : (c.stack p)[k]? = some i) (hclean : (c.buf i).dirty = false) :
    Core (c.brelse p k i) f pinned := by
  have hi : i ∈ c.stack p := mem_of_getElem? hk
  have hnodup := h.nodup p
  have herase : (c.stack p).eraseIdx k = (c.stack p).erase i := by
    obtain ⟨hlen, hget⟩ := List.getElem?_eq_some_iff.mp hk
    rw [← hget, hnodup.erase_getElem]
  have hmem : ∀ j, j ∈ (c.stack p).erase i ↔ j ≠ i ∧ j ∈ c.stack p := fun j => hnodup.mem_erase_iff
  have hlock := (h.lock i p).mpr (.inl hi)
  unfold Cache.brelse
  rw [herase]
  refine h.move p i h.lru rfl rfl rfl rfl id (h.data i) (fun j => ?_) (fun j q => ?_) (hnodup.erase i) nofun
    (fun j hj => Micro.dec.inj hj ▸ (h.held p i hi).2) nofun (fun j hj => ?_) fun j hj hd => (hmem j).mpr ⟨?_, hj⟩
  · have hcount : 0 < (c.stack p).count i := count_pos_iff.mpr hi
    rw [hp]
    simp only [refs, Micro.buf, count_erase, beq_iff_eq]
    grind
  · have := h.lock j q
    grind
  · have := h.held p j
    grind
  · rintro rfl
    rw [hclean] at hd
    cases hd

end

end Core

end Cache

end Xv6.Bio
