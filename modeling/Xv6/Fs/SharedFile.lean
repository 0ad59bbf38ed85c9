import Xv6.Fs.FileData

/-!
# Writers that share an open file

Several processes call `write` on one `struct file`.  Each pass of the loop of `filewrite` reads
`f->off`, writes a chunk there and advances `f->off` under the lock of the inode.
-/

namespace Xv6.Fs

open Lib Log Function List

variable {P : Type} {sb : Superblock}

/-! ### One pass of the loop of `filewrite` -/

/-- `max` of `filewrite`. -/
def CHUNK : ℕ := (MAXOPBLOCKS - 1 - 1 - 2) / 2 * BSIZE

lemma CHUNK_eq : CHUNK = 3 * BSIZE := rfl

/-- One transaction of `filewrite`, at the `i`-th byte of the buffer; the result of `writei`. -/
def writeChunk (sb : Superblock) (f : Fin NFILE) (src : ℕ → Option ℕ) (n i : ℕ) : M P ℤ := do
  let x ← file f
  ilock sb x.ip
  let r ← writei sb x.ip (fun k => src (i + k)) x.off (min (n - i) CHUNK)
  if 0 < r then setFile f fun x => { x with off := x.off + r.toNat } else pure ()
  iunlock x.ip
  pure r

/-- File `f` is open on entry `e`, whose copy agrees with the disk; the inodes on disk share no block
and have no hole. -/
structure Held (sb : Superblock) (s : State P) (f : Fin NFILE) (e : Fin NINODE) : Prop where
  ip : (s.file f).ip = e
  ref : 1 ≤ (s.ino e).ref
  unlocked : (s.ino e).locked = false
  valid : (s.ino e).valid = true
  sync : (s.ino e).d = dinode sb s.disk (s.ino e).inum
  inum : sb.Inum (s.ino e).inum
  type : (s.ino e).d.type ≠ 0
  marked : Marked sb (slot sb (dinode sb s.disk) s.disk) s.disk
  solid : Solid sb (dinode sb s.disk) s.disk

/-- The bytes of the file that `e` holds. -/
def Held.byte (sb : Superblock) (s : State P) (e : Fin NINODE) (x : ℕ) : ℕ :=
  dataByte sb (dinode sb s.disk) s.disk (s.ino e).inum x

/-- A chunk of `n` bytes has been written at `f->off`. -/
structure Appended (sb : Superblock) (s : State P) (f : Fin NFILE) (e : Fin NINODE) (src : ℕ → Option ℕ)
    (n : ℕ) (s' : State P) : Prop where
  held : Held sb s' f e
  start : (s.file f).off ≤ (s.ino e).d.size
  room : (s.file f).off + n ≤ MAXFILE * BSIZE
  off : (s'.file f).off = (s.file f).off + n
  size : (s'.ino e).d.size = max (s.ino e).d.size ((s.file f).off + n)
  bytes : ∀ x, x < (s'.ino e).d.size →
    Held.byte sb s' e x = overlay (Held.byte sb s e) (s.file f).off n (srcByte src) x

variable {D : ℕ → Dinode} {s s' : State P} {n i : ℕ}

lemma slot_family (h : ∀ j, sb.Inum j → D' j = D j) : slot sb D' d = slot sb D d :=
  slot_congr (fun j hj => by rw [h j hj]; exact ⟨rfl, rfl⟩) fun _ _ _ _ => rfl

lemma writei_all (hl : Layout sb) (hD : D (s.ino e).inum = (s.ino e).d) (hi : sb.Inum (s.ino e).inum)
    (ht : (s.ino e).d.type ≠ 0) (hsmall : (s.ino e).d.Small) (hm : Marked sb (slot sb D s.disk) s.disk)
    (hs : Solid sb D s.disk) (src : ℕ → Option ℕ) (off n : ℕ) :
    wp (writei sb e src off n) (fun _ => True) (fun r s' => r = ↑n → off ≤ (s.ino e).d.size ∧
      off + n ≤ MAXFILE * BSIZE ∧ Replaced sb D s e src off n s') s := by
  by_cases hc : off ≤ (s.ino e).d.size ∧ off + n ≤ MAXFILE * BSIZE
  · refine (writei_data hl hD hi ht hsmall hm hs hc.1 hc.2).mono ?_
    rintro r s' ⟨tot, rfl, ⟨hlt, -⟩ | ⟨-, -, hr⟩⟩ heq
    · omega
    · obtain rfl : tot = n := by omega
      exact ⟨hc.1, hc.2, hr⟩
  · simp only [writei, inode, wp_bind, wp_read, wp_pure]
    refine wp_ite.mpr ⟨fun _ hr => ?_, fun h1 => wp_ite.mpr ⟨fun _ hr => ?_, fun h2 => absurd ?_ hc⟩⟩
    · omega
    · omega
    · omega

lemma Appended.of_replaced {src : ℕ → Option ℕ} (h : Held sb s f e)
    (hs1 : s1 = s.setIno e fun ip => { ip with locked := true }) (hoff : (s.file f).off ≤ (s.ino e).d.size)
    (hmax : (s.file f).off + m ≤ MAXFILE * BSIZE) (hr : Replaced sb (dinode sb s.disk) s1 e src (s.file f).off m s2)
    (hdisk : s'.disk = s2.disk) (hino : s'.ino e = { s2.ino e with locked := false })
    (hfile : s'.file f = { s.file f with off := (s.file f).off + m }) : Appended sb s f e src m s' := by
  have hself : s1.ino e = { s.ino e with locked := true } := by
    rw [hs1]
    exact update_self _ _ _
  have hold : s1.disk = s.disk := by rw [hs1]; rfl
  have hent : s2.ino e = { s.ino e with locked := true, d := (s2.ino e).d } := by
    have := congrArg (fun t => State.ino t e) hr.state
    simp only [State.grown_ino_self, hself] at this
    exact this
  have hd : (s'.ino e).d = (s2.ino e).d := by rw [hino]
  have hinum : (s'.ino e).inum = (s.ino e).inum := by rw [hino, hent]
  have hfam : ∀ j, sb.Inum j → update (dinode sb s.disk) (s1.ino e).inum (s2.ino e).d j = dinode sb s2.disk j := by
    intro j hj
    rw [hr.dinode j hj, hold]
    by_cases hji : j = (s1.ino e).inum
    · subst hji
      rw [update_self, if_pos rfl]
    · rw [update_of_ne hji, if_neg hji]
  have hslot := slot_family (d := s2.disk) hfam
  have hbyte := hr.bytes
  have hsize := hr.size
  rw [hself] at hbyte hsize
  simp only at hbyte hsize
  refine ⟨⟨?_, ?_, ?_, ?_, ?_, ?_, ?_, ?_, ?_⟩, hoff, hmax, by rw [hfile], by rw [hd, hsize], fun x hx => ?_⟩
  · rw [hfile]
    exact h.ip
  · rw [hino, hent]
    exact h.ref
  · rw [hino]
  · rw [hino, hent]
    exact h.valid
  · rw [hd, hdisk, hinum, hr.dinode _ h.inum, hself, if_pos rfl]
  · rw [hinum]
    exact h.inum
  · rw [hd, hr.type, hself]
    exact h.type
  · rw [hdisk, ← hslot]
    exact hr.marked
  · rw [hdisk]
    exact hr.solid.congr (fun j hj => by rw [hfam j hj]; exact ⟨rfl, rfl⟩) fun t => by rw [hslot]
  · rw [hd] at hx
    have hb := hbyte x hx
    unfold Held.byte
    rw [hold] at hb
    rw [hinum, hdisk, ← hb]
    unfold dataByte
    rw [← hslot, hself]

lemma writeChunk_spec (hl : Layout sb) (h : Held sb s f e) (src : ℕ → Option ℕ) (hin : i < n) :
    wp (writeChunk sb f src n i) (fun _ => True) (fun r s' => r = ↑(min (n - i) CHUNK) →
      Appended sb s f e (fun k => src (i + k)) (min (n - i) CHUNK) s') s := by
  have hC : 0 < CHUNK := by decide
  generalize hm : min (n - i) CHUNK = m
  simp only [writeChunk, file, ilock, inode, wp_bind, wp_read, wp_pure]
  rw [h.ip, hm, if_neg (by have := h.ref; omega), if_neg (by rw [h.unlocked]; exact Bool.false_ne_true), wp_bind]
  simp only [setInode, wp_modify]
  rw [if_pos h.valid, wp_pure, wp_bind]
  -- the state in which the inode is locked
  generalize hs1 : s.setIno e (fun ip => { ip with locked := true }) = s1
  have hself : s1.ino e = { s.ino e with locked := true } := by
    rw [← hs1]
    exact update_self _ _ _
  have hdisk : s1.disk = s.disk := by rw [← hs1]; rfl
  have hfile : s1.file = s.file := by rw [← hs1]; rfl
  have hwrite : wp (writei sb e (fun k => src (i + k)) (s.file f).off m) (fun _ => True) _ s1 :=
    writei_all (D := dinode sb s.disk) hl (by rw [hself]; exact h.sync.symm) (by rw [hself]; exact h.inum)
      (by rw [hself]; exact h.type) (by rw [hself]; simp only; rw [h.sync]; exact small_dinode _ _ _)
      (by rw [hdisk]; exact h.marked) (by rw [hdisk]; exact h.solid) _ _ m
  refine hwrite.mono fun r s2 hr => ?_
  by_cases hall : r = ↑m
  · obtain ⟨hoff, hmax, hrep⟩ := hr hall
    subst hall
    have hfile2 : s2.file = s.file := by
      rw [hrep.state, ← hfile]
      rfl
    rw [if_pos (by omega)]
    simp only [setFile, iunlock, inode, wp_bind, wp_read, wp_modify, wp_pure]
    refine wp_ite.mpr ⟨fun _ => trivial, fun _ _ => ?_⟩
    rw [hself] at hoff
    refine .of_replaced h hs1.symm hoff hmax hrep rfl (update_self _ _ _) ?_
    show update s2.file f _ f = _
    rw [update_self, hfile2]
    rfl
  · -- a chunk that is cut short
    refine wp_ite.mpr ⟨fun _ => ?_, fun _ => ?_⟩ <;>
    · simp only [setFile, iunlock, inode, setInode, wp_bind, wp_read, wp_modify, wp_pure]
      exact wp_ite.mpr ⟨fun _ => trivial, fun _ hc => absurd hc hall⟩

/-! ### Interleaved calls of `write` -/

/-- A call of `filewrite` in progress: its arguments and its `i`. -/
structure Job where
  src : ℕ → Option ℕ
  n : ℤ
  i : ℕ

/-- The file system, and where each process is in its call on the shared file. -/
structure Writers (P : Type) where
  fs : State P
  job : P → Option Job

namespace Writers

inductive Act (P : Type) where
  | call (p : P) (src : ℕ → Option ℕ) (n : ℤ)
  | next (p : P)

inductive Event (P : Type) where
  /-- A chunk has been written. -/
  | wrote (p : P) (bytes : List ℕ)
  /-- A call with buffer `src` and length `n` has returned `r`. -/
  | returned (p : P) (src : ℕ → Option ℕ) (n r : ℤ)

/-- The bytes that a pass at `i` writes. -/
def chunk (src : ℕ → Option ℕ) (n i : ℕ) : List ℕ :=
  (List.range (min (n - i) CHUNK)).map fun k => srcByte src (i + k)

variable [DecidableEq P]

/-- A process calls `filewrite` on file `f`, or does one pass of its loop, or returns from it. -/
def fire (sb : Superblock) (f : Fin NFILE) (t : Writers P) : Act P → Option (Writers P × List (Event P))
  | .call p src n =>
    match t.job p with
    | some _ => none
    | none =>
      if (t.fs.file f).writable = false then some (t, [.returned p src n (-1)])
      else some ({ t with job := update t.job p (some ⟨src, n, 0⟩) }, [])
  | .next p =>
    match t.job p with
    | none => none
    | some w =>
      if w.i < w.n.toNat then
        match writeChunk sb f w.src w.n.toNat w.i t.fs with
        | .error _ => none
        | .ok (r, fs) =>
          if r ≠ ↑(min (w.n.toNat - w.i) CHUNK) then
            some (⟨fs, update t.job p none⟩, [.returned p w.src w.n (if (w.i : ℤ) = w.n then w.n else -1)])
          else
            some (⟨fs, update t.job p (some { w with i := w.i + min (w.n.toNat - w.i) CHUNK })⟩,
              [.wrote p (chunk w.src w.n.toNat w.i)])
      else
        some ({ t with job := update t.job p none }, [.returned p w.src w.n (if (w.i : ℤ) = w.n then w.n else -1)])

def step (sb : Superblock) (f : Fin NFILE) (t : Writers P) (a : Act P) : Option (Writers P) :=
  (fire sb f t a).map Prod.fst

def obs (sb : Superblock) (f : Fin NFILE) (t : Writers P) (a : Act P) : List (Event P) :=
  (fire sb f t a).elim [] Prod.snd

/-! ### What the events say -/

/-- The chunks written, with their writers. -/
def chunks (es : List (Event P)) : List (P × List ℕ) :=
  es.filterMap fun
    | .wrote p bytes => some (p, bytes)
    | .returned _ _ _ _ => none

/-- All bytes written, in order. -/
def written (es : List (Event P)) : List ℕ := ((chunks es).map Prod.snd).flatten

/-- The chunks of one process. -/
def chunksOf (p : P) (es : List (Event P)) : List (List ℕ) :=
  ((chunks es).filter (·.1 = p)).map Prod.snd

/-- The calls from which one process has returned. -/
def callsOf (p : P) (es : List (Event P)) : List ((ℕ → Option ℕ) × ℤ) :=
  es.filterMap fun
    | .wrote _ _ => none
    | .returned q src n _ => if q = p then some (src, n) else none

/-- All calls that have returned have written all their bytes. -/
def Succeeded (es : List (Event P)) : Prop := ∀ p src n r, .returned p src n r ∈ es → 0 ≤ n ∧ r = n

/-- The chunks of a call that has got to `i`. -/
def piecesTo (src : ℕ → Option ℕ) (n i : ℕ) : List (List ℕ) :=
  (List.range ((i + CHUNK - 1) / CHUNK)).map fun k => chunk src n (k * CHUNK)

/-- The chunks of a whole call. -/
def pieces (src : ℕ → Option ℕ) (n : ℕ) : List (List ℕ) := piecesTo src n n

omit [DecidableEq P] in
lemma chunks_append (es es' : List (Event P)) : chunks (es ++ es') = chunks es ++ chunks es' :=
  filterMap_append

omit [DecidableEq P] in
lemma written_append (es es' : List (Event P)) : written (es ++ es') = written es ++ written es' := by
  unfold written
  rw [chunks_append, map_append, flatten_append]

lemma chunksOf_append (p : P) (es es' : List (Event P)) :
    chunksOf p (es ++ es') = chunksOf p es ++ chunksOf p es' := by
  unfold chunksOf
  rw [chunks_append, filter_append, map_append]

lemma callsOf_append (p : P) (es es' : List (Event P)) :
    callsOf p (es ++ es') = callsOf p es ++ callsOf p es' := filterMap_append

omit [DecidableEq P] in
lemma Succeeded.of_append {es es' : List (Event P)} (h : Succeeded (es ++ es')) : Succeeded es :=
  fun p src n r hmem => h p src n r (mem_append_left _ hmem)

section

variable (src : ℕ → Option ℕ)

lemma piecesTo_zero (n : ℕ) : piecesTo src n 0 = [] := by
  unfold piecesTo
  rw [Nat.div_eq_of_lt (by decide)]
  rfl

lemma piecesTo_next (hi : CHUNK ∣ i) (hin : i < n) :
    piecesTo src n (i + min (n - i) CHUNK) = piecesTo src n i ++ [chunk src n i] := by
  obtain ⟨k, rfl⟩ := hi
  have hC : CHUNK = 3072 := rfl
  have h1 : (CHUNK * k + CHUNK - 1) / CHUNK = k := by
    rw [hC]
    omega
  have h2 : (CHUNK * k + min (n - CHUNK * k) CHUNK + CHUNK - 1) / CHUNK = k + 1 := by
    rw [hC] at hin ⊢
    omega
  unfold piecesTo
  rw [h1, h2, range_succ, map_append, map_singleton, Nat.mul_comm k CHUNK]

lemma length_chunk (n i : ℕ) : (chunk src n i).length = min (n - i) CHUNK := by
  unfold chunk
  rw [length_map, length_range]

lemma pieces_small (hpos : 0 < n) (hn : n ≤ CHUNK) : pieces src n = [(List.range n).map (srcByte src)] := by
  have h := piecesTo_next src (Nat.dvd_zero CHUNK) hpos
  rw [piecesTo_zero, Nat.sub_zero, Nat.min_eq_left hn, Nat.zero_add, nil_append] at h
  unfold pieces
  rw [h, chunk, Nat.sub_zero, Nat.min_eq_left hn]
  simp only [Nat.zero_add]

lemma flatten_pieces (n : ℕ) : (pieces src n).flatten = (List.range n).map (srcByte src) := by
  have hC : 0 < CHUNK := by decide
  have hnext : ∀ i, CHUNK ∣ i → i < n → (piecesTo src n i).flatten = (List.range i).map (srcByte src) →
      (piecesTo src n (i + min (n - i) CHUNK)).flatten =
        (List.range (i + min (n - i) CHUNK)).map (srcByte src) := by
    intro i hi hin h
    rw [piecesTo_next src hi hin, flatten_append, h, range_add, map_append, map_map, flatten_singleton]
    rfl
  have hfull : ∀ k, CHUNK * k ≤ n →
      (piecesTo src n (CHUNK * k)).flatten = (List.range (CHUNK * k)).map (srcByte src) := by
    intro k
    induction k with
    | zero =>
      intro _
      rw [Nat.mul_zero, piecesTo_zero]
      rfl
    | succ k ih =>
      intro hk
      rw [Nat.mul_succ] at hk ⊢
      have h := hnext (CHUNK * k) (Nat.dvd_mul_right _ _) (by omega) (ih (by omega))
      rwa [Nat.min_eq_right (by omega)] at h
  have hdiv := Nat.div_add_mod n CHUNK
  have hmod := Nat.mod_lt n hC
  by_cases hrest : n % CHUNK = 0
  · have h := hfull (n / CHUNK) (by omega)
    rwa [show CHUNK * (n / CHUNK) = n by omega] at h
  · have h := hnext _ (Nat.dvd_mul_right CHUNK (n / CHUNK)) (by omega) (hfull (n / CHUNK) (by omega))
    rwa [Nat.min_eq_left (by omega), show CHUNK * (n / CHUNK) + (n - CHUNK * (n / CHUNK)) = n by omega] at h

end

/-! ### The invariant -/

/-- The chunks that the call of a process has written so far. -/
def progress : Option Job → List (List ℕ)
  | none => []
  | some w => piecesTo w.src w.n.toNat w.i

/-- Where the loop of a call can be. -/
def Aligned (w : Job) : Prop := w.i = w.n.toNat ∨ CHUNK ∣ w.i ∧ w.i < w.n.toNat

/-- The file is that of `s₀` with the bytes written from its offset on. -/
structure Good (sb : Superblock) (f : Fin NFILE) (e : Fin NINODE) (s₀ : State P) (t : Writers P)
    (es : List (Event P)) : Prop where
  held : Held sb t.fs f e
  off : (t.fs.file f).off = (s₀.file f).off + (written es).length
  room : written es ≠ [] →
    (s₀.file f).off ≤ (s₀.ino e).d.size ∧ (s₀.file f).off + (written es).length ≤ MAXFILE * BSIZE
  size : (t.fs.ino e).d.size = if written es = [] then (s₀.ino e).d.size
    else max (s₀.ino e).d.size ((s₀.file f).off + (written es).length)
  bytes : ∀ x, x < (t.fs.ino e).d.size → Held.byte sb t.fs e x =
    overlay (Held.byte sb s₀ e) (s₀.file f).off (written es).length (fun k => (written es).getD k 0) x
  jobs : ∀ p w, t.job p = some w → Aligned w
  calls : ∀ p, chunksOf p es = (callsOf p es).flatMap (fun c => pieces c.1 c.2.toNat) ++ progress (t.job p)

namespace Good

variable {f : Fin NFILE} {e : Fin NINODE} {s₀ : State P} {t : Writers P} {es : List (Event P)} {p : P}

lemma start (h : Held sb s₀ f e) : Good sb f e s₀ ⟨s₀, fun _ => none⟩ ([] : List (Event P)) where
  held := h
  off := rfl
  room hne := absurd rfl hne
  size := rfl
  bytes x _ := by
    unfold overlay
    rw [if_neg (by rw [show (written ([] : List (Event P))).length = 0 from rfl]; omega)]
  jobs _ _ h := by cases h
  calls _ := rfl

lemma call (h : Good sb f e s₀ t es) (hp : t.job p = none) (src : ℕ → Option ℕ) (n : ℤ) :
    Good sb f e s₀ { t with job := update t.job p (some ⟨src, n, 0⟩) } es where
  held := h.held
  off := h.off
  room := h.room
  size := h.size
  bytes := h.bytes
  jobs q w hw := by
    by_cases hq : q = p
    · subst hq
      simp only [update_self, Option.some.injEq] at hw
      subst hw
      rcases Nat.eq_zero_or_pos n.toNat with h0 | hpos
      · exact .inl h0.symm
      · exact .inr ⟨Nat.dvd_zero _, hpos⟩
    · simp only [update_of_ne hq] at hw
      exact h.jobs q w hw
  calls q := by
    rw [h.calls q]
    by_cases hq : q = p
    · subst hq
      simp only [update_self, hp, progress, piecesTo_zero]
    · simp only [update_of_ne hq]

lemma ret (h : Good sb f e s₀ t es) (hp : t.job p = some w) (hi : w.i = w.n.toNat) (r : ℤ) :
    Good sb f e s₀ { t with job := update t.job p none } (es ++ [.returned p w.src w.n r]) := by
  have hnone : written (es ++ [.returned p w.src w.n r]) = written es := by
    rw [written_append]
    exact append_nil _
  refine ⟨h.held, by rw [hnone]; exact h.off, by rw [hnone]; exact h.room, by rw [hnone]; exact h.size,
    by rw [hnone]; exact h.bytes, fun q w' hw => ?_, fun q => ?_⟩
  · by_cases hq : q = p
    · subst hq
      simp only [update_self] at hw
      cases hw
    · simp only [update_of_ne hq] at hw
      exact h.jobs q w' hw
  · rw [chunksOf_append, callsOf_append, h.calls q]
    by_cases hq : q = p
    · subst hq
      have hone : callsOf q [.returned q w.src w.n r] = [(w.src, w.n)] := by simp [callsOf]
      simp only [update_self, hp, hone, flatMap_append, progress, hi]
      simp [chunksOf, chunks, pieces]
    · have hone : callsOf q [.returned p w.src w.n r] = [] := by simp [callsOf, Ne.symm hq]
      simp only [update_of_ne hq, hone]
      simp [chunksOf, chunks]

omit [DecidableEq P] in
lemma written_wrote (es : List (Event P)) (p : P) (bytes : List ℕ) :
    written (es ++ [.wrote p bytes]) = written es ++ bytes := by
  rw [written_append]
  simp [written, chunks]

lemma wrote (h : Good sb f e s₀ t es) (hp : t.job p = some w) (hi : w.i < w.n.toNat)
    (ha : Appended sb t.fs f e (fun k => w.src (w.i + k)) (min (w.n.toNat - w.i) CHUNK) s') :
    Good sb f e s₀ ⟨s', update t.job p (some { w with i := w.i + min (w.n.toNat - w.i) CHUNK })⟩
      (es ++ [.wrote p (chunk w.src w.n.toNat w.i)]) := by
  have hC : 0 < CHUNK := by decide
  have hdvd : CHUNK ∣ w.i := by
    rcases h.jobs p w hp with heq | hal
    · omega
    · exact hal.1
  have hlen : (written (es ++ [.wrote p (chunk w.src w.n.toNat w.i)])).length =
      (written es).length + min (w.n.toNat - w.i) CHUNK := by
    rw [written_wrote, length_append, length_chunk]
  have hne : written (es ++ [.wrote p (chunk w.src w.n.toNat w.i)]) ≠ [] := by
    rw [← length_pos_iff, hlen]
    omega
  have hoff := h.off
  have hstart := ha.start
  have hroom := ha.room
  have hsize := h.size
  refine ⟨ha.held, ?_, fun _ => ⟨?_, ?_⟩, ?_, fun x hx => ?_, fun q w' hw => ?_, fun q => ?_⟩
  · rw [hlen, ha.off, hoff, Nat.add_assoc]
  · by_cases hnil : written es = []
    · rw [if_pos hnil] at hsize
      rw [hnil, length_nil, Nat.add_zero] at hoff
      omega
    · exact (h.room hnil).1
  · rw [hlen, ← Nat.add_assoc, ← hoff]
    exact hroom
  · rw [if_neg hne, hlen, ha.size, hoff, hsize]
    split
    · rw [Nat.add_assoc]
    · omega
  · have hb := ha.bytes x hx
    rw [ha.size] at hx
    rw [hb, hlen, written_wrote]
    by_cases hin : (t.fs.file f).off ≤ x ∧ x < (t.fs.file f).off + min (w.n.toNat - w.i) CHUNK
    · -- a byte of this chunk
      have hk : x - (s₀.file f).off = (written es).length + (x - (t.fs.file f).off) := by omega
      unfold overlay
      rw [if_pos hin, if_pos (by omega), hk]
      simp only
      rw [getD_append_right _ _ _ _ (Nat.le_add_right _ _), Nat.add_sub_cancel_left, chunk, getD_eq_getElem?_getD, getElem?_map,
        getElem?_range (by omega)]
      rfl
    · -- the others are as before
      rw [overlay, if_neg hin, h.bytes x (by omega), overlay_add (by omega)]
      unfold overlay
      split
      · simp only
        rw [getD_append _ _ _ _ (by omega)]
      · rfl
  · by_cases hq : q = p
    · subst hq
      simp only [update_self, Option.some.injEq] at hw
      subst hw
      by_cases hlast : w.n.toNat - w.i ≤ CHUNK
      · refine .inl ?_
        simp only
        omega
      · refine .inr ⟨?_, ?_⟩
        · simp only
          rw [Nat.min_eq_right (by omega)]
          exact Nat.dvd_add hdvd (Nat.dvd_refl _)
        · simp only
          omega
    · simp only [update_of_ne hq] at hw
      exact h.jobs q w' hw
  · have hcalls : callsOf q [.wrote p (chunk w.src w.n.toNat w.i)] = [] := rfl
    rw [chunksOf_append, callsOf_append, h.calls q, hcalls, append_nil, append_assoc]
    by_cases hq : q = p
    · subst hq
      simp only [update_self, hp, progress, piecesTo_next _ hdvd hi]
      simp [chunksOf, chunks]
    · simp only [update_of_ne hq]
      simp [chunksOf, chunks, Ne.symm hq]

end Good

lemma Good.readi {s₀ : State P} {es : List (Event P)} (h : Good sb f e s₀ t es) :
    Fs.readi sb e (s₀.file f).off (written es).length t.fs = .ok (written es, t.fs) := by
  have hM : MAXFILE * BSIZE = 274432 := rfl
  have hsize := h.size
  have hin : written es ≠ [] → (s₀.file f).off + (written es).length ≤ (t.fs.ino e).d.size := by
    intro hne
    rw [hsize, if_neg hne]
    exact le_max_right _ _
  have hcount : readable t.fs e (s₀.file f).off (written es).length = (written es).length := by
    unfold readable
    by_cases hnil : written es = []
    · rw [hnil, length_nil, Nat.zero_min, ite_self]
    · have hroom := h.room hnil
      have hend := hin hnil
      rw [if_neg (by omega)]
      omega
  have hread : wp (Fs.readi sb e (s₀.file f).off (written es).length) (fun _ => False) _ t.fs :=
    readi_data h.held.sync.symm h.held.inum h.held.type (fun k hk => by
      refine h.held.solid.full _ h.held.inum (by rw [← h.held.sync]; exact h.held.type) _ ?_
      rw [← h.held.sync]
      exact lt_of_le_of_lt (Nat.mul_div_le k BSIZE) hk) _ _
  obtain ⟨bytes, s', hrun, rfl, rfl⟩ := hread.returns
  rw [hrun, hcount]
  congr 2
  refine ext_getElem (by simp [dataBytes]) fun k h1 h2 => ?_
  have hend := hin (ne_nil_of_length_pos (by omega))
  have hbyte := h.bytes ((s₀.file f).off + k) (by omega)
  unfold Held.byte overlay at hbyte
  rw [if_pos (by omega), Nat.add_sub_cancel_left] at hbyte
  simp only [dataBytes, getElem_map, getElem_range, hbyte]
  rw [getD_eq_getElem?_getD, getElem?_eq_getElem h2]
  rfl

lemma good_step (hl : Layout sb) {t' : Writers P} {a : Act P} (hstep : step sb f t a = some t')
    (h : Succeeded es → Good sb f e s₀ t es) (hok : Succeeded (es ++ obs sb f t a)) :
    Good sb f e s₀ t' (es ++ obs sb f t a) := by
  have hgood := h hok.of_append
  unfold step at hstep
  obtain ⟨⟨_, evs⟩, hfire, rfl⟩ := Option.map_eq_some_iff.mp hstep
  have hobs : obs sb f t a = evs := by
    unfold obs
    rw [hfire]
    rfl
  rw [hobs] at hok ⊢
  unfold fire at hfire
  split at hfire
  · rename_i p src n
    split at hfire
    · cases hfire
    · rename_i hp
      split at hfire
      · -- the file is not open for writing
        cases hfire
        have hr := hok p src n (-1) (mem_append_right _ (mem_singleton.mpr rfl))
        omega
      · cases hfire
        rw [append_nil]
        exact hgood.call hp src n
  · rename_i p
    split at hfire
    · cases hfire
    · rename_i w hp
      split at hfire
      · rename_i hi
        cases hrun : writeChunk sb f w.src w.n.toNat w.i t.fs with
        | error err =>
          rw [hrun] at hfire
          cases hfire
        | ok r =>
          rw [hrun] at hfire
          simp only at hfire
          split at hfire
          · -- a chunk that was cut short makes the call fail
            cases hfire
            have hr := hok p w.src w.n _ (mem_append_right _ (mem_singleton.mpr rfl))
            rw [if_neg (by omega)] at hr
            omega
          · rename_i hall
            cases hfire
            exact hgood.wrote hp hi ((writeChunk_spec hl hgood.held w.src hi).of_ok hrun (not_not.mp hall))
      · rename_i hi
        cases hfire
        refine hgood.ret hp ?_ _
        rcases hgood.jobs p w hp with heq | hal
        · exact heq
        · exact absurd hal.2 hi

/-- **Writers that share an open file never overwrite each other.**  Any number of processes call `write` on file `f`,
in any interleaving of the passes of `filewrite`.  As long as all calls that return have written all, the chunks of
all processes stand end to end in the file, in the order of their passes, those of a process in the order of its
calls; a call of at most `3 * BSIZE` bytes is one chunk. -/
theorem shared_writes (hl : Layout sb) {f : Fin NFILE} {e : Fin NINODE} {s₀ : State P} (h : Held sb s₀ f e)
    {as : List (Act P)} {t : Writers P} {es : List (Event P)}
    (hrun : run (step sb f) ⟨s₀, fun _ => none⟩ as = some t)
    (hes : trace (step sb f) (obs sb f) ⟨s₀, fun _ => none⟩ as = es) (hok : Succeeded es) :
    (t.fs.file f).off = (s₀.file f).off + (written es).length ∧
      readi sb e (s₀.file f).off (written es).length t.fs = .ok (written es, t.fs) ∧
      (∃ g, ReadsAs sb s₀ e g ∧ ReadsAs sb t.fs e
        (overlay g (s₀.file f).off (written es).length fun k => (written es).getD k 0)) ∧
      (∀ p, chunksOf p es = (callsOf p es).flatMap (fun c => pieces c.1 c.2.toNat) ++ progress (t.job p)) ∧
      ∀ p src n, (src, n) ∈ callsOf p es → (pieces src n.toNat).flatten = (List.range n.toNat).map (srcByte src) ∧
        (0 < n → n ≤ 3 * BSIZE → (p, (List.range n.toNat).map (srcByte src)) ∈ chunks es) := by
  have hgood : Good sb f e s₀ t es := by
    have hinv : Succeeded ([] ++ trace (step sb f) (obs sb f) ⟨s₀, fun _ => none⟩ as) →
        Good sb f e s₀ t ([] ++ trace (step sb f) (obs sb f) ⟨s₀, fun _ => none⟩ as) :=
      run_trace_invariant (I := fun t es => Succeeded es → Good sb f e s₀ t es)
        (fun _ _ _ _ (_ : True) hs hI hk => good_step hl hs hI hk) hrun (fun _ _ => trivial) fun _ => .start h
    rw [nil_append, hes] at hinv
    exact hinv hok
  have hread : ReadsAs sb t.fs e
      (overlay (Held.byte sb s₀ e) (s₀.file f).off (written es).length fun k => (written es).getD k 0) :=
    readsAs_of_solid hgood.held.sync.symm hgood.held.inum hgood.held.type hgood.held.solid hgood.bytes
  refine ⟨hgood.off, hgood.readi, ⟨Held.byte sb s₀ e, ?_, hread⟩, hgood.calls,
    fun p src n hmem => ⟨flatten_pieces src _, fun hpos hn => ?_⟩⟩
  · exact readsAs_of_solid h.sync.symm h.inum h.type h.solid fun _ _ => rfl
  · have hpiece : (List.range n.toNat).map (srcByte src) ∈ chunksOf p es := by
      rw [hgood.calls p, mem_append]
      refine .inl (mem_flatMap.mpr ⟨(src, n), hmem, ?_⟩)
      have hB := CHUNK_eq
      rw [pieces_small src (by omega) (by omega)]
      exact mem_singleton.mpr rfl
    obtain ⟨⟨q, bytes⟩, hfil, rfl⟩ := mem_map.mp hpiece
    obtain ⟨hin, hq⟩ := mem_filter.mp hfil
    rw [← of_decide_eq_true hq]
    exact hin

omit [DecidableEq P] in
lemma held_of_run [DecidableEq P] [Fintype P] (h : Image sb d p0) {as : List (P × Op P)}
    (hrun : run (stepOp sb) (boot d p0) as = some s) (htype : (s.file f).type = .inode)
    (hw : (s.file f).writable = true) : Held sb s f (s.file f).ip := by
  obtain ⟨hinv, -⟩ := h.run_inv hrun
  have href : 0 < (s.ino (s.file f).ip).ref := by
    rw [hinv.refs]
    have := holders_pos_of_file (s := s) (f := f) (by rw [htype]; exact nofun)
    omega
  have hvalid := (hinv.writable f htype hw).1
  obtain ⟨hsync, ht⟩ := hinv.sync _ href hvalid
  refine ⟨rfl, href, ?_, hvalid, hsync, hinv.range _ href, ht, hinv.disk.owned.marked, hinv.disk.solid trivial⟩
  by_contra hl
  exact absurd ((hinv.locks _).mp (by simpa using hl)) (not_mem_nil)

/-- A process makes a file, open for writing. -/
def madeFile : Option (State Bool) :=
  run (stepOp smallSb) (boot emptyDisk true) [(true, .call (.open (userPath [102]) (O_CREATE + O_RDWR)))]

/-- Two processes write to it. -/
def sharedRun : List (Act Bool) :=
  [.call true (fun k => some (k + 1)) 3, .call false (fun _ => some 9) 2, .next false, .next true, .next true, .next false]

theorem shared_writes_sharedRun : ∃ s₀ t, madeFile = some s₀ ∧
    run (step smallSb 0) ⟨s₀, fun _ => none⟩ sharedRun = some t ∧
    readi smallSb (s₀.file 0).ip (s₀.file 0).off 5 t.fs = .ok ([9, 9, 1, 2, 3], t.fs) := by
  have hmade : madeFile.isSome := by decide +kernel
  have hopen : madeFile.all fun s => (s.file 0).type = .inode ∧ (s.file 0).writable = true := by decide +kernel
  have hruns : madeFile.all fun s => (run (step smallSb 0) ⟨s, fun _ => none⟩ sharedRun).isSome := by decide +kernel
  have hwrote : madeFile.all fun s =>
      (written (trace (step smallSb 0) (obs smallSb 0) ⟨s, fun _ => none⟩ sharedRun)) = [9, 9, 1, 2, 3] := by
    decide +kernel
  have hall : madeFile.all fun s => (trace (step smallSb 0) (obs smallSb 0) ⟨s, fun _ => none⟩ sharedRun).all fun
      | .wrote _ _ => true
      | .returned _ _ n r => 0 ≤ n ∧ r = n := by decide +kernel
  obtain ⟨s₀, hs₀⟩ := Option.isSome_iff_exists.mp hmade
  rw [hs₀, Option.all_some] at hopen hruns hwrote hall
  obtain ⟨htype, hw⟩ := of_decide_eq_true hopen
  obtain ⟨t, ht⟩ := Option.isSome_iff_exists.mp hruns
  have hok : Succeeded (trace (step smallSb 0) (obs smallSb 0) ⟨s₀, fun _ => none⟩ sharedRun) := by
    intro p src n r hmem
    exact of_decide_eq_true (all_eq_true.mp hall _ hmem)
  have h := (shared_writes smallSb_layout (held_of_run image_emptyDisk hs₀ htype hw) ht rfl hok).2.1
  rw [of_decide_eq_true hwrote] at h
  exact ⟨s₀, t, hs₀, ht, h⟩

end Writers

end Xv6.Fs
