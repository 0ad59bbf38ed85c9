import Xv6.Fs.SharedFile

/-!
# How much a read delivers

`read` passes a signed count on to `readi`, where it is unsigned.  Here `readi` and `fileread` are run with a
user destination of which we count the bytes that `copyout` has stored, those of a call that fails included.
-/

namespace Xv6.Fs

open Lib Log

/-- The number of bytes that `copyout` stores, `m` from `a` on: it stops at the first address that is not mapped. -/
def stored (dst : ℕ → Bool) : ℕ → ℕ → ℕ
  | _, 0 => 0
  | a, m + 1 => if dst a then stored dst (a + 1) m + 1 else 0

lemma stored_le (dst : ℕ → Bool) (a m : ℕ) : stored dst a m ≤ m := by
  induction m generalizing a with
  | zero => exact le_rfl
  | succ m ih =>
    rw [stored]
    split
    · exact Nat.succ_le_succ (ih (a + 1))
    · exact Nat.zero_le _

lemma stored_pos {dst : ℕ → Bool} (hm : 0 < m) : 0 < stored dst a m ↔ dst a = true := by
  obtain ⟨m, rfl⟩ := Nat.exists_eq_add_of_lt hm
  rw [Nat.zero_add, stored]
  split
  · exact ⟨fun _ => ‹_›, fun _ => Nat.succ_pos _⟩
  · exact ⟨fun h => absurd h (Nat.lt_irrefl 0), fun h => absurd h ‹_›⟩

section

variable {P : Type} (sb : Superblock)

/-- The loop of `readi`: the value returned and the number of user bytes stored, from the first on. -/
def readStoreLoop (e : Fin NINODE) (dst : ℕ → Bool) (n : ℕ) : ℕ → ℕ → ℕ → M P (ℤ × ℕ)
  | 0, tot, _ => pure (tot, tot)
  | fuel + 1, tot, off =>
    if tot < n then do
      let addr ← bmapOutside sb e (off / BSIZE)
      if addr = 0 then pure (tot, tot)
      else do
        let m := min (n - tot) (BSIZE - off % BSIZE)
        if stored dst tot m = m then readStoreLoop e dst n fuel (tot + m) (off + m)
        else pure (-1, tot + stored dst tot m)
    else pure (tot, tot)

def readiStore (e : Fin NINODE) (dst : ℕ → Bool) (off n : ℕ) : M P (ℤ × ℕ) := do
  let ip ← inode e
  if off > ip.d.size ∨ (off + n) % 2 ^ 32 < off then pure (0, 0)
  else
    let n := if off + n > ip.d.size then ip.d.size - off else n
    readStoreLoop sb e dst n n 0 off

/-- `fileread` of a file that is an inode. -/
def filereadStore (f : Fin NFILE) (dst : ℕ → Bool) (n : ℤ) : M P (ℤ × ℕ) := do
  let x ← file f
  if x.readable = false then pure (-1, 0)
  else do
    ilock sb x.ip
    let r ← readiStore sb x.ip dst x.off (n % 2 ^ 32).toNat
    if 0 < r.1 then setFile f fun x => { x with off := x.off + r.1.toNat } else pure ()
    iunlock x.ip
    pure r

end

/-! ### The value is that of `fileread` -/

section

variable {P : Type} {sb : Superblock}

lemma all_iff_stored (dst : ℕ → Bool) (a m : ℕ) : ((List.range m).all fun k => dst (a + k)) = true ↔ stored dst a m = m := by
  induction m generalizing a with
  | zero => simp [stored]
  | succ m ih =>
    rw [List.range_succ_eq_map, List.all_cons, List.all_map, Bool.and_eq_true, stored]
    have hshift : ((fun k => dst (a + k)) ∘ Nat.succ) = fun k => dst (a + 1 + k) := by
      funext k
      exact congrArg dst (by omega)
    rw [hshift, ih (a + 1), Nat.add_zero]
    split
    · simp [*]
    · simp [*]

lemma readUserLoop_fst (e : Fin NINODE) (dst : ℕ → Bool) (n fuel tot off : ℕ) :
    (Prod.fst <$> readUserLoop sb e dst n fuel tot off : M P ℤ) = Prod.fst <$> readStoreLoop sb e dst n fuel tot off := by
  induction fuel generalizing tot off with
  | zero => rfl
  | succ fuel ih =>
    rw [readUserLoop, readStoreLoop]
    split
    · simp only [map_bind]
      refine bind_congr fun addr => ?_
      split
      · rfl
      · simp only [bread, map_bind, bind_assoc, pure_bind]
        funext s
        by_cases hall : stored dst tot (min (n - tot) (BSIZE - off % BSIZE)) = min (n - tot) (BSIZE - off % BSIZE)
        · rw [if_pos hall]
          simp only [(all_iff_stored dst tot _).mpr hall, if_true, map_bind, map_pure]
          rw [← ih]
          rfl
        · have hno := mt (all_iff_stored dst tot _).mp hall
          simp only [hno, if_neg hall]
          rfl
    · rfl

lemma readiUser_fst (e : Fin NINODE) (dst : ℕ → Bool) (off n : ℕ) :
    (Prod.fst <$> readiUser sb e dst off n : M P ℤ) = Prod.fst <$> readiStore sb e dst off n := by
  unfold readiUser readiStore
  simp only [map_bind]
  refine bind_congr fun ip => ?_
  split
  · rfl
  · exact readUserLoop_fst e dst _ _ 0 off

lemma fileread_fst (hf : (s.file f).type = .inode) (dst : ℕ → Bool) (n input : ℤ) :
    (Prod.fst <$> fileread sb f dst n input : M P ℤ) s = (Prod.fst <$> filereadStore sb f dst n : M P ℤ) s := by
  -- what follows `readi` depends on its value only
  have htail : ∀ {α : Type} (m : M P (ℤ × α)), Prod.fst <$> (do
      ilock sb (s.file f).ip
      let r ← m
      if 0 < r.1 then setFile f fun x => { x with off := x.off + r.1.toNat } else pure ()
      iunlock (s.file f).ip
      pure r : M P (ℤ × α)) = (do
      ilock sb (s.file f).ip
      let v ← Prod.fst <$> m
      if 0 < v then setFile f fun x => { x with off := x.off + v.toNat } else pure ()
      iunlock (s.file f).ip
      pure v) := by
    intro α m
    simp only [map_eq_pure_bind, bind_assoc, pure_bind]
    refine bind_congr fun _ => bind_congr fun r => ?_
    split
    · simp only [bind_assoc, pure_bind]
    · simp only [bind_assoc, pure_bind]
  change (Prod.fst <$> (if (s.file f).readable = false then pure (-1, []) else _) : M P ℤ) s =
    (Prod.fst <$> (if (s.file f).readable = false then pure (-1, 0) else _) : M P ℤ) s
  by_cases hr : (s.file f).readable = false
  · rw [if_pos hr, if_pos hr]
    rfl
  · rw [if_neg hr, if_neg hr, hf]
    rw [htail, htail, readiUser_fst]

end

/-! ### The bound -/

section

variable {P : Type} {sb : Superblock} {e : Fin NINODE} {ok : Stop → Prop} {I : State P → Prop} {dst : ℕ → Bool}
  {S : Prop}

/-- `S` says that there is a block for every offset. -/
lemma readStoreLoop_bound {size n : ℕ}
    (hbmap : ∀ s off, I s → off < size → wp (bmapOutside sb e (off / BSIZE)) ok (fun a s' => I s' ∧ (S → a ≠ 0)) s)
    (fuel tot off : ℕ)
    (hfuel : n - tot ≤ fuel) (htot : tot ≤ n) (hend : off + (n - tot) ≤ size) (h : I s) :
    wp (readStoreLoop sb e dst n fuel tot off) ok (fun r s' => I s' ∧ tot ≤ r.2 ∧ r.2 ≤ n ∧ (r.1 = -1 ∨ r.1 = r.2) ∧
      (tot < n → dst tot = false → r.2 = tot) ∧ (tot < n → dst tot = true → S → tot < r.2)) s := by
  induction fuel generalizing tot off s with
  | zero =>
    obtain rfl : tot = n := by omega
    exact ⟨h, le_rfl, le_rfl, .inr rfl, fun hlt => absurd hlt (Nat.lt_irrefl _), fun hlt => absurd hlt (Nat.lt_irrefl _)⟩
  | succ fuel ih =>
    rw [readStoreLoop]
    refine wp_ite.mpr ⟨fun hlt => ?_, fun hlt => ?_⟩
    · rw [wp_bind]
      refine (hbmap s off h (by omega)).mono fun addr s1 ⟨h1, hsolid⟩ => wp_ite.mpr ⟨fun h0 => ?_, fun _ => ?_⟩
      · exact ⟨h1, le_rfl, htot, .inr rfl, fun _ _ => rfl, fun _ _ hs => absurd h0 (hsolid hs)⟩
      · have hmod := Nat.mod_lt off (show 0 < BSIZE by decide)
        generalize hm : min (n - tot) (BSIZE - off % BSIZE) = m
        have hle := stored_le dst tot m
        have hpos : 0 < stored dst tot m ↔ dst tot = true := stored_pos (by omega)
        refine wp_ite.mpr ⟨fun hall => ?_, fun hpart => ?_⟩
        · refine (ih (tot + m) (off + m) (by omega) (by omega) (by omega) h1).mono ?_
          rintro r s2 ⟨h2, hge, hr, hv, -, -⟩
          have hmapped : dst tot = true := hpos.mp (by omega)
          refine ⟨h2, by omega, hr, hv, fun _ hno => ?_, fun _ _ _ => by omega⟩
          rw [hmapped] at hno
          cases hno
        · refine ⟨h1, Nat.le_add_right _ _, by omega, .inl rfl, fun _ hno => ?_, fun _ hyes _ => ?_⟩
          · have : ¬ 0 < stored dst tot m := by rw [hpos, hno]; decide
            omega
          · have := hpos.mpr hyes
            omega
    · obtain rfl : tot = n := by omega
      exact ⟨h, le_rfl, le_rfl, .inr rfl, fun hlt' => absurd hlt' hlt, fun hlt' => absurd hlt' hlt⟩

/-- The counts for which `readi` delivers no more than was asked for: those that are not negative, and those
for which it finds nothing to deliver. -/
def Asked (n : ℤ) (off size : ℕ) (dst : ℕ → Bool) : Prop :=
  0 ≤ n ∨ size ≤ off ∨ (off + (n % 2 ^ 32).toNat) % 2 ^ 32 < off ∨ dst 0 = false

/-- What `readi` returns and stores. -/
structure Delivered (n : ℤ) (off size : ℕ) (dst : ℕ → Bool) (S : Prop) (r : ℤ × ℕ) : Prop where
  value : r.1 = -1 ∨ r.1 = r.2
  asked : Asked n off size dst → r.1 ≤ max n 0 ∧ (r.2 : ℤ) ≤ max n 0
  beyond : S → ¬ Asked n off size dst → max n 0 < (r.2 : ℤ)

lemma Asked.delivered (h : Asked n off size dst) : Delivered n off size dst S (0, 0) where
  value := .inr rfl
  asked _ := ⟨le_max_right _ _, le_max_right _ _⟩
  beyond _ hno := absurd h hno

lemma readiStore_bound (hint : -2 ^ 31 ≤ n) {off : ℕ} (h : I s)
    (hbmap : ∀ s1 off, I s1 → off < (s.ino e).d.size → wp (bmapOutside sb e (off / BSIZE)) ok
      (fun a s' => I s' ∧ (S → a ≠ 0)) s1) :
    wp (readiStore sb e dst off (n % 2 ^ 32).toNat) ok
      (fun r s' => I s' ∧ Delivered n off (s.ino e).d.size dst S r) s := by
  simp only [readiStore, inode, wp_bind, wp_read, wp_pure]
  refine wp_ite.mpr ⟨fun hc => ⟨h, Asked.delivered (hc.elim (fun hend => .inr (.inl hend.le)) fun hwrap =>
    .inr (.inr (.inl hwrap)))⟩, fun hc => ?_⟩
  generalize hcount : (n % 2 ^ 32).toNat = c at hc ⊢
  generalize hsize : (s.ino e).d.size = size at hc hbmap ⊢
  have hle : (if off + c > size then size - off else c) = min c (size - off) := by split <;> omega
  rw [hle]
  refine (readStoreLoop_bound hbmap _ 0 off le_rfl (Nat.zero_le _) (by omega) h).mono ?_
  rintro ⟨v, k⟩ s' ⟨h', -, hk, hv, hfirst, hmore⟩
  simp only at hk hv hfirst hmore
  refine ⟨h', hv, fun hask => ?_, fun hs hno => ?_⟩
  · have hkn : (k : ℤ) ≤ max n 0 := by
      obtain hn | hend | hwrap | hdst := hask
      · omega
      · omega
      · omega
      · by_cases hpos : 0 < min c (size - off)
        · rw [hfirst hpos hdst]
          exact le_max_right _ _
        · omega
    simp only
    omega
  · unfold Asked at hno
    push Not at hno
    obtain ⟨hn, hend, hwrap, hdst⟩ := hno
    have hc0 : 0 < c := by omega
    have hk0 := hmore (by omega) (by simpa using hdst) hs
    simp only
    omega

/-- The tables of inodes and of files. -/
def State.tables (s : State P) : (Fin NINODE → Inode) × (Fin NFILE → File) := (s.ino, s.file)

lemma balloc_tables (s : State P) : wp (balloc sb) ok (fun _ s' => s'.tables = s.tables) s := by
  refine (balloc_first s).mono fun b s1 h1 => ?_
  rcases h1 with ⟨-, rfl, -⟩ | ⟨-, -, -, rfl⟩
  · rfl
  · rfl

lemma bmapOutside_tables (s : State P) (bn : ℕ) :
    wp (bmapOutside sb e bn) (fun _ => True) (fun _ s' => s'.tables = s.tables) s := by
  have hballoc : ∀ s1 : State P, wp (ballocOutside sb) (fun _ => True) (fun _ s' => s'.tables = s1.tables) s1 := by
    intro s1
    rw [ballocOutside, wp_bind]
    exact (balloc_tables s1).mono fun b s2 h2 => wp_ite.mpr ⟨fun _ => h2, fun _ => trivial⟩
  have hmap : ∀ k, wp (mapAddrOutside sb e k) (fun _ => True) (fun _ s' => s'.tables = s.tables) s := by
    intro k
    simp only [mapAddrOutside, inode, wp_bind, wp_read, wp_pure]
    exact wp_ite.mpr ⟨fun _ => hballoc s, fun _ => rfl⟩
  unfold bmapOutside
  refine wp_ite.mpr ⟨fun _ => hmap bn, fun _ => wp_ite.mpr ⟨fun _ => ?_, fun _ => trivial⟩⟩
  rw [wp_bind]
  refine (hmap NDIRECT).mono fun addr s1 h1 => wp_ite.mpr ⟨fun _ => h1, fun _ => ?_⟩
  simp only [bread, wp_bind, wp_read, wp_pure]
  refine wp_ite.mpr ⟨fun _ => ?_, fun _ => h1⟩
  exact (hballoc s1).mono fun b s2 h2 => h2.trans h1

lemma ilock_tables (s : State P) : wp (ilock sb e) (fun _ => True) (fun _ s1 => s1.file = s.file ∧
    (s1.ino e).locked = true ∧ 1 ≤ (s1.ino e).ref) s := by
  simp only [ilock, inode, setInode, wp_bind, wp_read, wp_pure]
  refine wp_ite.mpr ⟨fun _ => trivial, fun href => wp_ite.mpr ⟨fun _ => trivial, fun _ => ?_⟩⟩
  have href : 1 ≤ (s.ino e).ref := Nat.le_of_not_lt href
  simp only [wp_bind, wp_modify]
  refine wp_ite.mpr ⟨fun _ => ⟨rfl, ?_⟩, fun _ => ?_⟩
  · simp [State.setIno, href]
  · simp only [wp_bind, wp_read, wp_modify]
    refine wp_ite.mpr ⟨fun _ => trivial, fun _ => ⟨rfl, ?_⟩⟩
    simp [State.setIno, href]

lemma filereadStore_locked {n : ℤ} (hint : -2 ^ 31 ≤ n) {f : Fin NFILE} {s s1 : State P} (hf : s1.file = s.file)
    (hlocked : (s1.ino e).locked = true) (href : 1 ≤ (s1.ino e).ref) (h : I s1) (hI : ∀ s2, I s2 → s2.tables = s1.tables)
    (hbmap : ∀ s2 off, I s2 → off < (s1.ino e).d.size → wp (bmapOutside sb e (off / BSIZE)) ok
      (fun a s' => I s' ∧ (S → a ≠ 0)) s2) :
    wp (do
      let r ← readiStore sb e dst (s.file f).off (n % 2 ^ 32).toNat
      if 0 < r.1 then setFile f fun x => { x with off := x.off + r.1.toNat } else pure ()
      iunlock e
      pure r) ok (fun r s' => Delivered n (s.file f).off (s1.ino e).d.size dst S r ∧
        (s'.ino e).d = (s1.ino e).d ∧ ((s'.file f).off : ℤ) = (s.file f).off + max r.1 0) s1 := by
  rw [wp_bind]
  refine (readiStore_bound hint h hbmap).mono fun r s2 ⟨h2, hr⟩ => ?_
  have htables := hI s2 h2
  have hino : s2.ino = s1.ino := congrArg Prod.fst htables
  have hfile : s2.file = s.file := (congrArg Prod.snd htables).trans hf
  have hopen : ¬ ((!(s1.ino e).locked) = true ∨ (s1.ino e).ref < 1) := by
    rw [hlocked]
    simp only [Bool.not_true, Bool.false_eq_true, false_or]
    omega
  dsimp only
  refine wp_ite.mpr ⟨fun hpos => ?_, fun hpos => ?_⟩
  · simp only [setFile, iunlock, inode, setInode, wp_bind, wp_read, wp_modify, wp_pure]
    rw [hino, if_neg hopen, wp_modify]
    refine ⟨hr, ?_, ?_⟩
    · simp [State.setIno]
    · simp only [State.setIno, Function.update_self, hfile]
      rw [max_eq_left hpos.le, Nat.cast_add, Int.toNat_of_nonneg hpos.le]
  · simp only [iunlock, inode, setInode, wp_bind, wp_read, wp_pure]
    rw [hino, if_neg hopen, wp_modify]
    refine ⟨hr, ?_, ?_⟩
    · simp [State.setIno, hino]
    · simp only [State.setIno, hfile]
      rw [max_eq_right (not_lt.mp hpos), add_zero]

end

section

variable {P : Type} {sb : Superblock} {dst : ℕ → Bool} {n : ℤ} {f : Fin NFILE} {s : State P}

lemma filereadStore_delivers (hint : -2 ^ 31 ≤ n) : wp (filereadStore sb f dst n) (fun _ => True) (fun r s' =>
    ((s'.file f).off : ℤ) = (s.file f).off + max r.1 0 ∧
    ((s.file f).readable = false ∨ Asked n (s.file f).off (s'.ino (s.file f).ip).d.size dst →
      r.1 ≤ max n 0 ∧ (r.2 : ℤ) ≤ max n 0)) s := by
  simp only [filereadStore, file, wp_bind, wp_read, wp_pure]
  refine wp_ite.mpr ⟨fun _ => ⟨by simp, fun _ => ⟨by simp only; omega, by simp⟩⟩, fun hr => ?_⟩
  rw [wp_bind]
  refine (ilock_tables s).mono ?_
  rintro _ s1 ⟨hf, hlocked, href⟩
  refine (filereadStore_locked hint hf hlocked href (I := fun s2 => s2.tables = s1.tables) (S := False) rfl
    (fun _ h => h) ?_).mono ?_
  · exact fun s2 off h2 _ => (bmapOutside_tables s2 _).mono fun _ s3 h3 => ⟨h3.trans h2, False.elim⟩
  · rintro r s' ⟨hdel, hsize, hoff⟩
    refine ⟨hoff, fun hask => hdel.asked ?_⟩
    rw [← hsize]
    exact hask.resolve_left hr

/-- A file that is held can always be read. -/
lemma Held.filereadStore_returns {e : Fin NINODE} (h : Held sb s f e) (hint : -2 ^ 31 ≤ n) :
    ∃ r s', filereadStore sb f dst n s = .ok (r, s') ∧ (r.1 ≤ max n 0 ∧ (r.2 : ℤ) ≤ max n 0 ↔
      (s.file f).readable = false ∨ Asked n (s.file f).off (s.ino e).d.size dst) := by
  refine (show wp (filereadStore sb f dst n) (fun _ => False) _ s from ?_).returns
  simp only [filereadStore, file, wp_bind, wp_read, wp_pure]
  refine wp_ite.mpr ⟨fun hr => iff_of_true ⟨by simp only; omega, by simp⟩ (.inl hr), fun hr => ?_⟩
  have href := h.ref
  simp only [ilock, inode, setInode, wp_bind, wp_read, wp_pure]
  rw [h.ip, if_neg (by omega), h.unlocked, if_neg Bool.false_ne_true]
  simp only [wp_bind, wp_modify]
  rw [h.valid, if_pos rfl, wp_pure]
  have hself : (s.setIno e fun ip => { ip with locked := true }).ino e = { s.ino e with locked := true } := by
    simp [State.setIno]
  generalize hs1 : s.setIno e (fun ip => { ip with locked := true }) = s1 at hself ⊢
  have hdisk : s1.disk = s.disk := by rw [← hs1]; rfl
  have hfile : s1.file = s.file := by rw [← hs1]; rfl
  have hd : (s1.ino e).d = (s.ino e).d := by rw [hself]
  refine (filereadStore_locked hint hfile (by rw [hself]) (by rwa [hself]) (I := fun s2 => s2 = s1) (S := True) rfl
    (fun _ h => by rw [h]) ?_).mono ?_
  · intro s2 off hs2 hoff
    rw [hs2]
    have hD : dinode sb s1.disk (s1.ino e).inum = (s1.ino e).d := by
      rw [hself, hdisk]
      exact h.sync.symm
    have hi : sb.Inum (s1.ino e).inum := by rw [hself]; exact h.inum
    have ht : (s1.ino e).d.type ≠ 0 := by rw [hself]; exact h.type
    have hslot : slot sb (dinode sb s1.disk) s1.disk ((s1.ino e).inum, dataSlot (off / BSIZE)) ≠ 0 := by
      rw [hdisk]
      refine h.solid.full _ hi (by rwa [← hdisk, hD]) _ ?_
      rw [← hdisk, hD]
      exact lt_of_le_of_lt (Nat.mul_div_le off BSIZE) hoff
    refine (bmapOutside_mapped hD hi ht hslot).mono fun a s2 h2 => ⟨h2.1, fun _ => ?_⟩
    rw [h2.2]
    exact hslot
  · rintro r s' ⟨hdel, -, -⟩
    rw [hd] at hdel
    refine ⟨fun hle => .inr (by_contra fun hno => ?_), fun hask => hdel.asked (hask.resolve_left hr)⟩
    exact absurd hle.2 (not_le.mpr (hdel.beyond trivial hno))

/-- **A read delivers no more than asked, unless the count is negative.**  Whenever `fileread` of an inode returns
`r`, having stored `k` bytes, the offset advances by `r` if that is positive, and both are at most `max n 0` if the
file is not open for reading or the count is `Asked`.  On a file that is held it returns, and delivers no more than
asked only then. -/
theorem fileread_bounded (hf : (s.file f).type = .inode) (hint : -2 ^ 31 ≤ n) :
    (∀ r k s', filereadStore sb f dst n s = .ok ((r, k), s') →
      (∀ input, (Prod.fst <$> fileread sb f dst n input : M P ℤ) s = .ok (r, s')) ∧
      ((s'.file f).off : ℤ) = (s.file f).off + max r 0 ∧
      ((s.file f).readable = false ∨ Asked n (s.file f).off (s'.ino (s.file f).ip).d.size dst →
        r ≤ max n 0 ∧ (k : ℤ) ≤ max n 0)) ∧
    ∀ e, Held sb s f e → ∃ r s', filereadStore sb f dst n s = .ok (r, s') ∧ (r.1 ≤ max n 0 ∧ (r.2 : ℤ) ≤ max n 0 ↔
      (s.file f).readable = false ∨ Asked n (s.file f).off (s.ino e).d.size dst) := by
  refine ⟨fun r k s' hrun => ⟨fun input => ?_, (filereadStore_delivers hint).of_ok hrun⟩, fun e he =>
    he.filereadStore_returns hint⟩
  rw [fileread_fst hf]
  simp only [Functor.map, hrun]
  rfl

end

/-- The root directory of an empty disk, open for reading as file 0. -/
def rootOpen : State Unit :=
  { rootHeld with file := fun _ => ⟨.inode, 1, true, false, 0, 0, 0⟩ }

theorem fileread_bounded_rootOpen : ∃ r k s', filereadStore smallSb 0 (fun _ => true) 10 rootOpen = .ok ((r, k), s') ∧
    r ≤ max 10 0 ∧ (k : ℤ) ≤ max 10 0 := by
  have hrun : (filereadStore smallSb 0 (fun _ => true) 10 rootOpen).toOption.isSome = true := by decide +kernel
  cases hres : filereadStore smallSb 0 (fun _ => true) 10 rootOpen with
  | error e =>
    rw [hres] at hrun
    cases hrun
  | ok x =>
    exact ⟨x.1.1, x.1.2, x.2, rfl, ((fileread_bounded rfl (by decide)).1 _ _ _ hres).2.2 (.inr (.inl (by decide)))⟩

/-- A read of -1 bytes returns the 1024 bytes there are. -/
theorem fileread_negative : ∃ s', filereadStore smallSb 0 (fun _ => true) (-1) rootOpen = .ok ((1024, 1024), s') := by
  have hrun : (filereadStore smallSb 0 (fun _ => true) (-1) rootOpen).toOption.map Prod.fst = some (1024, 1024) := by
    decide +kernel
  cases hres : filereadStore smallSb 0 (fun _ => true) (-1) rootOpen with
  | error e =>
    rw [hres] at hrun
    cases hrun
  | ok x =>
    rw [hres] at hrun
    obtain ⟨r, s'⟩ := x
    cases Option.some.inj hrun
    exact ⟨s', rfl⟩

end Xv6.Fs
