import Xv6.Fs.Calls

/-!
# `read`, `fstat` and `dup`

`fileread` runs outside of any transaction, where `log_write` panics, so `readi` must not allocate
there.  It does not where inodes have no holes.
-/

namespace Xv6.Fs

open Lib Log List

/-! ### `file.c` and `sysfile.c` -/

/-- `struct stat`, without the device. -/
structure Stat where
  ino : ℕ
  type : ℕ
  nlink : ℕ
  size : ℕ

def stati (ip : Inode) : Stat := ⟨ip.inum, ip.d.type, ip.d.nlink, ip.d.size⟩

section

variable {P : Type} (sb : Superblock)

/-- `balloc` outside of a transaction: it panics at its first `log_write`. -/
def ballocOutside : M P ℕ := do
  let b ← balloc sb
  if b = 0 then pure 0 else panic .logWriteOutside

def mapAddrOutside (e : Fin NINODE) (k : ℕ) : M P ℕ := do
  let ip ← inode e
  if ip.d.addrs k = 0 then ballocOutside sb else pure (ip.d.addrs k)

/-- `bmap` outside of a transaction. -/
def bmapOutside (e : Fin NINODE) (bn : ℕ) : M P ℕ :=
  if bn < NDIRECT then mapAddrOutside sb e bn
  else if bn - NDIRECT < NINDIRECT then do
    let addr ← mapAddrOutside sb e NDIRECT
    if addr = 0 then pure 0
    else do
      let bp ← bread addr
      if bp.le (4 * (bn - NDIRECT)) 4 = 0 then ballocOutside sb
      else pure (bp.le (4 * (bn - NDIRECT)) 4)
  else panic .bmapOutOfRange

/-- The loop of `readi` with a user destination, of which `dst` says where it is mapped: the value
returned, -1 when `copyout` fails, and the bytes copied before. -/
def readUserLoop (e : Fin NINODE) (dst : ℕ → Bool) (n : ℕ) : ℕ → ℕ → ℕ → M P (ℤ × List ℕ)
  | 0, tot, _ => pure (tot, [])
  | fuel + 1, tot, off =>
    if tot < n then do
      let addr ← bmapOutside sb e (off / BSIZE)
      if addr = 0 then pure (tot, [])
      else do
        let bp ← bread addr
        let m := min (n - tot) (BSIZE - off % BSIZE)
        if (List.range m).all fun k => dst (tot + k) then do
          let r ← readUserLoop e dst n fuel (tot + m) (off + m)
          pure (r.1, (List.range m).map (fun k => bp.get (off % BSIZE + k)) ++ r.2)
        else pure (-1, [])
    else pure (tot, [])

/-- `readi` with a user destination, as `fileread` calls it. -/
def readiUser (e : Fin NINODE) (dst : ℕ → Bool) (off n : ℕ) : M P (ℤ × List ℕ) := do
  let ip ← inode e
  if off > ip.d.size ∨ (off + n) % 2 ^ 32 < off then pure (0, [])
  else
    let n := if off + n > ip.d.size then ip.d.size - off else n
    readUserLoop sb e dst n n 0 off

/-- `fileread`; the argument `n` is taken as a `uint`, and `input` is what the console returns. -/
def fileread (f : Fin NFILE) (dst : ℕ → Bool) (n input : ℤ) : M P (ℤ × List ℕ) := do
  let x ← file f
  if x.readable = false then pure (-1, [])
  else
    match x.type with
    | .device => if x.major = CONSOLE then pure (input, []) else pure (-1, [])
    | .inode => do
      ilock sb x.ip
      let r ← readiUser sb x.ip dst x.off (n % 2 ^ 32).toNat
      if 0 < r.1 then setFile f fun x => { x with off := x.off + r.1.toNat } else pure ()
      iunlock x.ip
      pure r
    | .none => panic .fileread

/-- `filestat`; `copied` says whether `copyout` succeeds. -/
def filestat (f : Fin NFILE) (copied : Bool) : M P (ℤ × Option Stat) := do
  let x ← file f
  if x.type = .inode ∨ x.type = .device then do
    ilock sb x.ip
    let ip ← inode x.ip
    iunlock x.ip
    if copied then pure (0, some (stati ip)) else pure (-1, none)
  else pure (-1, none)

def sysRead (p : P) (fd : ℕ) (dst : ℕ → Bool) (n input : ℤ) : M P ℤ := do
  match ← argfd p fd with
  | none => pure (-1)
  | some (_, f) => do
    let r ← fileread sb f dst n input
    pure r.1

def sysFstat (p : P) (fd : ℕ) (copied : Bool) : M P ℤ := do
  match ← argfd p fd with
  | none => pure (-1)
  | some (_, f) => do
    let r ← filestat sb f copied
    pure r.1

def sysDup [DecidableEq P] (p : P) (fd : ℕ) : M P ℤ := do
  match ← argfd p fd with
  | none => pure (-1)
  | some (_, f) => do
    match ← fdalloc p f with
    | none => pure (-1)
    | some fd => do
      filedup f
      pure fd.1

/-- All calls on files. -/
inductive Op (P : Type) where
  | call (c : Call P)
  | read (fd : ℕ) (dst : ℕ → Bool) (n input : ℤ)
  | fstat (fd : ℕ) (copied : Bool)
  | dup (fd : ℕ)

def op [DecidableEq P] (p : P) (cwd : Fin NINODE) : Op P → M P ℤ
  | .call c => call sb p cwd c
  | .read fd dst n input => sysRead sb p fd dst n input
  | .fstat fd copied => sysFstat sb p fd copied
  | .dup fd => sysDup p fd

/-- The outcome of a call of process `p`; `none` when the process has exited. -/
def invokeOp [DecidableEq P] (s : State P) (p : P) (o : Op P) : Option (Except Stop (ℤ × State P)) :=
  (s.proc p).cwd.map fun cwd => op sb p cwd o s

/-- A call that returns. -/
def stepOp [DecidableEq P] (s : State P) (a : P × Op P) : Option (State P) :=
  match invokeOp sb s a.1 a.2 with
  | some (.ok (_, s')) => some s'
  | _ => none

end

/-! ### Reading where there are no holes -/

section

variable {P : Type} {sb : Superblock} {s : State P} {ok : Stop → Prop} {e : Fin NINODE}

lemma bmapOutside_mapped (hD : D (s.ino e).inum = (s.ino e).d) (hi : sb.Inum (s.ino e).inum) (ht : (s.ino e).d.type ≠ 0)
    (hslot : slot sb D s.disk ((s.ino e).inum, dataSlot n) ≠ 0) :
    wp (bmapOutside sb e n) ok
      (fun a s' => s' = s ∧ a = slot sb D s.disk ((s.ino e).inum, dataSlot n)) s := by
  unfold bmapOutside
  rcases slot_dataSlot_cases hD hi ht hslot with ⟨hdir, heq⟩ | ⟨hdir, hind, haddr, heq⟩
  · rw [heq] at hslot ⊢
    rw [if_pos hdir]
    simp only [mapAddrOutside, inode, wp_bind, wp_read, wp_pure]
    rw [if_neg hslot, wp_pure]
    exact ⟨rfl, rfl⟩
  · rw [heq] at hslot ⊢
    rw [if_neg hdir, if_pos hind]
    simp only [mapAddrOutside, inode, bread, wp_bind, wp_read, wp_pure]
    rw [if_neg haddr, wp_pure, if_neg haddr]
    simp only [wp_bind, wp_read, wp_pure]
    rw [if_neg hslot, wp_pure]
    exact ⟨rfl, rfl⟩

/-- The `n` bytes of inode `i` from `off` on. -/
def dataBytes (sb : Superblock) (D : ℕ → Dinode) (d : Disk) (i off n : ℕ) : List ℕ :=
  (List.range n).map fun k => dataByte sb D d i (off + k)

section

variable {D : ℕ → Dinode} {d : Disk} {i : ℕ}

lemma dataBytes_append (off m n : ℕ) :
    dataBytes sb D d i off m ++ dataBytes sb D d i (off + m) n = dataBytes sb D d i off (m + n) := by
  unfold dataBytes
  rw [range_add, map_append, map_map]
  simp only [Function.comp_def, Nat.add_assoc]

lemma div_mod_block {off m k : ℕ} (hm : off % BSIZE + m ≤ BSIZE) (hk : k < m) :
    (off + k) / BSIZE = off / BSIZE ∧ (off + k) % BSIZE = off % BSIZE + k := by
  rw [BSIZE_eq] at hm ⊢
  omega

lemma dataBytes_block {off m : ℕ} (hm : off % BSIZE + m ≤ BSIZE) :
    (List.range m).map (fun k => (d (slot sb D d (i, dataSlot (off / BSIZE)))).get (off % BSIZE + k)) =
      dataBytes sb D d i off m := by
  refine map_congr_left fun k hk => ?_
  obtain ⟨hdiv, hmod⟩ := div_mod_block hm (mem_range.mp hk)
  unfold dataByte
  rw [hdiv, hmod]

end

/-- Byte `k` of the contents of entry `e`. -/
def byteAt (sb : Superblock) (s : State P) (e : Fin NINODE) (k : ℕ) : ℕ :=
  (s.disk (slot sb (dinode sb s.disk) s.disk ((s.ino e).inum, dataSlot (k / BSIZE)))).get (k % BSIZE)

/-- The bytes of the contents from `off` on. -/
def bytesAt (sb : Superblock) (s : State P) (e : Fin NINODE) (off n : ℕ) : List ℕ :=
  (List.range n).map fun k => byteAt sb s e (off + k)

lemma bytesAt_eq (off n : ℕ) :
    bytesAt sb s e off n = dataBytes sb (dinode sb s.disk) s.disk (s.ino e).inum off n := rfl

/-- The number of bytes that `readi` finds. -/
def readable (s : State P) (e : Fin NINODE) (off n : ℕ) : ℕ :=
  if off > (s.ino e).d.size ∨ (off + n) % 2 ^ 32 < off then 0 else min n ((s.ino e).d.size - off)

section

variable {D : ℕ → Dinode} (hD : D (s.ino e).inum = (s.ino e).d) (hi : sb.Inum (s.ino e).inum)
  (ht : (s.ino e).d.type ≠ 0)

include hD hi ht

lemma readLoop_range (fuel off n : ℕ) (hfuel : n ≤ fuel)
    (hrange : ∀ k, off ≤ k → k < off + n → slot sb D s.disk ((s.ino e).inum, dataSlot (k / BSIZE)) ≠ 0) :
    wp (readLoop sb e fuel off n) ok
      (fun bytes s' => s' = s ∧ bytes = dataBytes sb D s.disk (s.ino e).inum off n) s := by
  induction fuel generalizing off n with
  | zero =>
    obtain rfl : n = 0 := Nat.le_zero.mp hfuel
    exact ⟨rfl, rfl⟩
  | succ fuel ih =>
    rw [readLoop]
    refine wp_ite.mpr ⟨fun hn => ⟨rfl, by rw [hn]; rfl⟩, fun hn => ?_⟩
    have hslot := hrange off le_rfl (by omega)
    rw [wp_bind]
    refine (bmap_mapped hD hi ht hslot).mono ?_
    rintro a s' ⟨rfl, rfl⟩
    rw [if_neg hslot]
    simp only [bread, wp_bind, wp_read, wp_pure]
    -- each pass reads at least a byte, all from one block
    have hmod := Nat.mod_lt off (show 0 < BSIZE by decide)
    generalize hm : min n (BSIZE - off % BSIZE) = m
    refine (ih (off + m) (n - m) (by omega) fun k h1 h2 => hrange k (by omega) (by omega)).mono ?_
    rintro rest s1 ⟨hs1, rfl⟩
    refine ⟨hs1, ?_⟩
    rw [dataBytes_block (by omega), dataBytes_append, show m + (n - m) = n by omega]

variable (hbelow : ∀ k, k < (s.ino e).d.size → slot sb D s.disk ((s.ino e).inum, dataSlot (k / BSIZE)) ≠ 0)

include hbelow

/-- **`readi` into kernel memory** returns the bytes there are, and changes nothing. -/
lemma readi_data (off n : ℕ) : wp (readi sb e off n) ok (fun bytes s' => s' = s ∧
      bytes = dataBytes sb D s.disk (s.ino e).inum off (readable s e off n)) s := by
  simp only [readi, inode, wp_bind, wp_read, wp_pure]
  unfold readable
  refine wp_ite.mpr ⟨fun hc => ⟨rfl, by rw [if_pos hc]; rfl⟩, fun hc => ?_⟩
  have hle : (if off + n > (s.ino e).d.size then (s.ino e).d.size - off else n) = min n ((s.ino e).d.size - off) := by
    split <;> omega
  rw [if_neg hc, hle]
  exact readLoop_range hD hi ht _ off _ (min_le_left _ _) fun k _ hk => hbelow k (by omega)

end

variable [Fintype P] {z : Sel} {L : List (Fin NINODE × ℕ)} {K : List (Fin NINODE)}
  (h : Inv sb z s L K) (hs : z.solid) (hpos : 0 < (s.ino e).ref) (hv : (s.ino e).valid = true)

include h hs hpos hv

lemma slot_below (off : ℕ) (hoff : off < (s.ino e).d.size) :
    slot sb (dinode sb s.disk) s.disk ((s.ino e).inum, dataSlot (off / BSIZE)) ≠ 0 := by
  obtain ⟨hsync, ht⟩ := h.sync e hpos hv
  refine (h.disk.solid hs).full _ (h.range e hpos) (by rwa [← hsync]) _ ?_
  rw [← hsync]
  exact lt_of_le_of_lt (Nat.mul_div_le off BSIZE) hoff

lemma readi_solid (off n : ℕ) :
    wp (readi sb e off n) ok (fun bytes s' => s' = s ∧ bytes = bytesAt sb s e off (readable s e off n)) s := by
  obtain ⟨hsync, ht⟩ := h.sync e hpos hv
  exact readi_data hsync.symm (h.range e hpos) ht (slot_below h hs hpos hv) off n

lemma readUserLoop_solid (dst : ℕ → Bool) (n fuel tot off : ℕ) (hle : tot ≤ n) (hfuel : n - tot ≤ fuel)
    (hend : off + (n - tot) ≤ (s.ino e).d.size) :
    wp (readUserLoop sb e dst n fuel tot off) ok (fun r s' => s' = s ∧
      (r = (↑n, bytesAt sb s e off (n - tot)) ∨ r.1 = -1 ∧ ∃ k, dst k = false)) s := by
  induction fuel generalizing tot off with
  | zero =>
    obtain rfl : tot = n := by omega
    exact ⟨rfl, .inl (by rw [Nat.sub_self]; rfl)⟩
  | succ fuel ih =>
    rw [readUserLoop]
    refine wp_ite.mpr ⟨fun hlt => ?_, fun hlt => ?_⟩
    · obtain ⟨hsync, ht⟩ := h.sync e hpos hv
      have hslot := slot_below h hs hpos hv off (by omega)
      rw [wp_bind]
      refine (bmapOutside_mapped hsync.symm (h.range e hpos) ht hslot).mono ?_
      rintro a s' ⟨rfl, rfl⟩
      rw [if_neg hslot]
      simp only [bread, wp_bind, wp_read, wp_pure]
      have hmod := Nat.mod_lt off (show 0 < BSIZE by decide)
      generalize hm : min (n - tot) (BSIZE - off % BSIZE) = m
      refine wp_ite.mpr ⟨fun _ => ?_, fun hbad => ⟨rfl, .inr ⟨rfl, ?_⟩⟩⟩
      · rw [wp_bind]
        refine (ih (tot + m) (off + m) (by omega) (by omega) (by omega)).mono ?_
        rintro r s1 ⟨hs1, hr⟩
        refine ⟨hs1, ?_⟩
        rcases hr with rfl | hr
        · left
          rw [dataBytes_block (by omega), bytesAt_eq, dataBytes_append, show m + (n - (tot + m)) = n - tot by omega]
          rfl
        · exact .inr hr
      · by_contra hall
        push Not at hall
        exact hbad (all_eq_true.mpr fun k _ => by simpa using hall (tot + k))
    · obtain rfl : tot = n := by omega
      exact ⟨rfl, .inl (by rw [Nat.sub_self]; rfl)⟩

/-- **`readi` into user memory** changes nothing and calls no `log_write`; unless it meets an address
that is not mapped, it returns the bytes there are. -/
lemma readiUser_solid (dst : ℕ → Bool) (off n : ℕ) : wp (readiUser sb e dst off n) ok (fun r s' => s' = s ∧
      (r = (↑(readable s e off n), bytesAt sb s e off (readable s e off n)) ∨ r.1 = -1 ∧ ∃ k, dst k = false)) s := by
  simp only [readiUser, inode, wp_bind, wp_read, wp_pure]
  unfold readable
  refine wp_ite.mpr ⟨fun hc => ⟨rfl, .inl (by rw [if_pos hc]; rfl)⟩, fun hc => ?_⟩
  have hle : (if off + n > (s.ino e).d.size then (s.ino e).d.size - off else n) = min n ((s.ino e).d.size - off) := by
    split <;> omega
  rw [if_neg hc, hle]
  exact readUserLoop_solid h hs hpos hv dst _ _ 0 off (Nat.zero_le _) (Nat.le_refl _) (by omega)

end

/-! ### `writei` -/

section

variable {P : Type} {sb : Superblock} {e : Fin NINODE}

lemma bmap_inRange {ok : Stop → Prop} (hn : n < MAXFILE) (s : State P) :
    wp (bmap sb e n) ok (fun _ _ => True) s := by
  have hballoc : ∀ s : State P, wp (balloc sb) ok (fun _ _ => True) s := by
    intro s
    rw [balloc, wp_bind]
    refine wp_findM (I := fun _ _ => True) ?_ (fun _ _ => trivial) _ s trivial
    intro k ks s1 _
    simp only [ballocScan, bread, wp_bind, wp_read, wp_pure]
    split <;> trivial
  have hmap : ∀ (k : ℕ) (s : State P), wp (mapAddr sb e k) ok (fun _ _ => True) s := by
    intro k s
    simp only [mapAddr, inode, wp_bind, wp_read, wp_pure]
    refine wp_ite.mpr ⟨fun _ => ?_, fun _ => trivial⟩
    rw [wp_bind]
    refine (hballoc s).mono fun a s1 _ => wp_ite.mpr ⟨fun _ => trivial, fun _ => trivial⟩
  have hN := NDIRECT_eq
  have hM := MAXFILE_eq
  have hI := NINDIRECT_eq
  unfold bmap
  refine wp_ite.mpr ⟨fun _ => hmap n s, fun _ => wp_ite.mpr ⟨fun _ => ?_, fun hc => absurd hn (by omega)⟩⟩
  rw [wp_bind]
  refine (hmap NDIRECT s).mono fun a s1 _ => wp_ite.mpr ⟨fun _ => trivial, fun _ => ?_⟩
  simp only [bread, wp_bind, wp_read, wp_pure]
  refine wp_ite.mpr ⟨fun _ => ?_, fun _ => trivial⟩
  rw [wp_bind]
  exact (hballoc s1).mono fun b s2 _ => wp_ite.mpr ⟨fun _ => trivial, fun _ => trivial⟩

lemma writei_inRange {ok : Stop → Prop} (src : ℕ → Option ℕ) (off n : ℕ) (s : State P) :
    wp (writei sb e src off n) ok (fun _ _ => True) s := by
  have hloop : ∀ (fuel tot off : ℕ) (s : State P), off + (n - tot) ≤ MAXFILE * BSIZE →
      wp (writeLoop sb e src n fuel tot off) ok (fun _ _ => True) s := by
    intro fuel
    induction fuel with
    | zero => exact fun _ _ _ _ => trivial
    | succ fuel ih =>
      intro tot off s hmax
      rw [writeLoop]
      refine wp_ite.mpr ⟨fun hlt => ?_, fun _ => trivial⟩
      rw [wp_bind]
      have hn : off / BSIZE < MAXFILE := Nat.div_lt_of_lt_mul (by rw [Nat.mul_comm]; omega)
      refine (bmap_inRange hn s).mono fun a s1 _ => wp_ite.mpr ⟨fun _ => trivial, fun _ => ?_⟩
      simp only [bmodify, wp_bind, wp_modify]
      refine wp_ite.mpr ⟨fun _ => trivial, fun _ => ih _ _ _ ?_⟩
      omega
  simp only [writei, inode, wp_bind, wp_read, wp_pure]
  refine wp_ite.mpr ⟨fun _ => trivial, fun _ => wp_ite.mpr ⟨fun _ => trivial, fun hmax => ?_⟩⟩
  rw [wp_bind]
  refine (hloop n 0 off s (by omega)).mono fun r s1 _ => ?_
  simp only [setDinode, setInode, iupdate, inode, wp_bind, wp_modify, wp_read, wp_pure]

end

/-! ### The calls -/

section

variable {P : Type} [Fintype P] {sb : Superblock} {Z G : Prop} {s : State P} {ok : Stop → Prop}
  {cwd : Fin NINODE} (hok : Allowed (.const Z G) ok) (hG : G) (hl : Layout sb) (hroot : sb.Inum ROOTINO)
  (h : Ready sb Z G s)

include hok hG h

omit hG in
lemma lockFile_spec {α : Type} {f : Fin NFILE} {m : M P α} (ht : (s.file f).type ≠ .none)
    (hm : ∀ s1, After sb (.const Z G) s [] [(s.file f).ip] s1 → tree sb s1 = tree sb s →
      wp m ok (fun _ s' => Done sb Z G s s') s1) :
    wp (do
      ilock sb (s.file f).ip
      m) ok (fun _ s' => Done sb Z G s s') s := by
  have hhold : 0 < s.holders (s.file f).ip := holders_pos_of_file ht
  rw [wp_bind]
  refine (ilock_spec hok h.inv (h.inv.ref_pos_of_holders hhold)).mono ?_
  rintro _ s1 ⟨h1, ht1, -⟩
  exact hm s1 h1 ht1

lemma fileread_spec (f : Fin NFILE) (dst : ℕ → Bool) (n input : ℤ) :
    wp (fileread sb f dst n input) ok (fun _ s' => Done sb Z G s s') s := by
  have hnone : Done sb Z G s s := .refl h.inv h.files
  simp only [fileread, file, wp_bind, wp_read, wp_pure]
  refine wp_ite.mpr ⟨fun _ => hnone, fun _ => ?_⟩
  cases ht : (s.file f).type with
  | none => exact hok _ (by decide) fun _ => by decide
  | device => exact wp_ite.mpr ⟨fun _ => hnone, fun _ => hnone⟩
  | inode =>
    refine lockFile_spec hok h (by rw [ht]; decide) fun s1 h1 ht1 => ?_
    obtain ⟨hpos1, hv1⟩ := h1.inv.locked _ mem_cons_self
    have hfiles1 : FilesOk s1 := h.files.congr h1.file
    rw [wp_bind]
    refine (readiUser_solid h1.inv hG hpos1 hv1 dst _ _).mono ?_
    rintro r s2 ⟨rfl, -⟩
    -- the offset is moved, or not
    have hrest : ∀ s3 : State P, Inv sb (.const Z G) s3 [] [(s.file f).ip] → FilesOk s3 → tree sb s3 = tree sb s →
        wp (do
          iunlock (s.file f).ip
          pure r) ok (fun _ s' => Done sb Z G s s') s3 := by
      intro s3 h3 hfiles3 ht3
      rw [wp_bind]
      refine (iunlock_spec h3 (by simp)).mono ?_
      rintro _ s4 ⟨h4, ht4⟩
      exact ⟨h4.inv, hfiles3.congr h4.file, fun _ => .of_eq (ht4.trans ht3)⟩
    refine wp_ite.mpr ⟨fun _ => ?_, fun _ => hrest s2 h1.inv hfiles1 ht1⟩
    obtain ⟨h3, ht3⟩ := h1.inv.keepFile (f := f)
      (x := { s2.file f with off := (s2.file f).off + r.1.toNat }) rfl rfl rfl
    rw [wp_bind]
    exact hrest (s2.withFile f { s2.file f with off := (s2.file f).off + r.1.toNat }) h3
      (hfiles1.withFile fun h0 => hfiles1 f h0) (ht3.trans ht1)

omit hG in
lemma filestat_spec (f : Fin NFILE) (copied : Bool) :
    wp (filestat sb f copied) ok (fun _ s' => Done sb Z G s s') s := by
  simp only [filestat, file, wp_bind, wp_read, wp_pure]
  refine wp_ite.mpr ⟨fun hty => ?_, fun _ => .refl h.inv h.files⟩
  refine lockFile_spec hok h (by rcases hty with hty | hty <;> rw [hty] <;> decide) fun s1 h1 ht1 => ?_
  simp only [inode, wp_bind, wp_read, wp_pure]
  refine (iunlock_spec h1.inv (by simp)).mono ?_
  rintro _ s2 ⟨h2, ht2⟩
  have hdone : Done sb Z G s s2 :=
    ⟨h2.inv, h.files.congr (h2.file.trans h1.file), fun _ => .of_eq (ht2.trans ht1)⟩
  exact wp_ite.mpr ⟨fun _ => hdone, fun _ => hdone⟩

omit hG in
lemma sysDup_spec [DecidableEq P] (p : P) (fd : ℕ) : wp (sysDup p fd) ok (fun _ s' => Done sb Z G s s') s := by
  rw [sysDup, wp_bind]
  refine (argfd_spec p fd).mono ?_
  rintro r _ rfl
  cases r with
  | none => exact .refl h.inv h.files
  | some x =>
    obtain ⟨_, f⟩ := x
    simp only [wp_bind]
    refine (fdalloc_spec p f).mono ?_
    intro r s1 hr
    cases r with
    | none =>
      obtain ⟨rfl, -⟩ := hr
      exact .refl h.inv h.files
    | some fd =>
      obtain ⟨q, hq, rfl⟩ := hr
      obtain ⟨h1, ht1⟩ := h.inv.keepProc hq
      rw [wp_bind]
      refine (filedup_spec hok h1 (h.files.congr rfl)).mono ?_
      rintro _ s2 ⟨h2, hfiles2, -, ht2⟩
      exact ⟨h2, hfiles2, fun _ => .of_eq (ht2.trans ht1)⟩

include hl hroot in
/-- **Every call on files** keeps the invariant. -/
lemma op_spec [DecidableEq P] (hp : (s.proc p).cwd = some cwd) (o : Op P) :
    wp (op sb p cwd o) ok (fun _ s' => Done sb Z G s s') s := by
  cases o with
  | call c => exact call_spec hok hl hroot h hp c
  | read fd dst n input =>
    rw [op, sysRead, wp_bind]
    refine (argfd_spec p fd).mono ?_
    rintro r _ rfl
    cases r with
    | none => exact .refl h.inv h.files
    | some x =>
      simp only [wp_bind]
      exact fileread_spec hok hG h x.2 dst n input
  | fstat fd copied =>
    rw [op, sysFstat, wp_bind]
    refine (argfd_spec p fd).mono ?_
    rintro r _ rfl
    cases r with
    | none => exact .refl h.inv h.files
    | some x =>
      simp only [wp_bind]
      exact filestat_spec hok h x.2 copied
  | dup fd => exact sysDup_spec hok h p fd

end

end Xv6.Fs
