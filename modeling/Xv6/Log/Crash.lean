import Xv6.Log.Flat

/-!
# Crash atomicity of the log

What a disk is worth after a crash is what recovery makes of it: `view L d`, the blocks of `d`
with the logged pairs installed.  Every single disk write of `commit` but one keeps the view: the first
`write_head` changes it by the whole transaction at once.
-/

namespace Xv6.Log

open Lib Flat Function List

/-! ### The view of a disk -/

/-- The pairs that the header of `d` commits. -/
def logged (L : LogArea) (d : Disk) : List (ℕ × Block) := homes L d 0 (headBlocks (d L.start))

/-- The blocks as recovery leaves them. -/
def view (L : LogArea) (d : Disk) : Disk := install d (logged L d)

/-- A list of blocks the log can commit: distinct, outside the log area, and with a log block for
each of them. -/
structure Fits (L : LogArea) (bs : List ℕ) : Prop where
  nodup : bs.Nodup
  outside : ∀ b ∈ bs, ¬ L.Mem b
  room : bs.length < L.size

lemma Fits.nil (L : LogArea) : Fits L [] := ⟨nodup_nil, by simp, L.pos⟩

/-- Recovery of `d` is well defined and gives the blocks of `V` outside the log area. -/
structure Holds (L : LogArea) (V d : Disk) : Prop where
  fits : Fits L (headBlocks (d L.start))
  view_eq : ∀ b, ¬ L.Mem b → view L d b = V b

lemma start_mem (L : LogArea) : L.Mem L.start := by
  have := L.pos
  unfold LogArea.Mem
  omega

variable {L : LogArea} {d d' V : Disk}

lemma ne_start (h : ¬ L.Mem b) : L.start ≠ b := by
  rintro rfl
  exact h (start_mem L)

lemma slot_ne_start (L : LogArea) (t : ℕ) : L.start ≠ L.slot t := by
  unfold LogArea.slot
  omega

lemma logged_of_empty (h : headBlocks (d L.start) = []) : logged L d = [] := by rw [logged, h]; rfl

lemma view_of_empty (h : headBlocks (d L.start) = []) : view L d = d := by rw [view, logged_of_empty h]; rfl

lemma holds_of_empty (h : headBlocks (d L.start) = []) (hV : ∀ b, ¬ L.Mem b → d b = V b) : Holds L V d :=
  ⟨h ▸ Fits.nil L, by rwa [view_of_empty h]⟩

lemma Holds.update_slot (h : Holds L V d) (he : headBlocks (d L.start) = []) (ht : t + 1 < L.size) :
    Holds L V (update d (L.slot t) v) := by
  have hstart : update d (L.slot t) v L.start = d L.start :=
    update_of_ne (slot_ne_start L t) _ _
  refine holds_of_empty (by rw [hstart, he]) fun b hb => ?_
  have hne : b ≠ L.slot t := by
    rintro rfl
    exact hb (slot_mem ht)
  rw [update_of_ne hne, ← h.view_eq b hb, view_of_empty he]

lemma Holds.update_home (h : Holds L V d) (hw : w ∈ logged L d) : Holds L V (update d w.1 w.2) := by
  have hmem : w.1 ∈ headBlocks (d L.start) := by
    rw [← map_fst_homes L d 0 (headBlocks (d L.start))]
    exact mem_map_of_mem hw
  have hout := h.fits.outside _ hmem
  have hstart : update d w.1 w.2 L.start = d L.start :=
    update_of_ne (ne_start hout) _ _
  have hlogged : logged L (update d w.1 w.2) = logged L d := by
    rw [logged, hstart, homes_update hout (by simpa using h.fits.room)]
    rfl
  refine ⟨by rw [hstart]; exact h.fits, fun b hb => ?_⟩
  have hredo : install (update d w.1 w.2) (logged L d) = install d (logged L d) := by
    refine install_of_partial fun a ha => update_of_ne ?_ _ _
    rintro rfl
    exact ha (mem_map_of_mem hw)
  rw [← h.view_eq b hb, view, view, hlogged, hredo]

lemma Holds.clear (h : Holds L V d) (hv : headBlocks v = []) (hin : ∀ w ∈ logged L d, d w.1 = w.2) :
    Holds L V (update d L.start v) := by
  refine holds_of_empty (by rwa [update_self]) fun b hb => ?_
  rw [update_of_ne (ne_start hb).symm, ← h.view_eq b hb, view, install_eq_self hin]

/-! ### From the header on

`recover_from_log` after `read_head` and `commit` after its first `write_head` run the same code
on the same kind of disk. -/

/-- `install_trans`, `log.lh.n = 0`, `write_head`. -/
def finish (L : LogArea) (recovering : Bool) (bs : List ℕ) : List Cmd :=
  installTrans L recovering 0 bs ++ [.clear] ++ writeHead L

lemma headBlocks_putHead_nil (b : Block) : headBlocks (Log.putHead [] b) = [] :=
  headBlocks_putHead b (by simp) (by simp)

lemma mem_logged (h : w ∈ logged L d) : w.1 ∈ headBlocks (d L.start) := by
  rw [← map_fst_homes L d 0 (headBlocks (d L.start))]
  exact mem_map_of_mem h

lemma logged_install (h : Fits L (headBlocks (d L.start))) : logged L (install d (logged L d)) = logged L d := by
  have key : ∀ b, L.Mem b → install d (logged L d) b = d b := by
    refine fun b hb => install_of_notMem fun hmem => h.outside b ?_ hb
    rwa [logged, map_fst_homes] at hmem
  rw [logged, key _ (start_mem L)]
  refine homes_congr fun t _ ht => key _ (slot_mem ?_)
  have := h.room
  omega

section Finish

variable {L : LogArea} {V : Disk} {m : Flat}

lemma run_install_clear (h : Fits L (headBlocks (m.disk L.start))) (r : Bool)
    (hm : homes L m.mem 0 (headBlocks (m.disk L.start)) = logged L m.disk) :
    m.run (installTrans L r 0 (headBlocks (m.disk L.start)) ++ [.clear]) =
      { m with mem := install m.mem (logged L m.disk), disk := install m.disk (logged L m.disk), lh := [] } := by
  rw [run_append, run_installTrans _ _ _ _ _ h.outside (by simpa using h.room), hm]
  rfl

section

variable (h : Holds L V m.disk) (r : Bool) (hm : homes L m.mem 0 (headBlocks (m.disk L.start)) = logged L m.disk)

include h hm

/-- **Every stop after the header is written leaves a disk with the same view.** -/
lemma allDisks_finish : AllDisks (Holds L V) m (finish L r (headBlocks (m.disk L.start))) := by
  have hroom : 0 + (headBlocks (m.disk L.start)).length < L.size := by simpa using h.fits.room
  have hinst : AllDisks (fun d => Holds L V d ∧ logged L d = logged L m.disk) m
      (installTrans L r 0 (headBlocks (m.disk L.start))) := by
    refine allDisks_installTrans _ _ _ _ h.fits.outside hroom ?_ ⟨h, rfl⟩
    rintro d w hw ⟨hd, hlog⟩
    rw [hm] at hw
    have hout : ¬ L.Mem w.1 := h.fits.outside _ (mem_logged hw)
    refine ⟨hd.update_home (by rwa [hlog]), ?_⟩
    rw [← hlog, logged, update_of_ne (ne_start hout), homes_update hout (by simpa using hd.fits.room)]
    rfl
  have hdisk : Holds L V (install m.disk (logged L m.disk)) := by
    have := (hinst (installTrans L r 0 (headBlocks (m.disk L.start))).length).1
    rwa [take_length, run_installTrans _ _ _ _ _ h.fits.outside hroom, hm] at this
  refine AllDisks.append (AllDisks.append (hinst.mono fun _ h => h.1) ?_) ?_
  · rw [run_installTrans _ _ _ _ _ h.fits.outside hroom, hm]
    exact AllDisks.cons hdisk (AllDisks.nil hdisk)
  · rw [run_install_clear h.fits r hm]
    refine allDisks_writeHead _ hdisk (hdisk.clear (headBlocks_putHead_nil _) ?_)
    rw [logged_install h.fits]
    intro w hw
    refine install_of_mem ?_ hw
    rw [logged, map_fst_homes]
    exact h.fits.nodup

lemma run_finish : (∀ b, ¬ L.Mem b → (m.run (finish L r (headBlocks (m.disk L.start)))).disk b = V b) ∧
    headBlocks ((m.run (finish L r (headBlocks (m.disk L.start)))).disk L.start) = [] := by
  rw [finish, run_append, run_install_clear h.fits r hm, run_writeHead]
  refine ⟨fun b hb => ?_, ?_⟩
  · rw [← h.view_eq b hb]
    exact update_of_ne (ne_start hb).symm _ _
  · simp only [update_self]
    exact headBlocks_putHead_nil _

end

end Finish

/-! ### Recovery -/

/-- `recover_from_log` on the disk `d`, after a restart. -/
def recovered (L : LogArea) (d : Disk) : Flat :=
  (boot d).run (recoverFromLog L (headBlocks (d L.start)))

/-- `d'` is what is on disk when `recover_from_log`, started on `d` and stopped and started over
any number of times, has completed. -/
inductive Recovers (L : LogArea) : Disk → Disk → Prop
  | done (d : Disk) : Recovers L d (recovered L d).disk
  | stop (d : Disk) (k : ℕ) {d' : Disk}
      (h : Recovers L ((boot d).run ((recoverFromLog L (headBlocks (d L.start))).take k)).disk d') :
      Recovers L d d'

lemma recoverFromLog_eq (L : LogArea) (bs : List ℕ) : recoverFromLog L bs = readHead L ++ finish L true bs := by
  simp [recoverFromLog, finish, append_assoc]

lemma allDisks_recoverFromLog (h : Holds L V d) :
    AllDisks (Holds L V) (boot d) (recoverFromLog L (headBlocks (d L.start))) := by
  rw [recoverFromLog_eq]
  refine AllDisks.append (allDisks_readHead _ h) ?_
  rw [run_readHead]
  exact allDisks_finish h true rfl

lemma recovered_disk (h : Holds L V d) : ∀ b, ¬ L.Mem b → (recovered L d).disk b = V b := by
  rw [recovered, recoverFromLog_eq, run_append, run_readHead]
  exact (run_finish h true rfl).1

/-- **Recovery, however often it is stopped, leaves the view of the disk it started on.** -/
lemma Recovers.eq_view (hr : Recovers L d d') (h : Holds L V d) : ∀ b, ¬ L.Mem b → d' b = V b := by
  induction hr with
  | done d => exact recovered_disk h
  | stop d k _ ih => exact ih (allDisks_recoverFromLog h k)

/-! ### Transactions -/

/-- A transaction: the blocks logged by the operations of one group, with their new contents.  The
bounds are those that `log_write` enforces and that the types of `struct logheader` have. -/
structure Tx (L : LogArea) where
  writes : List (ℕ × Block)
  nodup : (writes.map Prod.fst).Nodup
  outside : ∀ b ∈ writes.map Prod.fst, ¬ L.Mem b
  fits : writes.length ≤ L.size - 1
  room : writes.length ≤ LOGSIZE
  uint : ∀ b ∈ writes.map Prod.fst, b < 2 ^ 32

/-- The block numbers of a transaction. -/
def Tx.blocks {L : LogArea} (t : Tx L) : List ℕ := t.writes.map Prod.fst

/-- The operations of the transaction have run: the new contents are in the cache and the in-memory
header lists the blocks. -/
def Flat.logTx {L : LogArea} (m : Flat) (t : Tx L) : Flat :=
  { m with mem := install m.mem t.writes, lh := t.blocks }

/-- The operations of `t` and then `commit`. -/
def commitTx {L : LogArea} (m : Flat) (t : Tx L) : Flat := (m.logTx t).run (commit L t.blocks)

/-- Transactions one after another. -/
def commitAll {L : LogArea} (m : Flat) (txs : List (Tx L)) : Flat := txs.foldl commitTx m

/-- The blocks after the transactions, as if each were one atomic write. -/
def applyTxs {L : LogArea} (d : Disk) (txs : List (Tx L)) : Disk :=
  txs.foldl (fun d t => install d t.writes) d

/-- The disk when the machine stops after `k` calls of `commit` for transaction number `i`, all
earlier ones having returned; from `i = txs.length` on, no commit is running. -/
def stopDisk {L : LogArea} (d : Disk) (txs : List (Tx L)) (i k : ℕ) : Disk :=
  match txs[i]? with
  | some t => (((commitAll (boot d) (txs.take i)).logTx t).run ((commit L t.blocks).take k)).disk
  | none => (commitAll (boot d) txs).disk

/-- At that stop, `commit` for transaction number `j` has returned. -/
def Returned {L : LogArea} (txs : List (Tx L)) (i k j : ℕ) : Prop :=
  j < i ∨ j = i ∧ ∃ t, txs[j]? = some t ∧ (commit L t.blocks).length ≤ k

/-- At that stop, the `bwrite` of the first `write_head` of transaction number `j` has been made. -/
def HeadReached {L : LogArea} (txs : List (Tx L)) (i k j : ℕ) : Prop :=
  j < i ∨ j = i ∧ ∃ t, txs[j]? = some t ∧ (writeLog L 0 t.blocks ++ (writeHead L).take 3).length ≤ k

lemma Tx.blocks_fits (t : Tx L) : Fits L t.blocks := by
  refine ⟨t.nodup, t.outside, ?_⟩
  have h1 := t.fits
  have h2 := L.pos
  simp only [Tx.blocks, length_map]
  omega

/-- No transaction is running: the cache agrees with the disk and the log is empty. -/
structure Quiet (L : LogArea) (m : Flat) : Prop where
  mem_eq : m.mem = m.disk
  empty : headBlocks (m.disk L.start) = []

/-! ### One commit -/

lemma slots_slot (L : LogArea) (d : Disk) (tail : ℕ) (vs : List Block) (hk : k < vs.length) :
    install d (slots L tail vs) (L.slot (tail + k)) = vs[k] := by
  induction vs generalizing d tail k with
  | nil => simp at hk
  | cons v vs ih =>
    rw [slots, install_cons]
    cases k with
    | zero =>
      rw [install_of_notMem, Nat.add_zero, update_self]
      · rfl
      · intro hmem
        have := (mem_slots hmem).1
        unfold LogArea.slot at this
        omega
    | succ k =>
      rw [show tail + (k + 1) = tail + 1 + k by omega, ih _ _ (by simpa using hk)]
      rfl

lemma homes_of_slots {tail : ℕ} {ws : List (ℕ × Block)}
    (h : ∀ k (hk : k < ws.length), d (L.slot (tail + k)) = ws[k].2) :
    homes L d tail (ws.map Prod.fst) = ws := by
  induction ws generalizing tail with
  | nil => rfl
  | cons w ws ih =>
    have h0 := h 0 (by simp)
    simp only [Nat.add_zero, getElem_cons_zero] at h0
    rw [map_cons, homes, h0, ih fun k hk => ?_]
    have := h (k + 1) (by simpa using hk)
    rwa [show tail + (k + 1) = tail + 1 + k by omega, getElem_cons_succ] at this

section Commit

variable {L : LogArea} {m : Flat} {t : Tx L}

/-- The machine when the first `write_head` of the commit of `t` has returned. -/
def headed (m : Flat) (t : Tx L) : Flat := (m.logTx t).run (writeLog L 0 t.blocks ++ writeHead L)

/-- The log blocks as `write_log` fills them. -/
def logBody (m : Flat) (t : Tx L) : List (ℕ × Block) :=
  slots L 0 (t.blocks.map (install m.mem t.writes))

section

variable (m : Flat) (t : Tx L)

lemma run_writeLog_tx : (m.logTx t).run (writeLog L 0 t.blocks) =
      { m.logTx t with mem := install (install m.mem t.writes) (logBody m t),
                       disk := install m.disk (logBody m t) } :=
  run_writeLog _ _ _ _ t.blocks_fits.outside (by simpa using t.blocks_fits.room)

lemma headed_eq : headed m t =
      { m.logTx t with
        mem := update (install (install m.mem t.writes) (logBody m t)) L.start
          (Log.putHead t.blocks (install (install m.mem t.writes) (logBody m t) L.start)),
        disk := update (install m.disk (logBody m t)) L.start
          (Log.putHead t.blocks (install (install m.mem t.writes) (logBody m t) L.start)) } := by
  rw [headed, run_append, run_writeLog_tx, run_writeHead]
  rfl

lemma logBody_outside (hb : ¬ L.Mem b) (d : Disk) : install d (logBody m t) b = d b := by
  refine install_of_notMem fun hmem => hb ?_
  have h := mem_slots hmem
  have hroom := t.blocks_fits.room
  rw [length_map] at h
  unfold LogArea.Mem LogArea.slot at *
  omega

lemma logBody_slot (d : Disk) (hk : k < t.writes.length) :
    install d (logBody m t) (L.slot k) = t.writes[k].2 := by
  have h := slots_slot L d 0 (t.blocks.map (install m.mem t.writes)) (k := k)
    (by simpa [Tx.blocks] using hk)
  rw [Nat.zero_add] at h
  rw [logBody, h, getElem_map]
  simp only [Tx.blocks, getElem_map]
  exact install_of_mem t.nodup (getElem_mem hk)

lemma headBlocks_headed : headBlocks ((headed m t).disk L.start) = t.blocks := by
  rw [headed_eq]
  simp only [update_self]
  exact headBlocks_putHead _ (by simpa [Tx.blocks] using t.room) t.uint

lemma homes_headed : homes L (headed m t).mem 0 t.blocks = t.writes ∧
    homes L (headed m t).disk 0 t.blocks = t.writes := by
  rw [headed_eq]
  refine ⟨homes_of_slots fun k hk => ?_, homes_of_slots fun k hk => ?_⟩ <;>
    (rw [Nat.zero_add]; simp only [update_of_ne (slot_ne_start L k).symm])
  · exact logBody_slot m t _ hk
  · exact logBody_slot m t _ hk

/-- **The first `write_head` commits the whole transaction.** -/
lemma holds_headed : Holds L (install m.disk t.writes) (headed m t).disk := by
  have hlogged : logged L (headed m t).disk = t.writes := by
    rw [logged, headBlocks_headed, (homes_headed m t).2]
  refine ⟨by rw [headBlocks_headed]; exact t.blocks_fits, fun b hb => ?_⟩
  rw [view, hlogged]
  refine install_congr (.inr ?_)
  rw [headed_eq]
  simp only [update_of_ne (ne_start hb).symm]
  exact logBody_outside m t hb m.disk

end

lemma allDisks_before (hq : Quiet L m) :
    AllDisks (Holds L m.disk) (m.logTx t) (writeLog L 0 t.blocks ++ (writeHead L).take 2) := by
  have hP : AllDisks (fun d => headBlocks (d L.start) = [] ∧ Holds L m.disk d) (m.logTx t)
      (writeLog L 0 t.blocks) := by
    refine allDisks_writeLog _ _ _ ?_ ⟨hq.empty, holds_of_empty hq.empty fun _ _ => rfl⟩
    rintro d k v - hk ⟨he, hd⟩
    refine ⟨?_, hd.update_slot he ?_⟩
    · rwa [update_of_ne (slot_ne_start L k)]
    · have := t.blocks_fits.room
      omega
  have hend : Holds L m.disk ((m.logTx t).run (writeLog L 0 t.blocks)).disk := by
    have := (hP (writeLog L 0 t.blocks).length).2
    rwa [take_length] at this
  exact AllDisks.append (hP.mono fun _ h => h.2)
    (AllDisks.cons hend (AllDisks.cons hend (AllDisks.nil hend)))

lemma commit_eq (hne : t.blocks ≠ []) :
    commit L t.blocks = writeLog L 0 t.blocks ++ writeHead L ++ finish L false t.blocks := by
  rw [commit, if_pos (length_pos_iff.mpr hne)]
  simp [finish, append_assoc]

lemma allDisks_after (m : Flat) (t : Tx L) :
    AllDisks (Holds L (install m.disk t.writes)) (headed m t) (finish L false t.blocks) := by
  have h := allDisks_finish (holds_headed m t) false
    (by rw [logged, headBlocks_headed, (homes_headed m t).1, (homes_headed m t).2])
  rwa [headBlocks_headed] at h

/-- **A stop inside `commit` leaves the old blocks or the new ones**, the new ones exactly from the
`bwrite` of the first `write_head` on. -/
lemma stop_commit (hq : Quiet L m) (hne : t.blocks ≠ []) (k : ℕ) :
    Holds L (if (writeLog L 0 t.blocks ++ (writeHead L).take 3).length ≤ k
      then install m.disk t.writes else m.disk) ((m.logTx t).run ((commit L t.blocks).take k)).disk := by
  have hlen : (writeLog L 0 t.blocks ++ (writeHead L).take 3).length =
      (writeLog L 0 t.blocks).length + 3 := by simp [writeHead]
  rw [commit_eq hne, hlen]
  split
  · rename_i hk
    rw [append_assoc, take_append, take_of_length_le (by omega), run_append, take_append, run_append]
    by_cases h4 : k - (writeLog L 0 t.blocks).length = 3
    · -- the machine stops between the `bwrite` and the `brelse` of `write_head`
      have h := holds_headed m t
      rw [headed, run_append] at h
      rw [h4]
      exact h
    · have h := allDisks_after m t (k - (writeLog L 0 t.blocks).length - (writeHead L).length)
      rw [headed, run_append] at h
      rwa [take_of_length_le (by simp only [writeHead, length_cons, length_nil]; omega)]
  · rename_i hk
    have h := allDisks_before (t := t) hq k
    rwa [append_assoc, take_append, show (writeHead L ++ finish L false t.blocks).take
      (k - (writeLog L 0 t.blocks).length) = ((writeHead L).take 2).take
      (k - (writeLog L 0 t.blocks).length) from ?_, ← take_append]
    rw [take_append_of_le_length (by simp only [writeHead, length_cons, length_nil]; omega),
      take_take, Nat.min_eq_left (by omega)]

lemma commitTx_quiet (hq : Quiet L m) (t : Tx L) :
    Quiet L (commitTx m t) ∧ ∀ b, ¬ L.Mem b → (commitTx m t).disk b = install m.disk t.writes b := by
  by_cases hne : t.blocks = []
  · have hw : t.writes = [] := map_eq_nil_iff.mp hne
    have hcode : commitTx m t = m.logTx t := by rw [commitTx, commit, hne]; rfl
    rw [hcode]
    refine ⟨⟨?_, hq.empty⟩, fun b _ => by rw [hw]; rfl⟩
    simp only [Flat.logTx, hw, install_nil]
    exact hq.mem_eq
  · have hfin := run_finish (holds_headed m t) false
      (by rw [logged, headBlocks_headed, (homes_headed m t).1, (homes_headed m t).2])
    have hrun : commitTx m t = (headed m t).run (finish L false t.blocks) := by
      rw [commitTx, commit_eq hne, run_append]
      rfl
    rw [headBlocks_headed, ← hrun] at hfin
    refine ⟨⟨?_, hfin.2⟩, hfin.1⟩
    have hclear := run_install_clear (m := headed m t) (L := L)
      (by rw [headBlocks_headed]; exact t.blocks_fits) false
      (by rw [logged, headBlocks_headed, (homes_headed m t).1, (homes_headed m t).2])
    rw [headBlocks_headed, logged, headBlocks_headed, (homes_headed m t).2] at hclear
    rw [hrun, finish, run_append, hclear, run_writeHead, headed_eq]
    -- the cache and the disk differed on the blocks of `t` only, and these are installed in both
    funext b
    by_cases hb : b = L.start
    · subst hb
      simp
    · simp only [update_of_ne hb]
      refine install_congr ?_
      by_cases hmem : b ∈ t.writes.map Prod.fst
      · exact .inl hmem
      · refine .inr ?_
        simp only [update_of_ne hb]
        refine install_congr (.inr ?_)
        rw [install_of_notMem hmem, hq.mem_eq]

end Commit

/-! ### Whole runs -/

lemma applyTxs_congr {txs : List (Tx L)} (h : ∀ b, ¬ L.Mem b → d b = d' b) :
    ∀ b, ¬ L.Mem b → applyTxs d txs b = applyTxs d' txs b := by
  induction txs generalizing d d' with
  | nil => exact h
  | cons t txs ih => exact ih fun b hb => install_congr (.inr (h b hb))

lemma applyTxs_take_succ (d : Disk) {txs : List (Tx L)} (h : txs[i]? = some t) :
    applyTxs d (txs.take (i + 1)) = install (applyTxs d (txs.take i)) t.writes := by
  rw [take_add_one, h, applyTxs, foldl_append]
  rfl

lemma boot_quiet (h : headN (d L.start) = 0) : Quiet L (boot d) :=
  ⟨rfl, headBlocks_of_headN_eq_zero h⟩

lemma commitAll_quiet (hq : Quiet L m) (txs : List (Tx L)) : Quiet L (commitAll m txs) ∧
      ∀ b, ¬ L.Mem b → (commitAll m txs).disk b = applyTxs m.disk txs b := by
  induction txs generalizing m with
  | nil => exact ⟨hq, fun _ _ => rfl⟩
  | cons t txs ih =>
    obtain ⟨hq', hd⟩ := commitTx_quiet hq t
    obtain ⟨hq'', hd'⟩ := ih hq'
    refine ⟨hq'', fun b hb => ?_⟩
    rw [show commitAll m (t :: txs) = commitAll (commitTx m t) txs from rfl, hd' b hb]
    exact applyTxs_congr hd b hb

lemma holds_stopDisk (h0 : headN (d0 L.start) = 0) {txs : List (Tx L)} (ht : txs[i]? = some t) (hne : t.blocks ≠ [])
    (k : ℕ) :
    Holds L (applyTxs d0 (txs.take
      (if (writeLog L 0 t.blocks ++ (writeHead L).take 3).length ≤ k then i + 1 else i)))
      (stopDisk d0 txs i k) := by
  obtain ⟨hq, hd⟩ := commitAll_quiet (boot_quiet h0) (txs.take i)
  have h := stop_commit hq hne k
  simp only [stopDisk, ht]
  refine ⟨h.fits, fun b hb => ?_⟩
  rw [h.view_eq b hb]
  split
  · rw [applyTxs_take_succ d0 ht]
    exact install_congr (.inr (hd b hb))
  · exact hd b hb

/-- **Crash atomicity.**  Transactions are committed one after another from a disk with an empty
log, the machine stops anywhere, and recovery, stopped any number of times itself, completes.  Then
the blocks outside the log area are those after some number `j` of whole transactions; every
transaction whose `commit` returned is among the first `j`, and a transaction that writes anything
is among them if and only if its first `write_head` reached the disk. -/
theorem crash_atomicity (L : LogArea) (d₀ : Disk) (h₀ : headN (d₀ L.start) = 0) (txs : List (Tx L))
    (i k : ℕ) (d : Disk) (hrec : Recovers L (stopDisk d₀ txs i k) d) :
    ∃ j ≤ txs.length, (∀ b, ¬ L.Mem b → d b = applyTxs d₀ (txs.take j) b) ∧
      (∀ a < txs.length, Returned txs i k a → a < j) ∧
      (∀ a t, txs[a]? = some t → t.blocks ≠ [] → (a < j ↔ HeadReached txs i k a)) := by
  cases ht : txs[i]? with
  | none =>
    -- no commit is running: everything has been committed
    obtain ⟨hq, hd⟩ := commitAll_quiet (boot_quiet h₀) txs
    have hi : txs.length ≤ i := getElem?_eq_none_iff.mp ht
    simp only [stopDisk, ht] at hrec
    refine ⟨txs.length, le_rfl, ?_, fun a ha _ => ha, fun a t hat _ => ?_⟩
    · rw [take_length]
      exact hrec.eq_view (holds_of_empty hq.empty hd)
    · have := (List.getElem?_eq_some_iff.mp hat).1
      exact ⟨fun h => .inl (by omega), fun _ => this⟩
  | some t =>
    have hi : i < txs.length := (List.getElem?_eq_some_iff.mp ht).1
    by_cases hne : t.blocks = []
    · -- `commit` has nothing to do and returns at once
      obtain ⟨hq, hd⟩ := commitAll_quiet (boot_quiet h₀) (txs.take i)
      have hstop : stopDisk d₀ txs i k = (commitAll (boot d₀) (txs.take i)).disk := by
        simp [stopDisk, ht, commit, hne, Flat.run, Flat.logTx]
      rw [hstop] at hrec
      refine ⟨i + 1, hi, ?_, fun a _ ha => ?_, fun a t' hat hne' => ?_⟩
      · rw [applyTxs_take_succ d₀ ht, show t.writes = [] from map_eq_nil_iff.mp hne]
        exact hrec.eq_view (holds_of_empty hq.empty hd)
      · rcases ha with ha | ⟨rfl, _⟩ <;> omega
      · constructor
        · intro ha
          refine .inl (lt_of_le_of_ne (by omega) ?_)
          rintro rfl
          exact hne' (by rw [Option.some.inj (hat.symm.trans ht), hne])
        · rintro (ha | ⟨rfl, -⟩) <;> omega
    · have hview := hrec.eq_view (holds_stopDisk h₀ ht hne k)
      refine ⟨_, ?_, hview, fun a _ ha => ?_, fun a t' hat _ => ?_⟩
      · split <;> omega
      · rcases ha with ha | ⟨rfl, t', hat, hlen⟩
        · split <;> omega
        · rw [if_pos, Nat.lt_succ_iff]
          rw [Option.some.inj (hat.symm.trans ht), commit_eq hne] at hlen
          simp only [length_append, length_take, writeHead, length_cons, length_nil] at hlen ⊢
          omega
      · constructor
        · intro ha
          split at ha
          · rename_i hk
            rcases Nat.lt_succ_iff_lt_or_eq.mp ha with ha | rfl
            · exact .inl ha
            · exact .inr ⟨rfl, t, ht, hk⟩
          · exact .inl ha
        · rintro (ha | ⟨rfl, t'', hat'', hk⟩)
          · split <;> omega
          · rw [Option.some.inj (hat''.symm.trans ht)] at hk
            rw [if_pos hk]
            omega

/-- One block rewritten in a transaction of its own, with `v` in its first word. -/
def oneBlock (v : ℕ) : Tx mkfsLog where
  writes := [(46, (Bytes.zero BSIZE).putLe 0 4 v)]
  nodup := by simp
  outside := by simp [LogArea.Mem, mkfsLog, LOGSIZE_eq]
  fits := by simp [mkfsLog, LOGSIZE_eq]
  room := by simp [LOGSIZE_eq]
  uint := by simp

/-- A stop in the middle of the second of two commits. -/
theorem crash_atomicity_two : ∃ j ≤ 2, (∀ b, ¬ mkfsLog.Mem b →
        (recovered mkfsLog (stopDisk (fun _ => Bytes.zero _) [oneBlock 7, oneBlock 8] 1 5)).disk b =
          applyTxs (fun _ => Bytes.zero _) ([oneBlock 7, oneBlock 8].take j) b) ∧
      (∀ a < 2, Returned [oneBlock 7, oneBlock 8] 1 5 a → a < j) ∧
      (∀ a t, [oneBlock 7, oneBlock 8][a]? = some t → t.blocks ≠ [] →
        (a < j ↔ HeadReached [oneBlock 7, oneBlock 8] 1 5 a)) :=
  crash_atomicity mkfsLog (fun _ => Bytes.zero _) (by simp [headN, toInt32]) [oneBlock 7, oneBlock 8]
    1 5 _ (Recovers.done _)

end Xv6.Log
