import Xv6.Umalloc.Ring

/-!
# `free` keeps the ring

`free` puts its block into the ring and joins it with the block behind it and with the one before it,
where they touch.
-/

namespace Xv6.Umalloc

open Lib Lib.Slist Function List

variable {base : ℕ} {h : Heap} {c L u v : List ℕ} {bp p z : ℕ}

/-- `bp` is put behind `z`. -/
def insertBlock (h : Heap) (bp z : ℕ) : Heap :=
  { h with ptr := update (update h.ptr bp (h.ptr z)) z bp }

/-- `p` takes over its successor, if they touch. -/
def coalesce (h : Heap) (p : ℕ) : Heap :=
  if p + 16 * h.size p = h.ptr p then
    { h with
      size := update h.size p ((h.size p + h.size (h.ptr p)) % 2 ^ 32)
      ptr := update h.ptr p (h.ptr (h.ptr p)) }
  else h

lemma link_eq (hz : z < bp) (hne : h.ptr z ≠ bp) :
    link h bp z = { coalesce (coalesce (insertBlock h bp z) bp) z with freep := z } := by
  have hbz : bp ≠ z := Nat.ne_of_gt hz
  have hnext : (insertBlock h bp z).ptr bp = h.ptr z := by simp [insertBlock, hbz]
  have hjoin : coalesce (insertBlock h bp z) bp =
      { joinRight h bp z with ptr := update (joinRight h bp z).ptr z bp } := by
    have hsize : (insertBlock h bp z).size = h.size := rfl
    unfold coalesce joinRight
    rw [hnext, hsize]
    by_cases hr : bp + 16 * h.size bp = h.ptr z
    · have hx : h.ptr z ≠ z := by omega
      rw [if_pos hr, if_pos hr]
      simp only [insertBlock, update_of_ne hx, update_of_ne hne]
      congr 1
      rw [update_comm hbz.symm, update_idem]
    · rw [if_neg hr, if_neg hr]
      rfl
  have hptr : (coalesce (insertBlock h bp z) bp).ptr z = bp := by
    rw [hjoin]
    exact update_self _ _ _
  have hsize : (coalesce (insertBlock h bp z) bp).size = (joinRight h bp z).size := by rw [hjoin]
  have hptrb : (coalesce (insertBlock h bp z) bp).ptr bp = (joinRight h bp z).ptr bp := by
    rw [hjoin]
    exact update_of_ne hbz _ _
  unfold link joinLeft
  rw [coalesce, hptr, hsize, hptrb]
  by_cases hl : z + 16 * (joinRight h bp z).size z = bp
  · rw [if_pos hl, if_pos hl]
    rw [hjoin]
    simp only [update_idem]
  · rw [if_neg hl, if_neg hl, hjoin]

lemma head?_append_cons (u : List ℕ) (z : ℕ) (v v' : List ℕ) : (u ++ z :: v).head? = (u ++ z :: v').head? := by
  cases u with
  | nil => rfl
  | cons a u => rfl

lemma Tiled.insert (ht : Tiled base h c (bp :: L)) (hc : c = u ++ z :: v) (hz : z < bp) (hv : ∀ w ∈ v, bp < w) :
    Tiled base (insertBlock h bp z) (u ++ z :: bp :: v) L := by
  subst hc
  have hnot := ht.live_not_mem mem_cons_self
  have hnd := ht.nodup
  obtain ⟨-, hzv, huz⟩ := nodup_append.mp hnd
  have hz' : z ∉ v ++ u := by
    intro hm
    rcases mem_append.mp hm with hm | hm
    · exact (nodup_cons.mp hzv).1 hm
    · exact huz z hm z mem_cons_self rfl
  have hb' : bp ∉ z :: (v ++ u) := by
    intro hm
    refine hnot ?_
    simp only [mem_cons, mem_append] at hm ⊢
    grind
  have hloop : Loop h.ptr (z :: (v ++ u)) := Loop.rotate ht.loop
  have hloop' : Loop (insertBlock h bp z).ptr ((z :: bp :: v) ++ u) := hloop.insert hb' hz'
  refine ⟨?_, Loop.rotate hloop', ?_, ht.base_size, fun p hp hpb => ?_, fun p hp => ?_, fun x => ?_, ht.once, ht.above,
    ?_⟩
  · rw [← ht.head]
    exact head?_append_cons u z _ _
  · obtain ⟨hu, hzv, huz⟩ := pairwise_append.mp ht.sorted
    obtain ⟨hz1, hz2⟩ := pairwise_cons.mp hzv
    refine pairwise_append.mpr ⟨hu, pairwise_cons.mpr ⟨fun w hw => ?_, pairwise_cons.mpr ⟨hv, hz2⟩⟩,
      fun a ha w hw => ?_⟩
    · rcases mem_cons.mp hw with rfl | hw
      · exact hz
      · exact hz1 w hw
    · have haz := huz a ha z mem_cons_self
      rcases mem_cons.mp hw with rfl | hw
      · exact haz
      · rcases mem_cons.mp hw with rfl | hw
        · exact Nat.lt_trans haz hz
        · exact huz a ha w (mem_cons_of_mem _ hw)
  · by_cases hpp : p = bp
    · subst hpp
      exact ht.live_pos p mem_cons_self
    · refine ht.pos p ?_ hpb
      simp only [mem_cons, mem_append] at hp ⊢
      grind
  · exact ht.live_pos p (mem_cons_of_mem _ hp)
  · have htile := ht.tiles x
    have hsame : ∀ ps, blocks (insertBlock h bp z) ps = blocks h ps := fun ps => blocks_congr fun _ _ => rfl
    have hreg : regions (insertBlock h bp z) = regions h := rfl
    rw [hsame, hsame, hreg, ← htile]
    simp only [blocks_append, blocks_cons, cover_append, cover_cons]
    omega
  · have hsum := ht.sum
    have htotal : (insertBlock h bp z).total = h.total := rfl
    rw [htotal, ← hsum]
    simp only [insertBlock, map_append, map_cons, sum_append, sum_cons]
    omega

lemma Tiled.merge (ht : Tiled base h c L) (hp : p ∈ c) (hne : h.ptr p ≠ p)
    (htouch : p + 16 * h.size p = h.ptr p) (hfit : h.size p + h.size (h.ptr p) < 2 ^ 32) :
    ∃ u v, c = u ++ p :: h.ptr p :: v ∧ Tiled base (coalesce h p) (u ++ p :: v) L ∧
      (coalesce h p).size p = h.size p + h.size (h.ptr p) := by
  have hb := ht.base_le hp
  obtain ⟨u, v, hc⟩ : ∃ u v, c = u ++ p :: h.ptr p :: v := by
    rcases ht.next_cases hp with ⟨u, y, v, hc, hy⟩ | ⟨u, hc, hy⟩
    · exact ⟨u, v, by rw [hy]; exact hc⟩
    · omega
  obtain ⟨x, hx⟩ : ∃ x, h.ptr p = x := ⟨_, rfl⟩
  refine ⟨u, v, hc, ?_⟩
  rw [hx] at hc htouch hne hfit ⊢
  have hpb : p ≠ base := by
    rintro rfl
    rw [ht.base_size] at htouch
    omega
  have hnd := ht.nodup
  rw [hc] at hnd
  obtain ⟨-, hright, huv⟩ := nodup_append.mp hnd
  have hpv : p ∉ x :: v := (nodup_cons.mp hright).1
  have hpu : p ∉ u := fun hm => huv p hm p mem_cons_self rfl
  have hpL : p ∉ L := fun hm => ht.live_not_mem hm hp
  have hco : coalesce h p = { h with
      size := update h.size p (h.size p + h.size x)
      ptr := update h.ptr p (h.ptr x) } := by
    unfold coalesce
    rw [hx, if_pos htouch, Nat.mod_eq_of_lt hfit]
  have hother : ∀ q, q ≠ p → (coalesce h p).size q = h.size q := by
    intro q hq
    rw [hco]
    exact update_of_ne hq _ _
  have hself : (coalesce h p).size p = h.size p + h.size x := by
    rw [hco]
    exact update_self _ _ _
  refine ⟨?_, hself⟩
  have hptr : (coalesce h p).ptr = update h.ptr p (h.ptr x) := by rw [hco]
  have hcore : (coalesce h p).core = h.core := by rw [hco]
  have hreg : regions (coalesce h p) = regions h := by
    unfold regions
    rw [hcore]
  have htot : (coalesce h p).total = h.total := by
    unfold Heap.total
    rw [hcore]
  have hsub : (u ++ p :: v).Sublist c := by
    rw [hc]
    exact List.Sublist.append_left ((sublist_cons_self x v).cons_cons p) u
  have hloop : Loop h.ptr ((p :: x :: v) ++ u) := Loop.rotate (hc ▸ ht.loop)
  have hloop' : Loop (coalesce h p).ptr ((p :: v) ++ u) := by
    rw [hptr]
    refine Loop.remove hloop fun hm => ?_
    rcases mem_append.mp (show p ∈ (x :: v) ++ u from hm) with hm | hm
    · exact hpv hm
    · exact hpu hm
  refine ⟨?_, Loop.rotate hloop', ht.sorted.sublist hsub, ?_, fun q hq hqb => ?_, fun q hq => ?_, fun y => ?_,
    by rw [hreg]; exact ht.once, by rw [hcore]; exact ht.above, ?_⟩
  · rw [← ht.head, hc]
    exact head?_append_cons u p _ _
  · rw [hother base (Ne.symm hpb)]
    exact ht.base_size
  · by_cases hqp : q = p
    · rw [hqp, hself]
      have := ht.pos p hp hpb
      omega
    · rw [hother q hqp]
      exact ht.pos q (hsub.subset hq) hqb
  · rw [hother q fun e => hpL (e ▸ hq)]
    exact ht.live_pos q hq
  · have htile := ht.tiles y
    have hbu : blocks (coalesce h p) u = blocks h u := blocks_congr fun q hq => hother q fun e => hpu (e ▸ hq)
    have hbv : blocks (coalesce h p) v = blocks h v :=
      blocks_congr fun q hq => hother q fun e => hpv (mem_cons_of_mem _ (e ▸ hq))
    have hbL : blocks (coalesce h p) L = blocks h L := blocks_congr fun q hq => hother q fun e => hpL (e ▸ hq)
    have hblock : block (coalesce h p) p = (p, 16 * h.size p + 16 * h.size x) := by
      unfold block
      rw [hself, Nat.mul_add]
    have hjoin := inside_join (x := y) (a := p) (m := 16 * h.size p) (n := 16 * h.size x)
    rw [htouch] at hjoin
    rw [hreg, hbL, ← htile, hc]
    simp only [blocks_append, blocks_cons, cover_append, cover_cons, hbu, hbv, hblock]
    rw [← hjoin]
    unfold block
    omega
  · have hsum := ht.sum
    have hmap : ∀ ps : List ℕ, p ∉ ps → ps.map (coalesce h p).size = ps.map h.size := fun ps hps =>
      map_congr_left fun q hq => hother q fun e => hps (e ▸ hq)
    rw [htot, ← hsum, hc]
    simp only [map_append, map_cons, sum_append, sum_cons, hself, hmap u hpu, hmap L hpL,
      hmap v fun hm => hpv (mem_cons_of_mem _ hm)]
    omega

lemma coalesce_size_le (h : Heap) (p : ℕ) : (coalesce h p).size p ≤ h.size p + h.size (h.ptr p) := by
  unfold coalesce
  split
  · simp only [update_self]
    exact Nat.mod_le _ _
  · exact Nat.le_add_right _ _

lemma Tiled.coalesce (ht : Tiled base h c L) (hp : p ∈ c) (hne : h.ptr p ≠ p)
    (hfit : h.size p + h.size (h.ptr p) < 2 ^ 32) (hsep : Sep base h c S) (hnext : p < h.ptr p → ¬ S (h.ptr p)) :
    ∃ c', Tiled base (coalesce h p) c' L ∧ Sep base (coalesce h p) c' (fun q => S q ∧ q ≠ p) ∧ p ∈ c' ∧
      (∀ q ∈ c, q ∈ c' ∨ p < q ∧ h.size q ≤ (Umalloc.coalesce h p).size p) ∧
      h.size p ≤ (Umalloc.coalesce h p).size p ∧
      (∀ q, q ≠ p → (Umalloc.coalesce h p).size q = h.size q ∧ (Umalloc.coalesce h p).ptr q = h.ptr q) := by
  by_cases htouch : p + 16 * h.size p = h.ptr p
  · obtain ⟨u, v, hc, ht', hsize⟩ := ht.merge hp hne htouch hfit
    have hlt : p < h.ptr p := by
      have := ht.sorted
      rw [hc] at this
      exact (pairwise_cons.mp (pairwise_append.mp this).2.1).1 _ mem_cons_self
    have hxc : h.ptr p ∈ c := by
      rw [hc]
      simp
    have hxb : h.ptr p ≠ base := by
      have := ht.base_le hp
      omega
    have hother : ∀ q, q ≠ p → (Umalloc.coalesce h p).size q = h.size q ∧ (Umalloc.coalesce h p).ptr q = h.ptr q := by
      intro q hq
      unfold Umalloc.coalesce
      rw [if_pos htouch]
      exact ⟨update_of_ne hq _ _, update_of_ne hq _ _⟩
    have hsub : ∀ q ∈ u ++ p :: v, q ∈ c := by
      intro q hq
      rw [hc]
      simp only [mem_append, mem_cons] at hq ⊢
      grind
    refine ⟨u ++ p :: v, ht', fun q hq hqb hS hend => ?_, by simp, fun q hq => ?_, by rw [hsize]; omega, hother⟩
    · by_cases hqp : q = p
      · -- what follows `p` now is what followed its successor
        rw [hqp, hsize] at hend
        refine hsep _ hxc hxb (hnext hlt) ?_
        rw [show h.ptr p + 16 * h.size (h.ptr p) = p + 16 * (h.size p + h.size (h.ptr p)) by omega]
        exact hsub _ hend
      · rw [(hother q hqp).1] at hend
        exact hsep q (hsub q hq) hqb (fun hs => hS ⟨hs, hqp⟩) (hsub _ hend)
    · by_cases hx : q = h.ptr p
      · rw [hx, hsize]
        exact .inr ⟨hlt, by omega⟩
      · rw [hc] at hq
        simp only [mem_append, mem_cons] at hq ⊢
        grind
  · have hco : Umalloc.coalesce h p = h := if_neg htouch
    rw [hco]
    refine ⟨c, ht, fun q hq hqb hS hend => ?_, hp, fun q hq => .inl hq, Nat.le_refl _, fun _ _ => ⟨rfl, rfl⟩⟩
    by_cases hqp : q = p
    · subst hqp
      have hpos := ht.pos q hp hqb
      rcases ht.next_cases hp with ⟨u, y, v, hc, hy⟩ | ⟨u, hc, hy⟩
      · have hord := ht.sorted
        rw [hc] at hord
        obtain ⟨-, hright, hleft⟩ := pairwise_append.mp hord
        obtain ⟨hqy, hyv⟩ := pairwise_cons.mp hright
        have hend_le := ht.end_le hp (q := y) (by rw [hc]; simp) (hqy y mem_cons_self)
        have hge : y ≤ q + 16 * h.size q := by
          rw [hc] at hend
          rcases mem_append.mp hend with hm | hm
          · have := hleft _ hm q mem_cons_self
            omega
          · rcases mem_cons.mp hm with hm | hm
            · omega
            · rcases mem_cons.mp hm with hm | hm
              · omega
              · have := (pairwise_cons.mp hyv).1 _ hm
                omega
        omega
      · -- nothing is above the last node
        have hord := ht.sorted
        rw [hc] at hord hend
        rcases mem_append.mp hend with hm | hm
        · have := (pairwise_append.mp hord).2.2 _ hm q mem_cons_self
          omega
        · have := mem_singleton.mp hm
          omega
    · exact hsep q hq hqb (fun hs => hS ⟨hs, hqp⟩) hend

/-- **`free` keeps the ring.** -/
lemma Ring.link (hr : Ring base h c (bp :: L)) (hc : c = u ++ z :: v) (hz : z < bp) (hv : ∀ w ∈ v, bp < w)
    (hfit : h.size z + h.size bp + h.size (h.ptr z) < 2 ^ 32) :
    ∃ c', Ring base (link h bp z) c' L ∧ (∃ p ∈ c', h.size bp ≤ (Umalloc.link h bp z).size p) ∧
      ∀ q ∈ L, (Umalloc.link h bp z).size q = h.size q := by
  have hnot := hr.live_not_mem mem_cons_self
  have hzc : z ∈ c := by
    rw [hc]
    simp
  have hne : h.ptr z ≠ bp := fun e => hnot (e ▸ hr.next_mem hzc)
  have hbz : bp ≠ z := Nat.ne_of_gt hz
  have ht1 := hr.toTiled.insert hc hz hv
  have hmem1 : ∀ q, q ∈ u ++ z :: bp :: v ↔ q ∈ c ∨ q = bp := by
    intro q
    rw [hc]
    simp only [mem_append, mem_cons]
    grind
  have hptr1 : (insertBlock h bp z).ptr bp = h.ptr z ∧ (insertBlock h bp z).ptr z = bp := by
    simp [insertBlock, hbz]
  have hsep1 : Sep base (insertBlock h bp z) (u ++ z :: bp :: v) fun q => q = z ∨ q = bp := by
    intro q hq hqb hS hend
    obtain ⟨hqz, hqbp⟩ := not_or.mp hS
    have hqc : q ∈ c := ((hmem1 q).mp hq).resolve_right hqbp
    rcases (hmem1 _).mp hend with hend | hend
    · exact hr.apart q hqc hqb id hend
    · -- only `z` can end at `bp`
      have hend' : q + 16 * h.size q = bp := hend
      rcases Nat.lt_or_gt_of_ne hqz with hlt | hgt
      · have := hr.end_le hqc hzc hlt
        omega
      · have hqv : bp < q := by
          have hord := hr.sorted
          rw [hc] at hqc hord
          rcases mem_append.mp hqc with hm | hm
          · have := (pairwise_append.mp hord).2.2 q hm z mem_cons_self
            omega
          · rcases mem_cons.mp hm with hm | hm
            · exact absurd hm hqz
            · exact hv q hm
        omega
  have hfit1 : (insertBlock h bp z).size bp + (insertBlock h bp z).size ((insertBlock h bp z).ptr bp) < 2 ^ 32 := by
    rw [hptr1.1]
    change h.size bp + h.size (h.ptr z) < _
    omega
  obtain ⟨c2, ht2, hsep2, hbp2, hmem2, hgrow2, hother2⟩ := ht1.coalesce ((hmem1 bp).mpr (.inr rfl))
    (by rwa [hptr1.1]) hfit1 hsep1 (by
      rw [hptr1.1]
      intro hlt hS
      rcases hS with hS | hS <;> omega)
  have hz2 : z ∈ c2 := by
    rcases hmem2 z ((hmem1 z).mpr (.inl hzc)) with hm | hm
    · exact hm
    · omega
  have hptr2 : (coalesce (insertBlock h bp z) bp).ptr z = bp := by
    rw [(hother2 z hbz.symm).2, hptr1.2]
  have hfit2 : (coalesce (insertBlock h bp z) bp).size z + (coalesce (insertBlock h bp z) bp).size bp < 2 ^ 32 := by
    have hle := coalesce_size_le (insertBlock h bp z) bp
    rw [hptr1.1] at hle
    rw [(hother2 z hbz.symm).1]
    change _ ≤ h.size bp + h.size (h.ptr z) at hle
    change h.size z + _ < _
    omega
  obtain ⟨c3, ht3, hsep3, hz3, hmem3, hgrow3, hother3⟩ := ht2.coalesce hz2 (by rwa [hptr2])
    (by rwa [hptr2]) hsep2 (by
      rw [hptr2]
      intro _ hS
      exact hS.2 rfl)
  rw [link_eq hz hne]
  have hL : ∀ q ∈ L, q ≠ z ∧ q ≠ bp := by
    intro q hq
    refine ⟨fun e => hr.live_not_mem (mem_cons_of_mem _ hq) (e ▸ hzc), fun e => ?_⟩
    have hm : bp ∈ u ++ z :: bp :: v := (hmem1 bp).mpr (.inr rfl)
    exact ht1.live_not_mem hq (e ▸ hm)
  refine ⟨c3, ⟨⟨ht3.head, ht3.loop, ht3.sorted, ht3.base_size, ht3.pos, ht3.live_pos, ht3.tiles, ht3.once, ht3.above,
    ht3.sum⟩, hz3, fun q hq hqb _ => hsep3 q hq hqb fun hS => ?_⟩, ?_, fun q hq => ?_⟩
  · rcases hS with ⟨⟨hS | hS, h1⟩, h2⟩
    · exact h2 hS
    · exact h1 hS
  · -- the block of `bp`, or the one it was joined to
    rcases hmem3 bp hbp2 with hm | hm
    · refine ⟨bp, hm, ?_⟩
      rw [(hother3 bp hbz).1]
      exact hgrow2
    · exact ⟨z, hz3, Nat.le_trans hgrow2 hm.2⟩
  · rw [(hother3 q (hL q hq).1).1, (hother2 q (hL q hq).2).1]
    rfl

end Xv6.Umalloc
