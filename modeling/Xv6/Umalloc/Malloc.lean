import Xv6.Umalloc.Free

/-!
# `malloc` keeps the ring

The loop of `malloc` goes once around the ring.  If no block is large enough it gets memory from `sbrk`,
which `free` adds to the ring, and finds a block on the second way round at the latest.
-/

namespace Xv6.Umalloc

open Lib Lib.Slist Function List

variable {base : ℕ} {h : Heap} {c L : List ℕ}

/-! ### `free` and `morecore` -/

lemma Ring.perm (hr : Ring base h c L) (hp : L.Perm L') : Ring base h c L' where
  head := hr.head
  loop := hr.loop
  sorted := hr.sorted
  base_size := hr.base_size
  pos := hr.pos
  live_pos p hm := hr.live_pos p (hp.mem_iff.mpr hm)
  tiles x := by
    rw [← hr.tiles x]
    exact congrArg _ (cover_perm (hp.map (block h))).symm
  once := hr.once
  above := hr.above
  sum := by rw [← hr.sum, (hp.map h.size).sum_nat]
  freep := hr.freep
  apart := hr.apart

variable {bp fuel hp n nu z : ℕ}

lemma Tiled.fit (ht : Tiled base h c (bp :: L)) (hfit : h.total < 2 ^ 32) :
    ∀ z ∈ c, h.size z + h.size bp + h.size (h.ptr z) < 2 ^ 32 := by
  intro z hz
  have hsum := ht.sum
  rcases ht.next_cases hz with ⟨u, y, v, hc, hy⟩ | ⟨u, hc, hy⟩
  · rw [hy]
    rw [hc] at hsum
    simp only [map_append, map_cons, sum_append, sum_cons] at hsum
    omega
  · rw [hy, ht.base_size]
    rw [hc] at hsum
    simp only [map_append, map_cons, sum_append, sum_cons] at hsum
    omega

lemma Ring.free (hr : Ring base h c (bp :: L)) (hfit : ∀ z ∈ c, h.size z + h.size bp + h.size (h.ptr z) < 2 ^ 32)
    (hfuel : c.length ≤ fuel) :
    ∃ h' c', free fuel h (bp + 16) = some h' ∧ Ring base h' c' L ∧ h'.core = h.core ∧
      (∃ p ∈ c', h.size bp ≤ h'.size p) ∧ ∀ q ∈ L, h'.size q = h.size q := by
  have hnot := hr.live_not_mem mem_cons_self
  have habove := hr.live_above mem_cons_self
  obtain ⟨u, z, v, hc, hz, hv⟩ : ∃ u z v, c = u ++ z :: v ∧ z < bp ∧ ∀ w ∈ v, bp < w := by
    have hhead := hr.head
    have hs := hr.sorted
    cases c with
    | nil => cases hhead
    | cons a c =>
      obtain rfl : a = base := Option.some.inj hhead
      exact exists_split hs (by omega) fun hm => hnot (mem_cons_of_mem _ hm)
  obtain ⟨c', hr', hbig, hframe⟩ := hr.link hc hz hv (hfit z (by simp [hc]))
  refine ⟨Umalloc.link h bp z, c', ?_, hr', ?_, hbig, hframe⟩
  · unfold Umalloc.free
    rw [Nat.add_sub_cancel, hr.search_eq hc hz hv hfuel]
    rfl
  · unfold Umalloc.link joinLeft joinRight
    split <;> split <;> rfl

/-- There is no memory yet where `sbrk` puts the next. -/
lemma cover_regions_above (hfresh : ∀ r ∈ h.core, r.1 + 16 * r.2 ≤ hp) {x : ℕ} (hx : hp ≤ x) : cover x (regions h) = 0 := by
  by_contra hne
  obtain ⟨b, hb, hin⟩ := cover_pos_iff.mp (Nat.pos_of_ne_zero hne)
  obtain ⟨r, hrm, rfl⟩ := mem_map.mp hb
  have := hfresh r hrm
  rw [inside_iff] at hin
  omega

lemma Ring.grant (hr : Ring base h c L) (hpos : 0 < n) (hbase : base + 16 ≤ hp)
    (hfresh : ∀ r ∈ h.core, r.1 + 16 * r.2 ≤ hp) :
    Ring base { h with size := update h.size hp n, core := (hp, n) :: h.core } c (hp :: L) ∧
      ∀ q ∈ c ++ L, q ≠ hp := by
  have hbelow : ∀ x, hp ≤ x → cover x (regions h) = 0 := fun x => cover_regions_above hfresh
  have hcovered : ∀ q ∈ c ++ L, 0 < h.size q → q < hp := by
    intro q hq hs
    by_contra hge
    have h0 := hbelow q (by omega)
    have htile := hr.tiles q
    have : 0 < cover q (blocks h (c ++ L)) := cover_pos_iff.mpr ⟨_, mem_map_of_mem hq, inside_block hs⟩
    rw [blocks_append, cover_append] at this
    omega
  have hne : ∀ q ∈ c ++ L, q ≠ hp := by
    intro q hq
    by_cases hb : q = base
    · omega
    · refine Nat.ne_of_lt (hcovered q hq ?_)
      rcases mem_append.mp hq with hm | hm
      · exact hr.pos q hm hb
      · exact hr.live_pos q hm
  refine ⟨?_, hne⟩
  set h' := ({ h with size := update h.size hp n, core := (hp, n) :: h.core } : Heap)
  have hptr : h'.ptr = h.ptr := rfl
  have hfree : h'.freep = h.freep := rfl
  have hcore : h'.core = (hp, n) :: h.core := rfl
  have hself : h'.size hp = n := update_self _ _ _
  have hsize : ∀ q ∈ c ++ L, h'.size q = h.size q := by
    intro q hq
    exact update_of_ne (hne q hq) _ _
  have hc : ∀ q ∈ c, h'.size q = h.size q := fun q hq => hsize q (mem_append_left _ hq)
  have hL : ∀ q ∈ L, h'.size q = h.size q := fun q hq => hsize q (mem_append_right _ hq)
  have hreg : regions h' = (hp, 16 * n) :: regions h := rfl
  have htot : h'.total = n + h.total := rfl
  refine ⟨⟨hr.head, by rw [hptr]; exact hr.loop, hr.sorted, ?_, fun p hm hb => ?_, fun p hm => ?_, fun x => ?_,
    fun x => ?_, fun r hm => ?_, ?_⟩, by rw [hfree]; exact hr.freep, fun p hm hb hS => ?_⟩
  · rw [hc base hr.base_mem]
    exact hr.base_size
  · rw [hc p hm]
    exact hr.pos p hm hb
  · rcases mem_cons.mp hm with rfl | hm
    · rw [hself]
      exact hpos
    · rw [hL p hm]
      exact hr.live_pos p hm
  · have hblock : block h' hp = (hp, 16 * n) := by
      unfold block
      rw [hself]
    rw [blocks_congr hc, blocks_cons, blocks_congr hL, hreg, cover_cons, cover_cons, ← hr.tiles x, hblock]
    omega
  · rw [hreg, cover_cons]
    by_cases hx : hp ≤ x
    · rw [hbelow x hx]
      split <;> omega
    · rw [if_neg (by rw [inside_iff]; omega)]
      exact hr.once x
  · rw [hcore] at hm
    rcases mem_cons.mp hm with rfl | hm
    · exact hbase
    · exact hr.above r hm
  · rw [htot, ← hr.sum, map_congr_left hc, map_cons, map_congr_left hL, sum_cons, hself]
    omega
  · rw [hc p hm]
    exact hr.apart p hm hb hS

lemma Ring.morecore (hr : Ring base h c L) (hbase : base + 16 ≤ hp) (hfresh : ∀ r ∈ h.core, r.1 + 16 * r.2 ≤ hp)
    (hsmall : ∀ y ∈ c, h.size y < nu) (hnu : nu ≤ 2 ^ 28 + 1) (hfuel : c.length ≤ fuel) :
    ∃ h' c', morecore fuel h nu (some hp) = some (h', h'.freep) ∧ Ring base h' c' L ∧
      h'.core = (hp, coreUnits nu) :: h.core ∧ (∃ p ∈ c', nu ≤ h'.size p) ∧ ∀ q ∈ L, h'.size q = h.size q := by
  have hunits : 0 < coreUnits nu ∧ nu ≤ coreUnits nu ∧ coreUnits nu ≤ 2 ^ 28 + 1 := by
    unfold coreUnits
    split <;> omega
  obtain ⟨hg, hne⟩ := hr.grant hunits.1 hbase hfresh
  obtain ⟨h', c', hfree, hr', hcore, ⟨p, hp', hbig⟩, hframe⟩ := hg.free (fun z hz => by
    have h1 := hsmall z hz
    have h2 := hsmall _ (hr.next_mem hz)
    simp only [update_self]
    rw [update_of_ne (hne z (mem_append_left _ hz)), update_of_ne (hne _ (mem_append_left _ (hr.next_mem hz)))]
    omega) hfuel
  refine ⟨h', c', ?_, hr', hcore, ⟨p, hp', ?_⟩, fun q hq => ?_⟩
  · simp only [Umalloc.morecore, hfree, Option.map_some]
  · simp only [update_self] at hbig
    omega
  · rw [hframe q hq]
    exact update_of_ne (hne q (mem_append_right _ hq)) _ _

/-! ### Taking a block -/

lemma Tiled.successor (ht : Tiled base h c L) (hz : z ∈ c) (hpos : 0 < nu) (hbig : nu ≤ h.size (h.ptr z)) :
    ∃ u v, c = u ++ z :: h.ptr z :: v ∧ h.ptr z ≠ base := by
  have hne : h.ptr z ≠ base := by
    intro he
    rw [he, ht.base_size] at hbig
    omega
  rcases ht.next_cases hz with ⟨u, y, v, hc, hy⟩ | ⟨u, hc, hy⟩
  · exact ⟨u, v, by rw [hy]; exact hc, hne⟩
  · exact absurd hy hne

lemma Ring.take (hr : Ring base h c L) (hc : c = u ++ z :: h.ptr z :: v) (hne : h.ptr z ≠ base) :
    Ring base { h with ptr := update h.ptr z (h.ptr (h.ptr z)), freep := z } (u ++ z :: v) (h.ptr z :: L) := by
  obtain ⟨p, hp⟩ : ∃ p, h.ptr z = p := ⟨_, rfl⟩
  rw [hp] at hc hne ⊢
  have hpc : p ∈ c := by
    rw [hc]
    simp
  have hsub : (u ++ z :: v).Sublist c := by
    rw [hc]
    exact List.Sublist.append_left ((sublist_cons_self p v).cons_cons z) u
  have hnd := hr.nodup
  rw [hc] at hnd
  obtain ⟨-, hright, huv⟩ := nodup_append.mp hnd
  have hloop : Loop h.ptr ((z :: p :: v) ++ u) := Loop.rotate (hc ▸ hr.loop)
  have hloop' : Loop (update h.ptr z (h.ptr p)) ((z :: v) ++ u) := by
    refine Loop.remove hloop fun hm => ?_
    rcases mem_append.mp (show z ∈ (p :: v) ++ u from hm) with hm | hm
    · exact (nodup_cons.mp hright).1 hm
    · exact huv z hm z mem_cons_self rfl
  refine ⟨⟨?_, Loop.rotate hloop', hr.sorted.sublist hsub, hr.base_size, fun q hq => hr.pos q (hsub.subset hq),
    fun q hq => ?_, fun x => ?_, hr.once, hr.above, ?_⟩, by simp, fun q hq hb hS hend => ?_⟩
  · rw [← hr.head, hc]
    exact head?_append_cons u z _ _
  · rcases mem_cons.mp hq with rfl | hq
    · exact hr.pos q hpc hne
    · exact hr.live_pos q hq
  · have htile := hr.tiles x
    have hsame : ∀ ps, blocks { h with ptr := update h.ptr z (h.ptr p), freep := z } ps = blocks h ps :=
      fun ps => blocks_congr fun _ _ => rfl
    rw [hsame, hsame, show regions { h with ptr := update h.ptr z (h.ptr p), freep := z } = regions h from rfl,
      ← htile, hc]
    simp only [blocks_append, blocks_cons, cover_append, cover_cons]
    omega
  · have hsum := hr.sum
    rw [hc] at hsum
    simp only [map_append, map_cons, sum_append, sum_cons] at hsum ⊢
    rw [show Heap.total ({ h with ptr := update h.ptr z (h.ptr p), freep := z } : Heap) = h.total from rfl, ← hsum]
    omega
  · exact hr.apart q (hsub.subset hq) hb hS (hsub.subset hend)

lemma Ring.cut (hr : Ring base h c L) (hp : p ∈ c) (hb : p ≠ base) (hpos : 0 < n) (hlt : n < h.size p) (hz : z ∈ c) :
    Ring base { h with
      size := update (update h.size p (h.size p - n)) (p + 16 * (h.size p - n)) n
      freep := z } c ((p + 16 * (h.size p - n)) :: L) ∧ p + 16 * (h.size p - n) ∉ c ++ L ∧ p ∉ L := by
  obtain ⟨q, hq⟩ : ∃ q, p + 16 * (h.size p - n) = q := ⟨_, rfl⟩
  rw [hq]
  have hqc : q ∉ c := by
    intro hm
    have := hr.end_le hp hm (by omega)
    omega
  have hqL : q ∉ L := by
    intro hm
    have h1 := hr.disjoint hp hm
    have h2 := hr.live_pos q hm
    omega
  have hpL : p ∉ L := fun hm => hr.live_not_mem hm hp
  refine ⟨?_, fun hm => (mem_append.mp hm).elim hqc hqL, hpL⟩
  have hqp : p ≠ q := fun e => hqc (e ▸ hp)
  set h' := ({ h with
    size := update (update h.size p (h.size p - n)) q n, freep := z } : Heap)
  have hptr : h'.ptr = h.ptr := rfl
  have hfree : h'.freep = z := rfl
  have hcore : h'.core = h.core := rfl
  have hsq : h'.size q = n := update_self _ _ _
  have hsp : h'.size p = h.size p - n := by
    simp only [h']
    rw [update_of_ne hqp, update_self]
  have hother : ∀ y, y ≠ p → y ≠ q → h'.size y = h.size y := by
    intro y hyp hyq
    simp only [h']
    rw [update_of_ne hyq, update_of_ne hyp]
  have hL : ∀ y ∈ L, h'.size y = h.size y := fun y hy => hother y (fun e => hpL (e ▸ hy)) fun e => hqL (e ▸ hy)
  have hreg : regions h' = regions h := rfl
  have htot : h'.total = h.total := rfl
  obtain ⟨u, v, hc⟩ := append_of_mem hp
  have hnd := hr.nodup
  rw [hc] at hnd
  obtain ⟨-, hright, huv⟩ := nodup_append.mp hnd
  have hpu : ∀ y ∈ u, h'.size y = h.size y := fun y hy =>
    hother y (huv y hy p mem_cons_self) fun e => hqc (by rw [hc, ← e]; simp [hy])
  have hpv : ∀ y ∈ v, h'.size y = h.size y := fun y hy =>
    hother y (fun e => (nodup_cons.mp hright).1 (e ▸ hy)) fun e => hqc (by rw [hc, ← e]; simp [hy])
  refine ⟨⟨hr.head, by rw [hptr]; exact hr.loop, hr.sorted, ?_, fun y hy hyb => ?_, fun y hy => ?_, fun x => ?_,
    by rw [hreg]; exact hr.once, by rw [hcore]; exact hr.above, ?_⟩,
    by rw [hfree]; exact hz, fun y hy hyb hS => ?_⟩
  · rw [hother base (Ne.symm hb) fun e => hqc (e ▸ hr.base_mem)]
    exact hr.base_size
  · by_cases hyp : y = p
    · rw [hyp, hsp]
      omega
    · rw [hother y hyp fun e => hqc (e ▸ hy)]
      exact hr.pos y hy hyb
  · rcases mem_cons.mp hy with rfl | hy
    · rw [hsq]
      exact hpos
    · rw [hL y hy]
      exact hr.live_pos y hy
  · have hjoin := inside_join (x := x) (a := p) (m := 16 * (h.size p - n)) (n := 16 * n)
    rw [hq, show 16 * (h.size p - n) + 16 * n = 16 * h.size p by omega] at hjoin
    have hbp : block h' p = (p, 16 * (h.size p - n)) := by
      unfold block
      rw [hsp]
    have hbq : block h' q = (q, 16 * n) := by
      unfold block
      rw [hsq]
    have htile := hr.tiles x
    rw [hc] at htile ⊢
    simp only [blocks_append, blocks_cons, cover_append, cover_cons] at htile ⊢
    rw [blocks_congr hpu, blocks_congr hpv, blocks_congr hL, hreg, ← htile, hbp, hbq]
    unfold block
    omega
  · have hsum := hr.sum
    rw [hc] at hsum ⊢
    simp only [map_append, map_cons, sum_append, sum_cons] at hsum ⊢
    rw [map_congr_left hpu, map_congr_left hpv, map_congr_left hL, htot, ← hsum, hsp, hsq]
    omega
  · by_cases hyp : y = p
    · rw [hyp, hsp, hq]
      exact hqc
    · rw [hother y hyp fun e => hqc (e ▸ hy)]
      exact hr.apart y hy hyb hS

/-- **A block of `nu` units is taken** from the successor of `z`. -/
lemma Ring.carve (hr : Ring base h c L) (hz : z ∈ c) (hpos : 0 < nu) (hbig : nu ≤ h.size (h.ptr z)) :
    ∃ q c', (carve h nu z (h.ptr z)).2 = q + 16 ∧ Ring base (Umalloc.carve h nu z (h.ptr z)).1 c' (q :: L) ∧
      (Umalloc.carve h nu z (h.ptr z)).1.size q = nu ∧
      ∀ y ∈ L, (Umalloc.carve h nu z (h.ptr z)).1.size y = h.size y := by
  obtain ⟨u, v, hc, hne⟩ := hr.successor hz hpos hbig
  have hpc : h.ptr z ∈ c := by
    rw [hc]
    simp
  unfold Umalloc.carve
  by_cases hex : h.size (h.ptr z) = nu
  · rw [if_pos hex]
    exact ⟨h.ptr z, u ++ z :: v, rfl, hr.take hc hne, hex, fun _ _ => rfl⟩
  · rw [if_neg hex]
    obtain ⟨hr', hnot, hpL⟩ := hr.cut hpc hne hpos (by omega) hz
    refine ⟨_, c, rfl, hr', update_self _ _ _, fun y hy => ?_⟩
    have hy1 : y ≠ h.ptr z + 16 * (h.size (h.ptr z) - nu) := fun e => hnot (e ▸ mem_append_right _ hy)
    have hy2 : y ≠ h.ptr z := fun e => hpL (e ▸ hy)
    simp only
    rw [update_of_ne hy1, update_of_ne hy2]

end Xv6.Umalloc
