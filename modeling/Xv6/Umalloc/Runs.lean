import Xv6.Umalloc.Malloc

/-!
# The heap over whole runs
-/

namespace Xv6.Umalloc

open Lib Lib.Slist Function List Option

variable {base : ℕ} {h : Heap} {c L : List ℕ}

/-- What `malloc` does when it is back at `freep`. -/
def ask (nu fuel : ℕ) (h : Heap) (ans : Option (Option ℕ)) : Option (Heap × ℕ) :=
  match ans with
  | none => none
  | some a =>
    match morecore fuel h nu a with
    | none => none
    | some (h', p') => if p' = 0 then some (h', 0) else mallocLoop nu fuel h' none p' (h'.ptr p')

lemma mallocLoop_succ (nu fuel : ℕ) (h : Heap) (ans : Option (Option ℕ)) (z p : ℕ) :
    mallocLoop nu (fuel + 1) h ans z p = if nu ≤ h.size p then some (carve h nu z p)
      else if p = h.freep then ask nu fuel h ans else mallocLoop nu fuel h ans p (h.ptr p) := by
  rw [mallocLoop.eq_def]
  rfl

/-! ### More fuel changes no result -/

variable {z fuel fuel' nu n : ℕ} {ans : Option ℕ} {r : Heap × ℕ} {s s' : Sys} {a : Act}

lemma search_mono {bp : ℕ} : ∀ {fuel fuel' p : ℕ}, search h bp fuel p = some z → fuel ≤ fuel' →
    search h bp fuel' p = some z
  | 0, _, _, hs, _ => by cases hs
  | fuel + 1, fuel', p, hs, hle => by
    obtain ⟨k, rfl⟩ : ∃ k, fuel' = k + 1 := ⟨fuel' - 1, by omega⟩
    rw [search] at hs ⊢
    by_cases h1 : bp > p ∧ bp < h.ptr p
    · rw [if_pos h1] at hs ⊢
      exact hs
    · rw [if_neg h1] at hs ⊢
      by_cases h2 : p ≥ h.ptr p ∧ (bp > p ∨ bp < h.ptr p)
      · rw [if_pos h2] at hs ⊢
        exact hs
      · rw [if_neg h2] at hs ⊢
        exact search_mono hs (by omega)

lemma free_mono {ap : ℕ} (hf : free fuel h ap = some h') (hle : fuel ≤ fuel') :
    free fuel' h ap = some h' := by
  unfold free at hf ⊢
  obtain ⟨z, hz, rfl⟩ := map_eq_some_iff.mp hf
  rw [search_mono hz hle]
  rfl

lemma morecore_mono (hm : morecore fuel h nu ans = some r) (hle : fuel ≤ fuel') :
    morecore fuel' h nu ans = some r := by
  unfold morecore at hm ⊢
  cases ans with
  | none => exact hm
  | some hp =>
    obtain ⟨h', hf, rfl⟩ := map_eq_some_iff.mp hm
    simp only [free_mono hf hle, map_some]

lemma mallocLoop_mono : ∀ {fuel fuel' : ℕ} {h : Heap} {ans : Option (Option ℕ)} {z p : ℕ},
    mallocLoop nu fuel h ans z p = some r → fuel ≤ fuel' → mallocLoop nu fuel' h ans z p = some r
  | 0, _, _, _, _, _, hs, _ => by cases hs
  | fuel + 1, fuel', h, ans, z, p, hs, hle => by
    obtain ⟨k, rfl⟩ : ∃ k, fuel' = k + 1 := ⟨fuel' - 1, by omega⟩
    rw [mallocLoop_succ] at hs ⊢
    by_cases h1 : nu ≤ h.size p
    · rw [if_pos h1] at hs ⊢
      exact hs
    · rw [if_neg h1] at hs ⊢
      by_cases h2 : p = h.freep
      · rw [if_pos h2] at hs ⊢
        unfold ask at hs ⊢
        cases ans with
        | none => cases hs
        | some a =>
          simp only at hs ⊢
          cases hm : morecore fuel h nu a with
          | none =>
            rw [hm] at hs
            cases hs
          | some x =>
            obtain ⟨h', p'⟩ := x
            rw [hm] at hs
            rw [morecore_mono hm (show fuel ≤ k by omega)]
            simp only at hs ⊢
            by_cases h3 : p' = 0
            · rw [if_pos h3] at hs ⊢
              exact hs
            · rw [if_neg h3] at hs ⊢
              exact mallocLoop_mono hs (by omega)
      · rw [if_neg h2] at hs ⊢
        exact mallocLoop_mono hs (by omega)

lemma step_mono (hs : step base fuel s a = some s') (hle : fuel ≤ fuel') : step base fuel' s a = some s' := by
  cases a with
  | malloc n ans =>
    obtain ⟨r, hr, rfl⟩ := map_eq_some_iff.mp hs
    refine map_eq_some_iff.mpr ⟨r, ?_, rfl⟩
    exact mallocLoop_mono hr hle
  | free ap =>
    simp only [step] at hs ⊢
    cases hfind : s.live.find? (·.1 = ap) with
    | none =>
      rw [hfind] at hs
      cases hs
    | some x =>
      rw [hfind] at hs
      obtain ⟨h', hf, rfl⟩ := map_eq_some_iff.mp hs
      simp only [free_mono hf hle, map_some]

/-! ### The loop of `malloc` -/

lemma mallocLoop_path (nu : ℕ) (ans : Option (Option ℕ)) (hz : z ∈ c) (hpath : Path h.ptr z w h.freep)
    (hw : ∀ y ∈ w, y ∈ c) (hnot : h.freep ∉ w) (hfuel : w.length < fuel) :
    (∃ z' ∈ c, nu ≤ h.size (h.ptr z') ∧ mallocLoop nu fuel h ans z (h.ptr z) = some (carve h nu z' (h.ptr z'))) ∨
    ((∀ y ∈ w ++ [h.freep], h.size y < nu) ∧
      mallocLoop nu fuel h ans z (h.ptr z) = ask nu (fuel - w.length - 1) h ans) := by
  induction w generalizing z fuel with
  | nil =>
    obtain ⟨fuel, rfl⟩ : ∃ k, fuel = k + 1 := ⟨fuel - 1, by omega⟩
    rw [mallocLoop_succ]
    by_cases hbig : nu ≤ h.size (h.ptr z)
    · rw [if_pos hbig]
      exact .inl ⟨z, hz, hbig, rfl⟩
    · rw [if_neg hbig, if_pos (show h.ptr z = h.freep from hpath)]
      refine .inr ⟨fun y hy => ?_, rfl⟩
      obtain rfl : y = h.freep := mem_singleton.mp hy
      rw [← show h.ptr z = h.freep from hpath]
      omega
  | cons y w ih =>
    obtain ⟨fuel, rfl⟩ : ∃ k, fuel = k + 1 := ⟨fuel - 1, by omega⟩
    have hy : h.ptr z = y := hpath.1
    have hyc := hw y mem_cons_self
    rw [length_cons] at hfuel
    rw [mallocLoop_succ]
    by_cases hbig : nu ≤ h.size (h.ptr z)
    · rw [if_pos hbig]
      exact .inl ⟨z, hz, hbig, rfl⟩
    · have hne : h.ptr z ≠ h.freep := fun e => hnot (e ▸ hy ▸ mem_cons_self)
      rw [if_neg hbig, if_neg hne, hy]
      rcases ih hyc hpath.2 (fun x hx => hw x (mem_cons_of_mem _ hx)) (fun hm => hnot (mem_cons_of_mem _ hm))
        (show w.length < fuel by omega) with hfound | ⟨hsmall, hask⟩
      · exact .inl hfound
      · refine .inr ⟨fun x hx => ?_, ?_⟩
        · rcases mem_cons.mp hx with hxy | hx
          · rw [hxy, ← hy]
            omega
          · exact hsmall x hx
        · rw [hask, length_cons]
          congr 1
          omega

lemma Ring.mallocLoop_around (hr : Ring base h c L) (nu : ℕ) (ans : Option (Option ℕ)) (hfuel : c.length ≤ fuel) :
    (∃ z ∈ c, nu ≤ h.size (h.ptr z) ∧
      mallocLoop nu fuel h ans h.freep (h.ptr h.freep) = some (Umalloc.carve h nu z (h.ptr z))) ∨
    ((∀ y ∈ c, h.size y < nu) ∧
      mallocLoop nu fuel h ans h.freep (h.ptr h.freep) = ask nu (fuel - c.length) h ans) := by
  obtain ⟨a, b, hab⟩ := append_of_mem hr.freep
  have hloop : Loop h.ptr (h.freep :: (b ++ a)) := Loop.rotate (hab ▸ hr.loop)
  have hnd := hr.nodup
  have hmem : ∀ q, q ∈ b ++ a ∨ q = h.freep ↔ q ∈ c := by
    intro q
    rw [hab]
    simp only [mem_cons, mem_append]
    grind
  have hlen : c.length = (b ++ a).length + 1 := by
    rw [hab]
    simp only [length_append, length_cons]
    omega
  have hnot : h.freep ∉ b ++ a := by
    rw [hab] at hnd
    obtain ⟨-, hright, hleft⟩ := nodup_append.mp hnd
    intro hm
    rcases mem_append.mp hm with hm | hm
    · exact (nodup_cons.mp hright).1 hm
    · exact hleft _ hm _ mem_cons_self rfl
  rcases mallocLoop_path nu ans hr.freep hloop (fun y hy => (hmem y).mp (.inl hy)) hnot
    (show (b ++ a).length < fuel by omega) with hfound | ⟨hsmall, hask⟩
  · exact .inl hfound
  · refine .inr ⟨fun y hy => hsmall y ?_, ?_⟩
    · rcases (hmem y).mpr hy with hm | hm
      · exact mem_append_left _ hm
      · exact mem_append_right _ (mem_singleton.mpr hm)
    · rw [hask, hlen]
      congr 1

/-- There is the memory of before, and that which `morecore` asked for if no block of `c` was large enough. -/
def Granted (c : List ℕ) (h : Heap) (nu : ℕ) (ans : Option ℕ) (h' : Heap) : Prop :=
  h'.core = h.core ∨ (∀ y ∈ c, h.size y < nu) ∧ ∃ hp ∈ ans, h'.core = (hp, coreUnits nu) :: h.core

/-- The outcome of `malloc`: no memory, because `sbrk` failed, or a block of `nu` units. -/
def Served (base : ℕ) (h : Heap) (c L : List ℕ) (nu : ℕ) (ans : Option ℕ) (r : Heap × ℕ) : Prop :=
  (∀ y ∈ L, r.1.size y = h.size y) ∧ Granted c h nu ans r.1 ∧ ((r.2 = 0 ∧ ans = none ∧ ∃ c, Ring base r.1 c L) ∨
      ∃ q c, r.2 = q + 16 ∧ Ring base r.1 c (q :: L) ∧ r.1.size q = nu)

/-- What `sbrk` may return: memory above all that there was before. -/
def Above (base : ℕ) (h : Heap) (ans : Option ℕ) : Prop :=
  ∀ hp ∈ ans, base + 16 ≤ hp ∧ ∀ r ∈ h.core, r.1 + 16 * r.2 ≤ hp

/-- **The loop of `malloc` ends**, with at most one call of `sbrk`. -/
lemma Ring.mallocLoop (hr : Ring base h c L) (hbase : 0 < base) (hpos : 0 < nu) (hnu : nu ≤ 2 ^ 28 + 1)
    (hans : Above base h ans) :
    ∃ N, ∀ fuel, N ≤ fuel → ∃ r, mallocLoop nu fuel h (some ans) h.freep (h.ptr h.freep) = some r ∧
      Served base h c L nu ans r := by
  have hcarve : ∀ {h' : Heap} {c' : List ℕ} {z : ℕ}, Ring base h' c' L → z ∈ c' → nu ≤ h'.size (h'.ptr z) →
      (∀ y ∈ L, h'.size y = h.size y) → Granted c h nu ans h' →
      Served base h c L nu ans (Umalloc.carve h' nu z (h'.ptr z)) := by
    intro h' c' z hr' hz hbig hframe hcore
    obtain ⟨q, c'', hq, hr'', hsize, hframe'⟩ := hr'.carve hz hpos hbig
    have hkeep : (Umalloc.carve h' nu z (h'.ptr z)).1.core = h'.core := by
      unfold Umalloc.carve
      split <;> rfl
    refine ⟨fun y hy => (hframe' y hy).trans (hframe y hy), ?_, .inr ⟨q, c'', hq, hr'', hsize⟩⟩
    unfold Granted at hcore ⊢
    rwa [hkeep]
  by_cases hsmall : ∀ y ∈ c, h.size y < nu
  · cases ans with
    | none =>
      refine ⟨c.length, fun fuel hfuel => ?_⟩
      rcases hr.mallocLoop_around nu (some none) hfuel with ⟨z, hz, hbig, hrun⟩ | ⟨-, hrun⟩
      · exact ⟨_, hrun, hcarve hr hz hbig (fun _ _ => rfl) (.inl rfl)⟩
      · exact ⟨(h, 0), hrun, fun _ _ => rfl, .inl rfl, .inl ⟨rfl, rfl, c, hr⟩⟩
    | some hp =>
      obtain ⟨h1, h2⟩ := hans hp rfl
      obtain ⟨h', c', hmore, hr', hcore, ⟨p, hp', hbig⟩, hframe⟩ :=
        hr.morecore h1 h2 hsmall hnu (Nat.le_refl c.length)
      refine ⟨2 * c.length + c'.length, fun fuel hfuel => ?_⟩
      rcases hr.mallocLoop_around nu (some (some hp)) (show c.length ≤ fuel by omega) with
        ⟨z, hz, hbig', hrun⟩ | ⟨-, hrun⟩
      · exact ⟨_, hrun, hcarve hr hz hbig' (fun _ _ => rfl) (.inl rfl)⟩
      · have hfreep : h'.freep ≠ 0 := by
          have := hr'.base_le hr'.freep
          omega
        rw [hrun]
        unfold ask
        simp only [morecore_mono hmore (show c.length ≤ fuel - c.length by omega)]
        rw [if_neg hfreep]
        -- the second way round finds the new memory at the latest
        rcases hr'.mallocLoop_around nu none (show c'.length ≤ fuel - c.length by omega) with
          ⟨z, hz, hbig', hrun'⟩ | ⟨hnone, -⟩
        · exact ⟨_, hrun', hcarve hr' hz hbig' hframe (.inr ⟨hsmall, hp, rfl, hcore⟩)⟩
        · exact absurd (hnone p hp') (Nat.not_lt.mpr hbig)
  · refine ⟨c.length, fun fuel hfuel => ?_⟩
    rcases hr.mallocLoop_around nu (some ans) hfuel with ⟨z, hz, hbig, hrun⟩ | ⟨hall, -⟩
    · exact ⟨_, hrun, hcarve hr hz hbig (fun _ _ => rfl) (.inl rfl)⟩
    · exact absurd hall hsmall

/-- Free memory without a gap is in one free block. -/
lemma Ring.contiguous (hr : Ring base h c L) {a b : ℕ} (hab : a < b)
    (hfree : ∀ x, a ≤ x → x < b → 0 < cover x (blocks h c)) : ∃ p ∈ c, p ≤ a ∧ b ≤ p + 16 * h.size p := by
  have hat : ∀ x, a ≤ x → x < b → ∃ p ∈ c, p ≤ x ∧ x < p + 16 * h.size p := by
    intro x h1 h2
    obtain ⟨_, hm, hin⟩ := cover_pos_iff.mp (hfree x h1 h2)
    obtain ⟨p, hp, rfl⟩ := mem_map.mp hm
    exact ⟨p, hp, inside_iff.mp hin⟩
  induction b, hab using Nat.le_induction with
  | base =>
    obtain ⟨p, hp, h1, h2⟩ := hat a le_rfl (Nat.lt_succ_self a)
    exact ⟨p, hp, h1, h2⟩
  | succ b hab ih =>
    obtain ⟨p, hp, h1, h2⟩ := ih (fun x hx hxb => hfree x hx (by omega)) fun x hx hxb => hat x hx (by omega)
    refine ⟨p, hp, h1, ?_⟩
    by_contra hlt
    -- the next byte would be in the block that begins where this one ends
    obtain ⟨q, hq, h3, h4⟩ := hat b (by omega) (Nat.lt_succ_self b)
    obtain hqp | rfl | hpq := Nat.lt_trichotomy q p
    · have := hr.end_le hq hp hqp
      omega
    · omega
    · have := hr.end_le hp hq hpq
      have hpb : p ≠ base := by
        rintro rfl
        rw [hr.base_size] at h2
        omega
      refine hr.apart p hp hpb id ?_
      rwa [show p + 16 * h.size p = q by omega]

/-- The block that is large enough after `morecore` is the one that ends with the new memory. -/
lemma Ring.end_new (hr : Ring base h c L) {h' : Heap} {c' : List ℕ} {hp y : ℕ} (hr' : Ring base h' c' L)
    (hcore : h'.core = (hp, nu) :: h.core) (hframe : ∀ q ∈ L, h'.size q = h.size q)
    (hfresh : ∀ r ∈ h.core, r.1 + 16 * r.2 ≤ hp) (hsmall : ∀ y ∈ c, h.size y < nu) (hpos : 0 < nu)
    (hy : y ∈ c') (hbig : nu ≤ h'.size y) : y + 16 * h'.size y = hp + 16 * nu := by
  have hreg : ∀ x, cover x (regions h') = cover x (regions h) + if Inside x (hp, 16 * nu) then 1 else 0 := by
    intro x
    rw [regions, hcore, map_cons, cover_cons]
    rfl
  have hL : ∀ x, cover x (blocks h' L) = cover x (blocks h L) := fun x => by rw [blocks_congr hframe]
  have hat : ∀ p ∈ c', ∀ x, p ≤ x → x < p + 16 * h'.size p → 0 < cover x (blocks h' c') := by
    intro p hp x h1 h2
    exact cover_pos_iff.mpr ⟨_, mem_map_of_mem hp, inside_iff.mpr ⟨h1, h2⟩⟩
  -- nothing is beyond the new memory
  have hend : ∀ p ∈ c', 0 < h'.size p → p + 16 * h'.size p ≤ hp + 16 * nu := by
    intro p hpc hpp
    by_contra hlt
    have hpos' := hat p hpc (p + 16 * h'.size p - 1) (by omega) (by omega)
    have htile := hr'.tiles (p + 16 * h'.size p - 1)
    rw [hreg, cover_regions_above hfresh (by omega), if_neg (by rw [inside_iff]; omega)] at htile
    omega
  obtain ⟨p, hpc, h1, h2⟩ := hr'.contiguous (a := hp) (b := hp + 16 * nu) (by omega) fun x h1 h2 => by
    have htile := hr'.tiles x
    have hold := hr.tiles x
    rw [hreg, if_pos (inside_iff.mpr ⟨h1, h2⟩), hL] at htile
    rw [cover_regions_above hfresh h1] at hold
    omega
  have hpend := hend p hpc (by omega)
  obtain hyp | rfl | hpy := Nat.lt_trichotomy y p
  · -- a block below the new memory was free before
    have hye := hr'.end_le hy hpc hyp
    obtain ⟨w, hw, h3, h4⟩ := hr.contiguous (a := y) (b := y + 16 * h'.size y) (by omega) fun x h3 h4 => by
      have hnew := hat y hy x h3 h4
      have htile := hr'.tiles x
      have hold := hr.tiles x
      have honce := hr'.once x
      rw [hreg, if_neg (by rw [inside_iff]; omega), hL] at htile
      omega
    have := hsmall w hw
    omega
  · omega
  · have := hr'.end_le hpc hy hpy
    have := hend y hy (by omega)
    omega

/-- Without a block that is large enough the loop returns the new memory. -/
lemma Ring.mallocLoop_new (hr : Ring base h c L) (hbase : 0 < base) (hlarge : 4096 ≤ nu) (hnu : nu ≤ 2 ^ 28 + 1) {hp : ℕ}
    (hans : Above base h (some hp)) (hsmall : ∀ y ∈ c, h.size y < nu) :
    ∃ N, ∀ fuel, N ≤ fuel → ∃ r, Umalloc.mallocLoop nu fuel h (some (some hp)) h.freep (h.ptr h.freep) = some r ∧
      r.2 = hp + 16 ∧ r.1.core = (hp, nu) :: h.core ∧ r.1.size hp = nu := by
  obtain ⟨h1, h2⟩ := hans hp rfl
  obtain ⟨h', c', hmore, hr', hcore, ⟨p, hp', hbig⟩, hframe⟩ := hr.morecore h1 h2 hsmall hnu (Nat.le_refl c.length)
  rw [coreUnits, if_neg (by omega)] at hcore
  refine ⟨2 * c.length + c'.length, fun fuel hfuel => ?_⟩
  rcases hr.mallocLoop_around nu (some (some hp)) (show c.length ≤ fuel by omega) with ⟨z, hz, hbig', -⟩ | ⟨-, hrun⟩
  · exact absurd (hsmall _ (hr.next_mem hz)) (Nat.not_lt.mpr hbig')
  · have hfreep : h'.freep ≠ 0 := by
      have := hr'.base_le hr'.freep
      omega
    rw [hrun]
    unfold ask
    simp only [morecore_mono hmore (show c.length ≤ fuel - c.length by omega)]
    rw [if_neg hfreep]
    rcases hr'.mallocLoop_around nu none (show c'.length ≤ fuel - c.length by omega) with ⟨z, hz, hbig', hrun'⟩ | ⟨hnone, -⟩
    · refine ⟨_, hrun', ?_⟩
      have hend := hr.end_new hr' hcore hframe h2 hsmall (by omega) (hr'.next_mem hz) hbig'
      unfold Umalloc.carve
      split
      · exact ⟨by simp only; omega, hcore, by rw [show hp = h'.ptr z by omega]; assumption⟩
      · simp only
        rw [show h'.ptr z + 16 * (h'.size (h'.ptr z) - nu) = hp by omega]
        exact ⟨rfl, hcore, update_self _ _ _⟩
    · exact absurd (hnone p hp') (Nat.not_lt.mpr hbig)

/-! ### Runs -/

/-- The header of a block that the program has. -/
def header (x : ℕ × ℕ) : ℕ := x.1 - 16

/-- The heap of a program that has called `malloc`. -/
def Good (base : ℕ) (s : Sys) : Prop :=
  ∃ c, Ring base s.heap c (s.live.map header) ∧ s.heap.total < 2 ^ 32 ∧ ∀ x ∈ s.live, 16 ≤ x.1 ∧ x.2 + 16 ≤ 16 * s.heap.size (header x)

/-- The heap of a program that has not. -/
def Fresh (s : Sys) : Prop := s.heap.freep = 0 ∧ s.live = [] ∧ s.heap.core = []

lemma nunits_spec (n : ℕ) : n + 16 ≤ 16 * nunits n := by
  unfold nunits
  omega

lemma ring_init (base : ℕ) (hcore : h.core = []) :
    Ring base { h with ptr := update h.ptr base base, size := update h.size base 0, freep := base }
      [base] [] := by
  set h' := ({ h with
    ptr := update h.ptr base base
    size := update h.size base 0
    freep := base } : Heap)
  have hcore' : h'.core = [] := hcore
  have hptr : h'.ptr base = base := update_self _ _ _
  have hsize : h'.size base = 0 := update_self _ _ _
  have hfreep : h'.freep = base := rfl
  have hreg : regions h' = [] := by
    unfold regions
    rw [hcore']
    rfl
  have htot : h'.total = 0 := by
    unfold Heap.total
    rw [hcore']
    rfl
  refine ⟨⟨rfl, hptr, pairwise_singleton _ _, hsize, fun p hp hb => ?_, fun p hp => ?_, fun x => ?_, fun x => ?_,
    fun r hm => ?_, ?_⟩, by rw [hfreep]; exact mem_singleton.mpr rfl, fun p hp hb => ?_⟩
  · exact absurd (mem_singleton.mp hp) hb
  · cases hp
  · rw [hreg]
    simp only [blocks, block, map_cons, map_nil, cover_cons, cover_nil, hsize]
    rw [if_neg]
    rw [inside_iff]
    omega
  · rw [hreg]
    exact Nat.zero_le _
  · rw [hcore'] at hm
    cases hm
  · rw [htot]
    simp [hsize]
  · exact absurd (mem_singleton.mp hp) hb

/-- The heap of a program: none yet, or a ring of the free blocks `c`. -/
def Usable (base : ℕ) (h : Heap) (c L : List ℕ) : Prop := h.freep = 0 ∧ h.core = [] ∧ L = [] ∧ c = [] ∨ Ring base h c L

lemma nunits_bounds (hn : n < 2 ^ 32) : 0 < nunits n ∧ nunits n ≤ 2 ^ 28 + 1 := by
  unfold nunits
  omega

lemma malloc_served (hbase : 0 < base) (hh : Usable base h c L) (hn : n < 2 ^ 32) (hans : Above base h ans) :
    ∃ N, ∀ fuel, N ≤ fuel → ∃ r, malloc base fuel h n ans = some r ∧ Served base h c L (nunits n) ans r := by
  obtain ⟨hpos, hnu⟩ := nunits_bounds hn
  unfold malloc
  rcases hh with ⟨hfree, hcore, rfl, rfl⟩ | hr
  · rw [if_pos hfree]
    obtain ⟨N, hN⟩ := (ring_init base hcore).mallocLoop hbase hpos hnu hans
    refine ⟨N, fun fuel hfuel => ?_⟩
    obtain ⟨r, hrun, -, hgranted, hserved⟩ := hN fuel hfuel
    exact ⟨r, hrun, by simp, hgranted.imp_right fun hg => ⟨by simp, hg.2⟩, hserved⟩
  · have hne : h.freep ≠ 0 := by
      have := hr.base_le hr.freep
      omega
    rw [if_neg hne]
    exact hr.mallocLoop hbase hpos hnu hans

/-- **The search of `malloc` ends**, and it returns 0 only if `sbrk` failed.  There is no answer to a second call of
`sbrk`, so the search makes one at most, and then finds a block before it is at `freep` again. -/
theorem malloc_returns (hbase : 0 < base) (hr : Ring base h c L) {n : ℕ} (hn : 16 * nunits n < 2 ^ 31)
    {ans : Option ℕ} (hans : Above base h ans) :
    ∃ N, ∀ fuel, N ≤ fuel → ∃ r, malloc base fuel h n ans = some r ∧
      (r.2 = 0 ∧ ans = none ∨ ∃ q c', r.2 = q + 16 ∧ Ring base r.1 c' (q :: L) ∧ r.1.size q = nunits n) := by
  obtain ⟨N, hN⟩ := malloc_served (n := n) hbase (.inr hr) (by unfold nunits at hn; omega) hans
  refine ⟨N, fun fuel hfuel => ?_⟩
  obtain ⟨r, hrun, -, -, hserved⟩ := hN fuel hfuel
  exact ⟨r, hrun, hserved.imp_left fun h0 => ⟨h0.1, h0.2.1⟩⟩

/-- The first call. -/
theorem malloc_returns_first : ∃ N, ∀ fuel, N ≤ fuel → ∃ r,
    malloc 4096 fuel ⟨fun _ => 4096, fun _ => 0, 4096, []⟩ 100 (some 8192) = some r ∧ r.2 ≠ 0 := by
  have hr : Ring 4096 ⟨fun _ => 4096, fun _ => 0, 4096, []⟩ [4096] [] := by
    have hinit := ring_init 4096 (h := ⟨fun _ => 4096, fun _ => 0, 4096, []⟩) rfl
    rwa [update_eq_self, update_eq_self] at hinit
  have hans : Above 4096 ⟨fun _ => 4096, fun _ => 0, 4096, []⟩ (some 8192) := by
    rintro hp ⟨⟩
    exact ⟨by decide, fun r hr => nomatch hr⟩
  obtain ⟨N, hN⟩ := malloc_returns (by decide) hr (n := 100) (by decide) hans
  refine ⟨N, fun fuel hfuel => ?_⟩
  obtain ⟨r, hrun, h0 | ⟨q, -, hq, -⟩⟩ := hN fuel hfuel
  · cases h0.2
  · exact ⟨r, hrun, by omega⟩

/-- The byte at `x` is memory after a call of `malloc` that leaves `h'`: if the call got memory from `sbrk`, that has
moved the end of the memory by its argument. -/
def Obtained (h : Heap) (nu : ℕ) (ans : Option ℕ) (h' : Heap) (x : ℕ) : Prop :=
  h'.core = h.core ∧ (∃ b ∈ regions h, Inside x b) ∨ ∃ hp ∈ ans, h'.core = (hp, coreUnits nu) :: h.core ∧
    ((∃ b ∈ regions h, Inside x b) ∨ hp ≤ x) ∧ (x : Int) < hp + sbrkArg nu

lemma sbrkArg_eq (hnu : 16 * nu < 2 ^ 31) : sbrkArg nu = 16 * coreUnits nu := by
  have hlt : 16 * coreUnits nu < 2 ^ 31 := by
    unfold coreUnits
    split <;> omega
  rw [sbrkArg, BitVec.toInt_eq_toNat_cond, BitVec.toNat_ofNat, Nat.mod_eq_of_lt (by omega), if_pos (by omega)]
  rfl

lemma sbrkArg_wraps (hbig : 2 ^ 31 ≤ 16 * nu) (hnu : nu ≤ 2 ^ 28 + 1) : sbrkArg nu = 16 * nu - 2 ^ 32 := by
  rw [sbrkArg, coreUnits, if_neg (by omega), BitVec.toInt_eq_toNat_cond, BitVec.toNat_ofNat]
  split <;> omega

/-- `malloc(n)` is honest: it returns 0 and the heap is usable, or a block of `n` bytes that is memory which the
program has. -/
def Honest (base : ℕ) (h : Heap) (L : List ℕ) (n : ℕ) (ans : Option ℕ) (r : Heap × ℕ) : Prop :=
  r.2 = 0 ∧ (∃ c, Ring base r.1 c L) ∨
  ∃ q c, r.2 = q + 16 ∧ Ring base r.1 c (q :: L) ∧ n ≤ 16 * (r.1.size q - 1) ∧
    ∀ x, Inside x (block r.1 q) → Obtained h (nunits n) ans r.1 x

lemma Served.honest (hs : Served base h c L (nunits n) ans r) (hans : Above base h ans)
    (hok : 16 * nunits n < 2 ^ 31 ∨ ans = none ∨ ∃ p ∈ c, nunits n ≤ h.size p) : Honest base h L n ans r := by
  obtain ⟨-, hcore, ⟨h0, -, hr⟩ | ⟨q, c', hq, hr, hsize⟩⟩ := hs
  · exact .inl ⟨h0, hr⟩
  have hunits := nunits_spec n
  refine .inr ⟨q, c', hq, hr, by omega, fun x hx => ?_⟩
  have hin : ∃ b ∈ regions r.1, Inside x b := by
    rw [← cover_pos_iff, ← hr.tiles x, blocks_cons, cover_cons, if_pos hx]
    omega
  rcases hcore with hcore | ⟨hsmall, hp, rfl, hcore⟩
  · rw [regions, hcore] at hin
    exact .inl ⟨hcore, hin⟩
  · have hn : 16 * nunits n < 2 ^ 31 := by
      obtain hn | hnone | ⟨p, hp, hfit⟩ := hok
      · exact hn
      · cases hnone
      · exact absurd (hsmall p hp) (Nat.not_lt.mpr hfit)
    refine .inr ⟨hp, rfl, hcore, ?_⟩
    rw [sbrkArg_eq hn]
    rw [regions, hcore, map_cons] at hin
    obtain ⟨b, hb, hin⟩ := hin
    rcases mem_cons.mp hb with rfl | hb
    · rw [inside_iff] at hin
      exact ⟨.inr hin.1, by omega⟩
    · refine ⟨.inl ⟨b, hb, hin⟩, ?_⟩
      obtain ⟨w, hw, rfl⟩ := mem_map.mp hb
      have := (hans hp rfl).2 w hw
      rw [inside_iff] at hin
      omega

/-- Where no block fits, `malloc` returns the new memory. -/
lemma malloc_new (hbase : 0 < base) (hh : Usable base h c L) (hn : n < 2 ^ 32) {hp : ℕ} (hans : Above base h (some hp))
    (hbig : 2 ^ 31 ≤ 16 * nunits n) (hsmall : ∀ y ∈ c, h.size y < nunits n) :
    ∃ N, ∀ fuel, N ≤ fuel → ∃ r, malloc base fuel h n (some hp) = some r ∧ r.2 = hp + 16 ∧
      r.1.core = (hp, nunits n) :: h.core ∧ r.1.size hp = nunits n := by
  obtain ⟨hpos, hnu⟩ := nunits_bounds hn
  unfold malloc
  rcases hh with ⟨hfree, hcore, rfl, rfl⟩ | hr
  · rw [if_pos hfree]
    refine (ring_init base hcore).mallocLoop_new hbase (by omega) hnu hans fun y hy => ?_
    rw [mem_singleton.mp hy]
    simpa only [update_self] using hpos
  · have hne : h.freep ≠ 0 := by
      have := hr.base_le hr.freep
      omega
    rw [if_neg hne]
    exact hr.mallocLoop_new hbase (by omega) hnu hans hsmall

/-- **`malloc` is honest** exactly about requests for which the argument of `sbrk` is an `int`, or a free block is
large enough, or `sbrk` fails. -/
theorem malloc_honest (hbase : 0 < base) (hh : Usable base h c L) {n : ℕ} (hn : n < 2 ^ 32) {ans : Option ℕ}
    (hans : Above base h ans) :
    ∃ N, ∀ fuel, N ≤ fuel → ∃ r, malloc base fuel h n ans = some r ∧
      (Honest base h L n ans r ↔ 16 * nunits n < 2 ^ 31 ∨ ans = none ∨ ∃ p ∈ c, nunits n ≤ h.size p) := by
  by_cases hok : 16 * nunits n < 2 ^ 31 ∨ ans = none ∨ ∃ p ∈ c, nunits n ≤ h.size p
  · obtain ⟨N, hN⟩ := malloc_served hbase hh hn hans
    refine ⟨N, fun fuel hfuel => ?_⟩
    obtain ⟨r, hrun, hserved⟩ := hN fuel hfuel
    exact ⟨r, hrun, iff_of_true (hserved.honest hans hok) hok⟩
  · have hno := hok
    push Not at hno
    obtain ⟨hbig, hsome, hsmall⟩ := hno
    obtain ⟨hp, rfl⟩ := ne_none_iff_exists'.mp hsome
    obtain ⟨N, hN⟩ := malloc_new hbase hh hn hans hbig hsmall
    refine ⟨N, fun fuel hfuel => ?_⟩
    obtain ⟨r, hrun, hr, hcore, hsize⟩ := hN fuel hfuel
    refine ⟨r, hrun, iff_of_false ?_ hok⟩
    rintro (⟨h0, -⟩ | ⟨q, c', hq, -, -, hall⟩)
    · omega
    · -- the last byte of the block is beyond the memory
      obtain rfl : q = hp := by omega
      have hlast : Inside (q + 16 * nunits n - 1) (block r.1 q) := by
        rw [block, hsize, inside_iff]
        omega
      obtain ⟨hsame, -⟩ | ⟨_, ⟨⟩, -, -, hlt⟩ := hall _ hlast
      · rw [hcore] at hsame
        exact absurd (congrArg length hsame) (by simp)
      · rw [sbrkArg_wraps hbig (nunits_bounds hn).2] at hlt
        omega

theorem malloc_honest_first : ∃ N, ∀ fuel, N ≤ fuel → ∃ r, malloc 4096 fuel Sys.init.heap 100 none = some r ∧
    Honest 4096 Sys.init.heap [] 100 none r := by
  have hans : Above 4096 Sys.init.heap none := fun _ hm => nomatch hm
  obtain ⟨N, hN⟩ := malloc_honest (n := 100) (by decide) (.inl ⟨rfl, rfl, rfl, rfl⟩) (by decide) hans
  refine ⟨N, fun fuel hfuel => ?_⟩
  obtain ⟨r, hrun, hr⟩ := hN fuel hfuel
  exact ⟨r, hrun, hr.mpr (.inl (by decide))⟩

/-- For `malloc(0xFFFFFFFF)` `sbrk` gets 16, and the block returned is 16 bytes of memory and nothing after them. -/
theorem malloc_dishonest : ∃ r, malloc 4096 10 Sys.init.heap (2 ^ 32 - 1) (some 8192) = some r ∧ r.2 = 8208 ∧
    ∀ x, 8208 ≤ x → ¬ Obtained Sys.init.heap (nunits (2 ^ 32 - 1)) (some 8192) r.1 x := by
  have hall : ((malloc 4096 10 Sys.init.heap (2 ^ 32 - 1) (some 8192)).all fun r =>
      r.2 = 8208 ∧ r.1.core ≠ []) = true := by decide +kernel
  obtain ⟨r, hr⟩ := isSome_iff_exists.mp
    (show (malloc 4096 10 Sys.init.heap (2 ^ 32 - 1) (some 8192)).isSome by decide +kernel)
  rw [hr, all_some] at hall
  obtain ⟨h2, hcore⟩ := of_decide_eq_true hall
  refine ⟨r, hr, h2, fun x hx => ?_⟩
  rintro (hsame | ⟨hp, ⟨⟩, -, -, hlt⟩)
  · exact hcore hsame.1
  · rw [show sbrkArg (nunits (2 ^ 32 - 1)) = 16 by decide +kernel] at hlt
    omega

lemma good_malloc (huse : ∀ x ∈ s.live, 16 ≤ x.1 ∧ x.2 + 16 ≤ 16 * s.heap.size (header x))
    (hserved : Served base s.heap c (s.live.map header) (nunits n) ans r) (hfit : s.heap.total < 2 ^ 32)
    (hfits : Fits s (.malloc n ans)) :
    Good base ⟨r.1, if r.2 = 0 then s.live else (r.2, n) :: s.live⟩ := by
  obtain ⟨hframe, hcore, hserved⟩ := hserved
  have htotal : r.1.total < 2 ^ 32 := by
    unfold Heap.total at hfit ⊢
    rcases hcore with hcore | ⟨-, hp, rfl, hcore⟩
    · rwa [hcore]
    · rw [hcore, map_cons, sum_cons, Nat.add_comm]
      exact hfits
  rcases hserved with ⟨h0, -, c', hr'⟩ | ⟨q, c', hq, hr', hsize⟩
  · rw [if_pos h0]
    refine ⟨c', hr', htotal, fun x hx => ?_⟩
    rw [hframe _ (mem_map_of_mem hx)]
    exact huse x hx
  · rw [if_neg (by omega), hq]
    refine ⟨c', hr', htotal, fun x hx => ?_⟩
    rcases mem_cons.mp hx with rfl | hx
    · refine ⟨Nat.le_add_left _ _, ?_⟩
      show n + 16 ≤ 16 * r.1.size (q + 16 - 16)
      rw [Nat.add_sub_cancel, hsize]
      exact nunits_spec n
    · rw [hframe _ (mem_map_of_mem hx)]
      exact huse x hx

section

variable (hbase : 0 < base) (hs : Fresh s ∨ Good base s) (hlegal : Legal base s a) (hfits : Fits s a)

include hbase hs hlegal hfits

/-- **Every call returns**, given enough fuel, and leaves a good heap. -/
lemma good_step : ∃ N, ∀ fuel, N ≤ fuel → ∃ s', step base fuel s a = some s' ∧ Good base s' := by
  cases a with
  | malloc n ans =>
    obtain ⟨c, hh, hfit, huse⟩ : ∃ c, Usable base s.heap c (s.live.map header) ∧ s.heap.total < 2 ^ 32 ∧
        ∀ x ∈ s.live, 16 ≤ x.1 ∧ x.2 + 16 ≤ 16 * s.heap.size (header x) := by
      rcases hs with ⟨hfree, hlive, hcore⟩ | ⟨c, hr, hfit, huse⟩
      · rw [Heap.total, hlive, hcore]
        exact ⟨[], .inl ⟨hfree, hcore, rfl, rfl⟩, by decide, fun _ hx => nomatch hx⟩
      · exact ⟨c, .inr hr, hfit, huse⟩
    have hn : n < 2 ^ 32 := by
      have := hlegal.1
      unfold nunits at this
      omega
    obtain ⟨N, hN⟩ := malloc_served hbase hh hn hlegal.2
    refine ⟨N, fun fuel hfuel => ?_⟩
    obtain ⟨r, hrun, hserved⟩ := hN fuel hfuel
    exact ⟨_, map_eq_some_iff.mpr ⟨r, hrun, rfl⟩, good_malloc huse hserved hfit hfits⟩
  | free ap =>
    obtain ⟨y, hy, hap⟩ := hlegal
    rcases hs with ⟨-, hlive, -⟩ | ⟨c, hr, hfit, huse⟩
    · rw [hlive] at hy
      cases hy
    · have hfind : (s.live.find? (·.1 = ap)).isSome := find?_isSome.mpr ⟨y, hy, by simpa using hap⟩
      obtain ⟨x, hx⟩ := isSome_iff_exists.mp hfind
      have hxl := mem_of_find?_eq_some hx
      have hxa : x.1 = ap := by simpa using find?_some hx
      have hperm := perm_cons_erase hxl
      have hr' := hr.perm (hperm.map header)
      refine ⟨c.length, fun fuel hfuel => ?_⟩
      obtain ⟨h', c', hfree, hr'', hcore, -, hframe⟩ := hr'.free (hr'.fit hfit) hfuel
      have hap' : header x + 16 = ap := by
        have := (huse x hxl).1
        unfold header
        omega
      rw [hap'] at hfree
      refine ⟨⟨h', s.live.erase x⟩, ?_, c', hr'', ?_, fun w hw => ?_⟩
      · simp only [step, hx, hfree, map_some]
      · rwa [Heap.total, hcore]
      · rw [hframe _ (mem_map_of_mem hw)]
        exact huse w (mem_of_mem_erase hw)

lemma good_of_step (hstep : step base fuel s a = some s') : Good base s' := by
  obtain ⟨N, hN⟩ := good_step hbase hs hlegal hfits
  obtain ⟨s'', hstep', hgood⟩ := hN (max fuel N) (Nat.le_max_right _ _)
  rw [step_mono hstep (Nat.le_max_left _ _)] at hstep'
  rw [some.inj hstep']
  exact hgood

end

/-- **The heap of a program.**  After each call the free list is one ring through `base`, in the order of the
addresses; the blocks on it and those that the program has do not overlap, and are together the memory obtained from
`sbrk`; no two free blocks touch; and every further call returns. -/
theorem heap_invariant (hbase : 0 < base) {fuel : ℕ} {as : List Act} {s : Sys}
    (hrun : run (guarded (fun s a => Legal base s a ∧ Fits s a) (step base fuel)) .init as = some s) (hne : as ≠ []) :
    (∃ c : List ℕ, c.head? = some base ∧ Loop s.heap.ptr c ∧ c.Pairwise (· < ·) ∧ s.heap.freep ∈ c ∧
      s.heap.size base = 0 ∧
      (blocks s.heap c ++ blocks s.heap (s.live.map header)).Pairwise (fun b b' => ∀ x, ¬ (Inside x b ∧ Inside x b')) ∧
      (∀ x, (∃ b ∈ blocks s.heap c ++ blocks s.heap (s.live.map header), Inside x b) ↔
        ∃ r ∈ regions s.heap, Inside x r) ∧
      (∀ p ∈ c, p ≠ base → p + 16 * s.heap.size p ∉ c)) ∧
    (∀ x ∈ s.live, x.2 ≤ 16 * (s.heap.size (header x) - 1)) ∧
    ∀ a, Legal base s a → Fits s a → ∃ N, ∀ fuel, N ≤ fuel → ∃ s', step base fuel s a = some s' := by
  obtain ⟨bs, a, rfl⟩ : ∃ bs a, as = bs ++ [a] := ⟨as.dropLast, as.getLast hne, (dropLast_append_getLast hne).symm⟩
  obtain ⟨t, ht, hlast⟩ := run_append_eq_some.mp hrun
  have hinv : Fresh t ∨ Good base t := by
    refine run_invariant (I := fun s => Fresh s ∨ Good base s) ?_ ht (.inl ⟨rfl, rfl, rfl⟩)
    intro s a s' hs hI
    obtain ⟨⟨hlegal, hfits⟩, hstep⟩ := guarded_eq_some.mp hs
    exact .inr (good_of_step hbase hI hlegal hfits hstep)
  have hgood : Good base s := by
    obtain ⟨s', hs', hnil⟩ := run_cons_eq_some.mp hlast
    obtain ⟨⟨hlegal, hfits⟩, hstep⟩ := guarded_eq_some.mp hs'
    rw [run_nil, some.injEq] at hnil
    rw [← hnil]
    exact good_of_step hbase hinv hlegal hfits hstep
  obtain ⟨c, hr, -, huse⟩ := id hgood
  refine ⟨⟨c, hr.head, hr.loop, hr.sorted, hr.freep, hr.base_size, pairwise_of_cover fun x => ?_, fun x => ?_,
    fun p hp hb => hr.apart p hp hb id⟩, fun x hx => ?_, fun a hlegal hfits => ?_⟩
  · rw [cover_append, hr.tiles x]
    exact hr.once x
  · rw [← cover_pos_iff, ← cover_pos_iff, cover_append, hr.tiles x]
  · have := (huse x hx).2
    omega
  · obtain ⟨N, hN⟩ := good_step hbase (.inr hgood) hlegal hfits
    refine ⟨N, fun fuel hfuel => ?_⟩
    obtain ⟨s', hs', -⟩ := hN fuel hfuel
    exact ⟨s', hs'⟩

/-- Blocks are taken from the end of new memory and given back out of order. -/
def freeRun : List Act :=
  [.malloc 100 (some 8192), .malloc 10 none, .malloc 1 none, .free 73584, .free 73552, .malloc 70000 none,
    .free 73616]

theorem heap_invariant_freeRun :
    ∃ s, run (guarded (fun s a => Legal 4096 s a ∧ Fits s a) (step 4096 10)) .init freeRun = some s ∧
      ∃ c, c.head? = some 4096 ∧ Loop s.heap.ptr c ∧ ∀ p ∈ c, p ≠ 4096 → p + 16 * s.heap.size p ∉ c := by
  have hsome : (run (guarded (fun s a => Legal 4096 s a ∧ Fits s a) (step 4096 10)) .init freeRun).isSome := by
    decide +kernel
  obtain ⟨s, hs⟩ := isSome_iff_exists.mp hsome
  obtain ⟨⟨c, hhead, hloop, -, -, -, -, -, hapart⟩, -⟩ := heap_invariant (by decide) hs (by decide)
  exact ⟨s, hs, c, hhead, hloop, hapart⟩

/-- Blocks of `2 ^ 27 - 1` units, of contiguous memory. -/
def wrapRun : List Act :=
  (List.range 33).map (fun k => .malloc (16 * (2 ^ 27 - 2)) (some (8192 + k * (16 * (2 ^ 27 - 1))))) ++
    (List.range 33).map fun k => .free (8208 + k * (16 * (2 ^ 27 - 1)))

/-- The size of a free block is a `uint`: the memory of 33 such blocks, joined, is counted modulo
`2 ^ 32`, and most of it is lost. -/
theorem heap_wraps : ∃ s, run (guarded (Legal 4096) (step 4096 10)) .init wrapRun = some s ∧
    ∀ c : List ℕ, c.head? = some 4096 → Loop s.heap.ptr c → c.Pairwise (· < ·) →
      ∃ x, (∃ r ∈ regions s.heap, Inside x r) ∧
        ¬ ∃ b ∈ blocks s.heap c ++ blocks s.heap (s.live.map header), Inside x b := by
  have hsome : (run (guarded (Legal 4096) (step 4096 10)) .init wrapRun).isSome := by decide +kernel
  have hall : (run (guarded (Legal 4096) (step 4096 10)) .init wrapRun).all fun s =>
      s.live = [] ∧ s.heap.ptr 4096 = 8192 ∧ s.heap.ptr 8192 = 4096 ∧ s.heap.size 4096 = 0 ∧
        s.heap.size 8192 = 2 ^ 27 - 33 ∧ (8192 + 32 * (16 * (2 ^ 27 - 1)), 2 ^ 27 - 1) ∈ s.heap.core := by
    decide +kernel
  obtain ⟨s, hs⟩ := isSome_iff_exists.mp hsome
  rw [hs, all_some] at hall
  obtain ⟨hlive, hp₁, hp₂, hs₁, hs₂, hcore⟩ := of_decide_eq_true hall
  refine ⟨s, hs, fun c hhead hloop hsort => ?_⟩
  obtain rfl : c = [4096, 8192] := by
    match c, hhead, hloop, hsort with
    | [a], hhead, hloop, _ =>
      obtain rfl : a = 4096 := some.inj hhead
      have : s.heap.ptr 4096 = 4096 := hloop
      omega
    | [a, b], hhead, hloop, _ =>
      obtain rfl : a = 4096 := some.inj hhead
      rw [← hp₁, hloop.1]
    | a :: b :: d :: l, hhead, hloop, hsort =>
      obtain rfl : a = 4096 := some.inj hhead
      have hb : s.heap.ptr 4096 = b := hloop.1
      have hd : s.heap.ptr b = d := hloop.2.1
      have hlt : 4096 < d := (pairwise_cons.mp hsort).1 d (by simp)
      rw [← hb, hp₁, hp₂] at hd
      omega
  refine ⟨8192 + 32 * (16 * (2 ^ 27 - 1)), ⟨_, mem_map_of_mem hcore, ?_⟩, ?_⟩
  · rw [inside_iff]
    omega
  · rintro ⟨b, hb, hin⟩
    rw [hlive] at hb
    simp only [blocks, block, map_cons, map_nil, append_nil, mem_cons, not_mem_nil, or_false, hs₁, hs₂] at hb
    rcases hb with rfl | rfl
    · rw [inside_iff] at hin
      omega
    · rw [inside_iff] at hin
      omega

end Xv6.Umalloc
