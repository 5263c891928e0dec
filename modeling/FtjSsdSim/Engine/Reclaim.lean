import Mathlib
import FtjSsdSim.Library.Loop
import FtjSsdSim.Library.Machine
import FtjSsdSim.Engine.Bounds
import FtjSsdSim.Engine.DataBlind
import FtjSsdSim.Engine.Orderly

/-!
# Reclaiming stale pages

A write without a free page collects, and `RunGC` stops after the first block that yields none.  So
such a write depends on one block, the first of least weight: it succeeds exactly when that block
has a page that is not valid (`claimPage_iff`, `write_iff_reclaimable`).

A stale page in another block is out of reach (`stale_page_out_of_reach`).
-/

namespace FtjSsdSim.Engine

open FtjSsdSim.Library

namespace FTJController

variable {capacity : ℕ} {c : FTJController}

/-! ### Collecting a block -/

/-- Moving pages out leaves a free page or a page that is not valid. -/
theorem Orderly.moveValidPages (h : Orderly capacity c) {b : ℕ}
    (hb : c.freePages ≠ [] ∨ c.HasInvalid b) :
    Orderly capacity (c.moveValidPages b) ∧ (c.moveValidPages b).pageCount = c.pageCount ∧
      ((c.moveValidPages b).freePages ≠ [] ∨ (c.moveValidPages b).HasInvalid b) := by
  refine forLoop_preserves (P := fun c' : FTJController => Orderly capacity c' ∧
    c'.pageCount = c.pageCount ∧ (c'.freePages ≠ [] ∨ c'.HasInvalid b)) ⟨h, rfl, hb⟩ ?_
  intro p t hlo hhi ht
  obtain ⟨hord, hcount, hfree⟩ := ht
  have hcount' := (relocatePage_pageCount t p).trans hcount
  rcases hord.relocatePage p with ⟨heq, -⟩ | ⟨hord', hinvalid⟩
  · rw [heq]
    exact ⟨hord, hcount, hfree⟩
  · refine ⟨hord', hcount', .inr ⟨p, hlo, ?_, hinvalid⟩⟩
    rw [blockEnd, hcount']
    exact hhi

/-- Erasing the block frees such a page. -/
theorem Orderly.eraseBlock (h : Orderly capacity c) {b : ℕ}
    (hb : c.freePages ≠ [] ∨ c.HasInvalid b) : (c.eraseBlock b).freePages ≠ [] := by
  rcases Nat.le_total (c.blockEnd b) (blockStart b) with hle | hle
  · rw [FTJController.eraseBlock, forLoop_empty hle]
    refine hb.resolve_right ?_
    rintro ⟨p, hlo, hhi, -⟩
    omega
  · -- what is not free yet has a page to be erased ahead
    have hinv := forLoop_induct (s := c) (f := fun p (c : FTJController) => c.erasePage p)
      (motive := fun i (c' : FTJController) => Orderly capacity c' ∧
        c'.pageCount = c.pageCount ∧ c'.physValid = c.physValid ∧
        (c'.freePages ≠ [] ∨ ∃ p, i ≤ p ∧ p < c.blockEnd b ∧ c.physValid p = false))
      hle ⟨h, rfl, rfl, hb⟩ ?_
    · rcases hinv.2.2.2 with hfree | ⟨p, hlo, hhi, -⟩
      · exact hfree
      · omega
    · intro i t _ hhi ht
      obtain ⟨hord, hcount, hvalid, hfree⟩ := ht
      have hi : i < t.pageCount := hcount ▸ hhi.trans_le (min_le_left ..)
      obtain ⟨hord', hvalid', hnil⟩ := hord.erasePage hi
      refine ⟨hord', (erasePage_pageCount t i).trans hcount, hvalid'.trans hvalid, ?_⟩
      by_cases hv : c.physValid i = true
      · rcases hfree with hfree | ⟨p, hlo, hp, hinvalid⟩
        · exact .inl fun hnil' => hfree (hnil.mp hnil').2
        · refine .inr ⟨p, ?_, hp, hinvalid⟩
          have hne : p ≠ i := by
            rintro rfl
            exact absurd (hv.symm.trans hinvalid) (by decide)
          omega
      · exact .inl fun hnil' => hv (hvalid ▸ (hnil.mp hnil').1)

/-- **A collection yields a free page** if there was one, or a page of the block to reclaim. -/
theorem Orderly.collectBlock_frees (h : Orderly capacity c) {b : ℕ}
    (hb : c.freePages ≠ [] ∨ c.HasInvalid b) : (c.collectBlock b).freePages ≠ [] := by
  obtain ⟨hord, -, hfree⟩ := h.moveValidPages hb
  exact hord.eraseBlock hfree

theorem Orderly.victim_frees (h : Orderly capacity c) {b targetFree : ℕ}
    (hb : c.selectVictim = some b)
    (hfree : c.freePages ≠ [] ∨
      (c.freeCount < targetFree ∧ ∃ b, c.selectVictim = some b ∧ c.HasInvalid b)) :
    (c.collectBlock b).freePages ≠ [] := by
  refine h.collectBlock_frees (hfree.imp_right ?_)
  rintro ⟨-, b', hb', hinvalid⟩
  exact Option.some.inj (hb'.symm.trans hb) ▸ hinvalid

/-- A collection that starts with a free page, or with one to reclaim in its first victim, ends with a
free page. -/
theorem Orderly.runGC_frees (h : Orderly capacity c) (targetFree : ℕ)
    (hfree : c.freePages ≠ [] ∨
      (c.freeCount < targetFree ∧ ∃ b, c.selectVictim = some b ∧ c.HasInvalid b)) :
    (c.runGC targetFree).freePages ≠ [] := by
  induction c using runGC.induct targetFree with
  | case1 c hlow hnone =>
    rw [FTJController.runGC, if_pos hlow, hnone]
    rcases hfree with hfree | ⟨-, b, hb, -⟩
    · exact hfree
    · cases hnone.symm.trans hb
  | case2 c hlow b hb c' hstop =>
    rw [FTJController.runGC, if_pos hlow, hb]
    simp only
    rw [if_pos hstop]
    exact h.victim_frees hb hfree
  | case3 c hlow b hb c' hgo hdone =>
    rw [FTJController.runGC, if_pos hlow, hb]
    simp only
    rw [if_neg hgo, if_pos hdone]
    exact h.victim_frees hb hfree
  | case4 c hlow b hb c' hgo hmore ih =>
    rw [FTJController.runGC, if_pos hlow, hb]
    simp only
    rw [if_neg hgo, if_neg hmore]
    have hstep := (orderly_stable (Nat.zero_le capacity)).collectBlock h b
    exact ih hstep (.inl (h.victim_frees hb hfree))
  | case5 c hfull =>
    rw [FTJController.runGC, if_neg hfull]
    exact hfree.resolve_right fun hlow => hfull hlow.1

/-! ### Claiming a page -/

/-- The block that `RunGC` picks is the first of least weight below `INT_MAX`. -/
theorem selectVictim_iff (c : FTJController) (b : ℕ) :
    c.selectVictim = some b ↔ FirstLeast c.victimMetric c.numBlocks (2 ^ 31 - 1) b :=
  forLoop_firstLeast

/-- **A page is found** exactly when one is free, or the first block of least weight has one to
reclaim. -/
theorem Orderly.claimPage_iff (h : Orderly capacity c) (preferHot : Bool) :
    0 ≤ (c.claimPage preferHot).1 ↔ c.freePages ≠ [] ∨
      ∃ b, FirstLeast c.victimMetric c.numBlocks (2 ^ 31 - 1) b ∧ c.HasInvalid b := by
  by_cases hfree : c.freePages = []
  · have hclaim : c.claimPage preferHot =
        (c.runGC c.gcTargetFree).allocatePhysicalPage preferHot := by
      simp [claimPage, allocate_of_no_free hfree]
    have hlow : c.freeCount < c.gcTargetFree := by
      rw [freeCount_eq, hfree]
      exact h.target
    simp only [hclaim, hfree, ne_eq, not_true_eq_false, false_or, ← selectVictim_iff]
    constructor
    · intro hq
      by_contra hvictim
      obtain ⟨counts, hcounts⟩ := runGC_fruitless hfree
        (fun b hb hinvalid => hvictim ⟨b, hb, hinvalid⟩) c.gcTargetFree
      rw [hcounts, allocate_of_no_free (c := { c with blockValidCount := counts }) hfree] at hq
      exact absurd hq (show ¬ (0 : ℤ) ≤ -1 by decide)
    · intro hvictim
      have hgc := h.runGC_frees c.gcTargetFree (.inr ⟨hlow, hvictim⟩)
      have hord := (orderly_stable (Nat.zero_le capacity)).runGC h c.gcTargetFree
      rcases hord.allocate preferHot with ⟨-, hnil⟩ | ⟨q, hot, cold, heq, -⟩
      · exact absurd hnil hgc
      · rw [heq]
        exact Int.natCast_nonneg q
  · obtain ⟨q, hot, cold, heq, -⟩ := claimPage_of_free h.free_nonneg hfree preferHot
    rw [heq]
    exact iff_of_true (Int.natCast_nonneg q) (.inl hfree)

/-- **A write to one logical page** succeeds exactly when a page is found for it. -/
theorem Orderly.write_one_page_iff (h : Orderly capacity c) {offset size : ℕ} (src : ℕ → Byte)
    (hsize : 0 < size) (hpage : offset / pageSize = (offset + size - 1) / pageSize)
    (hin : offset + size ≤ capacity) :
    (c.write offset (some src) size).1 = true ↔ c.freePages ≠ [] ∨
      ∃ b, FirstLeast (c.heat (offset / pageSize)).victimMetric c.numBlocks (2 ^ 31 - 1) b ∧
        c.HasInvalid b := by
  have hsame := (heat_same c (offset / pageSize)).1
  have hheat : Orderly capacity (c.heat (offset / pageSize)) :=
    (orderly_stable (Nat.zero_le capacity)).heat c _ h
  have hblocks : (c.heat (offset / pageSize)).numBlocks = c.numBlocks := by
    rw [heat]
    split_ifs <;> rfl
  have hinvalid : ∀ b, (c.heat (offset / pageSize)).HasInvalid b ↔ c.HasInvalid b := fun b => by
    rw [HasInvalid, HasInvalid, blockEnd, blockEnd, hsame.pageCount, hsame.physValid]
  have hclaim := hheat.claimPage_iff
    ((c.heat (offset / pageSize)).prefersHot (offset / pageSize))
  simp only [hsame.freePages, hblocks, hinvalid] at hclaim
  rw [← hclaim, write_inRange (by rw [h.capacity_eq]; omega)]
  cases hround : (c.heat (offset / pageSize)).claimPage
      ((c.heat (offset / pageSize)).prefersHot (offset / pageSize)) with
  | mk q c' =>
    rw [writeLoop_round (by omega) hround]
    by_cases hq : q < 0
    · rw [if_pos hq]
      exact iff_of_false (by simp) (not_le.mpr hq)
    · -- the page takes the whole write, so the loop ends
      have hend : ¬ offset + min (offset + size - offset) (pageSize - offset % pageSize) <
          offset + size := by
        simp only [pageSize] at hpage ⊢
        omega
      rw [if_neg hq, writeLoop, if_neg hend]
      refine iff_of_true ?_ (not_lt.mp hq)
      simp only
      split_ifs <;> rfl

/-! ### A drive of two blocks, page by page -/

/-- A drive of two blocks. -/
def twoBlocks : ℕ := 512 * pageSize

theorem twoBlocks_admitted : Admitted twoBlocks :=
  ⟨by decide, ⟨512, rfl⟩, .inr (by decide)⟩

/-- The page that the first write of logical page `lp` goes to: block 1 is filled before block 0. -/
def home (lp : ℕ) : ℕ := if lp < 256 then lp + 256 else lp - 256

/-- The pages from `hi - 1` down to `lo`. -/
def descending (lo hi : ℕ) : List ℤ := (List.range (hi - lo)).map fun i : ℕ => (hi : ℤ) - 1 - i

theorem descending_snoc {lo hi : ℕ} (h : lo < hi) :
    descending lo hi = descending (lo + 1) hi ++ [(lo : ℤ)] := by
  have hlen : hi - lo = (hi - (lo + 1)) + 1 := by omega
  have hlast : (hi : ℤ) - 1 - (hi - (lo + 1) : ℕ) = lo := by omega
  rw [descending, descending, hlen, List.range_succ, List.map_append, List.map_singleton, hlast]

theorem length_descending (lo hi : ℕ) : (descending lo hi).length = hi - lo := by
  rw [descending, List.length_map, List.length_range]

theorem descending_nil {lo hi : ℕ} (h : hi ≤ lo) : descending lo hi = [] := by
  rw [descending, Nat.sub_eq_zero_of_le h]
  rfl

theorem mem_descending {lo hi : ℕ} {x : ℤ} : x ∈ descending lo hi ↔ (lo : ℤ) ≤ x ∧ x < hi := by
  simp only [descending, List.mem_map, List.mem_range]
  constructor
  · rintro ⟨i, hi, rfl⟩
    omega
  · rintro ⟨hlo, hhi⟩
    exact ⟨(hi - 1 - x).toNat, by omega, by omega⟩

theorem descending_append {lo mid hi : ℕ} (hlo : lo ≤ mid) (hhi : mid ≤ hi) :
    descending mid hi ++ descending lo mid = descending lo hi := by
  have hlen : hi - lo = (hi - mid) + (mid - lo) := by omega
  rw [descending, descending, descending, hlen, List.range_add, List.map_append, List.map_map]
  congr 1
  refine List.map_congr_left fun i _ => ?_
  simp only [Function.comp_apply]
  omega

/-- The drive `c` of two blocks once its first `k` logical pages are written. -/
def filled (c : FTJController) (k : ℕ) : FTJController :=
  { c with
    l2pMap := fun lp => if lp < k then home lp else -1
    physValid := fun p => decide (p < 512 ∧ home p < k)
    physOwnerLba := fun p => if p < 512 ∧ home p < k then home p else -1
    blockValidCount := fun b =>
      if b = 0 then (k - 256 : ℕ) else if b = 1 then (min k 256 : ℕ) else 0
    freePhysicalPagesHot := descending (k - 256) 256
    freePhysicalPagesCold := descending (256 + k) 512
    lbaHotCounters := fun lp => if lp < k then 1 else 0 }

/-- The same with the page for logical page `k` claimed. -/
def claimed (c : FTJController) (k : ℕ) : FTJController :=
  { filled c k with
    freePhysicalPagesHot := descending (k + 1 - 256) 256
    freePhysicalPagesCold := descending (256 + (k + 1)) 512
    lbaHotCounters := fun lp => if lp < k + 1 then 1 else 0 }

variable {k : ℕ}

theorem filled_hot (c : FTJController) (k : ℕ) :
    (filled c k).freePhysicalPagesHot = descending (k - 256) 256 := by
  rw [filled]

theorem filled_cold (c : FTJController) (k : ℕ) :
    (filled c k).freePhysicalPagesCold = descending (256 + k) 512 := by
  rw [filled]

theorem filled_freeCount (c : FTJController) (hk : k ≤ 512) : (filled c k).freeCount = 512 - k := by
  rw [freeCount, filled_hot, filled_cold, length_descending, length_descending]
  omega

theorem filled_heat (hc : c.pageCount = 512) (hk : k < 512) :
    (filled c k).heat k =
      { filled c k with lbaHotCounters := fun lp => if lp < k + 1 then 1 else 0 } := by
  have hcounters : Function.update (filled c k).lbaHotCounters k
      (capCounter ((filled c k).lbaHotCounters k + 1)) = fun lp => if lp < k + 1 then 1 else 0 := by
    funext lp
    by_cases hlp : lp = k
    · subst hlp
      simp only [Function.update_self, filled, Nat.lt_irrefl, if_false, Nat.lt_succ_self, if_true]
      decide
    · have hiff : lp < k + 1 ↔ lp < k := by omega
      simp only [Function.update_of_ne hlp, filled, hiff]
  have hlt : k < (filled c k).pageCount := hk.trans_eq hc.symm
  rw [heat, if_pos hlt, hcounters]

theorem filled_allocate (hc : c.pageCount = 512) (hk : k < 512) :
    ((filled c k).heat k).allocatePhysicalPage (((filled c k).heat k).prefersHot k) =
      ((home k : ℤ), claimed c k) := by
  have hpref : ((filled c k).heat k).prefersHot k = false := by
    have hone : ((filled c k).heat k).lbaHotCounters k = 1 := by
      rw [filled_heat hc hk]
      exact if_pos (Nat.lt_succ_self k)
    rw [prefersHot, hone]
    exact Bool.and_false _
  rw [hpref, filled_heat hc hk]
  by_cases hblock : k < 256
  · have hcold : (filled c k).freePhysicalPagesCold =
        descending (256 + (k + 1)) 512 ++ [((256 + k : ℕ) : ℤ)] := by
      rw [filled_cold]
      exact descending_snoc (by omega)
    have hhot : (filled c k).freePhysicalPagesHot = descending (k + 1 - 256) 256 := by
      have hsub : k - 256 = k + 1 - 256 := by omega
      rw [filled_hot, hsub]
    have hhome : home k = 256 + k := by
      rw [home, if_pos hblock]
      omega
    simp only [allocatePhysicalPage, Bool.false_eq_true, if_false, popCold, hcold, hhot,
      List.getLast?_concat, List.dropLast_concat, hhome, claimed, Option.map_some, Option.some_or,
      Option.getD_some]
  · have hcold : (filled c k).freePhysicalPagesCold = [] := by
      rw [filled_cold]
      exact descending_nil (by omega)
    have hcold' : descending (256 + (k + 1)) 512 = [] := descending_nil (by omega)
    have hhot : (filled c k).freePhysicalPagesHot =
        descending (k + 1 - 256) 256 ++ [((k - 256 : ℕ) : ℤ)] := by
      have hsucc : k + 1 - 256 = k - 256 + 1 := by omega
      rw [filled_hot, hsucc, ← descending_snoc (by omega)]
    have hhome : home k = k - 256 := if_neg hblock
    simp only [allocatePhysicalPage, Bool.false_eq_true, if_false, popCold, popHot, hcold, hcold',
      hhot, List.getLast?_concat, List.dropLast_concat, List.getLast?_nil, hhome, claimed,
      Option.map_some, Option.map_none, Option.none_or, Option.getD_some]

theorem home_lt {p : ℕ} (hp : p < 512) : home p < 512 := by
  rw [home]
  split_ifs <;> omega

theorem home_home {p : ℕ} (hp : p < 512) : home (home p) = p := by
  simp only [home]
  split_ifs <;> omega

/-- The pages used so far, and the one of logical page `k`. -/
theorem home_lt_succ {p : ℕ} (hp : p ≠ home k) : (p < 512 ∧ home p < k + 1) ↔ p < 512 ∧ home p < k := by
  constructor
  · intro h
    have hne : home p ≠ k := fun he => hp (by rw [← he, home_home h.1])
    omega
  · intro h
    omega

theorem blockOf_home (hk : k < 512) : (blockOf (home k)).toNat = if k < 256 then 1 else 0 := by
  rw [blockOf, home]
  split_ifs with h
  · have hdiv : (k + 256) / pagesPerBlock = 1 := by
      simp only [pagesPerBlock]
      omega
    rw [hdiv]
    rfl
  · have hdiv : (k - 256) / pagesPerBlock = 0 := by
      simp only [pagesPerBlock]
      omega
    rw [hdiv]
    rfl

theorem claimed_store (hb : c.physBlock = blockOf) (hk : k < 512) (src : ℕ → Byte) (d s n : ℕ) :
    SameBut (filled c (k + 1)) ((claimed c k).storePage k (home k) d src s n) := by
  have hhome : home k < 512 ∧ home (home k) < k + 1 := by
    rw [home_home hk]
    exact ⟨home_lt hk, Nat.lt_succ_self k⟩
  have hl2p : Function.update (filled c k).l2pMap k (home k) = (filled c (k + 1)).l2pMap := by
    funext lp
    by_cases hlp : lp = k
    · rw [hlp, Function.update_self]
      exact (if_pos (Nat.lt_succ_self k)).symm
    · have hiff : lp < k ↔ lp < k + 1 := by omega
      rw [Function.update_of_ne hlp]
      exact if_congr hiff rfl rfl
  have hvalid : Function.update (filled c k).physValid (home k) true =
      (filled c (k + 1)).physValid := by
    funext p
    by_cases hp : p = home k
    · rw [hp, Function.update_self]
      exact (decide_eq_true hhome).symm
    · rw [Function.update_of_ne hp]
      exact decide_eq_decide.mpr (home_lt_succ hp).symm
  have howner : Function.update (filled c k).physOwnerLba (home k) (int32 k) =
      (filled c (k + 1)).physOwnerLba := by
    funext p
    by_cases hp : p = home k
    · have hnew : (filled c (k + 1)).physOwnerLba (home k) = home (home k) := if_pos hhome
      rw [hp, Function.update_self, int32_natCast (by omega), hnew, home_home hk]
    · rw [Function.update_of_ne hp]
      exact if_congr (home_lt_succ hp).symm rfl rfl
  have hcount : Function.update (filled c k).blockValidCount (blockOf (home k)).toNat
      (int32 ((filled c k).blockValidCount (blockOf (home k)).toNat + 1)) =
      (filled c (k + 1)).blockValidCount := by
    have hval : (filled c k).blockValidCount (blockOf (home k)).toNat + 1 =
        (filled c (k + 1)).blockValidCount (blockOf (home k)).toNat ∧
        (filled c (k + 1)).blockValidCount (blockOf (home k)).toNat = (k % 256 + 1 : ℕ) := by
      rw [blockOf_home hk]
      simp only [filled]
      by_cases hlt : k < 256
      · simp only [if_pos hlt, Nat.one_ne_zero, if_false, if_true]
        omega
      · simp only [if_neg hlt, if_true]
        omega
    funext b
    by_cases hblock : b = (blockOf (home k)).toNat
    · rw [hblock, Function.update_self, hval.1, hval.2, int32_natCast (by omega)]
    · rw [Function.update_of_ne hblock]
      rw [blockOf_home hk] at hblock
      simp only [filled]
      split_ifs at hblock ⊢ <;> omega
  have hold : ¬ 0 ≤ (claimed c k).oldPage k := by
    have hmap : (claimed c k).l2pMap k = -1 := if_neg (Nat.lt_irrefl k)
    rw [oldPage, hmap]
    split_ifs <;> decide
  obtain ⟨m, e, ds, t, heq⟩ := storePage_eq (claimed c k) k (home k) d src s n
  rw [heq, remap, if_neg hold]
  have hfields : (claimed c k).mapPage k (home k) (int32 k) =
      { filled c (k + 1) with
        pageWrites := ((claimed c k).mapPage k (home k) (int32 k)).pageWrites
        totalPhysicalBytesWritten :=
          ((claimed c k).mapPage k (home k) (int32 k)).totalPhysicalBytesWritten } := by
    have hblock : (filled c k).physBlock (home k) = blockOf (home k) := by
      rw [filled, hb]
    simp only [mapPage, claimed, hblock, hl2p, hvalid, howner, hcount]
    simp only [filled]
  rw [hfields]
  generalize filled c (k + 1) = f
  exact ⟨⟨m, e, _, ds, t, _, _⟩, rfl⟩

theorem filled_zero (hl2p : c.l2pMap = fun _ => -1) (hvalid : c.physValid = fun _ => false)
    (howner : c.physOwnerLba = fun _ => -1) (hcount : c.blockValidCount = fun _ => 0)
    (hhot : c.freePhysicalPagesHot = descending 0 256)
    (hcold : c.freePhysicalPagesCold = descending 256 512)
    (hcounters : c.lbaHotCounters = fun _ => 0) : filled c 0 = c := by
  cases c
  subst hl2p hvalid howner hcount hhot hcold hcounters
  have hcount : (fun b : ℕ => if b = 0 then ((0 - 256 : ℕ) : ℤ)
      else if b = 1 then ((min 0 256 : ℕ) : ℤ) else 0) = fun _ => 0 := by
    funext b
    split_ifs <;> rfl
  rw [filled, hcount]
  simp only [Nat.not_lt_zero, and_false, decide_false, if_false, Nat.zero_sub, Nat.add_zero]

theorem pagesDown_two_blocks : pagesDown 512 = descending 256 512 ++ descending 0 256 := by
  rw [descending_append (by decide) (by decide)]
  rfl

theorem blockOf_hot {p : ℤ} (hp : 0 ≤ p ∧ p < 512) :
    (0 ≤ blockOf p.toNat ∧ (blockOf p.toNat).toNat < 1) ↔ p < 256 := by
  have hdiv : p.toNat / pagesPerBlock = p.toNat / 256 := rfl
  rw [blockOf, hdiv, int32_natCast (by omega)]
  omega

/-- Block 0 is the hot zone. -/
theorem initialFreeList_two_blocks (hot : Bool) :
    initialFreeList 512 1 hot = if hot then descending 0 256 else descending 256 512 := by
  have hhot : ∀ p ∈ descending 0 256, 0 ≤ blockOf p.toNat ∧ (blockOf p.toNat).toNat < 1 :=
    fun p hp => by
      rw [mem_descending] at hp
      exact (blockOf_hot (by omega)).mpr (by omega)
  have hcold : ∀ p ∈ descending 256 512, ¬ (0 ≤ blockOf p.toNat ∧ (blockOf p.toNat).toNat < 1) :=
    fun p hp => by
      rw [mem_descending] at hp
      rw [blockOf_hot (by omega)]
      omega
  rw [initialFreeList_eq (by decide), pagesDown_two_blocks, List.filter_append]
  cases hot with
  | true =>
    rw [List.filter_eq_nil_iff.mpr fun p hp h => hcold p hp (of_decide_eq_true (of_decide_eq_true h)),
      List.filter_eq_self.mpr fun p hp => decide_eq_true (decide_eq_true (hhot p hp))]
    rfl
  | false =>
    rw [List.filter_eq_self.mpr fun p hp => decide_eq_true (decide_eq_false (hcold p hp)),
      List.filter_eq_nil_iff.mpr fun p hp h => of_decide_eq_false (of_decide_eq_true h) (hhot p hp),
      List.append_nil]
    rfl

theorem construct_filled : filled (construct twoBlocks) 0 = construct twoBlocks := by
  have hpages : numPages twoBlocks = 512 := by decide
  have hhot : max 1 (blocksOf 512 / 5) = 1 := by decide
  refine filled_zero rfl rfl rfl rfl ?_ ?_ rfl
  · rw [construct]
    simp only [hpages, hhot]
    exact initialFreeList_two_blocks true
  · rw [construct]
    simp only [hpages, hhot]
    exact initialFreeList_two_blocks false

/-- A write of all logical pages but the last. -/
def fill : WriteCall := ⟨0, some fun _ => 0, 511 * pageSize⟩

/-- **A write fills the drive** page by page, and may end with a collection. -/
theorem writeNext_fill (hc : c.pageCount = 512) (hb : c.physBlock = blockOf)
    (hcap : c.capacity = twoBlocks) (hzero : filled c 0 = c) (src : ℕ → Byte) {m : ℕ}
    (hm : m ≤ 512) :
    SameBut (if (filled c m).freeCount < (filled c m).gcLowWatermark then
      (filled c m).runGC (filled c m).gcTargetFree else filled c m)
      (c.writeNext ⟨0, some src, m * pageSize⟩) := by
  refine pages_write (s := filled c) (t := claimed c) (q := home)
    (fun k hk => filled_allocate hc (by omega))
    (fun k hk src d w n => claimed_store hb (by omega) src d w n) src
    (hzero.symm ▸ SameBut.refl _) ?_
  rw [hcap, twoBlocks]
  exact Nat.mul_le_mul_right _ hm

/-- Collection starts when fewer than 25 pages are free, and aims at 51. -/
theorem construct_gcLowWatermark : (construct twoBlocks).gcLowWatermark = 25 := by
  rw [construct]
  decide

theorem construct_gcTargetFree : (construct twoBlocks).gcTargetFree = 51 := by
  rw [construct]
  decide

theorem collected_fails :
    let a := (filled (construct twoBlocks) 511).runGC 51
    writeResult (a.writeNext writeFirst, writeFirst) = false ∧
      (a.writeNext writeFirst).physValid 256 = false ∧ (a.writeNext writeFirst).freeCount = 0 := by
  decide +kernel

theorem run_two_writes (c : FTJController) (w w' : WriteCall) :
    run callNext c [.write w, .write w'] = (c.writeNext w).writeNext w' := rfl

/-- The reached state, but for its data. -/
theorem run_fill_first : SameBut (((filled (construct twoBlocks) 511).runGC 51).writeNext writeFirst)
    (run callNext (construct twoBlocks) [.write fill, .write writeFirst]) := by
  have hfill := writeNext_fill (c := construct twoBlocks) (by decide) (construct_physBlock _)
    (by rw [construct]) construct_filled (fun _ => 0) (show 511 ≤ 512 by decide)
  have hlow : (filled (construct twoBlocks) 511).freeCount <
      (filled (construct twoBlocks) 511).gcLowWatermark := by
    rw [filled_freeCount _ (by decide), filled, construct_gcLowWatermark]
    decide
  have htarget : (filled (construct twoBlocks) 511).gcTargetFree = 51 := by
    rw [filled, construct_gcTargetFree]
  rw [if_pos hlow, htarget] at hfill
  rw [run_two_writes]
  exact (hfill.write writeFirst).2

/-! ### Writes to one page -/

/-- **A write to one logical page** after any calls: it succeeds exactly when a page is free, or the
block that `RunGC` looks at first has a page to reclaim. -/
theorem write_iff_reclaimable (hcap : Admitted capacity) (hsmall : capacity / pageSize < 2 ^ 31)
    (calls : List Call) (offset : ℕ) (src : ℕ → Byte) (size : ℕ) (hsize : 0 < size)
    (hpage : offset / pageSize = (offset + size - 1) / pageSize) (hin : offset + size ≤ capacity) :
    let c := run callNext (construct capacity) calls
    writeResult (c, ⟨offset, some src, size⟩) = true ↔ c.freeCount ≠ 0 ∨
      ∃ b, FirstLeast (c.heat (offset / pageSize)).victimMetric c.numBlocks (2 ^ 31 - 1) b ∧
        c.HasInvalid b := by
  intro c
  have hfree : c.freeCount ≠ 0 ↔ c.freePages ≠ [] := by
    rw [freeCount_eq]
    exact List.length_eq_zero_iff.not
  rw [hfree]
  exact (run_orderly hcap hsmall calls).write_one_page_iff src hsize hpage hin

/-- Without a free page the block of least weight decides, and it has none to reclaim. -/
theorem write_iff_reclaimable_two_blocks :
    let c := run callNext (construct twoBlocks) [.write fill, .write writeFirst]
    c.freeCount = 0 ∧
      (writeResult (c, writeFirst) = true ↔ c.freeCount ≠ 0 ∨
        ∃ b, FirstLeast (c.heat 0).victimMetric c.numBlocks (2 ^ 31 - 1) b ∧ c.HasInvalid b) ∧
      ¬ ∃ b, FirstLeast (c.heat 0).victimMetric c.numBlocks (2 ^ 31 - 1) b ∧ c.HasInvalid b := by
  have hiff := write_iff_reclaimable twoBlocks_admitted (by decide) [.write fill, .write writeFirst]
    0 (fun _ => 0) 1 (by decide) (by decide) (by decide)
  refine ⟨run_fill_first.freeCount.trans collected_fails.2.2, hiff, fun hvictim => ?_⟩
  have htrue := hiff.mpr (.inr hvictim)
  have hfalse := (run_fill_first.write writeFirst).1.trans collected_fails.1
  exact absurd (htrue.symm.trans hfalse) (by decide)

/-- **A write fails although a page is stale.**  On a drive of two blocks nearly all pages are written
and then the first one again: page 256 is stale, and the next write finds no page. -/
theorem stale_page_out_of_reach :
    let c := run callNext (construct twoBlocks) [.write fill, .write writeFirst]
    Admitted twoBlocks ∧ (∃ p < c.pageCount, c.physValid p = false) ∧
      writeResult (c, writeFirst) = false := by
  have hpages : _ = 512 * pageSize := (run_orderly twoBlocks_admitted (by decide)
    [.write fill, .write writeFirst]).pages
  refine ⟨twoBlocks_admitted, ⟨256, ?_, ?_⟩, ?_⟩
  · have hcount := Nat.eq_of_mul_eq_mul_right (show 0 < pageSize by decide) hpages
    rw [hcount]
    decide
  · rw [run_fill_first.physValid]
    exact collected_fails.2.1
  · rw [(run_fill_first.write writeFirst).1]
    exact collected_fails.1

end FTJController

end FtjSsdSim.Engine
