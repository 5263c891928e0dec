import Mathlib
import FtjSsdSim.Engine.Reclaim

/-!
# A whole collection

A drive of two blocks takes 256 logical pages, which fill block 1, and then most of them once more,
into block 0.  Block 1 is left with a few valid pages, and the collection at the end of the second
write finds a free page for each: it empties the block and erases all of it.

The two writes are followed page by page (`filled`, `renewed`), so that only the collection has to be
evaluated.
-/

namespace FtjSsdSim.Engine

open FtjSsdSim.Library

namespace FTJController

variable {c : FTJController} {k : ℕ}

/-- The drive `c` of two blocks once 256 logical pages are written, and the first `k` of them twice. -/
def renewed (c : FTJController) (k : ℕ) : FTJController :=
  { c with
    l2pMap := fun lp => if lp < k then lp else if lp < 256 then (256 + lp : ℕ) else -1
    physValid := fun p => decide (p < k ∨ (256 + k ≤ p ∧ p < 512))
    physOwnerLba := fun p =>
      if p < k then p else if 256 + k ≤ p ∧ p < 512 then (p - 256 : ℕ) else -1
    blockValidCount := fun b => if b = 0 then k else if b = 1 then (256 - k : ℕ) else 0
    freePhysicalPagesHot := descending k 256
    freePhysicalPagesCold := []
    lbaHotCounters := fun lp => if lp < k then 2 else if lp < 256 then 1 else 0 }

/-- The same with a second page for logical page `k` claimed. -/
def renewing (c : FTJController) (k : ℕ) : FTJController :=
  { renewed c k with
    freePhysicalPagesHot := descending (k + 1) 256
    lbaHotCounters := fun lp => if lp < k + 1 then 2 else if lp < 256 then 1 else 0 }

/-- Filling block 1 is where the second write starts. -/
theorem filled_eq_renewed (c : FTJController) : filled c 256 = renewed c 0 := by
  have hpage : ∀ p, (p < 512 ∧ home p < 256) ↔ 256 + 0 ≤ p ∧ p < 512 := fun p => by
    rw [home]
    split_ifs <;> omega
  have hl2p : (filled c 256).l2pMap = (renewed c 0).l2pMap := by
    funext lp
    simp only [filled, renewed, home, Nat.not_lt_zero, if_false]
    split_ifs <;> omega
  have hvalid : (filled c 256).physValid = (renewed c 0).physValid := by
    funext p
    simp only [filled, renewed, hpage, Nat.not_lt_zero, false_or]
  have howner : (filled c 256).physOwnerLba = (renewed c 0).physOwnerLba := by
    funext p
    simp only [filled, renewed, Nat.not_lt_zero, if_false, home]
    split_ifs <;> omega
  have hcount : (filled c 256).blockValidCount = (renewed c 0).blockValidCount := by
    funext b
    simp only [filled, renewed]
    split_ifs <;> rfl
  have hcold : (filled c 256).freePhysicalPagesCold = (renewed c 0).freePhysicalPagesCold := by
    rw [filled_cold]
    exact descending_nil le_rfl
  calc filled c 256
      = { c with
          l2pMap := (filled c 256).l2pMap
          physValid := (filled c 256).physValid
          physOwnerLba := (filled c 256).physOwnerLba
          blockValidCount := (filled c 256).blockValidCount
          freePhysicalPagesHot := descending 0 256
          freePhysicalPagesCold := (filled c 256).freePhysicalPagesCold
          lbaHotCounters := fun lp => if lp < 256 then 1 else 0 } := rfl
    _ = renewed c 0 := by
      rw [hl2p, hvalid, howner, hcount, hcold]
      rfl

/-! ### One page -/

theorem renewed_heat (hc : c.pageCount = 512) (hk : k < 256) :
    (renewed c k).heat k = { renewed c k with
      lbaHotCounters := fun lp => if lp < k + 1 then 2 else if lp < 256 then 1 else 0 } := by
  have hcounters : Function.update (renewed c k).lbaHotCounters k
      (capCounter ((renewed c k).lbaHotCounters k + 1)) =
        fun lp => if lp < k + 1 then 2 else if lp < 256 then 1 else 0 := by
    funext lp
    by_cases hlp : lp = k
    · subst hlp
      simp only [Function.update_self, renewed, Nat.lt_irrefl, if_false, hk, if_true,
        Nat.lt_succ_self]
      decide
    · have hiff : lp < k + 1 ↔ lp < k := by omega
      simp only [Function.update_of_ne hlp, renewed, hiff]
  have hlt : k < (renewed c k).pageCount := by
    show k < c.pageCount
    omega
  rw [heat, if_pos hlt, hcounters]

theorem renewed_allocate (hc : c.pageCount = 512) (hk : k < 256) :
    ((renewed c k).heat k).allocatePhysicalPage (((renewed c k).heat k).prefersHot k) =
      ((k : ℤ), renewing c k) := by
  have hpref : ((renewed c k).heat k).prefersHot k = false := by
    have htwo : ((renewed c k).heat k).lbaHotCounters k = 2 := by
      rw [renewed_heat hc hk]
      exact if_pos (Nat.lt_succ_self k)
    rw [prefersHot, htwo]
    exact Bool.and_false _
  have hhot : (renewed c k).freePhysicalPagesHot = descending (k + 1) 256 ++ [(k : ℤ)] :=
    descending_snoc hk
  have hcold : (renewed c k).freePhysicalPagesCold = [] := rfl
  rw [hpref, renewed_heat hc hk]
  simp only [allocatePhysicalPage, Bool.false_eq_true, if_false, popCold, popHot, hcold, hhot,
    List.getLast?_nil, List.getLast?_concat, List.dropLast_concat, Option.map_none, Option.map_some,
    Option.none_or, Option.getD_some, renewing]

/-- The tables of a page that is written again: `k` is mapped to page `k`, and page `256 + k` is
stale. -/
theorem renewing_store (hc : c.pageCount = 512) (hb : c.physBlock = blockOf) (hk : k < 256)
    (src : ℕ → Byte) (d s n : ℕ) :
    SameBut (renewed c (k + 1)) ((renewing c k).storePage k k d src s n) := by
  have hold : (renewing c k).oldPage k = (256 + k : ℕ) := by
    have hlt : k < (renewing c k).pageCount := by
      show k < c.pageCount
      omega
    rw [oldPage, if_pos hlt]
    simp only [renewing, renewed, Nat.lt_irrefl, if_false, hk, if_true]
  have hl2p : Function.update (renewed c k).l2pMap k k = (renewed c (k + 1)).l2pMap := by
    funext lp
    by_cases hlp : lp = k
    · rw [hlp, Function.update_self]
      exact (if_pos (Nat.lt_succ_self k)).symm
    · have hiff : lp < k ↔ lp < k + 1 := by omega
      rw [Function.update_of_ne hlp]
      exact if_congr hiff rfl rfl
  have hvalid : Function.update (Function.update (renewed c k).physValid k true) (256 + k) false =
      (renewed c (k + 1)).physValid := by
    funext p
    simp only [renewed, Function.update_apply]
    split_ifs <;> grind
  have howner : Function.update (Function.update (renewed c k).physOwnerLba k (int32 k)) (256 + k)
      (-1) = (renewed c (k + 1)).physOwnerLba := by
    funext p
    rw [int32_natCast (by omega)]
    simp only [renewed, Function.update_apply]
    split_ifs <;> omega
  have hblock0 : (blockOf k).toNat = 0 := by
    rw [blockOf, Nat.div_eq_of_lt hk]
    rfl
  have hblock1 : (blockOf (256 + k)).toNat = 1 := by
    have hdiv : (256 + k) / pagesPerBlock = 1 := by
      simp only [pagesPerBlock]
      omega
    rw [blockOf, hdiv]
    rfl
  have hcount : Function.update (Function.update (renewed c k).blockValidCount 0
      (int32 ((renewed c k).blockValidCount 0 + 1))) 1
        (max 0 ((renewed c k).blockValidCount 1 - 1)) = (renewed c (k + 1)).blockValidCount := by
    have hzero : (renewed c k).blockValidCount 0 = (k : ℕ) := rfl
    have hone : (renewed c k).blockValidCount 1 = (256 - k : ℕ) := rfl
    have hsum : (k : ℤ) + 1 = (k + 1 : ℕ) := rfl
    rw [hzero, hone, hsum, int32_natCast (by omega)]
    funext b
    simp only [renewed, Function.update_apply]
    split_ifs <;> omega
  obtain ⟨m, e, ds, t, heq⟩ := storePage_eq (renewing c k) k k d src s n
  rw [heq, remap, hold, if_pos (Int.natCast_nonneg _), Int.toNat_natCast]
  have hfields : ((renewing c k).mapPage k k (int32 k)).invalidatePage (256 + k) =
      { renewed c (k + 1) with
        pageWrites := ((renewing c k).mapPage k k (int32 k)).pageWrites
        totalPhysicalBytesWritten :=
          ((renewing c k).mapPage k k (int32 k)).totalPhysicalBytesWritten } := by
    have hphys : (renewed c k).physBlock = blockOf := hb
    simp only [invalidatePage, mapPage, renewing, hphys, hblock0, hblock1, hl2p, hvalid, howner,
      Function.update_of_ne one_ne_zero, hcount]
    simp only [renewed, hb]
  rw [hfields]
  generalize renewed c (k + 1) = f
  exact ⟨⟨m, e, _, ds, t, _, _⟩, rfl⟩

/-! ### Two writes -/

/-- A write of the first 256 logical pages. -/
def writeBlock : WriteCall := ⟨0, some fun _ => 0, 256 * pageSize⟩

/-- A write of the first 232 logical pages. -/
def rewrite : WriteCall := ⟨0, some fun _ => 0, 232 * pageSize⟩

/-- Half the pages are free after the first write. -/
theorem filled_enough : ¬ (filled (construct twoBlocks) 256).freeCount <
    (filled (construct twoBlocks) 256).gcLowWatermark := by
  rw [filled_freeCount _ (by decide), filled, construct_gcLowWatermark]
  decide

/-- The drive after the first write, but for its data. -/
theorem writeNext_writeBlock :
    SameBut (renewed (construct twoBlocks) 0) ((construct twoBlocks).writeNext writeBlock) := by
  have hfill := writeNext_fill (c := construct twoBlocks) (by decide) (construct_physBlock _)
    (by rw [construct]) construct_filled (fun _ => 0) (show 256 ≤ 512 by decide)
  rw [if_neg filled_enough, filled_eq_renewed] at hfill
  exact hfill

theorem renewed_low : (renewed (construct twoBlocks) 232).freeCount <
    (renewed (construct twoBlocks) 232).gcLowWatermark := by
  rw [freeCount, renewed, construct_gcLowWatermark]
  simp only [length_descending, List.length_nil]
  decide

theorem renewed_target : (renewed (construct twoBlocks) 232).gcTargetFree = 51 := by
  rw [renewed, construct_gcTargetFree]

/-- The drive after the second write. -/
theorem writeNext_rewrite : SameBut ((renewed (construct twoBlocks) 232).runGC 51)
    (((construct twoBlocks).writeNext writeBlock).writeNext rewrite) := by
  have hcap : ((construct twoBlocks).writeNext writeBlock).capacity = twoBlocks := by
    obtain ⟨d, hd⟩ := writeNext_writeBlock
    rw [hd]
    rfl
  have hwrite := pages_write (s := renewed (construct twoBlocks))
    (t := renewing (construct twoBlocks)) (q := id) (m := 232)
    (fun k hk => renewed_allocate (by decide) (by omega))
    (fun k hk src d w n => renewing_store (by decide) (construct_physBlock _) (by omega) src d w n)
    (fun _ => 0) writeNext_writeBlock (by rw [hcap]; decide)
  rw [if_pos renewed_low, renewed_target] at hwrite
  exact hwrite

/-- The first write runs no erase loop. -/
theorem writeBlock_erases :
    (construct twoBlocks).writeErases writeBlock.offset writeBlock.src writeBlock.size = [] := by
  refine List.eq_nil_iff_forall_not_mem.mpr ?_
  exact pages_writeErases (E := fun _ => False) (fun _ _ _ _ h => h)
    (fun k hk => filled_allocate (c := construct twoBlocks) (by decide) (by omega))
    (fun k hk src d w n => claimed_store (construct_physBlock _) (by omega) src d w n) _
    (construct_filled.symm ▸ SameBut.refl _) (fun hlow => absurd hlow filled_enough)

/-- What holds of the erase loops of the collection of `renewed`, whatever the data, holds of those of
the second write. -/
theorem rewrite_erases {E : FTJController × ℕ → Prop}
    (hblind : ∀ e e' b, SameBut e e' → E (e, b) → E (e', b))
    (herases : ∀ e ∈ (renewed (construct twoBlocks) 232).gcErases 51, E e) :
    ∀ e ∈ ((construct twoBlocks).writeNext writeBlock).writeErases rewrite.offset rewrite.src
      rewrite.size, E e := by
  refine pages_writeErases hblind (s := renewed (construct twoBlocks))
    (t := renewing (construct twoBlocks)) (q := id)
    (fun k hk => renewed_allocate (by decide) (by omega))
    (fun k hk src d w n => renewing_store (by decide) (construct_physBlock _) (by omega) src d w n)
    _ writeNext_writeBlock fun _ => ?_
  rw [renewed_target]
  exact herases

/-- **The collection is whole**: it runs on block 1, finds a free page for every valid one and frees
the block, which lies in the cold zone. -/
theorem renewed_collection :
    (∀ e ∈ (renewed (construct twoBlocks) 232).gcErases 51, e.2 = 1 ∧
      ∀ p, blockStart e.2 ≤ p → p < e.1.blockEnd e.2 →
        e.1.physValid p = false ∧ (p : ℤ) ∉ e.1.freePages) ∧
      ((renewed (construct twoBlocks) 232).runGC 51).freePhysicalPagesCold.length = 256 := by
  decide +kernel

theorem rewrite_frees : (((construct twoBlocks).writeNext writeBlock).writeNext
    rewrite).freePhysicalPagesCold.length = 256 := by
  rw [writeNext_rewrite.freePhysicalPagesCold]
  exact renewed_collection.2

end FTJController

end FtjSsdSim.Engine
