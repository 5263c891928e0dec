import Mathlib
import FtjSsdSim.Library.Loop
import FtjSsdSim.Library.Machine
import FtjSsdSim.Engine.Bounds
import FtjSsdSim.Engine.ValidCounts

/-!
# The hot and the cold zone

The constructor gives the first fifth of the blocks, and at least one, to the hot free list.  The erase
loop of `RunGC` puts a page back by a fifth of the blocks, without the "at least one": on a drive of
fewer than five blocks the pages of the hot zone come back on the cold list.

* `zones_stable` — the lists keep to their zones as long as no erase loop frees such a page;
* `run_zoned_of_five_blocks` — so they always do on a drive of five blocks or more.
-/

namespace FtjSsdSim.Engine

open FtjSsdSim.Library

namespace FTJController

variable {capacity endByte : ℕ} {c : FTJController}

/-- `hot_blocks` of the constructor. -/
def hotBlocks (capacity : ℕ) : ℕ := max 1 (blocksOf (numPages capacity) / 5)

/-- A page of one of the blocks of the hot zone. -/
def HotPage (capacity : ℕ) (x : ℤ) : Prop :=
  (0 ≤ x ∧ x < numPages capacity) ∧ x / pagesPerBlock < hotBlocks capacity

/-- A page of one of the other blocks. -/
def ColdPage (capacity : ℕ) (x : ℤ) : Prop :=
  (0 ≤ x ∧ x < numPages capacity) ∧ hotBlocks capacity ≤ x / pagesPerBlock

instance (x : ℤ) : Decidable (HotPage capacity x) := inferInstanceAs (Decidable (_ ∧ _))

instance (x : ℤ) : Decidable (ColdPage capacity x) := inferInstanceAs (Decidable (_ ∧ _))

/-- The free lists keep to their zones. -/
structure Zoned (capacity : ℕ) (c : FTJController) : Prop where
  pageCount : c.pageCount = numPages capacity
  numBlocks : c.numBlocks = blocksOf (numPages capacity)
  physBlock : c.physBlock = blockOf
  hot : ∀ x ∈ c.freePhysicalPagesHot, HotPage capacity x
  cold : ∀ x ∈ c.freePhysicalPagesCold, ColdPage capacity x

/-! ### The constructor -/

/-- An entry of the constructor's lists is a page of the zone. -/
theorem initialFreeList_zone {n hotBlocks : ℕ} {hot : Bool} :
    ∀ x ∈ initialFreeList n hotBlocks hot,
      (0 ≤ x ∧ x < n) ∧ decide (x / pagesPerBlock < hotBlocks) = hot := by
  obtain ⟨hle, hint⟩ := int32_le n
  refine forLoop_preserves (P := fun free : List ℤ => ∀ x ∈ free,
    (0 ≤ x ∧ x < n) ∧ decide (x / pagesPerBlock < hotBlocks) = hot)
    (fun x hx => absurd hx List.not_mem_nil) ?_
  intro i free _ hi hfree
  simp only
  split_ifs with hzone
  · intro x hx
    rcases List.mem_append.mp hx with hx | hx
    · exact hfree x hx
    · have hpage : 0 ≤ int32 n - 1 - i ∧ int32 n - 1 - i < 2 ^ 31 ∧ int32 n - 1 - i < n := by omega
      rw [List.mem_singleton.mp hx]
      generalize int32 n - 1 - (i : ℤ) = y at hzone hpage ⊢
      obtain ⟨p, rfl⟩ := Int.eq_ofNat_of_zero_le hpage.1
      rw [Int.toNat_natCast, blockOf_natCast (by omega)] at hzone
      refine ⟨⟨hpage.1, hpage.2.2⟩, Eq.trans (decide_eq_decide.mpr ?_) hzone⟩
      simp only [pagesPerBlock]
      omega
  · exact hfree

theorem construct_zoned (capacity : ℕ) : Zoned capacity (construct capacity) where
  pageCount := by rw [construct]
  numBlocks := by rw [construct]
  physBlock := by rw [construct]
  hot x hx := by
    have hlist : (construct capacity).freePhysicalPagesHot =
        initialFreeList (numPages capacity) (hotBlocks capacity) true := by rw [construct, hotBlocks]
    rw [hlist] at hx
    obtain ⟨hpage, hzone⟩ := initialFreeList_zone x hx
    exact ⟨hpage, of_decide_eq_true hzone⟩
  cold x hx := by
    have hlist : (construct capacity).freePhysicalPagesCold =
        initialFreeList (numPages capacity) (hotBlocks capacity) false := by rw [construct, hotBlocks]
    rw [hlist] at hx
    obtain ⟨hpage, hzone⟩ := initialFreeList_zone x hx
    exact ⟨hpage, not_lt.mp (of_decide_eq_false hzone)⟩

/-! ### Taking pages off -/

theorem Zoned.congr {c' : FTJController} (h : Zoned capacity c) (hcount : c'.pageCount = c.pageCount)
    (hblocks : c'.numBlocks = c.numBlocks) (hblock : c'.physBlock = c.physBlock)
    (hhot : c'.freePhysicalPagesHot ⊆ c.freePhysicalPagesHot)
    (hcold : c'.freePhysicalPagesCold ⊆ c.freePhysicalPagesCold) : Zoned capacity c' where
  pageCount := hcount.trans h.pageCount
  numBlocks := hblocks.trans h.numBlocks
  physBlock := hblock.trans h.physBlock
  hot x hx := h.hot x (hhot hx)
  cold x hx := h.cold x (hcold hx)

/-- Allocation only takes pages off the lists. -/
theorem allocate_subset (c : FTJController) (preferHot : Bool) :
    ∃ q hot cold, c.allocatePhysicalPage preferHot = (q, c.withFree hot cold) ∧
      hot ⊆ c.freePhysicalPagesHot ∧ cold ⊆ c.freePhysicalPagesCold := by
  have hpopHot : c.popHot = none ∨ ∃ q l, c.popHot = some (q, c.withFree l c.freePhysicalPagesCold) ∧
      l ⊆ c.freePhysicalPagesHot := by
    rw [popHot]
    cases c.freePhysicalPagesHot.getLast? with
    | none => exact .inl rfl
    | some q => exact .inr ⟨q, _, rfl, List.dropLast_subset _⟩
  have hpopCold : c.popCold = none ∨ ∃ q l, c.popCold = some (q, c.withFree c.freePhysicalPagesHot l) ∧
      l ⊆ c.freePhysicalPagesCold := by
    rw [popCold]
    cases c.freePhysicalPagesCold.getLast? with
    | none => exact .inl rfl
    | some q => exact .inr ⟨q, _, rfl, List.dropLast_subset _⟩
  have hself := List.Subset.refl c.freePhysicalPagesHot
  have hself' := List.Subset.refl c.freePhysicalPagesCold
  rw [allocatePhysicalPage]
  cases preferHot with
  | true =>
    rcases hpopHot with hhot | ⟨q, l, hhot, hsub⟩
    · rcases hpopCold with hcold | ⟨q, l, hcold, hsub⟩ <;> rw [hhot, hcold]
      · exact ⟨-1, _, _, rfl, hself, hself'⟩
      · exact ⟨q, _, l, rfl, hself, hsub⟩
    · rw [hhot]
      exact ⟨q, l, _, rfl, hsub, hself'⟩
  | false =>
    rcases hpopCold with hcold | ⟨q, l, hcold, hsub⟩
    · rcases hpopHot with hhot | ⟨q, l, hhot, hsub⟩ <;> rw [hhot, hcold]
      · exact ⟨-1, _, _, rfl, hself, hself'⟩
      · exact ⟨q, l, _, rfl, hsub, hself'⟩
    · rw [hcold]
      exact ⟨q, _, l, rfl, hself, hsub⟩

theorem Zoned.relocatePage (h : Zoned capacity c) (p : ℕ) : Zoned capacity (c.relocatePage p) := by
  unfold FTJController.relocatePage
  obtain ⟨q, hot, cold, heq, hhot, hcold⟩ := allocate_subset c false
  rw [heq]
  simp only
  split_ifs
  · exact h.congr rfl rfl rfl hhot hcold
  · exact h.congr rfl rfl rfl hhot hcold
  · exact h.congr rfl rfl rfl hhot hcold
  · exact h

theorem Zoned.moveValidPages (h : Zoned capacity c) (b : ℕ) : Zoned capacity (c.moveValidPages b) :=
  forLoop_preserves (P := fun t => Zoned capacity t) h fun p _ _ _ ht => ht.relocatePage p

/-! ### Putting pages back -/

/-- The erase loop about to run on block `e.2` of `e.1` frees no page of the first block of a drive of
fewer than five, and none whose number does not fit an `int32_t`. -/
def ZoneKept (e : FTJController × ℕ) : Prop :=
  ∀ p, blockStart e.2 ≤ p → p < e.1.blockEnd e.2 → e.1.physValid p = false →
    p < 2 ^ 31 ∧ (5 ≤ e.1.numBlocks ∨ pagesPerBlock ≤ p)

instance (e : FTJController × ℕ) : Decidable (ZoneKept e) :=
  inferInstanceAs (Decidable (∀ p, _ ≤ p → p < _ → _ → _))

/-- With five blocks or more, or past the first one, the two boundaries agree. -/
theorem zone_boundary {n p : ℕ} (h : 5 ≤ n ∨ pagesPerBlock ≤ p) :
    p / pagesPerBlock < n / 5 ↔ p / pagesPerBlock < max 1 (n / 5) := by
  simp only [pagesPerBlock] at h ⊢
  omega

theorem Zoned.erasePage (h : Zoned capacity c) {p : ℕ} (hp : p < c.pageCount)
    (hkept : c.physValid p = false → p < 2 ^ 31 ∧ (5 ≤ c.numBlocks ∨ pagesPerBlock ≤ p)) :
    Zoned capacity (c.erasePage p) := by
  rw [FTJController.erasePage]
  split_ifs with hv
  · exact h
  · obtain ⟨hsmall, hblocks⟩ := hkept (Bool.eq_false_iff.mpr hv)
    have hzone := zone_boundary hblocks
    have hhot : hotBlocks capacity = max 1 (c.numBlocks / 5) := by rw [hotBlocks, h.numBlocks]
    have hpage : (0 : ℤ) ≤ p ∧ (p : ℤ) < numPages capacity := by
      rw [← h.pageCount]
      omega
    rw [← hhot] at hzone
    have hblock : c.physBlock p = (p / pagesPerBlock : ℕ) := by
      rw [h.physBlock]
      exact blockOf_natCast hsmall
    simp only
    rw [hblock, int32_natCast hsmall, Int.toNat_natCast]
    split_ifs with hlt
    · have hin := hzone.mp hlt.2
      refine ⟨h.pageCount, h.numBlocks, h.physBlock, fun x hx => ?_, h.cold⟩
      rcases List.mem_append.mp hx with hx | hx
      · exact h.hot x hx
      · rw [List.mem_singleton.mp hx]
        exact ⟨hpage, by exact_mod_cast hin⟩
    · have hout : ¬ p / pagesPerBlock < hotBlocks capacity := by
        rw [← hzone]
        exact fun hin => hlt ⟨Int.natCast_nonneg _, hin⟩
      refine ⟨h.pageCount, h.numBlocks, h.physBlock, h.hot, fun x hx => ?_⟩
      rcases List.mem_append.mp hx with hx | hx
      · exact h.cold x hx
      · rw [List.mem_singleton.mp hx]
        exact ⟨hpage, by exact_mod_cast not_lt.mp hout⟩

theorem Zoned.eraseBlock (h : Zoned capacity c) {b : ℕ} (hkept : ZoneKept (c, b)) :
    Zoned capacity (c.eraseBlock b) := by
  have hinv : Zoned capacity (c.eraseBlock b) ∧ (c.eraseBlock b).physValid = c.physValid := by
    refine forLoop_preserves (P := fun t : FTJController =>
      Zoned capacity t ∧ t.physValid = c.physValid) ⟨h, rfl⟩ ?_
    intro p t hlo hhi ht
    obtain ⟨hzoned, hvalid⟩ := ht
    have hlt : p < t.pageCount := by
      rw [hzoned.pageCount, ← h.pageCount]
      exact hhi.trans_le (min_le_left ..)
    refine ⟨hzoned.erasePage hlt fun hv => ?_, (erasePage_physValid t p).trans hvalid⟩
    rw [hzoned.numBlocks, ← h.numBlocks]
    exact hkept p hlo hhi (hvalid ▸ hv)
  exact hinv.1

theorem Zoned.collectBlock (h : Zoned capacity c) {b : ℕ} (hkept : ZoneKept (c.moveValidPages b, b)) :
    Zoned capacity (c.collectBlock b) :=
  ((h.moveValidPages b).eraseBlock hkept).congr rfl rfl rfl (List.Subset.refl _) (List.Subset.refl _)

/-- Every step of a write keeps to the zones, if its erase loops do. -/
theorem zoned_rule (capacity endByte : ℕ) :
    WriteRule endByte ZoneKept (Zoned capacity) fun _ => Zoned capacity where
  heat c lp h := by
    rw [heat]
    split_ifs
    · exact h.congr rfl rfl rfl (List.Subset.refl _) (List.Subset.refl _)
    · exact h
  allocate c preferHot q c' h heq := by
    obtain ⟨r, hot, cold, halloc, hhot, hcold⟩ := allocate_subset c preferHot
    obtain ⟨-, rfl⟩ : r = q ∧ c.withFree hot cold = c' := by simpa using halloc.symm.trans heq
    have hzoned : Zoned capacity (c.withFree hot cold) := h.congr rfl rfl rfl hhot hcold
    exact ⟨fun _ => hzoned, fun _ => hzoned⟩
  collect c b h hkept := h.collectBlock hkept
  store c lp q d src s n _ _ h := by
    obtain ⟨_, _, _, _, _, _, _, _, _, _, heq⟩ := storePage_frame c lp q d src s n
    rw [heq]
    exact h.congr rfl rfl rfl (List.Subset.refl _) (List.Subset.refl _)
  countWrite c h := h.congr rfl rfl rfl (List.Subset.refl _) (List.Subset.refl _)

/-! ### Runs -/

/-- Every erase loop of the event keeps to the zones. -/
def ZoneKeptErases (x : FTJController × Event) : Prop := ∀ e ∈ x.1.eventErases x.2, ZoneKept e

instance (x : FTJController × Event) : Decidable (ZoneKeptErases x) :=
  inferInstanceAs (Decidable (∀ _ ∈ _, _))

/-- **One event.** -/
theorem Zoned.eventNext (h : Zoned capacity c) (event : Event) (hkept : ZoneKeptErases (c, event)) :
    Zoned capacity (c.eventNext event) := by
  rcases c.eventNext_cases event with ⟨w, rfl⟩ | ⟨_, _, _, _, _, _, _, _, heq⟩
  · exact WriteRule.write (fun endByte _ => zoned_rule capacity endByte) h w hkept
  · rw [heq]
    exact h.congr rfl rfl rfl (List.Subset.refl _) (List.Subset.refl _)

theorem run_zoned (capacity : ℕ) (events : List Event)
    (hkept : ∀ x ∈ cycles eventNext (construct capacity) events, ZoneKeptErases x) :
    Zoned capacity (run eventNext (construct capacity) events) :=
  run_invariant (P := ZoneKeptErases) (I := Zoned capacity) (construct_zoned capacity)
    (fun _ event h => h.eventNext event) events hkept

/-- **The zones after a run.**  For every capacity, in every state reached by events whose erase loops
free no page of the hot zone of a drive of fewer than five blocks, the hot list holds only pages of the
blocks that the constructor gave to the hot zone, and the cold list only pages of the other blocks. -/
theorem zones_stable (capacity : ℕ) (events : List Event)
    (hkept : ∀ x ∈ cycles eventNext (construct capacity) events, ZoneKeptErases x) :
    let c := run eventNext (construct capacity) events
    (∀ x ∈ c.freePhysicalPagesHot, HotPage capacity x) ∧
      ∀ x ∈ c.freePhysicalPagesCold, ColdPage capacity x := by
  have h := run_zoned capacity events hkept
  exact ⟨h.hot, h.cold⟩

/-- On a drive of two blocks the second write ends with a collection that gives the 256 pages of block 1
back to the cold list. -/
theorem zones_stable_two_blocks :
    let c := run eventNext (construct twoBlocks)
      [.call (.write writeBlock), .call (.write rewrite)]
    c.freePhysicalPagesCold.length = 256 ∧
      (∀ x ∈ c.freePhysicalPagesHot, HotPage twoBlocks x) ∧
      ∀ x ∈ c.freePhysicalPagesCold, ColdPage twoBlocks x := by
  refine ⟨by rw [run_two_events, rewrite_frees], zones_stable twoBlocks _ ?_⟩
  refine erases_of_two_writes [] (fun e he => ?_) (fun e he => ?_)
    (fun _ h => absurd h List.not_mem_nil)
  · rw [writeBlock_erases] at he
    exact absurd he List.not_mem_nil
  · -- the one erase loop runs on block 1
    have hblock := rewrite_erases (E := fun e => e.2 = 1) (fun _ _ _ _ hb => hb)
      (fun e he => (renewed_collection.1 e he).1) e he
    intro p hlo hhi _
    simp only [hblock, blockStart, blockEnd, pagesPerBlock] at hlo hhi ⊢
    omega

/-- **The hot zone on the cold list.**  On a drive of sixty pages, all of them in the one hot block, the
collection at the end of fifty-eight writes puts pages on the cold list. -/
theorem zones_mixed :
    let c := run eventNext (construct sixtyPages) (List.replicate 58 (.call (.write writeFirst)))
    numPages sixtyPages ≤ pagesPerBlock ∧
      ∃ x ∈ c.freePhysicalPagesCold, HotPage sixtyPages x ∧ ¬ ColdPage sixtyPages x := by
  decide +kernel

/-- With five blocks or more it does not matter what the erase loops meet. -/
theorem zoned_rule_of_five_blocks (hblocks : 5 ≤ blocksOf (numPages capacity))
    (hsmall : numPages capacity < 2 ^ 31) (endByte : ℕ) :
    WriteRule endByte (fun _ => True) (Zoned capacity) fun _ => Zoned capacity where
  heat := (zoned_rule capacity endByte).heat
  allocate := (zoned_rule capacity endByte).allocate
  collect c b h _ := by
    have hmoved := h.moveValidPages b
    refine h.collectBlock fun p _ hp _ => ⟨?_, .inl ?_⟩
    · have hlt := hp.trans_le (min_le_left ..)
      rw [hmoved.pageCount] at hlt
      exact hlt.trans hsmall
    · rwa [hmoved.numBlocks]
  store := (zoned_rule capacity endByte).store
  countWrite := (zoned_rule capacity endByte).countWrite

/-- **Five blocks or more.**  On such a drive, of fewer than `2^31` pages, the zones are stable in every
run. -/
theorem run_zoned_of_five_blocks (hblocks : 5 ≤ blocksOf (numPages capacity))
    (hsmall : numPages capacity < 2 ^ 31) (events : List Event) :
    Zoned capacity (run eventNext (construct capacity) events) := by
  refine run_invariant (P := fun _ => True) (I := Zoned capacity) (construct_zoned capacity) ?_ events
    fun _ _ => trivial
  intro c event h _
  rcases c.eventNext_cases event with ⟨w, rfl⟩ | ⟨_, _, _, _, _, _, _, _, heq⟩
  · exact WriteRule.write (fun endByte _ => zoned_rule_of_five_blocks hblocks hsmall endByte) h w
      fun _ _ => trivial
  · rw [heq]
    exact h.congr rfl rfl rfl (List.Subset.refl _) (List.Subset.refl _)

end FTJController

end FtjSsdSim.Engine
