import Mathlib
import FtjSsdSim.Library.Loop
import FtjSsdSim.Library.Machine
import FtjSsdSim.Engine.Ledger
import FtjSsdSim.Engine.Reclaim

/-!
# The arithmetic of hot and cold

Three machine integers stand between the writes of a logical page and the victim that `RunGC` picks: the
hot counter of the page, its conversion to `int`, and the weight of a block.

* `hot_counters_exact_iff` — the counter is the number of page writes capped at `2^32 - 1` as long as
  this is below `2^32`, the weight is exact as long as it is in the range of `int`, and then the victim has
  the least weight;
* `hot_counters_inexact` — past these bounds a counter starts over, and the hottest block is the first
  to go.
-/

namespace FtjSsdSim.Engine

open FtjSsdSim.Library

namespace FTJController

variable {c : FTJController}

/-! ### Weights -/

theorem int32_add (x y : ℤ) : int32 (int32 x + int32 y) = int32 (x + y) := (Int.add_bmod x y _).symm

/-- The values of an `int`. -/
def FitsInt (x : ℤ) : Prop := -2 ^ 31 ≤ x ∧ x < 2 ^ 31

instance (x : ℤ) : Decidable (FitsInt x) := inferInstanceAs (Decidable (_ ∧ _))

theorem int32_eq_self_iff (x : ℤ) : int32 x = x ↔ FitsInt x := by
  rw [int32, Int.bmod_def, FitsInt]
  split_ifs <;> omega

/-- The hot counter of the owner of page `p`. -/
def ownerHeat (c : FTJController) (p : ℕ) : ℤ :=
  if 0 ≤ c.physOwnerLba p ∧ (c.physOwnerLba p).toNat < c.pageCount then
    (c.lbaHotCounters (c.physOwnerLba p).toNat).toNat
  else 0

/-- The weight of block `b` as a victim, as an integer of any size. -/
def exactWeight (c : FTJController) (b : ℕ) : ℤ :=
  c.blockValidCount b * 16 + ∑ p ∈ Finset.Ico (blockStart b) (c.blockEnd b), c.ownerHeat p

/-- The hotness of a block is the sum of the owners' counters, as an `int`. -/
theorem hotScore_eq (c : FTJController) (b : ℕ) :
    c.hotScore b = int32 (∑ p ∈ Finset.Ico (blockStart b) (c.blockEnd b), c.ownerHeat p) := by
  have hzero : int32 0 = 0 := by decide
  rcases Nat.le_total (c.blockEnd b) (blockStart b) with hle | hle
  · rw [Finset.Ico_eq_empty_of_le hle, Finset.sum_empty, hzero]
    exact forLoop_empty hle
  · refine forLoop_induct (motive := fun i score =>
      score = int32 (∑ p ∈ Finset.Ico (blockStart b) i, c.ownerHeat p)) hle ?_ ?_
    · show 0 = int32 (∑ p ∈ Finset.Ico (blockStart b) (blockStart b), c.ownerHeat p)
      rw [Finset.Ico_self, Finset.sum_empty, hzero]
    · intro i score hlo _ hscore
      have hstart : blockStart b ≤ i := hlo
      rw [Finset.sum_Ico_succ_top hstart, hscore, ownerHeat]
      simp only
      split_ifs
      · exact int32_add ..
      · rw [add_zero]

theorem victimMetric_eq (c : FTJController) (b : ℕ) : c.victimMetric b = int32 (c.exactWeight b) := by
  rw [victimMetric, hotScore_eq, int32_add, exactWeight]

/-- **Exact weights give the least victim.** -/
theorem victim_least (hfits : ∀ b < c.numBlocks, FitsInt (c.exactWeight b)) {b : ℕ}
    (hb : c.selectVictim = some b) : ∀ b' < c.numBlocks, c.exactWeight b ≤ c.exactWeight b' := by
  have hfirst := (selectVictim_iff c b).mp hb
  have hexact : ∀ b' < c.numBlocks, c.victimMetric b' = c.exactWeight b' := by
    intro b' hb'
    rw [victimMetric_eq]
    exact (int32_eq_self_iff _).mpr (hfits b' hb')
  intro b' hb'
  have hleast := hfirst.least b' hb'
  rwa [hexact b hfirst.lt, hexact b' hb'] at hleast

/-! ### Counters -/

/-- The counter after a run is the number of page writes modulo `2^32`. -/
theorem run_hotCounter (capacity : ℕ) (events : List Event) {lp : ℕ} (hlp : lp < numPages capacity) :
    ((run eventNext (construct capacity) events).lbaHotCounters lp).toNat =
      (runWork capacity events).countP (Work.writes lp) % 2 ^ 32 := by
  rw [(run_ledger capacity events).counters lp hlp, BitVec.toNat_ofNat]

/-- A logical page is hot when it has been written often enough, modulo `2^32`. -/
theorem run_prefersHot (capacity : ℕ) (events : List Event) {lp : ℕ} (hlp : lp < numPages capacity) :
    (run eventNext (construct capacity) events).prefersHot lp = true ↔
      4 ≤ (runWork capacity events).countP (Work.writes lp) % 2 ^ 32 := by
  have hledger := run_ledger capacity events
  rw [prefersHot, Bool.and_eq_true, decide_eq_true_iff, decide_eq_true_iff, hledger.pageCount,
    and_iff_right hlp, BitVec.le_def, run_hotCounter capacity events hlp]
  rfl

theorem runWork_append (capacity : ℕ) (events more : List Event) :
    ∃ ws, runWork capacity (events ++ more) = runWork capacity events ++ ws := by
  rw [runWork, cycles_append, List.flatMap_append]
  exact ⟨_, rfl⟩

/-- **The arithmetic of hot and cold.**
* After every run, the hot counter of a logical page is the number of its page writes capped at
  `2^32 - 1` exactly when that number is below `2^32`, or `2^32 - 1` modulo `2^32`.
* A logical page that is hot stays hot for as long as it has been written less than `2^32` times.
* In every state, the weight of a block is exact exactly when it fits an `int`; where the weights of all
  blocks do, the block that `RunGC` picks has the least weight of all. -/
theorem hot_counters_exact_iff {capacity lp : ℕ} (hlp : lp < numPages capacity)
    (events more : List Event) (c : FTJController) :
    (let n := (runWork capacity events).countP (Work.writes lp)
    ((run eventNext (construct capacity) events).lbaHotCounters lp).toNat = min n (2 ^ 32 - 1) ↔
      n < 2 ^ 32 ∨ n % 2 ^ 32 = 2 ^ 32 - 1) ∧
    ((runWork capacity (events ++ more)).countP (Work.writes lp) < 2 ^ 32 →
      (run eventNext (construct capacity) events).prefersHot lp = true →
      (run eventNext (construct capacity) (events ++ more)).prefersHot lp = true) ∧
    (∀ b, c.victimMetric b = c.exactWeight b ↔ FitsInt (c.exactWeight b)) ∧
    ((∀ b < c.numBlocks, FitsInt (c.exactWeight b)) →
      ∀ b, c.selectVictim = some b → ∀ b' < c.numBlocks, c.exactWeight b ≤ c.exactWeight b') := by
  refine ⟨?_, fun hfew hhot => ?_, fun b => ?_, fun hfits b hb => victim_least hfits hb⟩
  · intro n
    rw [run_hotCounter capacity events hlp]
    omega
  · rw [run_prefersHot _ _ hlp] at hhot ⊢
    obtain ⟨ws, hws⟩ := runWork_append capacity events more
    rw [hws, List.countP_append] at hfew ⊢
    omega
  · rw [victimMetric_eq]
    exact int32_eq_self_iff _

/-- Writes that share a page, on a new drive. -/
theorem hot_counters_exact_iff_sixty_pages :
    let events := [Event.call (.write writeFirst), .call (.write ⟨4000, some fun _ => 7, 6000⟩),
      .call (.write writeFirst), .call (.write writeFirst)]
    let c := run eventNext (construct sixtyPages) (events ++ events)
    let n := (runWork sixtyPages events).countP (Work.writes 0)
    (((run eventNext (construct sixtyPages) events).lbaHotCounters 0).toNat = min n (2 ^ 32 - 1) ↔
        n < 2 ^ 32 ∨ n % 2 ^ 32 = 2 ^ 32 - 1) ∧
      c.prefersHot 0 = true ∧
      (c.victimMetric 0 = c.exactWeight 0 ↔ FitsInt (c.exactWeight 0)) ∧
      ∀ b' < c.numBlocks, c.exactWeight 0 ≤ c.exactWeight b' := by
  intro events c n
  have hlp : 0 < numPages sixtyPages := by decide
  obtain ⟨hcounter, hhot, hweight, hvictim⟩ := hot_counters_exact_iff hlp events events c
  exact ⟨hcounter, hhot (by decide +kernel) (by decide +kernel), hweight 0,
    hvictim (by decide +kernel) 0 (by decide +kernel)⟩

/-! ### Past the bounds -/

theorem countP_writes_gc {ws : List Work} (h : ∀ w ∈ ws, w.isGcProgram = true) (lp : ℕ) :
    ws.countP (Work.writes lp) = 0 := by
  refine List.countP_eq_zero.mpr fun w hw => ?_
  have hgc := h w hw
  cases w with
  | gcProgram q => exact Bool.false_ne_true
  | _ => cases hgc

/-- The page loop of a write that keeps to one page has one round. -/
theorem loopWork_one_page (c : FTJController) {startByte endByte : ℕ} (src : ℕ → Byte)
    (hlt : startByte < endByte) (hpage : endByte - startByte ≤ pageSize - startByte % pageSize)
    (written : ℕ) : (c.loopWork src startByte endByte written).countP
      (Work.writes (startByte / pageSize)) = 1 := by
  have hgc := claimWork_gc (c.heat (startByte / pageSize))
    ((c.heat (startByte / pageSize)).prefersHot (startByte / pageSize))
  cases hclaim : (c.heat (startByte / pageSize)).claimPage
      ((c.heat (startByte / pageSize)).prefersHot (startByte / pageSize)) with
  | mk q c' =>
    have hwrites : (Work.pageWrite (startByte / pageSize)).writes (startByte / pageSize) = true :=
      beq_self_eq_true _
    rw [loopWork_round hlt hclaim, min_eq_left hpage, List.countP_cons_of_pos hwrites,
      List.countP_append, countP_writes_gc hgc]
    split_ifs
    · rfl
    · -- the loop has reached the end
      rw [loopWork, if_neg (by omega)]
      rfl

/-- A write that keeps to one page is one write of that page, whether it succeeds or not. -/
theorem writeWork_one_page (c : FTJController) {offset size : ℕ} (src : ℕ → Byte) (hsize : 0 < size)
    (hin : offset + size ≤ c.capacity) (hpage : offset % pageSize + size ≤ pageSize) :
    (c.writeWork offset (some src) size).countP (Work.writes (offset / pageSize)) = 1 := by
  have hrange : ¬ (size > c.capacity ∨ offset > c.capacity - size) := by omega
  have hlt : offset < offset + size := by omega
  have hloop := loopWork_one_page c src hlt (by omega) 0
  simp only [writeWork, if_neg hrange]
  rw [List.countP_append, hloop]
  cases c.writeLoop src offset (offset + size) 0 with
  | mk ok c' =>
    cases ok with
    | false => rfl
    | true =>
      simp only
      split_ifs
      · rw [countP_writes_gc (gcWork_gc _ _)]
      · rfl

/-- Writing the same page over and over counts. -/
theorem replicate_writes {capacity offset size : ℕ} (src : ℕ → Byte) (hsize : 0 < size)
    (hin : offset + size ≤ capacity) (hpage : offset % pageSize + size ≤ pageSize) (n : ℕ) :
    let events := List.replicate n (Event.call (.write ⟨offset, some src, size⟩))
    (run eventNext (construct capacity) events).capacity = capacity ∧
      (runWork capacity events).countP (Work.writes (offset / pageSize)) = n := by
  induction n with
  | zero => exact ⟨rfl, rfl⟩
  | succ n ih =>
    simp only at ih ⊢
    rw [List.replicate_succ', run_snoc, runWork_snoc, List.countP_append, ih.2]
    generalize run eventNext (construct capacity) _ = c at ih ⊢
    obtain ⟨hcap, -⟩ := ih
    have hone := writeWork_one_page c src hsize (hcap.symm ▸ hin) hpage
    have hnext := congrArg Prod.fst (writeNext_geometry c ⟨offset, some src, size⟩)
    exact ⟨hnext.trans hcap, congrArg (n + ·) hone⟩

/-- The counter of page 0 after so many writes of one byte. -/
theorem replicate_writeFirst (n : ℕ) :
    let events := List.replicate n (Event.call (.write writeFirst))
    (runWork sixtyPages events).countP (Work.writes 0) = n ∧
      ((run eventNext (construct sixtyPages) events).lbaHotCounters 0).toNat = n % 2 ^ 32 ∧
      ((run eventNext (construct sixtyPages) events).prefersHot 0 = true ↔ 4 ≤ n % 2 ^ 32) := by
  intro events
  have hin : 0 + 1 ≤ sixtyPages := by decide
  have hpage : 0 % pageSize + 1 ≤ pageSize := by decide
  have hlp : 0 < numPages sixtyPages := by decide
  have hcount : (runWork sixtyPages events).countP (Work.writes 0) = n :=
    (replicate_writes (fun _ => 0) Nat.one_pos hin hpage n).2
  refine ⟨hcount, ?_, ?_⟩
  · rw [run_hotCounter sixtyPages events hlp, hcount]
  · rw [run_prefersHot sixtyPages events hlp, hcount]

/-- A drive of two blocks whose first page is owned by a logical page written `2^31` times. -/
def scorched : FTJController :=
  { construct twoBlocks with
    physOwnerLba := Function.update (fun _ => -1) 0 0
    lbaHotCounters := Function.update (fun _ => 0) 0 (2 ^ 31) }

/-- **Past the bounds.**  After `2^32` writes of one byte the counter of the page is 0, and the page
counts as cold; and a block whose weight is `2^31` is picked before one of weight 0. -/
theorem hot_counters_inexact :
    (let events := List.replicate (2 ^ 32) (Event.call (.write writeFirst))
    (runWork sixtyPages events).countP (Work.writes 0) = 2 ^ 32 ∧
      ((run eventNext (construct sixtyPages) events).lbaHotCounters 0).toNat = 0 ∧
      (run eventNext (construct sixtyPages) events).prefersHot 0 = false) ∧
    (scorched.selectVictim = some 0 ∧ scorched.exactWeight 0 = 2 ^ 31 ∧
      scorched.exactWeight 1 = 0) := by
  refine ⟨?_, by decide +kernel⟩
  obtain ⟨hcount, hcounter, hhot⟩ := replicate_writeFirst (2 ^ 32)
  refine ⟨hcount, hcounter, ?_⟩
  rw [← Bool.not_eq_true, hhot]
  decide

end FTJController

end FtjSsdSim.Engine
