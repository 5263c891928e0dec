import Mathlib
import FtjSsdSim.Library.Loop
import FtjSsdSim.Library.Machine
import FtjSsdSim.Library.Tally
import FtjSsdSim.Engine.DriveCalls
import FtjSsdSim.Engine.Renewal

/-!
# The count of valid pages

`block_valid_count_` is to hold the number of valid pages of every block.  Mapping a page and
invalidating one keep this (`Counts.mapPage`, `Counts.invalidatePage`), and so do a move and a store,
which do both.  A collection sets the count of its block to 0 in the end, also where valid pages were
left behind for want of free ones: `EraseWhole` says that this does not come up.

* `valid_counts_of_whole` — the counts are right after any calls whose erase loops are whole;
* `valid_counts_reset` — and wrong on a drive of two pages once both are written.
-/

namespace FtjSsdSim.Engine

open FtjSsdSim.Library

namespace FTJController

variable {capacity endByte : ℕ} {c : FTJController}

/-- The number of valid pages of block `b`. -/
def validPages (c : FTJController) (b : ℕ) : ℕ := tally c.pageCount c.physBlock c.physValid (b : ℤ)

/-- Every block's count is the number of its valid pages. -/
def Counts (c : FTJController) : Prop := ∀ b : ℕ, c.blockValidCount b = c.validPages b

/-! ### One page -/

/-- Mapping a page that was not valid counts it. -/
theorem Counts.mapPage (h : c.Counts) (hsmall : c.pageCount < 2 ^ 31) {q bq : ℕ}
    (hq : q < c.pageCount) (hvalid : c.physValid q = false) (hblock : c.physBlock q = bq) (lp : ℕ)
    (owner : ℤ) : (c.mapPage lp q owner).Counts := by
  intro b
  show Function.update c.blockValidCount (c.physBlock q).toNat
      (int32 (c.blockValidCount (c.physBlock q).toNat + 1)) b =
    tally c.pageCount c.physBlock (Function.update c.physValid q true) (b : ℤ)
  rw [hblock, Int.toNat_natCast]
  by_cases hb : b = bq
  · have hset := tally_set c.physBlock hq hvalid
    have hle := tally_le c.pageCount c.physBlock (Function.update c.physValid q true) (bq : ℤ)
    rw [hblock] at hset
    rw [hb, Function.update_self, h bq, validPages, hset, ← Nat.cast_succ, int32_natCast]
    omega
  · have hne : c.physBlock q ≠ b := by omega
    rw [Function.update_of_ne hb, tally_update_of_ne hne]
    exact h b

/-- Invalidating a valid page takes it off, and the clamp at zero does not come into play. -/
theorem Counts.invalidatePage (h : c.Counts) {p bp : ℕ} (hp : p < c.pageCount)
    (hvalid : c.physValid p = true) (hblock : c.physBlock p = bp) :
    (c.invalidatePage p).Counts := by
  intro b
  show Function.update c.blockValidCount (c.physBlock p).toNat
      (max 0 (c.blockValidCount (c.physBlock p).toNat - 1)) b =
    tally c.pageCount c.physBlock (Function.update c.physValid p false) (b : ℤ)
  rw [hblock, Int.toNat_natCast]
  by_cases hb : b = bp
  · have hclear := tally_clear c.physBlock hp hvalid
    rw [hblock] at hclear
    rw [hb, Function.update_self, h bp, validPages, ← hclear]
    omega
  · have hne : c.physBlock p ≠ b := by omega
    rw [Function.update_of_ne hb, tally_update_of_ne hne]
    exact h b

/-! ### Consistent and counted -/

/-- A consistent controller of a drive of that capacity whose counts are right. -/
structure Accounted (capacity : ℕ) (c : FTJController) : Prop where
  capacity_eq : c.capacity = capacity
  consistent : c.Consistent
  blocks : c.physBlock = blockOf
  counts : c.Counts

theorem blockOf_natCast {p : ℕ} (hp : p < 2 ^ 31) : blockOf p = (p / pagesPerBlock : ℕ) :=
  int32_natCast ((Nat.div_le_self ..).trans_lt hp)

theorem Accounted.block (h : Accounted capacity c) {p : ℕ} (hp : p < c.pageCount) :
    c.physBlock p = (p / pagesPerBlock : ℕ) := by
  rw [h.blocks]
  exact blockOf_natCast (hp.trans h.consistent.small)

/-- Neither the data nor the hot counters matter. -/
theorem Accounted.congr {c' : FTJController} (h : Accounted capacity c) (s : SameTables c c')
    (hblocks : c'.physBlock = c.physBlock) (hcounts : c'.blockValidCount = c.blockValidCount) :
    Accounted capacity c' where
  capacity_eq := s.capacity.trans h.capacity_eq
  consistent := h.consistent.of_same s
  blocks := hblocks.trans h.blocks
  counts b := by
    rw [hcounts, validPages, s.pageCount, hblocks, s.physValid]
    exact h.counts b

theorem Accounted.allocate (h : Accounted capacity c) (preferHot : Bool) {q : ℤ}
    {c' : FTJController} (heq : c.allocatePhysicalPage preferHot = (q, c')) :
    (q < 0 → Accounted capacity c') ∧ (0 ≤ q → Accounted capacity c' ∧ c'.Fresh q.toNat) := by
  rcases (show c.Represents c.pageMap.view from ⟨h.consistent, rfl⟩).allocate preferHot with
    ⟨hnone, -⟩ | ⟨p, hot, cold, hsome, hrep, hfresh⟩
  · obtain ⟨rfl, rfl⟩ : q = -1 ∧ c' = c := by simpa using heq.symm.trans hnone
    exact ⟨fun _ => h, fun hq => absurd hq (by decide)⟩
  · obtain ⟨rfl, rfl⟩ : q = p ∧ c' = c.withFree hot cold := by simpa using heq.symm.trans hsome
    exact ⟨fun hq => absurd hq (by omega),
      fun _ => ⟨⟨h.capacity_eq, hrep.consistent, h.blocks, h.counts⟩, hfresh⟩⟩

/-- Moving a page counts it at its new place instead of the old one. -/
theorem Accounted.relocatePage (h : Accounted capacity c) {p : ℕ} (hp : p < c.pageCount) :
    Accounted capacity (c.relocatePage p) := by
  have hconsistent := (relocatePage_represents ⟨h.consistent, rfl⟩ hp).consistent
  rcases h.consistent.coherent.relocatePage_cases hp with
    heq | ⟨lp, q, hot, cold, -, hvalid, -, hne, -, hfresh, heq⟩
  · rwa [heq]
  · rw [heq] at hconsistent ⊢
    refine ⟨h.capacity_eq, hconsistent, h.blocks, ?_⟩
    have hcopy : ((c.withFree hot cold).copyPage q p).Counts := h.counts
    have hmap := hcopy.mapPage h.consistent.small hfresh.lt hfresh.invalid
      (h.block (p := q) hfresh.lt) lp lp
    exact hmap.invalidatePage hp ((Function.update_of_ne hne ..).trans hvalid) (h.block hp)

/-- Storing counts the new page, and takes off the one that was mapped before. -/
theorem Accounted.storePage (h : Accounted capacity c) {lp q d n : ℕ} (hlp : lp < c.pageCount)
    (hq : c.Fresh q) (hd : d + n ≤ pageSize) (src : ℕ → Byte) (s : ℕ) :
    Accounted capacity (c.storePage lp q d src s n) := by
  have hrep : c.Represents c.pageMap.view := ⟨h.consistent, rfl⟩
  have hremapped := storePage_remapped hrep s src hlp hq hd
  have hconsistent := (hremapped.represents hrep hq hlp).consistent
  have hmap := h.counts.mapPage h.consistent.small hq.lt hq.invalid (h.block hq.lt) lp (int32 lp)
  have hremap : (c.remap lp q).Counts := by
    rw [remap]
    split_ifs with hold
    · rcases h.consistent.range lp hlp with hnone | ⟨p, hp, hmapped⟩
      · rw [oldPage, if_pos hlp, hnone] at hold
        exact absurd hold (by decide)
      · have hne := h.consistent.coherent.tables.mapped_ne_fresh hlp hmapped hq
        have hvalid := ((h.consistent.agree lp hlp p hp).mp hmapped).1
        rw [oldPage, if_pos hlp, hmapped, Int.toNat_natCast]
        exact hmap.invalidatePage hp ((Function.update_of_ne hne ..).trans hvalid) (h.block hp)
    · exact hmap
  obtain ⟨_, _, _, _, heq⟩ := storePage_eq c lp q d src s n
  rw [heq] at hconsistent ⊢
  refine ⟨?_, hconsistent, ?_, hremap⟩
  · show (c.remap lp q).capacity = capacity
    rw [remap]
    split_ifs <;> exact h.capacity_eq
  · show (c.remap lp q).physBlock = blockOf
    rw [remap]
    split_ifs <;> exact h.blocks

/-! ### Collections -/

/-- The erase loop about to run on block `e.2` of `e.1` meets no page that is valid still and none that is
on a free list already. -/
def EraseWhole (e : FTJController × ℕ) : Prop :=
  ∀ p, blockStart e.2 ≤ p → p < e.1.blockEnd e.2 →
    e.1.physValid p = false ∧ (p : ℤ) ∉ e.1.freePages

instance (e : FTJController × ℕ) : Decidable (EraseWhole e) :=
  inferInstanceAs (Decidable (∀ p, _ ≤ p → p < _ → _))

theorem EraseWhole.clean {e : FTJController × ℕ} (h : EraseWhole e) : EraseClean e :=
  fun p hlo hhi _ => (h p hlo hhi).2

theorem EraseWhole.of_same {e e' : FTJController} (b : ℕ) (h : SameBut e e')
    (hwhole : EraseWhole (e, b)) : EraseWhole (e', b) := by
  obtain ⟨d, rfl⟩ := h
  exact hwhole

/-- What the erase loop leaves alone: all but the owners and the free lists. -/
theorem eraseBlock_frame (c : FTJController) (b : ℕ) :
    ∃ owner hot cold, c.eraseBlock b = { c with
      physOwnerLba := owner
      freePhysicalPagesHot := hot
      freePhysicalPagesCold := cold } := by
  refine forLoop_preserves (P := fun c' => ∃ owner hot cold, c' = { c with
    physOwnerLba := owner
    freePhysicalPagesHot := hot
    freePhysicalPagesCold := cold })
    ⟨c.physOwnerLba, c.freePhysicalPagesHot, c.freePhysicalPagesCold, rfl⟩ ?_
  intro p t _ _ ht
  obtain ⟨owner, hot, cold, rfl⟩ := ht
  rcases erasePage_cases ({ c with
    physOwnerLba := owner
    freePhysicalPagesHot := hot
    freePhysicalPagesCold := cold }) p with ⟨-, heq⟩ | ⟨-, hot', cold', heq, -⟩
  · exact ⟨owner, hot, cold, heq⟩
  · exact ⟨_, hot', cold', heq⟩

theorem Accounted.moveValidPages (h : Accounted capacity c) (b : ℕ) :
    Accounted capacity (c.moveValidPages b) := by
  have hinv : Accounted capacity (c.moveValidPages b) ∧
      (c.moveValidPages b).pageCount = c.pageCount := by
    refine forLoop_preserves (P := fun c' : FTJController => Accounted capacity c' ∧
      c'.pageCount = c.pageCount) ⟨h, rfl⟩ ?_
    intro p t _ hp ht
    have hlt : p < t.pageCount := ht.2 ▸ hp.trans_le (min_le_left ..)
    exact ⟨ht.1.relocatePage hlt, (relocatePage_pageCount t p).trans ht.2⟩
  exact hinv.1

/-- **A collection** keeps the counts, if it leaves no valid page in the block. -/
theorem Accounted.collectBlock (h : Accounted capacity c) {b : ℕ}
    (hwhole : EraseWhole (c.moveValidPages b, b)) : Accounted capacity (c.collectBlock b) := by
  have hmoved := h.moveValidPages b
  have hconsistent := (collectBlock_represents ⟨h.consistent, rfl⟩ hwhole.clean).consistent
  obtain ⟨owner, hot, cold, heq⟩ := eraseBlock_frame (c.moveValidPages b) b
  rw [FTJController.collectBlock, heq] at hconsistent ⊢
  generalize c.moveValidPages b = m at hwhole hmoved hconsistent ⊢
  refine ⟨hmoved.capacity_eq, hconsistent, hmoved.blocks, fun b' => ?_⟩
  show Function.update m.blockValidCount b 0 b' = m.validPages b'
  by_cases hb : b' = b
  · -- no page of the block is valid any more
    have hzero : m.validPages b = 0 := by
      refine tally_eq_zero fun p hp hblock => ?_
      rw [hmoved.block hp] at hblock
      refine (hwhole p ?_ ?_).1
      · simp only [blockStart, pagesPerBlock] at hblock ⊢
        omega
      · simp only [blockEnd, pagesPerBlock] at hblock ⊢
        omega
    rw [hb, Function.update_self, hzero, Nat.cast_zero]
  · rw [Function.update_of_ne hb]
    exact hmoved.counts b'

/-- Every step of a write keeps the account, if its erase loops are whole. -/
theorem accounted_rule (hend : endByte ≤ capacity) :
    WriteRule endByte EraseWhole (Accounted capacity)
      fun q c => Accounted capacity c ∧ c.Fresh q where
  heat c lp h := by
    refine h.congr (heat_same c lp).1 ?_ ?_
    all_goals
      rw [heat]
      split_ifs <;> rfl
  allocate c preferHot q c' h heq := h.allocate preferHot heq
  collect c b h hwhole := h.collectBlock hwhole
  store c lp q d src s n hlp hd hclaimed := by
    have hpages := hclaimed.1.consistent.capacity_eq
    rw [hclaimed.1.capacity_eq] at hpages
    refine hclaimed.1.storePage ?_ hclaimed.2 hd src s
    exact Nat.lt_of_mul_lt_mul_right (hlp.trans_le (hend.trans_eq hpages))
  countWrite c h := h.congr ⟨rfl, rfl, rfl, rfl, rfl, rfl⟩ rfl rfl

/-! ### Runs -/

/-- What can happen to a drive: a call, retention drift, or another physics configuration. -/
inductive Event where
  | call (call : Call)
  | simulateRetentionDrift (drifts : ℕ → Bool) (seed : Word)
  | setPhysicsConfig (config : CrossbarPhysicsConfig)

/-- The controller after an event. -/
def eventNext (c : FTJController) : Event → FTJController
  | .call call => c.callNext call
  | .simulateRetentionDrift drifts seed => (simulateRetentionDrift drifts c seed).2
  | .setPhysicsConfig config => c.setPhysicsConfig config

/-- The erase loops that an event runs. -/
def eventErases (c : FTJController) : Event → List (FTJController × ℕ)
  | .call (.write w) => c.writeErases w.offset w.src w.size
  | _ => []

/-- Every erase loop of the event is whole. -/
def WholeErases (x : FTJController × Event) : Prop := ∀ e ∈ x.1.eventErases x.2, EraseWhole e

instance (x : FTJController × Event) : Decidable (WholeErases x) :=
  inferInstanceAs (Decidable (∀ _ ∈ _, _))

/-- Only writes run erase loops. -/
theorem eventErases_of_not_write (c : FTJController) {event : Event}
    (h : ∀ w, event ≠ .call (.write w)) : c.eventErases event = [] := by
  cases event with
  | call call =>
    cases call with
    | write w => exact absurd rfl (h w)
    | _ => rfl
  | _ => rfl

/-- The erase loops of a run are those of its two writes, if it begins with them and no other follows. -/
theorem erases_of_two_writes {c : FTJController} {w w' : WriteCall} (rest : List Event)
    {E : FTJController × ℕ → Prop} (h : ∀ e ∈ c.writeErases w.offset w.src w.size, E e)
    (h' : ∀ e ∈ (c.writeNext w).writeErases w'.offset w'.src w'.size, E e)
    (hrest : ∀ event ∈ rest, ∀ w, event ≠ .call (.write w)) :
    ∀ x ∈ cycles eventNext c ([.call (.write w), .call (.write w')] ++ rest),
      ∀ e ∈ x.1.eventErases x.2, E e := by
  have hothers : ∀ (c : FTJController), ∀ x ∈ cycles eventNext c rest,
      ∀ e ∈ x.1.eventErases x.2, E e := by
    induction rest with
    | nil => exact fun _ _ hx => absurd hx List.not_mem_nil
    | cons event rest ih =>
      rw [List.forall_mem_cons] at hrest
      refine fun c => List.forall_mem_cons.mpr ⟨fun e he => ?_, ih hrest.2 _⟩
      rw [eventErases_of_not_write _ hrest.1] at he
      exact absurd he List.not_mem_nil
  exact List.forall_mem_cons.mpr ⟨h, List.forall_mem_cons.mpr ⟨h', hothers _⟩⟩

theorem run_two_events (c : FTJController) (w w' : WriteCall) :
    run eventNext c [.call (.write w), .call (.write w')] = (c.writeNext w).writeNext w' := rfl

/-- Drift only changes the data and the number of flipped bits. -/
theorem simulateRetentionDrift_eq (drifts : ℕ → Bool) (c : FTJController) (seed : Word) :
    ∃ memory flips, (simulateRetentionDrift drifts c seed).2 =
      { c with memoryBuffer := memory, totalBitFlips := flips } := by
  refine forLoop_preserves (P := fun r : Word × FTJController => ∃ memory flips,
    r.2 = { c with memoryBuffer := memory, totalBitFlips := flips }) ⟨_, _, rfl⟩ ?_
  intro p r _ _ hr
  obtain ⟨seed, c'⟩ := r
  obtain ⟨memory, flips, rfl⟩ : ∃ memory flips,
    c' = { c with memoryBuffer := memory, totalBitFlips := flips } := hr
  simp only
  split_ifs <;> exact ⟨_, _, rfl⟩

/-- An event other than a write touches no table, no free list and no hot counter. -/
theorem eventNext_cases (c : FTJController) (event : Event) :
    (∃ w, event = .call (.write w)) ∨
      ∃ memory writes disturbs config reads corrected uncorrectable flips,
        c.eventNext event = { c with
          memoryBuffer := memory
          pageWrites := writes
          pageDisturbs := disturbs
          physicsCfg := config
          totalReads := reads
          correctedErrors := corrected
          uncorrectableErrors := uncorrectable
          totalBitFlips := flips } := by
  cases event with
  | call call =>
    rcases c.callNext_cases call with ⟨w, rfl⟩ | ⟨_, _, _, _, _, _, heq⟩
    · exact .inl ⟨w, rfl⟩
    · exact .inr ⟨_, _, _, _, _, _, _, _, heq⟩
  | simulateRetentionDrift drifts seed =>
    obtain ⟨_, _, heq⟩ := simulateRetentionDrift_eq drifts c seed
    exact .inr ⟨_, _, _, _, _, _, _, _, heq⟩
  | setPhysicsConfig config => exact .inr ⟨_, _, _, config, _, _, _, _, rfl⟩

theorem construct_accounted (hcap : Admitted capacity) (hsmall : capacity / pageSize < 2 ^ 31) :
    Accounted capacity (construct capacity) := by
  refine ⟨rfl, (construct_represents hcap hsmall).consistent, by rw [construct], fun b => ?_⟩
  have hvalid : (construct capacity).physValid = fun _ => false := by rw [construct]
  have hcount : (construct capacity).blockValidCount = fun _ => 0 := by rw [construct]
  have hzero : (construct capacity).validPages b = 0 := by
    rw [validPages, hvalid]
    exact tally_eq_zero fun _ _ _ => rfl
  rw [hzero, hcount]
  rfl

/-- **One event.** -/
theorem Accounted.eventNext (h : Accounted capacity c) (event : Event)
    (hwhole : WholeErases (c, event)) : Accounted capacity (c.eventNext event) := by
  rcases c.eventNext_cases event with ⟨w, rfl⟩ | ⟨_, _, _, _, _, _, _, _, heq⟩
  · refine WriteRule.write (fun endByte hend => accounted_rule ?_) h w hwhole
    rwa [← h.capacity_eq]
  · rw [heq]
    exact h.congr ⟨rfl, rfl, rfl, rfl, rfl, rfl⟩ rfl rfl

/-- **The counts after a run.**  For every admitted capacity below `2^31` pages, in every state reached by
events whose erase loops are all whole, the count of every block is the number of its valid pages. -/
theorem valid_counts_of_whole (hcap : Admitted capacity) (hsmall : capacity / pageSize < 2 ^ 31)
    (events : List Event)
    (hwhole : ∀ x ∈ cycles eventNext (construct capacity) events, WholeErases x) :
    let c := run eventNext (construct capacity) events
    ∀ b : ℕ, c.blockValidCount b = c.validPages b := by
  have h := run_invariant (P := WholeErases) (I := Accounted capacity)
    (construct_accounted hcap hsmall) (fun c event h => h.eventNext event) events hwhole
  exact h.counts

/-- On a drive of two blocks the second write ends with a collection that moves 24 pages and erases a
block; wear, drift and a refresh follow. -/
theorem valid_counts_of_whole_two_blocks :
    let writes : List Event := [.call (.write writeBlock), .call (.write rewrite)]
    let c := run eventNext (construct twoBlocks) (writes ++ [.call (.injectHeavyWear 0 60000),
      .simulateRetentionDrift (fun r => r < 800) 1,
      .setPhysicsConfig { halfSelectDisturbThreshold := 1 }, .call .triggerAutonomousRefresh])
    (run eventNext (construct twoBlocks) writes).freePhysicalPagesCold.length = 256 ∧
      ∀ b : ℕ, c.blockValidCount b = c.validPages b := by
  refine ⟨by rw [run_two_events, rewrite_frees],
    valid_counts_of_whole twoBlocks_admitted (by decide) _ ?_⟩
  refine erases_of_two_writes _ (fun e he => ?_)
    (rewrite_erases (fun _ _ b => EraseWhole.of_same b) fun e he => (renewed_collection.1 e he).2)
    (by simp)
  rw [writeBlock_erases] at he
  exact absurd he List.not_mem_nil

/-- **A count is reset while pages are valid.**  On a drive of two pages the second write uses the last
free page and collects: neither page can be moved, and the count of their block is set to 0. -/
theorem valid_counts_reset :
    let c := run eventNext (construct (2 * pageSize))
      [.call (.write writeFirst), .call (.write ⟨pageSize, some fun _ => 0, 1⟩)]
    Admitted (2 * pageSize) ∧ c.validPages 0 = 2 ∧ c.blockValidCount 0 = 0 :=
  ⟨⟨by decide, ⟨2, rfl⟩, .inl (by decide)⟩, by decide +kernel, by decide +kernel⟩

end FTJController

end FtjSsdSim.Engine
