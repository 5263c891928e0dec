import Mathlib
import FtjSsdSim.Library.Loop
import FtjSsdSim.Library.Machine
import FtjSsdSim.Engine.BurstCoalescer
import FtjSsdSim.Engine.Provenance
import FtjSsdSim.Engine.WriteRuns

/-!
# The flush loop and the queue depth

`FlushToFTL` scans the staging pages in order and hands the pages in use to the controller until it
has flushed as many as it may.

* `flushUpTo_scanned` — the flush when the scan has reached a staging page: the first pages in use
  are handed over and reset, the others are as they were;
* `occupancy` — the queue depth is the number of pages in use, in every reachable state;
* `keeps_failed_iff` — when a flush keeps the pages whose write failed.
-/

namespace FtjSsdSim.Engine

open FtjSsdSim.Library

namespace BurstCoalescer

variable {β φ : Type*}

/-! ### Pages in use -/

/-- The staging page is in use. -/
def Pending (c : BurstCoalescer β) (i : ℕ) : Prop := (c.staging i).dirty = true

instance (c : BurstCoalescer β) : DecidablePred c.Pending :=
  fun i => inferInstanceAs (Decidable ((c.staging i).dirty = true))

/-- The number of staging pages in use. -/
def pendingCount (c : BurstCoalescer β) : ℕ := Nat.count c.Pending c.depth

/-- The staging pages below `n` that are in use, in the order of the scan. -/
def pendingSlots (c : BurstCoalescer β) (n : ℕ) : List ℕ := (List.range n).filter fun i => c.Pending i

/-- The staging pages that a flush of at most `maxPages` pages hands over. -/
def flushSlots (c : BurstCoalescer β) (maxPages : ℕ) : List ℕ :=
  (c.pendingSlots c.depth).take maxPages

theorem mem_pendingSlots {c : BurstCoalescer β} {i n : ℕ} :
    i ∈ c.pendingSlots n ↔ i < n ∧ c.Pending i := by
  rw [pendingSlots, List.mem_filter, List.mem_range, decide_eq_true_eq]

theorem pendingSlots_nodup (c : BurstCoalescer β) (n : ℕ) : (c.pendingSlots n).Nodup :=
  List.nodup_range.filter _

theorem pendingSlots_succ_of_pending {c : BurstCoalescer β} {n : ℕ} (h : c.Pending n) :
    c.pendingSlots (n + 1) = c.pendingSlots n ++ [n] := by
  simp [pendingSlots, List.range_succ, h]

theorem pendingSlots_succ_of_not {c : BurstCoalescer β} {n : ℕ} (h : ¬ c.Pending n) :
    c.pendingSlots (n + 1) = c.pendingSlots n := by
  simp [pendingSlots, List.range_succ, h]

theorem pendingSlots_length (c : BurstCoalescer β) (n : ℕ) :
    (c.pendingSlots n).length = Nat.count c.Pending n := by
  rw [pendingSlots, Nat.count, List.countP_eq_length_filter]

theorem flushSlots_length (c : BurstCoalescer β) (maxPages : ℕ) :
    (c.flushSlots maxPages).length = min maxPages c.pendingCount := by
  rw [flushSlots, List.length_take, pendingSlots_length, pendingCount]

theorem getPendingPages_eq (c : BurstCoalescer β) : c.getPendingPages = c.pendingCount := by
  rw [getPendingPages]
  refine forLoop_induct (motive := fun i count => count = Nat.count c.Pending i)
    (Nat.zero_le _) (Nat.count_zero _).symm ?_
  intro i count _ _ ih
  rw [Nat.count_succ, ih]
  show ite (c.Pending i) _ _ = _
  split_ifs <;> rfl

theorem pendingCount_le (c : BurstCoalescer β) : c.pendingCount ≤ c.depth := Nat.count_le _

/-- The count depends on the staging pages below the depth only. -/
theorem count_congr {P Q : ℕ → Prop} [DecidablePred P] [DecidablePred Q] {n : ℕ}
    (h : ∀ j < n, Q j ↔ P j) : Nat.count Q n = Nat.count P n :=
  Nat.le_antisymm (Nat.count_mono_left fun j hj => (h j hj).mp)
    (Nat.count_mono_left fun j hj => (h j hj).mpr)

/-- Claiming a page that was not in use is one more page. -/
theorem count_claim {P Q : ℕ → Prop} [DecidablePred P] [DecidablePred Q] {i n : ℕ} (hi : i < n)
    (hP : ¬ P i) (hQ : ∀ j, Q j ↔ P j ∨ j = i) : Nat.count Q n = Nat.count P n + 1 := by
  rw [Nat.count_eq_card_filter_range, Nat.count_eq_card_filter_range]
  have hset : (Finset.range n).filter Q = insert i ((Finset.range n).filter P) := by
    ext j
    simp only [Finset.mem_filter, Finset.mem_range, Finset.mem_insert, hQ]
    constructor
    · rintro ⟨hj, hp | he⟩
      · exact .inr ⟨hj, hp⟩
      · exact .inl he
    · rintro (rfl | ⟨hj, hp⟩)
      · exact ⟨hi, .inr rfl⟩
      · exact ⟨hj, .inl hp⟩
  rw [hset, Finset.card_insert_of_notMem fun hm => hP (Finset.mem_filter.mp hm).2]

/-- Resetting some of the pages in use is as many pages less. -/
theorem count_release {P Q : ℕ → Prop} [DecidablePred P] [DecidablePred Q] {n : ℕ} {l : List ℕ}
    (hl : l.Nodup) (hin : ∀ i ∈ l, i < n ∧ P i) (hQ : ∀ j, Q j ↔ P j ∧ j ∉ l) :
    Nat.count Q n + l.length = Nat.count P n := by
  rw [Nat.count_eq_card_filter_range, Nat.count_eq_card_filter_range,
    ← List.toFinset_card_of_nodup hl]
  have hsub : l.toFinset ⊆ (Finset.range n).filter P := by
    intro j hj
    rw [Finset.mem_filter, Finset.mem_range]
    exact hin j (List.mem_toFinset.mp hj)
  have hset : (Finset.range n).filter Q = (Finset.range n).filter P \ l.toFinset := by
    ext j
    simp only [Finset.mem_filter, Finset.mem_sdiff, List.mem_toFinset, hQ, and_assoc]
  rw [hset, Finset.card_sdiff_add_card_eq_card hsub]

/-- What has been handed over when the scan has reached a staging page was in use. -/
theorem mem_taken {c : BurstCoalescer β} {i k maxPages : ℕ} (hi : i ≤ c.depth)
    (hk : k ∈ (c.pendingSlots i).take maxPages) : k < c.depth ∧ c.Pending k := by
  obtain ⟨hlt, hp⟩ := mem_pendingSlots.mp (List.mem_of_mem_take hk)
  exact ⟨Nat.lt_of_lt_of_le hlt hi, hp⟩

theorem not_mem_taken (c : BurstCoalescer β) (i maxPages : ℕ) :
    i ∉ (c.pendingSlots i).take maxPages := fun hi =>
  Nat.lt_irrefl i (mem_pendingSlots.mp (List.mem_of_mem_take hi)).1

/-- One more staging page is handed over if there is room and it is in use. -/
theorem take_pendingSlots_succ (c : BurstCoalescer β) (maxPages i : ℕ) :
    (c.pendingSlots (i + 1)).take maxPages =
      if ((c.pendingSlots i).take maxPages).length < maxPages ∧ c.Pending i then
        (c.pendingSlots i).take maxPages ++ [i]
      else (c.pendingSlots i).take maxPages := by
  rw [List.length_take]
  by_cases hpending : c.Pending i
  · rw [pendingSlots_succ_of_pending hpending]
    by_cases hroom : (c.pendingSlots i).length < maxPages
    · rw [if_pos ⟨by omega, hpending⟩, List.take_of_length_le (Nat.le_of_lt hroom),
        List.take_of_length_le (by simpa using hroom)]
    · rw [if_neg fun hgo => hroom (by omega), List.take_append_of_le_length (Nat.le_of_not_lt hroom)]
  · rw [pendingSlots_succ_of_not hpending, if_neg fun hgo => hpending hgo.2]

theorem taken_nodup (c : BurstCoalescer β) (i maxPages : ℕ) :
    ((c.pendingSlots i).take maxPages).Nodup :=
  (pendingSlots_nodup c i).sublist (List.take_sublist ..)

/-! ### The scan -/

section

variable [Zero β] (write : φ → ℕ → (ℕ → β) → ℕ → Bool × φ)

/-- The flush when the scan has reached staging page `i`. -/
def flushUpTo (c : BurstCoalescer β) (ftl : φ) (maxPages i : ℕ) : FlushState β φ :=
  forLoop 0 i (flushSlot write maxPages) ⟨c, ftl, 0⟩

/-- The write of one staging page of `c`. -/
def handOver (c : BurstCoalescer β) (ftl : φ) (i : ℕ) : Bool × φ :=
  write ftl (c.staging i).baseLba (c.staging i).data pageSz

/-- A flush of `c` that has handed over the staging pages `slots`. -/
structure Scanned (c : BurstCoalescer β) (ftl : φ) (slots : List ℕ) (st : FlushState β φ) :
    Prop where
  flushed : st.flushed = slots.length
  staging : ∀ k, st.coalescer.staging k =
    if k ∈ slots then CoalescePage.empty β else c.staging k
  depth : st.coalescer.depth = c.depth
  queueDepth : st.coalescer.queueDepth = c.queueDepth - BitVec.ofNat 64 slots.length
  ftl : st.ftl = run (fun ftl k => (handOver write c ftl k).2) ftl slots

variable {write} {c : BurstCoalescer β} {ftl : φ} {slots : List ℕ} {st : FlushState β φ}

/-- **Handing over one more page.** -/
theorem Scanned.handed (h : Scanned write c ftl slots st) {i : ℕ} (hi : i ∉ slots)
    {maxPages : ℕ} (hroom : slots.length < maxPages) (hpending : c.Pending i) :
    Scanned write c ftl (slots ++ [i]) (flushSlot write maxPages i st) := by
  have hslot : st.coalescer.staging i = c.staging i := by rw [h.staging, if_neg hi]
  have hgo : st.flushed < maxPages ∧ (st.coalescer.staging i).dirty = true := by
    rw [h.flushed, hslot]
    exact ⟨hroom, hpending⟩
  rw [flushSlot]
  simp only [if_pos hgo]
  constructor
  case flushed => rw [List.length_append, h.flushed]; rfl
  case staging =>
    intro k
    simp only [resetSlot, countWrite_staging]
    by_cases hk : k = i
    · rw [hk, Function.update_self, if_pos (List.mem_append_right _ (List.mem_singleton_self _))]
    · rw [Function.update_of_ne hk, h.staging]
      simp only [List.mem_append, List.mem_singleton, hk, or_false]
  case depth => exact (countWrite_depth ..).trans h.depth
  case queueDepth =>
    simp only [resetSlot, countWrite_queueDepth, h.queueDepth, List.length_append,
      List.length_singleton]
    bv_omega
  case ftl =>
    rw [run_snoc, ← h.ftl, hslot]
    rfl

/-- A page that is not in use, or that there is no room for. -/
theorem Scanned.skip (h : Scanned write c ftl slots st) {i : ℕ} (hi : i ∉ slots) {maxPages : ℕ}
    (hno : ¬ (slots.length < maxPages ∧ c.Pending i)) :
    Scanned write c ftl slots (flushSlot write maxPages i st) := by
  have hslot : st.coalescer.staging i = c.staging i := by rw [h.staging, if_neg hi]
  have hstay : ¬ (st.flushed < maxPages ∧ (st.coalescer.staging i).dirty = true) := by
    rwa [h.flushed, hslot]
  rw [flushSlot]
  simp only [if_neg hstay]
  exact h

/-- **The scan**: the first pages in use are handed over, in order, as long as there is room. -/
theorem flushUpTo_scanned (c : BurstCoalescer β) (ftl : φ) (maxPages i : ℕ) :
    Scanned write c ftl ((c.pendingSlots i).take maxPages) (flushUpTo write c ftl maxPages i) := by
  refine forLoop_induct (motive := fun i st =>
    Scanned write c ftl ((c.pendingSlots i).take maxPages) st) (Nat.zero_le i) ?base ?step
  case base =>
    refine ⟨?_, fun k => ?_, rfl, ?_, ?_⟩
    all_goals simp [pendingSlots, run]
  case step =>
    intro i st _ _ h
    rw [take_pendingSlots_succ]
    split_ifs with hgo
    · exact h.handed (not_mem_taken c i maxPages) hgo.1 hgo.2
    · exact h.skip (not_mem_taken c i maxPages) hgo

/-- The whole flush. -/
theorem flushToFTL_scanned (c : BurstCoalescer β) (ftl : φ) (maxPages : ℕ) :
    Scanned write c ftl (c.flushSlots maxPages) (flushToFTL write c ftl maxPages) :=
  flushUpTo_scanned c ftl maxPages c.depth

/-- What a flush leaves in use. -/
theorem Scanned.pending (h : Scanned write c ftl slots st) (k : ℕ) :
    st.coalescer.Pending k ↔ c.Pending k ∧ k ∉ slots := by
  rw [Pending, Pending, h.staging]
  split_ifs with hk
  · exact iff_of_false Bool.false_ne_true fun hp => hp.2 hk
  · exact (and_iff_left hk).symm

theorem Scanned.pendingCount (h : Scanned write c ftl slots st) (hnodup : slots.Nodup)
    (hin : ∀ i ∈ slots, i < c.depth ∧ c.Pending i) :
    st.coalescer.pendingCount + slots.length = c.pendingCount := by
  rw [BurstCoalescer.pendingCount, h.depth]
  exact count_release hnodup hin h.pending

end

/-! ### The queue depth -/

/-- A call on the coalescer; a flush goes to whatever controller it is given. -/
inductive Call (β φ : Type*) where
  | push (lbaOffset : ℕ) (src : Option (ℕ → β)) (size : ℕ)
  | flush (ftl : φ) (maxPages : ℕ)
  | reset

/-- A push leaves the coalescer as it is or puts one staging page in use. -/
theorem pushWrite_cases (c : BurstCoalescer β) (lbaOffset : ℕ) (src : Option (ℕ → β)) (size : ℕ) :
    (c.pushWrite lbaOffset src size).2 = c ∨
      (c.pushWrite lbaOffset src size).2.depth = c.depth ∧
        (∀ k, (c.pushWrite lbaOffset src size).2.Pending k ↔ c.Pending k ∨ k = c.pageIdx lbaOffset) ∧
        (c.pushWrite lbaOffset src size).2.queueDepth =
          if c.Pending (c.pageIdx lbaOffset) then c.queueDepth else c.queueDepth + 1 := by
  cases src with
  | none => exact .inl rfl
  | some src =>
    simp only [pushWrite]
    by_cases hsize : size = 0 ∨ size > pageSz
    · rw [if_pos hsize]
      exact .inl rfl
    · rw [if_neg hsize]
      refine .inr ⟨rfl, fun k => ?_, rfl⟩
      rw [Pending]
      simp only
      by_cases hk : k = c.pageIdx lbaOffset
      · rw [hk, Function.update_self]
        exact iff_of_true (claimSlot_dirty ..) (.inr rfl)
      · rw [Function.update_of_ne hk]
        exact (or_iff_left hk).symm

section

variable [Zero β] (write : φ → ℕ → (ℕ → β) → ℕ → Bool × φ)

/-- The coalescer after a call. -/
def callNext (c : BurstCoalescer β) : Call β φ → BurstCoalescer β
  | .push lbaOffset src size => (c.pushWrite lbaOffset src size).2
  | .flush ftl maxPages => (flushToFTL write c ftl maxPages).coalescer
  | .reset => c.reset

end

/-- `queue_depth_` counts the staging pages in use. -/
structure Counted (depth : ℕ) (c : BurstCoalescer β) : Prop where
  depth_eq : c.depth = depth
  queueDepth : c.queueDepth = BitVec.ofNat 64 c.pendingCount

section

variable {depth : ℕ} {c : BurstCoalescer β}

theorem Counted.toNat (h : Counted depth c) (hsize : depth < 2 ^ 64) :
    c.queueDepth.toNat = c.pendingCount := by
  have hle := h.depth_eq ▸ c.pendingCount_le
  rw [h.queueDepth, BitVec.toNat_ofNat, Nat.mod_eq_of_lt (Nat.lt_of_le_of_lt hle hsize)]

/-- **A push** puts at most one more page in use. -/
theorem Counted.push (h : Counted depth c) (hpos : 0 < depth) (lbaOffset : ℕ)
    (src : Option (ℕ → β)) (size : ℕ) : Counted depth (c.pushWrite lbaOffset src size).2 := by
  rcases pushWrite_cases c lbaOffset src size with hsame | ⟨hdepth, hpending, hqueue⟩
  · rwa [hsame]
  · refine ⟨hdepth.trans h.depth_eq, ?_⟩
    rw [hqueue, h.queueDepth, pendingCount, pendingCount, hdepth]
    split_ifs with hp
    · refine congrArg _ (count_congr fun k _ => ?_)
      rw [hpending]
      exact (or_iff_left_of_imp fun hk => hk ▸ hp).symm
    · rw [count_claim (Nat.mod_lt _ (h.depth_eq ▸ hpos)) hp hpending]
      exact (BitVec.ofNat_add ..).symm

variable [Zero β]

theorem construct_counted (depth : ℕ) : Counted depth (construct β depth) := by
  refine ⟨rfl, ?_⟩
  have hnone : (construct β depth).pendingCount = 0 :=
    Nat.count_iff_forall_not.mpr fun _ _ => Bool.false_ne_true
  rw [hnone]
  rfl

theorem Counted.reset (h : Counted depth c) : Counted depth c.reset := by
  have hempty : ∀ i < c.depth, c.reset.staging i = CoalescePage.empty β := by
    refine forLoop_induct
      (motive := fun n (staging : ℕ → CoalescePage β) => ∀ i < n, staging i = CoalescePage.empty β)
      (Nat.zero_le _) (fun i hi => absurd hi (Nat.not_lt_zero i)) ?_
    intro n staging _ _ ih i hi
    by_cases hin : i = n
    · rw [hin, Function.update_self]
    · rw [Function.update_of_ne hin]
      exact ih i (by omega)
  refine ⟨h.depth_eq, ?_⟩
  have hnone : c.reset.pendingCount = 0 := by
    refine Nat.count_iff_forall_not.mpr fun i hi => ?_
    rw [Pending, hempty i hi]
    exact Bool.false_ne_true
  rw [hnone]
  rfl

variable {write : φ → ℕ → (ℕ → β) → ℕ → Bool × φ}

/-- **A flush**, wherever its scan has got to. -/
theorem Counted.flushUpTo (h : Counted depth c) (ftl : φ) (maxPages : ℕ) {i : ℕ} (hi : i ≤ depth) :
    Counted depth (flushUpTo write c ftl maxPages i).coalescer := by
  have hscan : Scanned write c ftl _ _ := flushUpTo_scanned c ftl maxPages i
  have hcount := hscan.pendingCount (taken_nodup ..) fun k hk => mem_taken (h.depth_eq ▸ hi) hk
  refine ⟨hscan.depth.trans h.depth_eq, ?_⟩
  rw [hscan.queueDepth, h.queueDepth, ← hcount, BitVec.ofNat_add]
  exact BitVec.add_sub_cancel ..

/-- **One call.** -/
theorem Counted.callNext (h : Counted depth c) (hpos : 0 < depth) (call : Call β φ) :
    Counted depth (callNext write c call) := by
  cases call with
  | push lbaOffset src size => exact h.push hpos lbaOffset src size
  | flush ftl maxPages => exact h.flushUpTo ftl maxPages (Nat.le_of_eq h.depth_eq)
  | reset => exact h.reset

/-- A flush hands over as many pages as it may, or all. -/
theorem flushToFTL_flushed (c : BurstCoalescer β) (ftl : φ) (maxPages : ℕ) :
    (flushToFTL write c ftl maxPages).flushed = min maxPages c.pendingCount :=
  (flushToFTL_scanned c ftl maxPages).flushed.trans (flushSlots_length c maxPages)

theorem flushToFTL_pendingCount (c : BurstCoalescer β) (ftl : φ) (maxPages : ℕ) :
    (flushToFTL write c ftl maxPages).coalescer.pendingCount =
      c.pendingCount - min maxPages c.pendingCount := by
  have hscan : Scanned write c ftl _ _ := flushToFTL_scanned c ftl maxPages
  have h := hscan.pendingCount (taken_nodup ..) fun k hk => mem_taken (Nat.le_refl _) hk
  rw [flushSlots_length] at h
  omega

/-- **Occupancy.**  For every depth and every sequence of pushes, flushes and resets, the queue depth
is the number of staging pages in use; from any state so reached a flush returns the smaller of its
bound and that number, lowers the number by what it returns, and never takes one from a queue depth
of zero. -/
theorem occupancy (hpos : 0 < depth) (hsize : depth < 2 ^ 64) (calls : List (Call β φ)) :
    let c := run (BurstCoalescer.callNext write) (construct β depth) calls
    c.queueDepth.toNat = c.pendingCount ∧ c.getQueueDepth = c.getPendingPages ∧
      c.getPendingPages ≤ depth ∧
      ∀ (ftl : φ) (maxPages : ℕ),
        (flushToFTL write c ftl maxPages).flushed = min maxPages c.pendingCount ∧
        (flushToFTL write c ftl maxPages).coalescer.pendingCount =
          c.pendingCount - min maxPages c.pendingCount ∧
        ∀ i < depth, (BurstCoalescer.flushUpTo write c ftl maxPages i).flushed < maxPages →
          (BurstCoalescer.flushUpTo write c ftl maxPages i).coalescer.Pending i →
          0 < (BurstCoalescer.flushUpTo write c ftl maxPages i).coalescer.queueDepth.toNat := by
  intro c
  have h : Counted depth c := run_invariant (P := fun _ => True) (I := Counted depth)
    (construct_counted depth) (fun _ call hc _ => hc.callNext hpos call) calls fun _ _ => trivial
  refine ⟨h.toNat hsize, ?_, ?_, fun ftl maxPages => ⟨flushToFTL_flushed .., flushToFTL_pendingCount ..,
    fun i hi _ hp => ?_⟩⟩
  · rw [getQueueDepth, h.toNat hsize, getPendingPages_eq]
  · rw [getPendingPages_eq, ← h.depth_eq]
    exact c.pendingCount_le
  · have hst : Counted depth (BurstCoalescer.flushUpTo write c ftl maxPages i).coalescer :=
      h.flushUpTo ftl maxPages (Nat.le_of_lt hi)
    rw [hst.toNat hsize]
    exact Nat.pos_of_ne_zero (Nat.count_ne_iff_exists.mpr ⟨i, hst.depth_eq.symm ▸ hi, hp⟩)

end

/-- Three pushes to two staging pages and a flush of one page leave one page in use. -/
theorem occupancy_one_left :
    let c := run (callNext controllerWrite) (construct Byte defaultDepth)
      [.push 0 (some fun _ => 1) 8, .push 4 (some fun _ => 2) 8, .push 4096 (some fun _ => 3) 1,
        .flush (FTJController.construct FTJController.sixtyPages) 1]
    c.queueDepth.toNat = c.pendingCount ∧ c.getQueueDepth = c.getPendingPages ∧
      c.getPendingPages ≤ defaultDepth ∧
      ∀ (ftl : FTJController) (maxPages : ℕ),
        (flushToFTL controllerWrite c ftl maxPages).flushed = min maxPages c.pendingCount ∧
        (flushToFTL controllerWrite c ftl maxPages).coalescer.pendingCount =
          c.pendingCount - min maxPages c.pendingCount ∧
        ∀ i < defaultDepth, (flushUpTo controllerWrite c ftl maxPages i).flushed < maxPages →
          (flushUpTo controllerWrite c ftl maxPages i).coalescer.Pending i →
          0 < (flushUpTo controllerWrite c ftl maxPages i).coalescer.queueDepth.toNat :=
  occupancy (by decide) (by decide) _

/-! ### Failed writes -/

section

variable [Zero β] (write : φ → ℕ → (ℕ → β) → ℕ → Bool × φ)

/-- What `Write` returns in iteration `i` of a flush, if the iteration calls it. -/
def slotResult (c : BurstCoalescer β) (ftl : φ) (maxPages i : ℕ) : Option Bool :=
  let st := flushUpTo write c ftl maxPages i
  if st.flushed < maxPages ∧ st.coalescer.Pending i then
    some (handOver write st.coalescer st.ftl i).1
  else none

/-- What the writes of a flush return, in order. -/
def flushResults (c : BurstCoalescer β) (ftl : φ) (maxPages : ℕ) : List Bool :=
  (List.range c.depth).filterMap (slotResult write c ftl maxPages)

/-- Every page whose write failed is still staged, and only the other pages are counted. -/
structure KeepsFailed (c : BurstCoalescer β) (ftl : φ) (maxPages : ℕ) : Prop where
  staged : ∀ i < c.depth, slotResult write c ftl maxPages i = some false →
    let pg := (flushToFTL write c ftl maxPages).coalescer.staging i
    pg.dirty = true ∧ pg.baseLba = (c.staging i).baseLba ∧
      ∀ r < pageSz, pg.data r = (c.staging i).data r
  counted : (flushToFTL write c ftl maxPages).flushed =
    (flushResults write c ftl maxPages).count true

variable {write}

/-- The writes of the first iterations are those of the first pages in use, in order. -/
theorem slotResults_eq (c : BurstCoalescer β) (ftl : φ) (maxPages n : ℕ) :
    (List.range n).filterMap (slotResult write c ftl maxPages) =
      (cycles (fun ftl k => (handOver write c ftl k).2) ftl ((c.pendingSlots n).take maxPages)).map
        fun x => (handOver write c x.1 x.2).1 := by
  induction n with
  | zero => simp [pendingSlots, cycles]
  | succ n ih =>
    have hscan : Scanned write c ftl _ _ := flushUpTo_scanned c ftl maxPages n
    have hslot : (flushUpTo write c ftl maxPages n).coalescer.staging n = c.staging n := by
      rw [hscan.staging, if_neg (not_mem_taken c n maxPages)]
    have hresult : slotResult write c ftl maxPages n =
        if ((c.pendingSlots n).take maxPages).length < maxPages ∧ c.Pending n then
          some (handOver write c (run (fun ftl k => (handOver write c ftl k).2) ftl
            ((c.pendingSlots n).take maxPages)) n).1
        else none := by
      simp only [slotResult, Pending, handOver, hscan.flushed, hscan.ftl, hslot]
      rfl
    rw [List.range_succ, List.filterMap_append, ih, take_pendingSlots_succ]
    split_ifs with hgo
    · rw [cycles_append, List.map_append, List.filterMap_cons, hresult, if_pos hgo]
      rfl
    · rw [List.filterMap_cons, hresult, if_neg hgo, List.filterMap_nil, List.append_nil]

/-- A flush keeps what it could not write exactly when there is none. -/
theorem keepsFailed_iff_writes (c : BurstCoalescer β) (ftl : φ) (maxPages : ℕ) :
    KeepsFailed write c ftl maxPages ↔
      ∀ x ∈ cycles (fun ftl k => (handOver write c ftl k).2) ftl (c.flushSlots maxPages),
        (handOver write c x.1 x.2).1 = true := by
  have hresults : flushResults write c ftl maxPages =
      (cycles (fun ftl k => (handOver write c ftl k).2) ftl (c.flushSlots maxPages)).map
        fun x => (handOver write c x.1 x.2).1 := slotResults_eq ..
  have hlength : (flushToFTL write c ftl maxPages).flushed =
      (flushResults write c ftl maxPages).length := by
    rw [(flushToFTL_scanned c ftl maxPages).flushed, hresults, List.length_map, cycles_length]
  have hall : (∀ b ∈ flushResults write c ftl maxPages, true = b) ↔
      ∀ x ∈ cycles (fun ftl k => (handOver write c ftl k).2) ftl (c.flushSlots maxPages),
        (handOver write c x.1 x.2).1 = true := by
    rw [hresults, List.forall_mem_map]
    exact forall₂_congr fun _ _ => eq_comm
  rw [← hall]
  constructor
  · intro h
    have hcount := h.counted
    rw [hlength] at hcount
    exact List.count_eq_length.mp hcount.symm
  · intro h
    refine ⟨fun i hi hfalse => ?_, hlength.trans (List.count_eq_length.mpr h).symm⟩
    exact absurd (h false (List.mem_filterMap.mpr ⟨i, List.mem_range.mpr hi, hfalse⟩))
      Bool.noConfusion

end

/-- The calls of `Write` for the pages a flush hands over. -/
def flushCalls (c : BurstCoalescer Byte) (maxPages : ℕ) : List FTJController.WriteCall :=
  (c.flushSlots maxPages).map fun i => ⟨(c.staging i).baseLba, some (c.staging i).data, pageSz⟩

/-- **When a flush keeps what it could not write.**  A page is reset and counted whatever `Write`
returns, so failed pages are kept and left out of the count exactly when there are none: when the
writes of the first `maxPages` pages in use, made in their order on the controller, all succeed. -/
theorem keeps_failed_iff (c : BurstCoalescer Byte) (ftl : FTJController) (maxPages : ℕ) :
    KeepsFailed controllerWrite c ftl maxPages ↔
      ∀ x ∈ cycles FTJController.writeNext ftl (c.flushCalls maxPages),
        FTJController.writeResult x = true := by
  have hcycles : cycles FTJController.writeNext ftl (c.flushCalls maxPages) =
      (cycles (fun ftl k => (handOver controllerWrite c ftl k).2) ftl (c.flushSlots maxPages)).map
        (Prod.map id fun i => ⟨(c.staging i).baseLba, some (c.staging i).data, pageSz⟩) := by
    have hstep : ∀ (s : FTJController) (i : ℕ),
        FTJController.writeNext (id s) ⟨(c.staging i).baseLba, some (c.staging i).data, pageSz⟩ =
          id (handOver controllerWrite c s i).2 := fun _ _ => rfl
    exact cycles_map hstep ftl (c.flushSlots maxPages)
  rw [keepsFailed_iff_writes, hcycles, List.forall_mem_map]
  rfl

/-- **A failed page is lost.**  A byte is staged for address 8192 of a drive of two pages: the flush
calls `Write`, which returns `false`, and the page is reset and counted. -/
theorem keeps_failed_out_of_range :
    let c := ((construct Byte defaultDepth).pushWrite 8192 (some fun _ => 7) 1).2
    let ftl := FTJController.construct 8192
    slotResult controllerWrite c ftl 64 2 = some false ∧
      (c.staging 2).dirty = true ∧ (c.staging 2).data 0 = 7 ∧
      ((flushToFTL controllerWrite c ftl 64).coalescer.staging 2).dirty = false ∧
      ((flushToFTL controllerWrite c ftl 64).coalescer.staging 2).data 0 = 0 ∧
      (flushToFTL controllerWrite c ftl 64).flushed = 1 ∧
      ¬ KeepsFailed controllerWrite c ftl 64 := by
  intro c ftl
  have hfacts : slotResult controllerWrite c ftl 64 2 = some false ∧
      (c.staging 2).dirty = true ∧ (c.staging 2).data 0 = 7 ∧
      ((flushToFTL controllerWrite c ftl 64).coalescer.staging 2).dirty = false ∧
      ((flushToFTL controllerWrite c ftl 64).coalescer.staging 2).data 0 = 0 ∧
      (flushToFTL controllerWrite c ftl 64).flushed = 1 := by
    decide +kernel
  obtain ⟨hfailed, hdirty, hdata, hreset, hzero, hcount⟩ := hfacts
  refine ⟨hfailed, hdirty, hdata, hreset, hzero, hcount, fun h => ?_⟩
  have hkept := (h.staged 2 (by decide) hfailed).1
  rw [hreset] at hkept
  exact Bool.noConfusion hkept

end BurstCoalescer

end FtjSsdSim.Engine
