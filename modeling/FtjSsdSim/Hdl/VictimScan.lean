import Mathlib
import FtjSsdSim.Library.Loop
import FtjSsdSim.Library.Machine
import FtjSsdSim.Hdl.WearLeveling

/-!
# The two victim scans

`STATE_GC_SELECT` and `STATE_WL_REMAP` search a table of `BLOCKS` entries for its minimum, one entry a
cycle, with the pointer and the minimum so far in registers.  Both are the scan of `forLoop_scanStep`,
one round for each clock edge.

The garbage collection leaves its scan in the cycle of the last comparison and uses the victim in the
next one.  Wear levelling uses it in that same cycle, before the comparison has reached the register:
its victim is the first least-worn block but the last (`wl_remap_least_iff`).
-/

namespace FtjSsdSim.Hdl.TopController

open FtjSsdSim.Library

variable {p : Params}

/-- The number of valid pages of a block. -/
def validCount (m : Memories p) (b : ℕ) : ℕ := (m.gcValidCount (BitVec.ofNat 10 b)).toNat

/-- The number of program/erase cycles of a block. -/
def peCycles (m : Memories p) (b : ℕ) : ℕ := (m.peCycleTable (BitVec.ofNat 10 b)).toNat

/-- One cycle of either scan: pointer, victim and minimum move as in `scanStep`. -/
theorem scan_registers {v w : ℕ} {table : BitVec 10 → BitVec w} {victimOf : BitVec 10 → BitVec v}
    (hof : ∀ a, (victimOf a).toNat = a.toNat) {ptr ptr' : BitVec 10} {victim victim' : BitVec v}
    {best best' : BitVec w} (hin : InRange p ptr)
    (h : (ptr', victim', best') =
      if ptr = 0 then (1, 0, table 0)
      else if InRange p ptr ∧ table ptr < best then (ptr + 1, victimOf ptr, table ptr)
      else (ptr + 1, victim, best)) :
    ptr' = ptr + 1 ∧ (victim'.toNat, best'.toNat) =
      scanStep (fun b => (table (BitVec.ofNat 10 b)).toNat) ptr.toNat (victim.toNat, best.toNat) := by
  by_cases h0 : ptr = 0
  · rw [if_pos h0] at h
    obtain ⟨rfl, rfl, rfl⟩ := h
    subst h0
    refine ⟨rfl, ?_⟩
    rw [scanStep, if_pos (by rfl)]
    exact Prod.ext (by simp) rfl
  · have hne : ptr.toNat ≠ 0 := fun hz => h0 (BitVec.eq_of_toNat_eq hz)
    have hself : BitVec.ofNat 10 ptr.toNat = ptr := by rw [BitVec.ofNat_toNat, BitVec.setWidth_eq]
    rw [if_neg h0] at h
    rw [scanStep, if_neg hne, hself]
    by_cases hlt : table ptr < best
    · rw [if_pos ⟨hin, hlt⟩] at h
      obtain ⟨rfl, rfl, rfl⟩ := h
      rw [if_pos (BitVec.lt_def.mp hlt), hof]
      exact ⟨rfl, rfl⟩
    · rw [if_neg fun hboth => hlt hboth.2] at h
      obtain ⟨rfl, rfl, rfl⟩ := h
      rw [if_neg fun hto => hlt (BitVec.lt_def.mpr hto)]
      exact ⟨rfl, rfl⟩

/-- The pointer of a scan is at the last block, and not at the first, exactly after `BLOCKS - 1`
cycles. -/
theorem scan_ends_iff (h2 : 2 ≤ p.blocks) {ptr : BitVec 10} {k : ℕ} (hptr : ptr.toNat = k) :
    (ptr ≠ 0 ∧ IsLast p ptr) ↔ k + 1 = p.blocks := by
  rw [IsLast, hptr]
  refine ⟨fun h => h.2, fun h => ⟨?_, h⟩⟩
  intro h0
  rw [h0] at hptr
  have hzero : (0 : BitVec 10).toNat = 0 := rfl
  omega

/-! ### The scan of the garbage collection -/

/-- `k` cycles after the scan has been entered in `s₀`. -/
structure GcScanned (s₀ : State p) (k : ℕ) (s : State p) : Prop where
  table : s.gcValidCount = s₀.gcValidCount
  found : (s.gcVictimBlock.toNat, s.minGcCount.toNat) =
    forLoop 0 k (scanStep (validCount s₀.toMemories)) (s₀.gcVictimBlock.toNat, s₀.minGcCount.toNat)
  scanning : k < p.blocks → s.state = .gcSelect ∧ s.gcScanPtr.toNat = k
  left : k = p.blocks → s.state = .gcCopy

theorem GcScanned.step {s₀ s : State p} {k : ℕ} (h : GcScanned s₀ k s) (h2 : 2 ≤ p.blocks)
    (hle : p.blocks ≤ 1024) (hk : k < p.blocks) (i : Input) :
    GcScanned s₀ (k + 1) (TopController.step s i) := by
  obtain ⟨hs, hptr⟩ := h.scanning hk
  have hstate := state_step s i
  have hregs := gcScan_step s i
  simp only [hs] at hregs hstate
  have hin : InRange p s.gcScanPtr := by
    rw [InRange, hptr]
    exact hk
  have hof : ∀ a : BitVec 10, (id a).toNat = a.toNat := fun _ => rfl
  obtain ⟨hnext, hfound⟩ := scan_registers hof hin hregs
  refine ⟨?_, ?_, fun hmore => ?_, fun hend => ?_⟩
  · rw [← h.table]
    simp only [toMemories_step, hs]
  · rw [forLoop_succ (Nat.zero_le k), ← h.found, hfound, hptr, h.table]
    rfl
  · rw [if_neg fun hlast => Nat.ne_of_lt hmore ((scan_ends_iff h2 hptr).mp hlast)] at hstate
    refine ⟨hstate, ?_⟩
    rw [hnext, BitVec.toNat_add, hptr]
    show (k + 1) % 1024 = k + 1
    omega
  · rw [if_pos ((scan_ends_iff h2 hptr).mpr hend)] at hstate
    exact hstate

theorem GcScanned.run {s₀ : State p} (h2 : 2 ≤ p.blocks) (hle : p.blocks ≤ 1024)
    (hs : s₀.state = .gcSelect) (hptr : s₀.gcScanPtr = 0) (is : List Input)
    (hlen : is.length ≤ p.blocks) : GcScanned s₀ is.length (Library.run TopController.step s₀ is) := by
  induction is using List.reverseRecOn with
  | nil =>
    refine ⟨rfl, rfl, fun _ => ⟨hs, ?_⟩, fun h0 => ?_⟩
    · show s₀.gcScanPtr.toNat = 0
      rw [hptr]
      rfl
    · rw [List.length_nil] at h0
      omega
  | append_singleton is i ih =>
    rw [List.length_append, List.length_singleton] at hlen ⊢
    rw [run_snoc]
    exact (ih (by omega)).step h2 hle (by omega) i

/-- Whatever the host does, a collection enters its scan with the pointer at block 0. -/
theorem gcSelect_entered {s : State p} {i : Input} (hbefore : s.state ≠ .gcSelect)
    (hentry : (step s i).state = .gcSelect) : (step s i).gcScanPtr = 0 := by
  rcases gcSelect_step hentry with hs | ⟨hs, hd, hshort⟩
  · exact absurd hs hbefore
  · have hregs := gcScan_step s i
    rw [Short] at hshort
    simp only [hs, hd, hshort, and_self, if_true] at hregs
    exact congrArg Prod.fst hregs

/-- **The collection takes the first block with the fewest valid pages.**  From every entry into the
scan, whatever `gc_valid_count` holds, and for all inputs: the scan takes `BLOCKS` cycles, and then the
victim is the lowest-numbered of the blocks whose count is least. -/
theorem gc_scan_least (h2 : 2 ≤ p.blocks) (hle : p.blocks ≤ 1024) {t : State p} {i : Input}
    (hbefore : t.state ≠ .gcSelect) (hentry : (step t i).state = .gcSelect) (is : List Input) :
    (is.length < p.blocks → (run step (step t i) is).state = .gcSelect) ∧
    (is.length = p.blocks → (run step (step t i) is).state = .gcCopy ∧
      FirstLeast (validCount (step t i).toMemories) p.blocks 256
        (run step (step t i) is).gcVictimBlock.toNat) := by
  have hptr := gcSelect_entered hbefore hentry
  constructor
  · intro hlt
    exact ((GcScanned.run h2 hle hentry hptr is hlt.le).scanning hlt).1
  · intro heq
    have hrun := GcScanned.run h2 hle hentry hptr is heq.le
    refine ⟨hrun.left heq, ?_⟩
    have hbound : ∀ b, validCount (step t i).toMemories b < 256 := fun b => BitVec.isLt _
    have hscan := (forLoop_scanStep hbound (by omega : 0 < is.length)
      ((step t i).gcVictimBlock.toNat, (step t i).minGcCount.toNat)).1
    rw [← hrun.found, heq] at hscan
    exact hscan

/-- A controller of two blocks. -/
def twoBlocks : Params := { defaults with blocks := 2 }

/-- A controller that is short of free blocks. -/
def shortOfBlocks : State twoBlocks :=
  { reset (blank twoBlocks) with
    initDone := true
    freeBlockCount := 0
    gcValidCount := fun b => if b = 0 then 9 else 4 }

theorem gc_scan_least_two :
    (run step (step shortOfBlocks noRequest) [noRequest, noRequest]).state = .gcCopy ∧
      FirstLeast (validCount (step shortOfBlocks noRequest).toMemories) 2 256
        (run step (step shortOfBlocks noRequest) [noRequest, noRequest]).gcVictimBlock.toNat :=
  (gc_scan_least (p := twoBlocks) (by decide) (by decide) (by decide) (by decide)
    [noRequest, noRequest]).2 rfl

/-! ### The scan of wear levelling -/

/-- `k` cycles after the scan has been entered in `s₀`, before its last cycle. -/
structure WlScanned (s₀ : State p) (k : ℕ) (s : State p) : Prop where
  memories : s.toMemories = s₀.toMemories
  hot : s.wlHotBlock = s₀.wlHotBlock
  found : (s.wlColdVictim.toNat, s.minPeCount.toNat) =
    forLoop 0 k (scanStep (peCycles s₀.toMemories)) (s₀.wlColdVictim.toNat, s₀.minPeCount.toNat)
  state : s.state = .wlRemap
  ptr : s.wlScanPtr.toNat = k

theorem WlScanned.step {s₀ s : State p} {k : ℕ} (h : WlScanned s₀ k s) (h2 : 2 ≤ p.blocks)
    (hle : p.blocks ≤ 256) (hk : k + 1 < p.blocks) (i : Input) :
    WlScanned s₀ (k + 1) (TopController.step s i) := by
  have hs := h.state
  have hmore : ¬ (s.wlScanPtr ≠ 0 ∧ IsLast p s.wlScanPtr) :=
    fun hlast => Nat.ne_of_lt hk ((scan_ends_iff h2 h.ptr).mp hlast)
  have hstate := state_step s i
  have hregs := wlScan_step s i
  simp only [hs] at hregs hstate
  have hin : InRange p s.wlScanPtr := by
    rw [InRange, h.ptr]
    omega
  have hof : ∀ a : BitVec 10, (a.setWidth p.addrWidth).toNat = a.toNat := fun a =>
    BitVec.toNat_setWidth_of_le p.ten_le_addrWidth
  obtain ⟨hnext, hfound⟩ := scan_registers hof hin hregs
  refine ⟨?_, ?_, ?_, ?_, ?_⟩
  · rw [← h.memories]
    simp only [toMemories_step, hs, if_neg hmore]
  · have hneeded := needed_step s i
    rw [if_neg (by rw [hs]; decide)] at hneeded
    exact (Prod.mk.inj hneeded).2.trans h.hot
  · rw [forLoop_succ (Nat.zero_le k), ← h.found, hfound, h.ptr, ← h.memories]
    rfl
  · rw [if_neg hmore] at hstate
    exact hstate
  · rw [hnext, BitVec.toNat_add, h.ptr]
    show (k + 1) % 1024 = k + 1
    omega

theorem WlScanned.run {s₀ : State p} (h2 : 2 ≤ p.blocks) (hle : p.blocks ≤ 256)
    (hs : s₀.state = .wlRemap) (hptr : s₀.wlScanPtr = 0) (is : List Input)
    (hlen : is.length < p.blocks) : WlScanned s₀ is.length (Library.run TopController.step s₀ is) := by
  induction is using List.reverseRecOn with
  | nil =>
    refine ⟨rfl, rfl, rfl, hs, ?_⟩
    show s₀.wlScanPtr.toNat = 0
    rw [hptr]
    rfl
  | append_singleton is i ih =>
    rw [List.length_append, List.length_singleton] at hlen ⊢
    rw [run_snoc]
    exact (ih (by omega)).step h2 hle hlen i

/-- Wear levelling enters its scan with the pointer at block 0. -/
theorem wlScanPtr_entered {s : State p} {i : Input} (hbefore : s.state ≠ .wlRemap)
    (hentry : (step s i).state = .wlRemap) : (step s i).wlScanPtr = 0 := by
  rcases wlRemap_entered hentry with ⟨hs, -⟩ | ⟨hs, -⟩
  · have hregs := wlScan_step s i
    simp only [hs, hentry, if_true] at hregs
    exact congrArg Prod.fst hregs
  · exact absurd hs hbefore

/-- **When the rewritten entry is that of the least-worn block.**  From every entry into the scan,
whatever `pe_cycle_table` holds, and for all inputs: the scan takes `BLOCKS` cycles, the last of which
writes the hot block to one entry of the mapping, and that is the entry of the lowest-numbered
least-worn block exactly when the last block is not less worn than all others. -/
theorem wl_remap_least_iff (h2 : 2 ≤ p.blocks) (hle : p.blocks ≤ 256) {t : State p} {i : Input}
    (hbefore : t.state ≠ .wlRemap) (hentry : (step t i).state = .wlRemap) (is : List Input)
    (hlen : is.length + 1 = p.blocks) (j : Input) :
    let s := step t i
    let last := run step s is
    let entry : Byte := last.wlColdVictim.setWidth 8
    (∀ js, js <+: is → (run step s js).state = .wlRemap) ∧ (step last j).state = .respond ∧
    (step last j).ftlL2pMap = Function.update s.ftlL2pMap entry s.wlHotBlock ∧
    (FirstLeast (peCycles s.toMemories) p.blocks (2 ^ 16) entry.toNat ↔
      ∃ b, b + 1 < p.blocks ∧ peCycles s.toMemories b ≤ peCycles s.toMemories (p.blocks - 1)) := by
  intro s last entry
  have hptr : s.wlScanPtr = 0 := wlScanPtr_entered hbefore hentry
  have hlast : WlScanned s is.length last := WlScanned.run h2 hle hentry hptr is (by omega)
  have hremaps : Remaps last := ⟨hlast.state, (scan_ends_iff h2 hlast.ptr).mpr hlen⟩
  have hbound : ∀ b, peCycles s.toMemories b < 2 ^ 16 := fun b => BitVec.isLt _
  have hfound := (forLoop_scanStep hbound (by omega : 0 < is.length)
    (s.wlColdVictim.toNat, s.minPeCount.toNat)).1
  rw [← hlast.found] at hfound
  have hentryNat : entry.toNat = last.wlColdVictim.toNat := by
    have hlt := hfound.lt
    simp only at hlt
    rw [BitVec.toNat_setWidth]
    omega
  refine ⟨fun js hjs => ?_, ?_, ?_, ?_⟩
  · have hle' := hjs.length_le
    exact (WlScanned.run h2 hle hentry hptr js (by omega)).state
  · have hstate := state_step last j
    simp only [hlast.state] at hstate
    rw [hstate, if_pos hremaps.2]
  · rw [map_remapped j hremaps, hlast.hot, hlast.memories]
  · rw [hentryNat, ← hlen, Nat.add_sub_cancel]
    rw [hfound.succ_iff]
    constructor
    · intro h
      exact ⟨last.wlColdVictim.toNat, Nat.succ_lt_succ hfound.lt, h⟩
    · rintro ⟨b, hb, h⟩
      exact (hfound.least b (Nat.lt_of_succ_lt_succ hb)).trans h

/-- A program has been acknowledged and wear levelling is due; block 1 is the least worn. -/
def wornFirst : State twoBlocks :=
  { reset (blank twoBlocks) with
    state := .progWait
    initDone := true
    wlNeeded := true
    peCycleTable := fun b => if b = 0 then 5 else 3 }

theorem wl_remap_least_iff_two :
    let s := step wornFirst noRequest
    let last := run step s [noRequest]
    FirstLeast (peCycles s.toMemories) 2 (2 ^ 16) (last.wlColdVictim.setWidth 8 : Byte).toNat ↔
      ∃ b, b + 1 < 2 ∧ peCycles s.toMemories b ≤ peCycles s.toMemories 1 :=
  (wl_remap_least_iff (p := twoBlocks) (by decide) (by decide) (by decide) (by decide) [noRequest] rfl
    noRequest).2.2.2

/-- **The last block is never remapped**, also when it is the least worn. -/
theorem wl_remap_skips_last :
    ¬ ∀ p : Params, 2 ≤ p.blocks → p.blocks ≤ 256 → ∀ (t : State p) (i : Input),
      t.state ≠ .wlRemap → (step t i).state = .wlRemap → ∀ is : List Input,
      is.length + 1 = p.blocks → FirstLeast (peCycles (step t i).toMemories) p.blocks (2 ^ 16)
        ((run step (step t i) is).wlColdVictim.setWidth 8 : Byte).toNat := by
  intro h
  have hleast := (h twoBlocks (by decide) (by decide) wornFirst noRequest (by decide) (by decide)
    [noRequest] rfl).least 1 (by decide)
  revert hleast
  decide

end FtjSsdSim.Hdl.TopController
