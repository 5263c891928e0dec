import Mathlib
import FtjSsdSim.Library.Machine
import FtjSsdSim.Hdl.GarbageCollection
import FtjSsdSim.Hdl.AxiSafety

/-!
# Wear levelling and the mapping

`STATE_WL_REMAP` scans `pe_cycle_table` for the coldest block and then writes `wl_hot_block`, the
block of the burst that started the scan, into the entry of the coldest one.  The entry that already
points to `wl_hot_block` keeps it, so nothing is swapped: the mapping stays injective exactly when
the two entries are the same one (`map_injective_iff`).

The second half drives a controller there: a host that writes one block over and over wears it out,
and the scan that follows maps two blocks of the host to it (`exists_remap`).
-/

namespace FtjSsdSim.Hdl.TopController

open FtjSsdSim.Library

variable {p : Params}

/-- The entry of the burst that is served. -/
def burstEntry (s : State p) : Byte := s.burstBaseAddr.setWidth 8

/-- The last cycle of a scan, which rewrites the mapping. -/
def Remaps (s : State p) : Prop :=
  s.state = .wlRemap ∧ s.wlScanPtr ≠ 0 ∧ IsLast p s.wlScanPtr

/-! ### What an edge does to the registers of wear levelling -/

section

variable (s : State p) (i : Input)

/-- The address of the burst and its block after an edge. -/
theorem lookup_step : ((step s i).burstBaseAddr, (step s i).currPba) =
    match s.state with
    | .idle =>
      if (step s i).state = .ftlTranslate then (i.araddr.setWidth p.addrWidth, s.currPba)
      else (s.burstBaseAddr, s.currPba)
    | .fetch => (i.awaddr.setWidth p.addrWidth, s.currPba)
    | .ftlTranslate => (s.burstBaseAddr, s.ftlL2pMap (burstEntry s))
    | _ => (s.burstBaseAddr, s.currPba) := by
  cases hs : s.state <;>
    simp only [step, hs, burstEntry, idle, initialise, fetch, coalesce, ftlTranslate, eccGen,
      pageProgram, progWait, pageRead, readWait, afeSense, gcSelect, gcCopy, blockErase, eraseWait,
      wlRemap, respond] <;>
    split_ifs <;> simp_all

/-- What a burst asks of wear levelling after an edge. -/
theorem needed_step : ((step s i).wlNeeded, (step s i).wlHotBlock) =
    if s.state = .pageProgram then
      if InRange p (block s.currPba) ∧ p.tlcMaxPe < (s.peCycleTable (block s.currPba)).toNat then
        (true, s.currPba)
      else (false, s.wlHotBlock)
    else (s.wlNeeded, s.wlHotBlock) := by
  cases hs : s.state <;>
    simp only [step, hs, idle, initialise, fetch, coalesce, ftlTranslate, eccGen, pageProgram,
      progWait, pageRead, readWait, afeSense, gcSelect, gcCopy, blockErase, eraseWait, wlRemap,
      respond, reduceCtorEq, if_true, if_false] <;>
    split_ifs <;> rfl

/-- The registers of the scan after an edge. -/
theorem wlScan_step :
    ((step s i).wlScanPtr, (step s i).wlColdVictim, (step s i).minPeCount) =
    match s.state with
    | .progWait =>
      if (step s i).state = .wlRemap then (0, 0, 0xFFFF)
      else (s.wlScanPtr, s.wlColdVictim, s.minPeCount)
    | .wlRemap =>
      if s.wlScanPtr = 0 then (1, 0, s.peCycleTable 0)
      else if InRange p s.wlScanPtr ∧ s.peCycleTable s.wlScanPtr < s.minPeCount then
        (s.wlScanPtr + 1, s.wlScanPtr.setWidth p.addrWidth, s.peCycleTable s.wlScanPtr)
      else (s.wlScanPtr + 1, s.wlColdVictim, s.minPeCount)
    | _ => (s.wlScanPtr, s.wlColdVictim, s.minPeCount) := by
  cases hs : s.state <;>
    simp only [step, hs, idle, initialise, fetch, coalesce, ftlTranslate, eccGen, pageProgram,
      progWait, pageRead, readWait, afeSense, gcSelect, gcCopy, blockErase, eraseWait, wlRemap,
      respond] <;>
    split_ifs <;> simp_all

end

/-! ### The hot block -/

/-- The burst's block is the one its entry points to, from the lookup to the rewrite. -/
structure Hot (s : State p) : Prop where
  looked : s.state = .eccGen ∨ s.state = .pageProgram → s.currPba = s.ftlL2pMap (burstEntry s)
  needed : s.state = .progWait → s.wlNeeded = true → s.wlHotBlock = s.ftlL2pMap (burstEntry s)
  scanning : s.state = .wlRemap → s.wlHotBlock = s.ftlL2pMap (burstEntry s)

theorem hot_reset (m : Memories p) : Hot (reset m) where
  looked h := by simp [reset] at h
  needed h := by cases h
  scanning h := by cases h

theorem burstEntry_step {s : State p} (i : Input) (hi : s.state ≠ .idle) (hf : s.state ≠ .fetch) :
    burstEntry (step s i) = burstEntry s := by
  have haddr := lookup_step s i
  rw [burstEntry, burstEntry]
  cases hs : s.state <;> simp only [hs] at haddr hi hf <;> grind

/-- Only the cycle that rewrites the mapping changes it. -/
theorem map_kept {s : State p} (i : Input) (hd : s.initDone = true) (hr : ¬ Remaps s) :
    (step s i).ftlL2pMap = s.ftlL2pMap := by
  by_cases hs : s.state = .wlRemap
  · have hnot : ¬ (s.wlScanPtr ≠ 0 ∧ IsLast p s.wlScanPtr) := fun h => hr ⟨hs, h⟩
    simp only [toMemories_step, hs, if_neg hnot]
  · exact ftlL2pMap_step i hd hs

/-- Only a program command counts in `pe_cycle_table`. -/
theorem peCycleTable_kept {s : State p} (i : Input) (hd : s.initDone = true)
    (hs : s.state ≠ .pageProgram) : (step s i).peCycleTable = s.peCycleTable := by
  rw [toMemories_step]
  cases hst : s.state
  case idle =>
    simp only [hd, if_true]
  case pageProgram => exact absurd hst hs
  case wlRemap =>
    simp only
    split_ifs <;> rfl
  all_goals rfl

theorem map_remapped {s : State p} (i : Input) (hr : Remaps s) :
    (step s i).ftlL2pMap =
      Function.update s.ftlL2pMap (s.wlColdVictim.setWidth 8) s.wlHotBlock := by
  obtain ⟨hs, hlast⟩ := hr
  simp only [toMemories_step, hs, if_pos hlast]

/-- The entry of the burst is kept up to the rewrite. -/
theorem entry_kept {s : State p} (hsup : Supply s) (i : Input) (hi : s.state ≠ .idle)
    (hf : s.state ≠ .fetch) (hr : ¬ Remaps s) :
    (step s i).ftlL2pMap (burstEntry (step s i)) = s.ftlL2pMap (burstEntry s) := by
  rw [map_kept i (hsup.initDone hi) hr, burstEntry_step i hi hf]

theorem looked_entered {s : State p} {i : Input}
    (h : (step s i).state = .eccGen ∨ (step s i).state = .pageProgram) :
    s.state = .ftlTranslate ∨ s.state = .eccGen := by
  rw [state_step] at h
  cases hs : s.state <;> simp only [hs] at h <;> grind

theorem progWait_entered {s : State p} {i : Input} (h : (step s i).state = .progWait) :
    s.state = .pageProgram ∨ s.state = .progWait := by
  rw [state_step] at h
  cases hs : s.state <;> simp only [hs] at h <;> grind

theorem wlRemap_entered {s : State p} {i : Input} (h : (step s i).state = .wlRemap) :
    s.state = .progWait ∧ s.wlNeeded = true ∨ s.state = .wlRemap ∧ ¬ Remaps s := by
  rw [state_step] at h
  rw [Remaps]
  cases hs : s.state <;> simp only [hs] at h <;> grind

theorem Hot.step {s : State p} (h : Hot s) (hsup : Supply s) (i : Input) :
    Hot (TopController.step s i) := by
  have haddr := lookup_step s i
  have hneed := needed_step s i
  refine ⟨fun hs' => ?_, fun hs' hn => ?_, fun hs' => ?_⟩
  · rcases looked_entered hs' with hs | hs
    · rw [entry_kept hsup i (by simp [hs]) (by simp [hs]) (by simp [Remaps, hs])]
      simp only [hs] at haddr
      exact congrArg Prod.snd haddr
    · rw [entry_kept hsup i (by simp [hs]) (by simp [hs]) (by simp [Remaps, hs])]
      simp only [hs] at haddr
      exact (congrArg Prod.snd haddr).trans (h.looked (.inl hs))
  · rcases progWait_entered hs' with hs | hs
    · rw [entry_kept hsup i (by simp [hs]) (by simp [hs]) (by simp [Remaps, hs])]
      rw [if_pos hs] at hneed
      split_ifs at hneed
      · exact (congrArg Prod.snd hneed).trans (h.looked (.inr hs))
      · rw [show (TopController.step s i).wlNeeded = false from congrArg Prod.fst hneed] at hn
        cases hn
    · rw [entry_kept hsup i (by simp [hs]) (by simp [hs]) (by simp [Remaps, hs])]
      rw [if_neg (by simp [hs])] at hneed
      exact (congrArg Prod.snd hneed).trans
        (h.needed hs ((congrArg Prod.fst hneed).symm.trans hn))
  · rcases wlRemap_entered hs' with ⟨hs, hn⟩ | ⟨hs, hr⟩
    · rw [entry_kept hsup i (by simp [hs]) (by simp [hs]) (by simp [Remaps, hs])]
      rw [if_neg (by simp [hs])] at hneed
      exact (congrArg Prod.snd hneed).trans (h.needed hs hn)
    · rw [entry_kept hsup i (by simp [hs]) (by simp [hs]) hr]
      rw [if_neg (by simp [hs])] at hneed
      exact (congrArg Prod.snd hneed).trans (h.scanning hs)

/-! ### When the mapping stays injective -/

/-- Writing the value of one entry into another makes them equal. -/
theorem injective_copy_iff {α β : Type*} [DecidableEq α] {f : α → β} (hf : Function.Injective f)
    (a b : α) : Function.Injective (Function.update f b (f a)) ↔ b = a := by
  constructor
  · intro h
    by_contra hne
    refine hne (h ?_)
    rw [Function.update_self, Function.update_of_ne (Ne.symm hne)]
  · rintro rfl
    rwa [Function.update_eq_self]

/-- Once `init_done` is set no two entries hold the same block. -/
def Distinct (s : State p) : Prop := s.initDone = true → Function.Injective s.ftlL2pMap

/-- The identity of initialisation has 256 different entries. -/
theorem Fresh.injective {m : Memories p} (h : Fresh m) : Function.Injective m.ftlL2pMap := by
  intro a b hab
  have hten := p.ten_le_addrWidth
  have hpow : 2 ^ 8 ≤ 2 ^ p.addrWidth := Nat.pow_le_pow_right (by decide) (by omega)
  rw [h.map, h.map] at hab
  have hnat := congrArg BitVec.toNat hab
  rw [BitVec.toNat_setWidth, BitVec.toNat_setWidth, Nat.mod_eq_of_lt (a.isLt.trans_le hpow),
    Nat.mod_eq_of_lt (b.isLt.trans_le hpow)] at hnat
  exact BitVec.eq_of_toNat_eq hnat

/-- **A cycle keeps the mapping injective** unless it copies the entry of the burst to another. -/
theorem distinct_step {s : State p} (hsup : Supply s) (hcounts : Counts s) (hhot : Hot s)
    (h : Distinct s) (i : Input) :
    Distinct (step s i) ↔ (Remaps s → s.wlColdVictim.setWidth 8 = burstEntry s) := by
  cases hd : s.initDone with
  | false =>
    have hs := hsup.initialising hd
    refine iff_of_true (fun hd' => ?_) fun hr => ?_
    · exact (((hcounts.filled hd).step hs hd i).2 hd').1.injective
    · rw [hr.1] at hs
      cases hs
  | true =>
    have hd' : (step s i).initDone = true := by rw [(init_step s i).1, hd, Bool.true_or]
    have hinj := h hd
    by_cases hr : Remaps s
    · rw [Distinct, map_remapped i hr, hhot.scanning hr.1, injective_copy_iff hinj]
      exact ⟨fun hall _ => hall hd', fun hall _ => hall hr⟩
    · rw [Distinct, map_kept i hd hr]
      exact iff_of_true (fun _ => hinj) fun hr' => absurd hr' hr

/-- **When the mapping stays injective.**  For every parameter set, every run from reset and all
inputs of the host and the flash: in every state of the run in which `init_done` is set no two
entries hold the same block, exactly when no scan of the run ends with a coldest block whose entry
is not the one of the burst. -/
theorem map_injective_iff (m : Memories p) (is : List Input) :
    (∀ js, js <+: is → (run step (reset m) js).initDone = true →
      Function.Injective (run step (reset m) js).ftlL2pMap) ↔
    ∀ c ∈ cycles step (reset m) is, Remaps c.1 →
      c.1.wlColdVictim.setWidth 8 = burstEntry c.1 := by
  apply run_invariant_iff (I := fun s => Supply s ∧ Counts s ∧ Hot s) (G := Distinct)
  · exact ⟨supply_reset m, counts_reset m, hot_reset m⟩
  · intro hd
    cases hd
  · intro s i h
    exact ⟨h.1.step i, h.2.1.step h.1 i, h.2.2.step h.1 i⟩
  · intro s i h hdist
    exact distinct_step h.1 h.2.1 h.2.2 hdist i

/-! ### A block worn out -/

/-- A host that writes one beat to address 1 over and over, and a flash that is always ready. -/
def rewriting : Input where
  toHost := { Host.silent with
    awvalid := true
    awaddr := 1
    wvalid := true
    wlast := true
    bready := true }
  nandRbN := true
  nandIo := none

/-- What the states of such a burst hold; block 1 is the hot one, and no block is colder than
block 0. -/
def Stage (s : State p) : Prop :=
  match s.state with
  | .idle | .fetch => True
  | .coalesce => burstEntry s = 1
  | .ftlTranslate => s.currOp = true ∧ burstEntry s = 1
  | .eccGen | .pageProgram => s.currPba = 1
  | .progWait => s.wlNeeded = true → s.wlHotBlock = 1
  | .wlRemap => s.wlHotBlock = 1 ∧ InRange p s.wlScanPtr ∧
      (s.wlScanPtr ≠ 0 → s.minPeCount = 0 ∧ s.wlColdVictim = 0)
  | .respond => s.currOp = true
  | _ => False

/-- The programs of block 1 until one asks for a scan, and that one. -/
def programsLeft (s : State p) : ℕ :=
  if s.state = .wlRemap ∨ s.state = .progWait ∧ s.wlNeeded = true then 0
  else p.tlcMaxPe + 1 - (s.peCycleTable 1).toNat + 1

/-- A bound on the cycles until the next state with fewer programs left. -/
def stageRank (s : State p) : ℕ :=
  match s.state with
  | .respond => if s.axi.bvalid = true then 11 else 12
  | .idle => 10
  | .fetch => 9
  | .coalesce => 8
  | .ftlTranslate => 7
  | .eccGen => 6
  | .pageProgram => 5
  | .progWait => 40000 + s.nandWaitCnt.toNat
  | .wlRemap => 2000 - s.wlScanPtr.toNat
  | _ => 0

/-- A bound on the cycles until the mapping is rewritten. -/
def wearRank (s : State p) : ℕ :=
  if s.initDone = true then 600000 * programsLeft s + stageRank s
  else initRank s + 600000 * (p.tlcMaxPe + 2) + 10

/-- The controller while block 1 is worn out. -/
structure Wearing (s : State p) : Prop where
  outputs : Outputs s
  supply : Supply s
  counts : Counts s
  enough : ¬ Short s
  range : s.initDone = false → InRange p s.peInitPtr
  cold : s.initDone = true → s.peCycleTable 0 = 0
  identity : s.initDone = true → ∀ a, s.ftlL2pMap a = a.setWidth p.addrWidth
  stage : s.initDone = true → Stage s

theorem wearing_reset (m : Memories p) (hpos : 1 ≤ p.blocks) (hT : p.gcThreshold ≤ p.blocks % 1024) :
    Wearing (reset m) where
  outputs := outputs_reset m
  supply := supply_reset m
  counts := counts_reset m
  enough := by rwa [Short, reset, BitVec.toNat_ofNat, not_lt]
  range _ := hpos
  cold h := by cases h
  identity h := by cases h
  stage h := by cases h

theorem toNat_one : (1 : BitVec p.addrWidth).toNat = 1 := by
  have hten := p.ten_le_addrWidth
  have hpow : 2 ^ 1 ≤ 2 ^ p.addrWidth := Nat.pow_le_pow_right (by decide) (by omega)
  show (BitVec.ofNat p.addrWidth 1).toNat = 1
  rw [BitVec.toNat_ofNat, Nat.mod_eq_of_lt (by omega)]

theorem block_one : block (1 : BitVec p.addrWidth) = 1 := by
  apply BitVec.eq_of_toNat_eq
  rw [block, BitVec.toNat_setWidth, toNat_one]
  rfl

theorem entry_one : (1 : BitVec p.addrWidth).setWidth 8 = 1 := by
  apply BitVec.eq_of_toNat_eq
  rw [BitVec.toNat_setWidth, toNat_one]
  rfl

theorem one_setWidth {w : ℕ} (a : BitVec w) (ha : a.toNat = 1) :
    a.setWidth p.addrWidth = 1 := by
  apply BitVec.eq_of_toNat_eq
  have h := toNat_one (p := p)
  have hlt := (1 : BitVec p.addrWidth).isLt
  rw [h] at hlt ⊢
  rw [BitVec.toNat_setWidth, ha, Nat.mod_eq_of_lt hlt]

/-- **Every cycle of a burst comes closer to the rewrite.** -/
theorem stage_step {s : State p} (h : Wearing s) (hd : s.initDone = true) (h2 : 2 ≤ p.blocks)
    (hle : p.blocks ≤ 1024) (hmax : p.tlcMaxPe < 65535) (hr : ¬ Remaps s) :
    Stage (step s rewriting) ∧
      600000 * programsLeft (step s rewriting) + stageRank (step s rewriting) <
        600000 * programsLeft s + stageRank s := by
  have hstage := h.stage hd
  rw [Stage] at hstage
  cases hs : s.state <;> simp only [hs] at hstage
  case idle =>
    have haw : s.axi.awready = false := by
      rw [← Bool.not_eq_true, h.outputs.awready, hs]
      decide
    have hnot : ¬ s.freeBlockCount.toNat < p.gcThreshold := h.enough
    have hstep : step s rewriting = { s with
        axi := { s.axi with bvalid := false, rvalid := false, rlast := false, awready := true }
        state := .fetch } := by
      simp only [step, hs, idle, hd, Bool.not_true, Bool.false_eq_true, if_false, hnot, haw,
        rewriting, Bool.not_false, Bool.and_self, if_true]
    rw [hstep]
    refine ⟨trivial, ?_⟩
    simp only [programsLeft, stageRank, hs, reduceCtorEq, false_and, or_self, if_false]
    omega
  case fetch =>
    have hstep : step s rewriting = fetch s rewriting := by rw [step, hs]
    rw [hstep]
    refine ⟨?_, ?_⟩
    · show (((1 : BitVec 32).setWidth p.addrWidth).setWidth 8 : Byte) = 1
      rw [one_setWidth _ rfl]
      exact entry_one
    · simp only [fetch, programsLeft, stageRank, hs, reduceCtorEq, false_and, or_self, if_false]
      omega
  case coalesce =>
    have hw : s.axi.wready = true := h.outputs.wready.mpr hs
    have hop : s.currOp = true := h.outputs.op true (by rw [hs]; rfl)
    have hstep : step s rewriting = { s with
        burstBeatCnt := s.burstBeatCnt + 1
        currWdata := rewriting.wdata
        axi := { s.axi with wready := false }
        state := .ftlTranslate } := by
      simp only [step, hs, coalesce, hw, rewriting, Bool.and_self, if_true]
    rw [hstep]
    refine ⟨⟨hop, hstage⟩, ?_⟩
    simp only [programsLeft, stageRank, hs, reduceCtorEq, false_and, or_self, if_false]
    omega
  case ftlTranslate =>
    obtain ⟨hop, hentry⟩ := hstage
    have hstep : step s rewriting = { s with
        axi := { s.axi with arready := false }
        currPba := s.ftlL2pMap (burstEntry s)
        state := .eccGen } := by
      simp only [step, hs, ftlTranslate, hop, if_true, burstEntry]
    rw [hstep]
    refine ⟨?_, ?_⟩
    · show s.ftlL2pMap (burstEntry s) = 1
      rw [hentry, h.identity hd, one_setWidth _ rfl]
    · simp only [programsLeft, stageRank, hs, reduceCtorEq, false_and, or_self, if_false]
      omega
  case eccGen =>
    have hstep : step s rewriting = eccGen s := by rw [step, hs]
    rw [hstep]
    refine ⟨hstage, ?_⟩
    simp only [eccGen, programsLeft, stageRank, hs, reduceCtorEq, false_and, or_self, if_false]
    omega
  case pageProgram =>
    have hb : block s.currPba = 1 := by rw [hstage, block_one]
    have hin : InRange p 1 := h2
    have hstep : step s rewriting = pageProgram s := by rw [step, hs]
    have hpe : (step s rewriting).peCycleTable 1 = s.peCycleTable 1 + 1 := by
      simp only [toMemories_step, hs, hb, store, if_pos hin, Function.update_self]
    have hstate : (step s rewriting).state = .progWait := by
      rw [state_step, hs]
    have hwait : (step s rewriting).nandWaitCnt = 30000 := by
      rw [hstep, pageProgram]
      split_ifs <;> rfl
    have hneed := needed_step s rewriting
    rw [if_pos hs, hb] at hneed
    have hrank : stageRank (step s rewriting) = 70000 := by
      simp only [stageRank, hstate, hwait]
      rfl
    rw [hrank]
    refine ⟨?_, ?_⟩
    · rw [Stage, hstate]
      intro hn
      split_ifs at hneed
      · exact (congrArg Prod.snd hneed).trans hstage
      · rw [show (step s rewriting).wlNeeded = false from congrArg Prod.fst hneed] at hn
        cases hn
    · by_cases hhot : p.tlcMaxPe < (s.peCycleTable 1).toNat
      · rw [if_pos ⟨hin, hhot⟩] at hneed
        have hn : (step s rewriting).wlNeeded = true := congrArg Prod.fst hneed
        simp only [programsLeft, stageRank, hs, hstate, hn, reduceCtorEq, false_and, or_self,
          and_self, or_true, if_true, if_false]
        omega
      · rw [if_neg fun hh => hhot hh.2] at hneed
        have hn : (step s rewriting).wlNeeded = false := congrArg Prod.fst hneed
        have hto : (s.peCycleTable 1 + 1).toNat = (s.peCycleTable 1).toNat + 1 := by bv_omega
        simp only [programsLeft, stageRank, hs, hstate, hn, hpe, hto, reduceCtorEq,
          Bool.false_eq_true, false_and, and_false, or_self, if_false]
        omega
  case progWait =>
    have hop : s.currOp = true := h.outputs.op true (by rw [hs]; rfl)
    have hrb : rewriting.nandRbN = true := rfl
    by_cases hzero : s.nandWaitCnt = 0
    · have hwait : ¬ s.nandWaitCnt > 0 := by rw [waiting_iff, hzero]; simp
      by_cases hn : s.wlNeeded = true
      · have hstep : step s rewriting = { s with
            nand := s.nand.release
            state := .wlRemap
            wlScanPtr := 0
            wlColdVictim := 0
            minPeCount := 0xFFFF } := by
          simp only [step, hs, progWait, if_neg hwait, hrb, hn, if_true]
        rw [hstep]
        have hptr : InRange p 0 := Nat.lt_of_lt_of_le (by decide) h2
        refine ⟨⟨hstage hn, hptr, fun h0 => absurd rfl h0⟩, ?_⟩
        simp only [programsLeft, stageRank, hs, hn, hzero, and_self, or_true, true_or, if_true]
        omega
      · have hstep : step s rewriting = { s with
            nand := s.nand.release
            state := .respond } := by
          simp only [step, hs, progWait, if_neg hwait, hrb, if_neg hn, if_true]
        rw [hstep]
        refine ⟨hop, ?_⟩
        simp only [programsLeft, stageRank, hs, hn, hzero, reduceCtorEq, and_false, or_self,
          if_false]
        split_ifs <;> omega
    · have hwait : s.nandWaitCnt > 0 := (waiting_iff _).mpr hzero
      have hcount : (s.nandWaitCnt - 1).toNat + 1 = s.nandWaitCnt.toNat := by bv_omega
      have hstep : step s rewriting = { s with
          nand := s.nand.release
          nandWaitCnt := s.nandWaitCnt - 1 } := by
        simp only [step, hs, progWait, if_pos hwait]
      rw [hstep]
      refine ⟨?_, ?_⟩
      · simpa only [Stage, hs] using hstage
      · simp only [programsLeft, stageRank, hs]
        omega
  case wlRemap =>
    obtain ⟨hhot, hptr, hscan⟩ := hstage
    have hmore : s.wlScanPtr.toNat + 1 < p.blocks := by
      rw [InRange] at hptr
      by_contra hge
      refine hr ⟨hs, fun h0 => ?_, ?_⟩
      · rw [h0] at hge
        exact hge h2
      · rw [IsLast]
        omega
    have hto : (s.wlScanPtr + 1).toNat = s.wlScanPtr.toNat + 1 := by bv_omega
    have hstate := state_step s rewriting
    have hregs := wlScan_step s rewriting
    have hneed := needed_step s rewriting
    have hlast : ¬ (s.wlScanPtr ≠ 0 ∧ IsLast p s.wlScanPtr) := fun hl => hr ⟨hs, hl⟩
    rw [if_neg (by simp [hs])] at hneed
    simp only [hs, if_neg hlast] at hstate hregs
    have hpe : (step s rewriting).wlScanPtr = s.wlScanPtr + 1 ∧
        (step s rewriting).wlColdVictim = 0 ∧ (step s rewriting).minPeCount = 0 := by
      by_cases h0 : s.wlScanPtr = 0
      · rw [if_pos h0, h.cold hd] at hregs
        simp only [Prod.mk.injEq] at hregs
        rw [h0]
        exact hregs
      · obtain ⟨hmin, hcold⟩ := hscan h0
        have hnot : ¬ (InRange p s.wlScanPtr ∧ s.peCycleTable s.wlScanPtr < s.minPeCount) := by
          rw [hmin]
          exact fun hlt => absurd hlt.2 BitVec.not_lt_zero
        rw [if_neg h0, if_neg hnot, hmin, hcold] at hregs
        simp only [Prod.mk.injEq] at hregs
        exact hregs
    refine ⟨?_, ?_⟩
    · rw [Stage, hstate]
      refine ⟨(congrArg Prod.snd hneed).trans hhot, ?_, fun _ => ⟨hpe.2.2, hpe.2.1⟩⟩
      rw [InRange, hpe.1, hto]
      exact hmore
    · simp only [programsLeft, stageRank, hs, hstate, hpe.1, hto, true_or, if_true]
      omega
  case respond =>
    have hready : rewriting.bready = true := rfl
    have hstate := state_step s rewriting
    have haxi := axi_step s rewriting
    have hop := currOp_step s rewriting
    have hpe := toMemories_kept rewriting hd (by simp [hs]) (by simp [hs]) (by simp [hs])
    simp only [hs, hstage, hready, if_true, true_and] at hstate haxi hop
    cases hv : s.axi.bvalid with
    | true =>
      rw [hv, if_pos rfl] at hstate
      simp only [Stage, programsLeft, stageRank, hs, hstate, hv, hpe, reduceCtorEq, false_and,
        or_self, if_true, if_false, true_and]
      omega
    | false =>
      rw [hv, if_neg Bool.false_ne_true] at hstate haxi
      simp only [Stage, programsLeft, stageRank, hs, hstate, hv, hpe, haxi, hop, reduceCtorEq,
        Bool.false_eq_true, false_and, or_self, if_true, if_false, true_and]
      omega

/-- **Every cycle comes closer to the rewrite**, and keeps block 0 the coldest. -/
theorem Wearing.step {s : State p} (h : Wearing s) (h2 : 2 ≤ p.blocks) (hle : p.blocks ≤ 1024)
    (hmax : p.tlcMaxPe < 65535) (hr : ¬ Remaps s) :
    Wearing (TopController.step s rewriting) ∧
      wearRank (TopController.step s rewriting) < wearRank s := by
  have hshort : ¬ Short (TopController.step s rewriting) := fun hs' =>
    h.enough (h.supply.short_of_step hs')
  cases hd : s.initDone with
  | false =>
    have hs := h.supply.initialising hd
    obtain ⟨hptr, hrank⟩ := initRank_step rewriting hs hd hle (h.range hd)
    have hfresh := ((h.counts.filled hd).step hs hd rewriting).2
    have hidle : (TopController.step s rewriting).state = .idle := by
      simp only [state_step, hs, hd, if_true]
    have hstage : Stage (TopController.step s rewriting) := by
      rw [Stage, hidle]
      trivial
    refine ⟨⟨h.outputs.step _, h.supply.step _, h.counts.step h.supply _, hshort,
      fun _ => hptr, fun hd' => (hfresh hd').1.pe 0 (Nat.lt_of_lt_of_le (by decide) h2),
      fun hd' => (hfresh hd').1.map, fun _ => hstage⟩, ?_⟩
    have hold : wearRank s = initRank s + 600000 * (p.tlcMaxPe + 2) + 10 := by
      rw [wearRank, if_neg (by simp [hd])]
    rw [hold, wearRank]
    split_ifs with hd'
    · -- block 1 has not been programmed yet
      have hzero : ((TopController.step s rewriting).peCycleTable 1).toNat = 0 := by
        rw [(hfresh hd').1.pe 1 h2]
        rfl
      simp only [programsLeft, stageRank, hidle, hzero, reduceCtorEq, false_and, or_self, if_false]
      omega
    · omega
  | true =>
    have hd' : (TopController.step s rewriting).initDone = true := by
      rw [(init_step s rewriting).1, hd, Bool.true_or]
    obtain ⟨hstage, hrank⟩ := stage_step h hd h2 hle hmax hr
    have hcold : (TopController.step s rewriting).peCycleTable 0 = 0 := by
      by_cases hs : s.state = .pageProgram
      · have hpba := h.stage hd
        simp only [Stage, hs] at hpba
        simp only [toMemories_step, hs, hpba, block_one, store, if_pos (show InRange p 1 from h2)]
        rw [Function.update_of_ne (by decide)]
        exact h.cold hd
      · rw [peCycleTable_kept rewriting hd hs]
        exact h.cold hd
    refine ⟨⟨h.outputs.step _, h.supply.step _, h.counts.step h.supply _, hshort, ?_,
      fun _ => hcold, fun _ => ?_, fun _ => hstage⟩, ?_⟩
    · intro hf
      rw [hd'] at hf
      cases hf
    · rw [map_kept rewriting hd hr]
      exact h.identity hd
    · rw [wearRank, wearRank, if_pos hd, if_pos hd']
      exact hrank

/-- **A worn block ends up behind two entries**: for all parameters with a free block to spare and a
limit that the counters can pass, writing one block over and over rewrites entry 0 with the block of
entry 1. -/
theorem exists_remap (m : Memories p) (h2 : 2 ≤ p.blocks) (hle : p.blocks ≤ 1024)
    (hT : p.gcThreshold ≤ p.blocks % 1024) (hmax : p.tlcMaxPe < 65535) :
    ∃ n, let s := run step (reset m) (List.replicate n rewriting)
      s.initDone = true ∧ s.ftlL2pMap 0 = s.ftlL2pMap 1 := by
  obtain ⟨n, h, hr, -⟩ := exists_run_replicate (I := Wearing) (G := Remaps) wearRank
    (fun s h hr => h.step h2 hle hmax hr) (wearing_reset m (by omega) hT)
  have hd := h.supply.initDone (by rw [hr.1]; decide)
  have hstage := h.stage hd
  simp only [Stage, hr.1] at hstage
  obtain ⟨hhot, -, hscan⟩ := hstage
  refine ⟨n + 1, ?_, ?_⟩
  · rw [List.replicate_succ', run_snoc, (init_step _ _).1, hd, Bool.true_or]
  · have hzero : (0 : BitVec p.addrWidth).setWidth 8 = 0 := BitVec.setWidth_zero ..
    rw [List.replicate_succ', run_snoc, map_remapped _ hr, (hscan hr.2.1).2, hhot, hzero,
      Function.update_self, Function.update_of_ne (by decide),
      h.identity hd, one_setWidth _ rfl]

/-- The default controller with 512 blocks. -/
def halfBlocks : Params := { defaults with blocks := 512 }

/-- **Two entries hold the same block** after a run with the default limit of program cycles, in
which the host holds every request. -/
theorem remap_shares_block :
    ∃ n, let s := run step (reset (blank halfBlocks)) (List.replicate n rewriting)
      Axi.ObeysAxi (axiPins (reset (blank halfBlocks)) (List.replicate n rewriting)) ∧
      s.initDone = true ∧ s.ftlL2pMap 0 = s.ftlL2pMap 1 := by
  obtain ⟨n, h⟩ := exists_remap (blank halfBlocks) (by decide) (by decide) (by decide) (by decide)
  exact ⟨n, axiPins_replicate_obeys _ _ _, h⟩

end FtjSsdSim.Hdl.TopController
