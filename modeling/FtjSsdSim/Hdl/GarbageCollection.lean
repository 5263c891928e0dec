import Mathlib
import FtjSsdSim.Library.Machine
import FtjSsdSim.Hdl.TopController

/-!
# Garbage collection in the controller

A collection starts in `STATE_IDLE` when `free_block_count` is below `GC_THRESHOLD`, scans
`gc_valid_count` for its minimum, and erases the block found.  Two facts decide both laws of this
file, for every parameter set and every run from reset.

* `free_block_count` starts at `BLOCKS` cut to ten bits and only `STATE_BLOCK_ERASE` changes it, so
  all collections come before the first command of the host (`Supply`).
* Nothing counts a page in `gc_valid_count`, so the scan always ends at block 0 (`Counts`), and
  `STATE_GC_COPY` moves no page: entry 0 of the mapping still points there.
-/

namespace FtjSsdSim.Hdl.TopController

open FtjSsdSim.Library

variable {p : Params}

/-- The states of a collection up to the erase command. -/
def Fsm.Collecting (f : Fsm) : Prop := f = .gcSelect ∨ f = .gcCopy ∨ f = .blockErase

/-- The states of a burst. -/
def Fsm.Serving (f : Fsm) : Prop := f ≠ .idle ∧ f ≠ .eraseWait ∧ ¬ f.Collecting

/-- `free_block_count < GC_THRESHOLD`. -/
def Short (s : State p) : Prop := s.freeBlockCount.toNat < p.gcThreshold

/-! ### Collections precede bursts -/

/-- Collections and bursts both start in `STATE_IDLE`, on opposite sides of the threshold. -/
theorem collecting_step {s : State p} {i : Input} (h : (step s i).state.Collecting) :
    (s.state.Collecting ∧ s.state ≠ .blockErase) ∨
      (s.state = .idle ∧ s.initDone = true ∧ Short s) := by
  rw [state_step, Fsm.Collecting] at h
  rw [Fsm.Collecting, Short]
  cases hs : s.state <;> simp only [hs] at h <;> grind

theorem gcSelect_step {s : State p} {i : Input} (h : (step s i).state = .gcSelect) :
    s.state = .gcSelect ∨ (s.state = .idle ∧ s.initDone = true ∧ Short s) := by
  rw [state_step] at h
  rw [Short]
  cases hs : s.state <;> simp only [hs] at h <;> grind

/-- The scan is left at its last block, which is not the first. -/
theorem scanned_step {s : State p} {i : Input}
    (h : (step s i).state = .gcCopy ∨ (step s i).state = .blockErase) :
    (s.gcScanPtr ≠ 0 ∧ IsLast p s.gcScanPtr) ∨ s.state = .gcCopy := by
  rw [state_step] at h
  cases hs : s.state <;> simp only [hs] at h <;> grind

theorem serving_step {s : State p} {i : Input} (h : (step s i).state.Serving) :
    s.state.Serving ∨ (s.state = .idle ∧ ¬ Short s) := by
  rw [state_step, Fsm.Serving, Fsm.Collecting] at h
  rw [Fsm.Serving, Fsm.Collecting, Short]
  cases hs : s.state <;> simp only [hs] at h <;> grind

/-- What the state says about the supply of free blocks. -/
structure Supply (s : State p) : Prop where
  initialising : s.initDone = false → s.state = .idle
  collecting : s.state.Collecting → Short s
  serving : s.state.Serving → ¬ Short s

theorem supply_reset (m : Memories p) : Supply (reset m) where
  initialising _ := rfl
  collecting h := by simp [reset, Fsm.Collecting] at h
  serving h := absurd rfl h.1

theorem Supply.step {s : State p} (h : Supply s) (i : Input) : Supply (step s i) := by
  have hsame : s.state ≠ .blockErase → (Short (TopController.step s i) ↔ Short s) := by
    intro hne
    rw [Short, freeBlockCount_step, if_neg hne]; rfl
  refine ⟨fun hd => ?_, fun hc => ?_, fun hv => ?_⟩
  · rw [(init_step s i).1, Bool.or_eq_false_iff] at hd
    simp only [state_step, h.initialising hd.1, hd.1, if_true]
  · rcases collecting_step hc with ⟨hc, hne⟩ | ⟨hs, -, hshort⟩
    · exact (hsame hne).mpr (h.collecting hc)
    · exact (hsame (by simp [hs])).mpr hshort
  · rcases serving_step hv with hv | ⟨hs, hshort⟩
    · refine fun hn => h.serving hv ((hsame fun he => hv.2.2 ?_).mp hn)
      exact .inr (.inr he)
    · exact fun hn => hshort ((hsame (by simp [hs])).mp hn)

theorem Supply.initDone {s : State p} (h : Supply s) (hs : s.state ≠ .idle) : s.initDone = true := by
  by_contra hd
  exact hs (h.initialising (Bool.eq_false_iff.mpr hd))

/-- An erase is counted after the decision: what is short after an edge was short before it. -/
theorem Supply.short_of_step {s : State p} (h : Supply s) {i : Input}
    (hshort : Short (TopController.step s i)) : Short s := by
  by_cases hs : s.state = .blockErase
  · exact h.collecting (.inr (.inr hs))
  · rwa [Short, freeBlockCount_step, if_neg hs] at hshort

/-! ### The victim is block 0 -/

/-- What the memories and the scan hold as long as free blocks are short. -/
structure Counts (s : State p) : Prop where
  filled : s.initDone = false → Filled s
  range : s.initDone = true → 1 ≤ p.blocks ∧ p.blocks ≤ 1024
  zero : s.initDone = true → ∀ b, InRange p b → s.gcValidCount b = 0
  identity : s.initDone = true → Short s → ∀ a, s.ftlL2pMap a = a.setWidth p.addrWidth
  victim : s.gcVictimBlock = 0
  scan : s.state = .gcSelect → s.gcScanPtr ≠ 0 → s.minGcCount = 0
  two : s.state = .gcCopy ∨ s.state = .blockErase → 2 ≤ p.blocks

theorem counts_reset (m : Memories p) : Counts (reset m) where
  filled _ := filled_reset m
  range h := by simp [reset] at h
  zero h := by simp [reset] at h
  identity h := by simp [reset] at h
  victim := rfl
  scan h := by simp [reset] at h
  two h := by simp [reset] at h

/-- After initialisation no edge counts a page. -/
theorem zero_step {s : State p} (i : Input) (hd : s.initDone = true)
    (h : ∀ b, InRange p b → s.gcValidCount b = 0) (b : BitVec 10) (hb : InRange p b) :
    (step s i).gcValidCount b = 0 := by
  rw [toMemories_step]
  cases hs : s.state
  case idle =>
    simp only [hd, if_true]
    exact h b hb
  case gcCopy => exact store_const (h b hb)
  case wlRemap =>
    simp only
    split_ifs <;> exact h b hb
  all_goals exact h b hb

/-- After initialisation only wear levelling rewrites the mapping. -/
theorem ftlL2pMap_step {s : State p} (i : Input) (hd : s.initDone = true)
    (hs : s.state ≠ .wlRemap) : (step s i).ftlL2pMap = s.ftlL2pMap := by
  rw [toMemories_step]
  cases hst : s.state
  case idle =>
    simp only [hd, if_true]
  case wlRemap => exact absurd hst hs
  all_goals rfl

/-- The scan never finds a count below the zero of block 0. -/
theorem scan_step {s : State p} (i : Input) (hr : s.state = .gcSelect → InRange p 0)
    (hz : s.state = .gcSelect → ∀ b, InRange p b → s.gcValidCount b = 0)
    (hv : s.gcVictimBlock = 0) (hm : s.state = .gcSelect → s.gcScanPtr ≠ 0 → s.minGcCount = 0) :
    (step s i).gcVictimBlock = 0 ∧
      ((step s i).state = .gcSelect → (step s i).gcScanPtr ≠ 0 → (step s i).minGcCount = 0) := by
  have hregs := gcScan_step s i
  by_cases hs : s.state = .gcSelect
  · simp only [hs] at hregs
    by_cases hp : s.gcScanPtr = 0
    · simp only [hp, if_true, Prod.mk.injEq] at hregs
      exact ⟨hregs.2.1, fun _ _ => hregs.2.2.trans (hz hs 0 (hr hs))⟩
    · have hnot : ¬ (InRange p s.gcScanPtr ∧ s.gcValidCount s.gcScanPtr < s.minGcCount) := by
        rintro ⟨hin, hlt⟩
        rw [hz hs _ hin, hm hs hp] at hlt
        exact absurd hlt (by decide)
      simp only [hp, hnot, if_false, Prod.mk.injEq] at hregs
      exact ⟨hregs.2.1.trans hv, fun _ _ => hregs.2.2.trans (hm hs hp)⟩
  · by_cases hc : s.state = .idle ∧ s.initDone = true ∧ Short s
    · rw [hc.1] at hregs
      simp only [show s.freeBlockCount.toNat < p.gcThreshold from hc.2.2, hc.2.1, and_self, if_true,
        Prod.mk.injEq] at hregs
      exact ⟨hregs.2.1, fun _ hne => absurd hregs.1 hne⟩
    · refine ⟨?_, fun hg => absurd (gcSelect_step hg) (not_or.mpr ⟨hs, hc⟩)⟩
      have hsame : (TopController.step s i).gcVictimBlock = s.gcVictimBlock := by
        cases hst : s.state
        case gcSelect => exact absurd hst hs
        case idle =>
          have hc' : ¬ (s.initDone = true ∧ s.freeBlockCount.toNat < p.gcThreshold) :=
            fun h => hc ⟨hst, h⟩
          simp only [hst, hc', if_false, Prod.mk.injEq] at hregs
          exact hregs.2.1
        all_goals
          simp only [hst, Prod.mk.injEq] at hregs
          exact hregs.2.1
      exact hsame.trans hv

theorem Counts.step {s : State p} (h : Counts s) (hsup : Supply s) (i : Input) :
    Counts (TopController.step s i) := by
  have hgc : s.state = .gcSelect → s.initDone = true := fun hs => hsup.initDone (by simp [hs])
  obtain ⟨hvictim, hscan⟩ := scan_step i (fun hs => (h.range (hgc hs)).1)
    (fun hs => h.zero (hgc hs)) h.victim h.scan
  by_cases hd : s.initDone = true
  · have hd' : (TopController.step s i).initDone = true := by
      rw [(init_step s i).1, hd, Bool.true_or]
    refine ⟨fun hf => ?_, fun _ => h.range hd, fun _ => zero_step i hd (h.zero hd),
      fun _ hshort a => ?_, hvictim, hscan, fun hc => ?_⟩
    · exact absurd (hd'.symm.trans hf) (by decide)
    · have hwl : s.state ≠ .wlRemap := fun hs =>
        hsup.serving (by simp [hs, Fsm.Serving, Fsm.Collecting]) (hsup.short_of_step hshort)
      rw [ftlL2pMap_step i hd hwl]
      exact h.identity hd (hsup.short_of_step hshort) a
    · rcases scanned_step hc with ⟨hne, hlast⟩ | hs
      · have hpos : s.gcScanPtr.toNat ≠ 0 := fun h0 => hne (BitVec.eq_of_toNat_eq h0)
        rw [IsLast] at hlast
        omega
      · exact h.two (.inl hs)
  · rw [Bool.not_eq_true] at hd
    have hs := hsup.initialising hd
    obtain ⟨hfill, hfresh⟩ := (h.filled hd).step hs hd i
    exact ⟨hfill, fun hd' => (hfresh hd').2, fun hd' => (hfresh hd').1.counts,
      fun hd' _ => (hfresh hd').1.map, hvictim, hscan, fun hc => by
        rw [state_step, hs] at hc
        simp [hd] at hc⟩

/-! ### Runs that reach a collection -/

/-- A cycle without a request, the flash ready. -/
def noRequest : Input := { Host.silent with nandRbN := true, nandIo := none }

theorem run_supply (m : Memories p) (is : List Input) : Supply (run step (reset m) is) :=
  run_invariant (P := fun _ => True) (supply_reset m) (fun _ i h _ => h.step i) is
    fun _ _ => trivial

theorem run_counts (m : Memories p) (is : List Input) : Counts (run step (reset m) is) :=
  (run_invariant (P := fun _ => True) (I := fun s => Supply s ∧ Counts s)
    ⟨supply_reset m, counts_reset m⟩ (fun _ i h _ => ⟨h.1.step i, h.2.step h.1 i⟩) is
    fun _ _ => trivial).2

/-- **Initialisation ends** for every number of blocks that the ten-bit pointer can count. -/
theorem exists_initDone (m : Memories p) (hpos : 1 ≤ p.blocks) (hle : p.blocks ≤ 1024)
    (i : Input) : ∃ n, let s := run step (reset m) (List.replicate n i)
      s.state = .idle ∧ s.initDone = true ∧ s.freeBlockCount = BitVec.ofNat 10 p.blocks := by
  have hnext : ∀ s : State p,
      (s.state = .idle ∧ s.freeBlockCount = BitVec.ofNat 10 p.blocks ∧ InRange p s.peInitPtr) →
      ¬ s.initDone = true → ((step s i).state = .idle ∧
        (step s i).freeBlockCount = BitVec.ofNat 10 p.blocks ∧ InRange p (step s i).peInitPtr) ∧
        initRank (step s i) < initRank s := by
    rintro s ⟨hs, hcount, hptr⟩ hd
    rw [Bool.not_eq_true] at hd
    obtain ⟨hptr', hrank⟩ := initRank_step i hs hd hle hptr
    refine ⟨⟨?_, ?_, hptr'⟩, hrank⟩
    · simp only [state_step, hs, hd, if_true]
    · rw [freeBlockCount_step, if_neg (by simp [hs]), hcount]
  obtain ⟨n, ⟨hs, hcount, -⟩, hd, -⟩ :=
    exists_run_replicate initRank hnext (s := reset m) ⟨rfl, rfl, hpos⟩
  exact ⟨n, hs, hd, hcount⟩

/-- **A collection starts** as soon as initialisation ends, where the count begins below the
threshold. -/
theorem exists_gcSelect (m : Memories p) (hpos : 1 ≤ p.blocks) (hle : p.blocks ≤ 1024)
    (hshort : p.blocks % 1024 < p.gcThreshold) (i : Input) :
    ∃ n, let s := run step (reset m) (List.replicate n i)
      s.state = .idle ∧ (step s i).state = .gcSelect ∧ (step s i).gcScanPtr = 0 := by
  obtain ⟨n, hs, hd, hcount⟩ := exists_initDone m hpos hle i
  have hlt : (run step (reset m) (List.replicate n i)).freeBlockCount.toNat < p.gcThreshold := by
    rw [hcount, BitVec.toNat_ofNat]
    exact hshort
  have hregs := gcScan_step (run step (reset m) (List.replicate n i)) i
  simp only [hs, hd, hlt, and_self, if_true, Prod.mk.injEq] at hregs
  refine ⟨n, hs, ?_, hregs.1⟩
  simp only [state_step, hs, hd, hlt, Bool.true_eq_false, if_true, if_false]

theorem gcScanPtr_gcSelect {s : State p} (hs : s.state = .gcSelect) (i : Input) :
    (step s i).gcScanPtr = s.gcScanPtr + 1 := by
  have hregs := gcScan_step s i
  simp only [hs] at hregs
  split_ifs at hregs with h0
  · rw [(Prod.mk.inj hregs).1, h0]
    rfl
  all_goals exact (Prod.mk.inj hregs).1

/-- A bound on the cycles until the erase. -/
def scanRank (s : State p) : ℕ :=
  match s.state with
  | .gcSelect => p.blocks - s.gcScanPtr.toNat + 1
  | .gcCopy => 1
  | _ => 0

/-- **The scan ends**, and the erase follows. -/
theorem exists_blockErase {s : State p} (h2 : 2 ≤ p.blocks) (hle : p.blocks ≤ 1024)
    (hs : s.state = .gcSelect) (hptr : InRange p s.gcScanPtr) (i : Input) :
    ∃ n, (run step s (List.replicate n i)).state = .blockErase := by
  have hnext : ∀ s : State p, ((s.state = .gcSelect ∧ InRange p s.gcScanPtr) ∨ s.state = .gcCopy ∨
      s.state = .blockErase) → ¬ s.state = .blockErase →
      (((step s i).state = .gcSelect ∧ InRange p (step s i).gcScanPtr) ∨
        (step s i).state = .gcCopy ∨ (step s i).state = .blockErase) ∧
        scanRank (step s i) < scanRank s := by
    rintro s (⟨hs, hptr⟩ | hs | hs) hne
    · have hstate := state_step s i
      have hptr' := gcScanPtr_gcSelect hs i
      rw [InRange] at hptr
      simp only [hs] at hstate
      split_ifs at hstate with hlast
      · rw [IsLast] at hlast
        refine ⟨.inr (.inl hstate), ?_⟩
        simp only [scanRank, hs, hstate]
        omega
      · have hmore : s.gcScanPtr.toNat + 1 < p.blocks := by
          rcases not_and_or.mp hlast with h0 | hl
          · rw [not_not.mp h0]
            exact h2
          · rw [IsLast] at hl
            omega
        have hto : (s.gcScanPtr + 1).toNat = s.gcScanPtr.toNat + 1 := by bv_omega
        refine ⟨.inl ⟨hstate, ?_⟩, ?_⟩
        · rw [hptr', InRange, hto]
          exact hmore
        · simp only [scanRank, hs, hstate, hptr', hto]
          omega
    · have hstate := state_step s i
      simp only [hs] at hstate
      refine ⟨.inr (.inr hstate), ?_⟩
      simp only [scanRank, hs, hstate]
      omega
    · exact absurd hs hne
  obtain ⟨n, -, hn, -⟩ := exists_run_replicate scanRank hnext (.inl ⟨hs, hptr⟩)
  exact ⟨n, hn⟩

/-! ### Live data -/

/-- The count does not move while it stays at the threshold or above. -/
theorem run_steady (m : Memories p) (h : p.gcThreshold ≤ p.blocks % 1024) (is : List Input) :
    (run step (reset m) is).freeBlockCount.toNat = p.blocks % 1024 := by
  refine (run_invariant (P := fun _ => True)
    (I := fun s => Supply s ∧ s.freeBlockCount.toNat = p.blocks % 1024)
    ⟨supply_reset m, BitVec.toNat_ofNat ..⟩ ?_ is fun _ _ => trivial).2
  rintro s i ⟨hsup, hcount⟩ -
  refine ⟨hsup.step i, ?_⟩
  rw [freeBlockCount_step, if_neg fun hs => ?_, hcount]
  have hshort := hsup.collecting (.inr (.inr hs))
  rw [Short] at hshort
  omega

/-- **Every erase hits live data**: entry 0 of the mapping points to the block being erased. -/
theorem victim_is_mapped (m : Memories p) (is : List Input)
    (hs : (run step (reset m) is).state = .blockErase) :
    block ((run step (reset m) is).ftlL2pMap 0) = (run step (reset m) is).gcVictimBlock := by
  have hsup := run_supply m is
  have hcounts := run_counts m is
  have hd := hsup.initDone (by rw [hs]; decide)
  rw [hcounts.victim, hcounts.identity hd (hsup.collecting (.inr (.inr hs))), block]
  exact BitVec.eq_of_toNat_eq (by simp)

/-- A run that reaches the erase command. -/
theorem exists_erase (m : Memories p) (h2 : 2 ≤ p.blocks) (hle : p.blocks ≤ 1024)
    (hshort : p.blocks % 1024 < p.gcThreshold) (i : Input) :
    ∃ n, (run step (reset m) (List.replicate n i)).state = .blockErase := by
  obtain ⟨n, -, hs, hptr⟩ := exists_gcSelect m (by omega) hle hshort i
  have hrange : InRange p (step (run step (reset m) (List.replicate n i)) i).gcScanPtr := by
    rw [hptr]
    exact Nat.lt_of_lt_of_le (by decide) h2
  obtain ⟨k, hk⟩ := exists_blockErase h2 hle hs hrange i
  refine ⟨n + 1 + k, ?_⟩
  rw [List.replicate_add, List.replicate_add, run_append, run_append]
  exact hk

/-- **When collections destroy no live data.**  For every parameter set: in every run from reset,
whenever `STATE_BLOCK_ERASE` is reached no entry of the mapping points to the victim, exactly when the
parameters do not let a collection start and finish its scan. -/
theorem erased_block_unmapped_iff (p : Params) :
    (∀ (m : Memories p) (is : List Input), (run step (reset m) is).state = .blockErase →
      ∀ a, block ((run step (reset m) is).ftlL2pMap a) ≠ (run step (reset m) is).gcVictimBlock) ↔
      ¬ (2 ≤ p.blocks ∧ p.blocks ≤ 1024 ∧ p.blocks % 1024 < p.gcThreshold) := by
  constructor
  · rintro h ⟨h2, hle, hshort⟩
    obtain ⟨n, hn⟩ := exists_erase (blank p) h2 hle hshort noRequest
    exact h _ _ hn 0 (victim_is_mapped _ _ hn)
  · intro hp m is hs
    have hcounts := run_counts m is
    have hsup := run_supply m is
    have hd := hsup.initDone (by rw [hs]; decide)
    refine absurd ⟨hcounts.two (.inr hs), (hcounts.range hd).2, ?_⟩ hp
    by_contra hle
    have hshort := hsup.collecting (.inr (.inr hs))
    rw [Short, run_steady m (by omega)] at hshort
    exact hle hshort

/-- **The default parameters erase live data**: with no request at all, block 0 is erased while entry
0 of the mapping points to it. -/
theorem default_erases_live_block :
    ∃ n, let s := run step (reset (blank defaults)) (List.replicate n noRequest)
      s.state = .blockErase ∧ block (s.ftlL2pMap 0) = s.gcVictimBlock := by
  obtain ⟨n, hn⟩ :=
    exists_erase (blank defaults) (by decide) (by decide) (by decide) noRequest
  exact ⟨n, hn, victim_is_mapped _ _ hn⟩

/-! ### Shortage -/

/-- The programmed blocks after a cycle: the FSM programs the block of `curr_pba` and erases the
victim. -/
def programStep (prog : Finset ℕ) (c : State p × Input) : Finset ℕ :=
  match c.1.state with
  | .pageProgram => insert (block c.1.currPba).toNat prog
  | .blockErase => prog.erase c.1.gcVictimBlock.toNat
  | _ => prog

/-- The blocks programmed since reset and not erased since. -/
def programmed (m : Memories p) (is : List Input) : Finset ℕ :=
  (cycles step (reset m) is).foldl programStep ∅

/-- The free blocks of the drive. -/
def freeBlocks (m : Memories p) (is : List Input) : Finset ℕ :=
  Finset.range p.blocks \ programmed m is

theorem programmed_snoc (m : Memories p) (is : List Input) (i : Input) :
    programmed m (is ++ [i]) = programStep (programmed m is) (run step (reset m) is, i) := by
  rw [programmed, cycles_append, List.foldl_append]
  rfl

/-- While free blocks are short nothing has been programmed. -/
theorem run_programmed (m : Memories p) (is : List Input) (hshort : Short (run step (reset m) is)) :
    programmed m is = ∅ := by
  refine run_induct (P := fun _ => True)
    (motive := fun is s => Short s → programmed m is = ∅) (fun _ => rfl) ?_ is
    (fun _ _ => trivial) hshort
  intro is i ih _ hshort
  have hsup := run_supply m is
  rw [programmed_snoc, ih (hsup.short_of_step hshort), programStep]
  cases hs : (run step (reset m) is).state
  case pageProgram =>
    exact absurd (hsup.short_of_step hshort)
      (hsup.serving (by simp [hs, Fsm.Serving, Fsm.Collecting]))
  all_goals rfl

/-- Below the width limit the count never falls below `BLOCKS`. -/
theorem run_count_ge (m : Memories p) (hlt : p.blocks < 1024) (hT : p.gcThreshold < 1024)
    (is : List Input) : p.blocks ≤ (run step (reset m) is).freeBlockCount.toNat := by
  refine (run_invariant (P := fun _ => True)
    (I := fun s => Supply s ∧ p.blocks ≤ s.freeBlockCount.toNat) ⟨supply_reset m, ?_⟩ ?_ is
    fun _ _ => trivial).2
  · rw [reset, BitVec.toNat_ofNat, Nat.mod_eq_of_lt hlt]
  · rintro s i ⟨hsup, hcount⟩ -
    refine ⟨hsup.step i, ?_⟩
    rw [freeBlockCount_step]
    split_ifs with hs
    · have hshort := hsup.collecting (.inr (.inr hs))
      rw [Short] at hshort
      have hto : (s.freeBlockCount + 1).toNat = s.freeBlockCount.toNat + 1 := by bv_omega
      omega
    · exact hcount

/-- Where a collection starts every block is free. -/
theorem freeBlocks_of_gcSelect (m : Memories p) (is : List Input) {i : Input}
    (hne : (run step (reset m) is).state ≠ .gcSelect)
    (hgc : (step (run step (reset m) is) i).state = .gcSelect) :
    Short (run step (reset m) is) ∧ (freeBlocks m is).card = p.blocks := by
  obtain hs | ⟨-, -, hshort⟩ := gcSelect_step hgc
  · exact absurd hs hne
  · refine ⟨hshort, ?_⟩
    rw [freeBlocks, run_programmed m is hshort, Finset.sdiff_empty, Finset.card_range]

/-- **When collections start only at a shortage.**  For 2 to 1024 blocks: in every run from reset,
whenever `STATE_GC_SELECT` is entered fewer than `GC_THRESHOLD` blocks are free, exactly when the
count holds `BLOCKS`, or the threshold is 0 or above all counts. -/
theorem collection_at_shortage_iff (p : Params) (h2 : 2 ≤ p.blocks) (hle : p.blocks ≤ 1024) :
    (∀ (m : Memories p) (is : List Input) (i : Input),
      (run step (reset m) is).state ≠ .gcSelect →
      (step (run step (reset m) is) i).state = .gcSelect →
      (freeBlocks m is).card < p.gcThreshold) ↔
      p.blocks < 1024 ∨ p.gcThreshold = 0 ∨ 1024 < p.gcThreshold := by
  constructor
  · intro h
    by_contra hp
    simp only [not_or, not_lt] at hp
    obtain ⟨n, hs, hgc, -⟩ := exists_gcSelect (blank p) (by omega) hle (by omega) noRequest
    have hne : (run step (reset (blank p)) (List.replicate n noRequest)).state ≠ .gcSelect := by
      rw [hs]
      decide
    have hcard := h _ _ noRequest hne hgc
    rw [(freeBlocks_of_gcSelect _ _ hne hgc).2] at hcard
    omega
  · intro hp m is i hne hgc
    obtain ⟨hshort, hcard⟩ := freeBlocks_of_gcSelect m is hne hgc
    rw [hcard]
    rw [Short] at hshort
    rcases hp with hlt | h0 | hbig
    · by_cases hT : p.gcThreshold < 1024
      · exact (run_count_ge m hlt hT is).trans_lt hshort
      · omega
    · omega
    · omega

/-- A drive of 60 blocks. -/
def sixtyBlocks : Params := { defaults with blocks := 60 }

theorem collection_at_shortage_sixty_blocks :
    ∃ n, (step (run step (reset (blank sixtyBlocks)) (List.replicate n noRequest))
        noRequest).state = .gcSelect ∧
      (freeBlocks (blank sixtyBlocks) (List.replicate n noRequest)).card <
        sixtyBlocks.gcThreshold := by
  obtain ⟨n, hs, hgc, -⟩ :=
    exists_gcSelect (blank sixtyBlocks) (by decide) (by decide) (by decide) noRequest
  have hne : (run step (reset (blank sixtyBlocks)) (List.replicate n noRequest)).state ≠
      .gcSelect := by
    rw [hs]
    decide
  exact ⟨n, hgc, (collection_at_shortage_iff sixtyBlocks (by decide) (by decide)).mpr
    (.inl (by decide)) _ _ _ hne hgc⟩

/-- **The default parameters** start a collection while all 1024 blocks are free. -/
theorem default_collects_with_all_free :
    ∃ n, let s := run step (reset (blank defaults)) (List.replicate n noRequest)
      s.state ≠ .gcSelect ∧ (step s noRequest).state = .gcSelect ∧
      ¬ (freeBlocks (blank defaults) (List.replicate n noRequest)).card < defaults.gcThreshold := by
  obtain ⟨n, hs, hgc, -⟩ :=
    exists_gcSelect (blank defaults) (by decide) (by decide) (by decide) noRequest
  have hne : (run step (reset (blank defaults)) (List.replicate n noRequest)).state ≠ .gcSelect := by
    rw [hs]
    decide
  refine ⟨n, hne, hgc, ?_⟩
  rw [(freeBlocks_of_gcSelect _ _ hne hgc).2]
  decide

end FtjSsdSim.Hdl.TopController
