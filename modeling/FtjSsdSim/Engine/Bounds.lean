import Mathlib
import FtjSsdSim.Library.Loop
import FtjSsdSim.Library.Machine
import FtjSsdSim.Engine.FreePages
import FtjSsdSim.Engine.WriteRuns

/-!
# Memory bounds

The accesses that `Write` and `RunGC` make to the byte buffer, to the check bytes and to the valid
counts of the blocks, in the order of the source.

* `write_inBounds` — whatever pages the tables and the free lists hold, their numbers stay below
  `pageLimit`, and so do the accesses, provided those pages fit (`Fits`);
* `memorySafe_iff` — the capacities for which every run of writes stays inside its buffers.
-/

namespace FtjSsdSim.Engine

open FtjSsdSim.Library

namespace FTJController

/-! ### Accesses -/

/-- An access: `n` bytes of `memory_buffer_`, `n` bytes of `ecc_buffer_`, or an entry of
`block_valid_count_`. -/
inductive Access where
  | memory (first n : ℕ)
  | ecc (first n : ℕ)
  | block (b : ℤ)

/-- The access is inside its buffer. -/
def Access.InBounds (capacityBytes numBlocks : ℕ) : Access → Prop
  | .memory first n => first + n ≤ capacityBytes
  | .ecc first n => first + n ≤ (capacityBytes + 7) / 8
  | .block b => 0 ≤ b ∧ b < numBlocks

/-- The bytes of page `p` and its check bytes. -/
def pageAccesses (p : ℕ) : List Access :=
  [.memory (p * pageSize) pageSize, .ecc (p * pageSize / 8) (pageSize / 8)]

/-- What one iteration of the move loop accesses. -/
def relocateAccesses (c : FTJController) (p : ℕ) : List Access :=
  if c.physValid p then
    let owner := c.physOwnerLba p
    let (newP, c) := c.allocatePhysicalPage false
    if newP < 0 then []
    else
      pageAccesses newP.toNat ++ pageAccesses p ++
        if 0 ≤ owner ∧ owner.toNat < c.pageCount then
          [.block (c.physBlock newP.toNat), .block (c.physBlock p)]
        else []
  else []

/-- What the move loop accesses. -/
def moveAccesses (c : FTJController) (b : ℕ) : List Access :=
  (forLoop (blockStart b) (c.blockEnd b) (fun p (s : FTJController × List Access) =>
    (s.1.relocatePage p, s.2 ++ s.1.relocateAccesses p)) (c, [])).2

/-- What `RunGC` accesses: per victim block its move loop and its own count, which is reset. -/
def gcAccesses (c : FTJController) (targetFree : ℕ) : List Access :=
  if c.freeCount < targetFree then
    match c.selectVictim with
    | none => []
    | some b =>
      let c' := c.collectBlock b
      (c.moveAccesses b ++ [.block b]) ++
        if c'.freeCount ≤ c.freeCount then []
        else if targetFree ≤ c'.freeCount then []
        else gcAccesses c' targetFree
  else []
termination_by targetFree - c.freeCount
decreasing_by
  rename_i hlow hprogress _
  have h : ¬ (c.collectBlock b).freeCount ≤ c.freeCount := hprogress
  omega

def claimAccesses (c : FTJController) (preferHot : Bool) : List Access :=
  let (newPhys, c) := c.allocatePhysicalPage preferHot
  if newPhys < 0 then c.gcAccesses c.gcTargetFree else []

/-- What storing a part of a write into page `q` accesses: the copy or the zero fill, the bytes, the
words that are read for their check bytes, and the counts of the new and the old block. -/
def storeAccesses (c : FTJController) (lp q pageOffset toWrite : ℕ) : List Access :=
  let oldPhys := if lp < c.pageCount then c.l2pMap lp else -1
  let firstChunk := (q * pageSize + pageOffset) / 8
  let chunks := (q * pageSize + pageOffset + toWrite - 1) / 8 + 1 - firstChunk
  (pageAccesses q ++ if 0 ≤ oldPhys then pageAccesses oldPhys.toNat else []) ++
    [.memory (q * pageSize + pageOffset) toWrite, .memory (8 * firstChunk) (8 * chunks),
      .ecc firstChunk chunks, .block (c.physBlock q)] ++
    if 0 ≤ oldPhys then [.block (c.physBlock oldPhys.toNat)] else []

/-- What the page loop of `Write` accesses. -/
def loopAccesses (c : FTJController) (src : ℕ → Byte) (startByte endByte written : ℕ) :
    List Access :=
  if startByte < endByte then
    let lp := startByte / pageSize
    let pageOffset := startByte % pageSize
    let toWrite := min (endByte - startByte) (pageSize - pageOffset)
    let c := c.heat lp
    let (newPhys, c') := c.claimPage (c.prefersHot lp)
    c.claimAccesses (c.prefersHot lp) ++
      if newPhys < 0 then []
      else
        c'.storeAccesses lp newPhys.toNat pageOffset toWrite ++
          loopAccesses (c'.storePage lp newPhys.toNat pageOffset src written toWrite) src
            (startByte + toWrite) endByte (written + toWrite)
  else []
termination_by endByte - startByte
decreasing_by
  have := Nat.mod_lt startByte (show 0 < 4096 by decide)
  simp only [pageSize]
  omega

section

variable {c : FTJController} {src : ℕ → Byte} {startByte endByte written : ℕ} {q : ℤ}
  {c' : FTJController}

theorem loopAccesses_round (hlt : startByte < endByte)
    (hclaim : (c.heat (startByte / pageSize)).claimPage
      ((c.heat (startByte / pageSize)).prefersHot (startByte / pageSize)) = (q, c')) :
    c.loopAccesses src startByte endByte written =
      (c.heat (startByte / pageSize)).claimAccesses
        ((c.heat (startByte / pageSize)).prefersHot (startByte / pageSize)) ++
      if q < 0 then []
      else
        c'.storeAccesses (startByte / pageSize) q.toNat (startByte % pageSize)
            (min (endByte - startByte) (pageSize - startByte % pageSize)) ++
          (c'.storePage (startByte / pageSize) q.toNat (startByte % pageSize) src written
            (min (endByte - startByte) (pageSize - startByte % pageSize))).loopAccesses src
            (startByte + min (endByte - startByte) (pageSize - startByte % pageSize)) endByte
            (written + min (endByte - startByte) (pageSize - startByte % pageSize)) := by
  rw [loopAccesses, if_pos hlt]
  simp only [hclaim]

end

/-- What `Write` accesses. -/
def writeAccesses (c : FTJController) (w : WriteCall) : List Access :=
  match w.src with
  | none => []
  | some src =>
    if w.size > c.capacity ∨ w.offset > c.capacity - w.size then []
    else
      c.loopAccesses src w.offset (w.offset + w.size) 0 ++
        match c.writeLoop src w.offset (w.offset + w.size) 0 with
        | (false, _) => []
        | (true, c) =>
          let c := { c with totalWrites := c.totalWrites + 1 }
          if c.freeCount < c.gcLowWatermark then c.gcAccesses c.gcTargetFree else []

/-- In every state that calls of `Write` reach, the next call accesses its buffers within bounds, and
the block of every page on the free lists has a count. -/
structure MemorySafe (capacityBytes : ℕ) : Prop where
  accesses : ∀ ws w, ∀ a ∈ (run writeNext (construct capacityBytes) ws).writeAccesses w,
    a.InBounds capacityBytes (blocksOf (numPages capacityBytes))
  allocatable : ∀ ws, ∀ x ∈ (run writeNext (construct capacityBytes) ws).freePages, 0 ≤ x →
    (Access.block ((run writeNext (construct capacityBytes) ws).physBlock x.toNat)).InBounds
      capacityBytes (blocksOf (numPages capacityBytes))

/-! ### The pages in play -/

/-- No page from here on is ever in play: the entries of the tables are `int32_t`. -/
def pageLimit (capacityBytes : ℕ) : ℕ := min (numPages capacityBytes) (2 ^ 31)

/-- Every page in play lies in the buffers, and its block has a count. -/
def Fits (capacityBytes : ℕ) : Prop :=
  2 ^ 31 ≤ capacityBytes / pageSize ∨
    (pageSize ∣ capacityBytes ∧
      (numPages capacityBytes ≤ pagesPerBlock ∨ pagesPerBlock ∣ numPages capacityBytes))

/-- The tables and the free lists hold numbers of pages in play only, or negative numbers. -/
structure InPlay (capacityBytes : ℕ) (c : FTJController) : Prop where
  pageCount : c.pageCount = numPages capacityBytes
  numBlocks : c.numBlocks = blocksOf (numPages capacityBytes)
  physBlock : c.physBlock = blockOf
  mapped : ∀ lp, c.l2pMap lp < pageLimit capacityBytes
  valid : ∀ p, c.physValid p = true → p < pageLimit capacityBytes
  free : ∀ x ∈ c.freePages, x < pageLimit capacityBytes

variable {c : FTJController} {capacity : ℕ}

theorem int32_le (p : ℕ) : int32 p ≤ p ∧ int32 p < 2 ^ 31 := by
  rw [int32, Int.bmod_def]
  split_ifs <;> omega

/-- The table entry of a page is at most its number, and in play. -/
theorem int32_lt_pageLimit {p : ℕ} (hp : p < numPages capacity) :
    int32 p < pageLimit capacity := by
  have hle := int32_le p
  rw [pageLimit]
  omega

theorem blocksOf_eq (n : ℕ) : blocksOf n = max 1 (n / pagesPerBlock) := by
  simp only [blocksOf, pagesPerBlock]
  split_ifs <;> omega

theorem pageAccesses_inBounds (hfits : Fits capacity) {p : ℕ} (hp : p < pageLimit capacity) :
    (∀ a ∈ pageAccesses p, a.InBounds capacity (blocksOf (numPages capacity))) ∧
      (Access.block (blockOf p)).InBounds capacity (blocksOf (numPages capacity)) := by
  have hblock : blockOf p = (p / pagesPerBlock : ℕ) := by
    refine int32_natCast ?_
    rw [pageLimit] at hp
    simp only [pagesPerBlock]
    omega
  have hpage : p * pageSize + pageSize ≤ capacity ∧
      p / pagesPerBlock < blocksOf (numPages capacity) := by
    rw [blocksOf_eq]
    simp only [pageLimit, Fits, numPages, pageSize, pagesPerBlock] at hfits hp ⊢
    omega
  refine ⟨fun a ha => ?_, ?_⟩
  · rcases List.mem_cons.mp ha with rfl | ha
    · exact hpage.1
    · obtain rfl := List.mem_singleton.mp ha
      simp only [Access.InBounds, pageSize] at hpage ⊢
      omega
  · rw [Access.InBounds, hblock]
    exact ⟨Int.natCast_nonneg _, Int.ofNat_lt.mpr hpage.2⟩

/-! ### Every step keeps to the pages in play -/

theorem InPlay.withFree (h : InPlay capacity c) {hot cold : List ℤ}
    (hfree : ∀ x ∈ hot ++ cold, x < pageLimit capacity) : InPlay capacity (c.withFree hot cold) :=
  { h with free := hfree }

theorem InPlay.allocate (h : InPlay capacity c) (preferHot : Bool) :
    (c.allocatePhysicalPage preferHot).1 < pageLimit capacity ∧
      InPlay capacity (c.allocatePhysicalPage preferHot).2 := by
  rcases allocate_cases c preferHot with ⟨heq, -⟩ | ⟨q, hot, cold, heq, hperm⟩
  · rw [heq]
    exact ⟨by omega, h⟩
  · rw [heq]
    exact ⟨h.free q (hperm.mem_iff.mpr (List.mem_cons_self ..)),
      h.withFree fun x hx => h.free x (hperm.mem_iff.mpr (List.mem_cons_of_mem _ hx))⟩

theorem InPlay.mapPage (h : InPlay capacity c) {q : ℕ} (hq : q < pageLimit capacity) (lp : ℕ)
    (owner : ℤ) : InPlay capacity (c.mapPage lp q owner) :=
  { h with
    mapped := fun k => by
      simp only [FTJController.mapPage, Function.update_apply]
      split_ifs
      · exact Int.ofNat_lt.mpr hq
      · exact h.mapped k
    valid := fun p hv => by
      simp only [FTJController.mapPage, Function.update_apply] at hv
      split_ifs at hv with hpq
      · exact hpq ▸ hq
      · exact h.valid p hv }

theorem InPlay.invalidatePage (h : InPlay capacity c) (p : ℕ) :
    InPlay capacity (c.invalidatePage p) :=
  { h with
    valid := fun r hv => by
      simp only [FTJController.invalidatePage, Function.update_apply] at hv
      split_ifs at hv
      exact h.valid r hv }

/-- **The move loop's step.** -/
theorem relocatePage_inBounds (hfits : Fits capacity) (h : InPlay capacity c) (p : ℕ) :
    InPlay capacity (c.relocatePage p) ∧
      ∀ a ∈ c.relocateAccesses p, a.InBounds capacity (blocksOf (numPages capacity)) := by
  rw [relocatePage, relocateAccesses]
  split_ifs with hvalid
  · obtain ⟨hq, h'⟩ := h.allocate false
    generalize c.allocatePhysicalPage false = r at hq h'
    obtain ⟨q, c'⟩ := r
    simp only at hq h' ⊢
    by_cases hneg : q < 0
    · rw [if_pos hneg, if_pos hneg]
      exact ⟨h', fun a ha => by cases ha⟩
    · rw [if_neg hneg, if_neg hneg]
      have hqlt : q.toNat < pageLimit capacity := by omega
      obtain ⟨hnew, hnewb⟩ := pageAccesses_inBounds hfits hqlt
      obtain ⟨hold, holdb⟩ := pageAccesses_inBounds hfits (h.valid p hvalid)
      have hcopy : InPlay capacity (c'.copyPage q.toNat p) := { h' with }
      by_cases howner : 0 ≤ c.physOwnerLba p ∧ (c.physOwnerLba p).toNat < c'.pageCount
      · have howner' : 0 ≤ c.physOwnerLba p ∧
            (c.physOwnerLba p).toNat < (c'.copyPage q.toNat p).pageCount := howner
        rw [if_pos howner', if_pos howner, h'.physBlock]
        refine ⟨(hcopy.mapPage hqlt _ _).invalidatePage p, fun a ha => ?_⟩
        rcases List.mem_append.mp ha with ha | ha
        · exact (List.mem_append.mp ha).elim (hnew a) (hold a)
        · rcases List.mem_cons.mp ha with rfl | ha
          · exact hnewb
          · exact List.mem_singleton.mp ha ▸ holdb
      · have howner' : ¬ (0 ≤ c.physOwnerLba p ∧
            (c.physOwnerLba p).toNat < (c'.copyPage q.toNat p).pageCount) := howner
        rw [if_neg howner', if_neg howner, List.append_nil]
        exact ⟨hcopy, fun a ha => (List.mem_append.mp ha).elim (hnew a) (hold a)⟩
  · exact ⟨h, fun a ha => by cases ha⟩

theorem InPlay.erasePage (h : InPlay capacity c) {p : ℕ} (hp : p < numPages capacity) :
    InPlay capacity (c.erasePage p) := by
  rw [FTJController.erasePage]
  split_ifs with hv
  · exact h
  · have hvalid : ∀ r, Function.update c.physValid p false r = true → r < pageLimit capacity := by
      intro r hr
      rw [Function.update_apply] at hr
      split_ifs at hr
      exact h.valid r hr
    have hlt := int32_lt_pageLimit hp
    simp only
    generalize int32 p = x at hlt ⊢
    have hmem : ∀ y, y ∈ c.freePages ∨ y = x → y < pageLimit capacity := by
      rintro y (hy | rfl)
      · exact h.free y hy
      · exact hlt
    split_ifs
    · refine { h with valid := hvalid, free := fun y hy => hmem y ?_ }
      simp only [freePages, List.mem_append, List.mem_singleton] at hy ⊢
      tauto
    · refine { h with valid := hvalid, free := fun y hy => hmem y ?_ }
      simp only [freePages, List.mem_append, List.mem_singleton] at hy ⊢
      tauto

/-- The block a collection picks has a count. -/
theorem selectVictim_lt {b : ℕ} (h : c.selectVictim = some b) : b < c.numBlocks := by
  have hinv : ∀ b, c.selectVictim = some b → b < c.numBlocks := by
    refine forLoop_induct (motive := fun i (best : Option ℕ × ℤ) => ∀ b, best.1 = some b → b < i)
      (Nat.zero_le _) (fun b hb => by cases hb) ?_
    intro i best _ _ ih b hb
    split_ifs at hb
    · obtain rfl : i = b := Option.some.inj hb
      exact Nat.lt_succ_self i
    · exact Nat.lt_succ_of_lt (ih b hb)
  exact hinv b h

/-- **A collection of a block.** -/
theorem collectBlock_inBounds (hfits : Fits capacity) (h : InPlay capacity c) (b : ℕ) :
    InPlay capacity (c.collectBlock b) ∧
      ∀ a ∈ c.moveAccesses b, a.InBounds capacity (blocksOf (numPages capacity)) := by
  have hmove : InPlay capacity (c.moveValidPages b) :=
    forLoop_preserves (P := fun c => InPlay capacity c) h
      fun p t _ _ ht => (relocatePage_inBounds hfits ht p).1
  have herase : InPlay capacity ((c.moveValidPages b).eraseBlock b) := by
    refine forLoop_preserves (P := fun c => InPlay capacity c) hmove fun p t _ hp ht => ?_
    refine ht.erasePage (hp.trans_le ?_)
    rw [← hmove.pageCount]
    exact min_le_left ..
  refine ⟨{ herase with }, ?_⟩
  refine (forLoop_preserves (P := fun s : FTJController × List Access => InPlay capacity s.1 ∧
    ∀ a ∈ s.2, a.InBounds capacity (blocksOf (numPages capacity)))
    ⟨h, fun a ha => by cases ha⟩ ?_).2
  intro p s _ _ hs
  obtain ⟨h', ha'⟩ := relocatePage_inBounds hfits hs.1 p
  exact ⟨h', fun a ha => (List.mem_append.mp ha).elim (hs.2 a) (ha' a)⟩

/-- **`RunGC`.** -/
theorem runGC_inBounds (hfits : Fits capacity) (h : InPlay capacity c) (targetFree : ℕ) :
    InPlay capacity (c.runGC targetFree) ∧
      ∀ a ∈ c.gcAccesses targetFree, a.InBounds capacity (blocksOf (numPages capacity)) := by
  have hround : ∀ c : FTJController, InPlay capacity c → ∀ b, c.selectVictim = some b →
      InPlay capacity (c.collectBlock b) ∧ ∀ a ∈ c.moveAccesses b ++ [.block b],
        a.InBounds capacity (blocksOf (numPages capacity)) := by
    intro c h b hb
    obtain ⟨h', hacc⟩ := collectBlock_inBounds hfits h b
    refine ⟨h', fun a ha => (List.mem_append.mp ha).elim (hacc a) fun ha => ?_⟩
    obtain rfl := List.mem_singleton.mp ha
    have hlt := selectVictim_lt hb
    rw [h.numBlocks] at hlt
    exact ⟨Int.natCast_nonneg b, Int.ofNat_lt.mpr hlt⟩
  induction c using runGC.induct targetFree with
  | case1 c hlow hnone =>
    rw [runGC, gcAccesses, if_pos hlow, if_pos hlow, hnone]
    exact ⟨h, fun a ha => by cases ha⟩
  | case2 c hlow b hb c' hstop =>
    rw [runGC, gcAccesses, if_pos hlow, if_pos hlow, hb]
    simp only
    rw [if_pos hstop, if_pos hstop, List.append_nil]
    exact hround c h b hb
  | case3 c hlow b hb c' hgo hdone =>
    rw [runGC, gcAccesses, if_pos hlow, if_pos hlow, hb]
    simp only
    rw [if_neg hgo, if_pos hdone, if_neg hgo, if_pos hdone, List.append_nil]
    exact hround c h b hb
  | case4 c hlow b hb c' hgo hmore ih =>
    rw [runGC, gcAccesses, if_pos hlow, if_pos hlow, hb]
    simp only
    rw [if_neg hgo, if_neg hmore, if_neg hgo, if_neg hmore]
    obtain ⟨h', hacc⟩ := hround c h b hb
    obtain ⟨h'', hacc'⟩ := ih h'
    exact ⟨h'', fun a ha => (List.mem_append.mp ha).elim (hacc a) (hacc' a)⟩
  | case5 c hfull =>
    rw [runGC, gcAccesses, if_neg hfull, if_neg hfull]
    exact ⟨h, fun a ha => by cases ha⟩

theorem heat_inPlay (h : InPlay capacity c) (lp : ℕ) : InPlay capacity (c.heat lp) := by
  rw [heat]
  split_ifs
  · exact { h with }
  · exact h

theorem claimPage_inBounds (hfits : Fits capacity) (h : InPlay capacity c) (preferHot : Bool) :
    (c.claimPage preferHot).1 < pageLimit capacity ∧ InPlay capacity (c.claimPage preferHot).2 ∧
      ∀ a ∈ c.claimAccesses preferHot, a.InBounds capacity (blocksOf (numPages capacity)) := by
  obtain ⟨hq, h'⟩ := h.allocate preferHot
  rw [claimPage, claimAccesses]
  generalize c.allocatePhysicalPage preferHot = r at hq h'
  obtain ⟨q, c'⟩ := r
  simp only at hq h' ⊢
  split_ifs
  · obtain ⟨hgc, hacc⟩ := runGC_inBounds hfits h' c'.gcTargetFree
    obtain ⟨hq', hgc'⟩ := hgc.allocate preferHot
    exact ⟨hq', hgc', hacc⟩
  · exact ⟨hq, h', fun a ha => by cases ha⟩

/-- The bytes of a part of a page, the words they lie in, and the check bytes of those. -/
theorem chunk_range {q d n : ℕ} (hpage : q * 4096 + 4096 ≤ capacity) (hd : d + n ≤ 4096)
    (hn : 0 < n) :
    q * 4096 + d + n ≤ capacity ∧
      8 * ((q * 4096 + d) / 8) + 8 * ((q * 4096 + d + n - 1) / 8 + 1 - (q * 4096 + d) / 8) ≤
        capacity ∧
      (q * 4096 + d) / 8 + ((q * 4096 + d + n - 1) / 8 + 1 - (q * 4096 + d) / 8) ≤
        (capacity + 7) / 8 := by
  omega

/-- **Storing into a page in play.** -/
theorem storePage_inBounds (hfits : Fits capacity) (h : InPlay capacity c) {q d n : ℕ}
    (hq : q < pageLimit capacity) (hd : d + n ≤ pageSize) (hn : 0 < n) (lp : ℕ) (src : ℕ → Byte)
    (s : ℕ) :
    InPlay capacity (c.storePage lp q d src s n) ∧
      ∀ a ∈ c.storeAccesses lp q d n, a.InBounds capacity (blocksOf (numPages capacity)) := by
  have hprog : ∀ c₁ : FTJController, InPlay capacity c₁ →
      InPlay capacity (c₁.programBytes q d src s n) := by
    intro c₁ h₁
    obtain ⟨e, he⟩ := recomputeEcc_eq { c₁ with
      memoryBuffer := blit c₁.memoryBuffer (q * pageSize + d) src s n } ((q * pageSize + d) / 8)
      ((q * pageSize + d + n - 1) / 8)
    rw [programBytes, he]
    exact { h₁ with }
  have hdisturb : ∀ c₁ : FTJController, InPlay capacity c₁ →
      InPlay capacity (c₁.disturbNeighbor q) := by
    intro c₁ h₁
    obtain ⟨d, t, hdt⟩ := disturbNeighbor_eq c₁ q
    rw [hdt]
    exact { h₁ with }
  obtain ⟨hnew, hnewb⟩ := pageAccesses_inBounds hfits hq
  have hpage := hnew _ (List.mem_cons_self ..)
  have hchunks : ∀ a ∈ [Access.memory (q * pageSize + d) n,
      .memory (8 * ((q * pageSize + d) / 8))
        (8 * ((q * pageSize + d + n - 1) / 8 + 1 - (q * pageSize + d) / 8)),
      .ecc ((q * pageSize + d) / 8) ((q * pageSize + d + n - 1) / 8 + 1 - (q * pageSize + d) / 8),
      .block (c.physBlock q)], a.InBounds capacity (blocksOf (numPages capacity)) := by
    obtain ⟨hbytes, hwords, hecc⟩ := chunk_range hpage hd hn
    rw [h.physBlock, List.forall_mem_cons, List.forall_mem_cons, List.forall_mem_cons,
      List.forall_mem_singleton]
    exact ⟨hbytes, hwords, hecc, hnewb⟩
  have hcopy : ∀ old, InPlay capacity (c.copyPage q old) := fun old => { h with }
  have hzero : InPlay capacity (c.zeroPage q) := { h with }
  have hold : (if lp < c.pageCount then c.l2pMap lp else -1) < pageLimit capacity := by
    split_ifs
    · exact h.mapped lp
    · omega
  rw [storePage, storeAccesses]
  generalize (if lp < c.pageCount then c.l2pMap lp else -1) = old at hold
  by_cases h0 : 0 ≤ old
  · obtain ⟨hold', holdb⟩ := pageAccesses_inBounds hfits
      (show old.toNat < pageLimit capacity by omega)
    rw [if_pos h0, if_pos h0, if_pos h0, if_pos h0]
    refine ⟨(hdisturb _ ((hprog _ (hcopy _)).mapPage hq _ _)).invalidatePage _, fun a ha => ?_⟩
    rcases List.mem_append.mp ha with ha | ha
    · rcases List.mem_append.mp ha with ha | ha
      · exact (List.mem_append.mp ha).elim (hnew a) (hold' a)
      · exact hchunks a ha
    · rw [List.mem_singleton.mp ha, h.physBlock]
      exact holdb
  · rw [if_neg h0, if_neg h0, if_neg h0, if_neg h0, List.append_nil, List.append_nil]
    refine ⟨hdisturb _ ((hprog _ hzero).mapPage hq _ _), fun a ha => ?_⟩
    exact (List.mem_append.mp ha).elim (hnew a) (hchunks a)

/-- **The page loop.** -/
theorem writeLoop_inBounds (hfits : Fits capacity) (h : InPlay capacity c) (src : ℕ → Byte)
    (startByte endByte written : ℕ) :
    InPlay capacity (c.writeLoop src startByte endByte written).2 ∧
      ∀ a ∈ c.loopAccesses src startByte endByte written,
        a.InBounds capacity (blocksOf (numPages capacity)) := by
  induction c, startByte, written using writeLoop.induct src endByte with
  | case1 c startByte written hlt lp c₁ q c₂ hclaim =>
    rename_i hneg
    obtain ⟨-, h₂, hacc⟩ := claimPage_inBounds hfits (heat_inPlay h lp) (c₁.prefersHot lp)
    rw [hclaim] at h₂
    rw [writeLoop_round hlt hclaim, if_pos hneg, loopAccesses_round hlt hclaim, if_pos hneg,
      List.append_nil]
    exact ⟨h₂, hacc⟩
  | case2 c startByte written hlt lp pageOffset toWrite c₁ q c₂ hclaim hneg =>
    rename_i ih
    obtain ⟨hq, h₂, hacc⟩ := claimPage_inBounds hfits (heat_inPlay h lp) (c₁.prefersHot lp)
    rw [hclaim] at hq h₂
    have hmod := Nat.mod_lt startByte (show 0 < pageSize by decide)
    obtain ⟨hstore, hacc'⟩ := storePage_inBounds hfits h₂ (q := q.toNat) (d := pageOffset)
      (n := toWrite) (by omega) (by omega) (by omega) lp src written
    obtain ⟨hrest, hacc''⟩ := ih hstore
    rw [writeLoop_round hlt hclaim, if_neg hneg, loopAccesses_round hlt hclaim, if_neg hneg]
    refine ⟨hrest, fun a ha => ?_⟩
    rcases List.mem_append.mp ha with ha | ha
    · exact hacc a ha
    · exact (List.mem_append.mp ha).elim (hacc' a) (hacc'' a)
  | case3 c startByte written hge =>
    rw [writeLoop, if_neg hge, loopAccesses, if_neg hge]
    exact ⟨h, fun a ha => by cases ha⟩

/-- **A call of `Write`** whose pages in play fit accesses nothing out of bounds. -/
theorem write_inBounds (hfits : Fits capacity) (h : InPlay capacity c) (w : WriteCall) :
    InPlay capacity (c.writeNext w) ∧
      ∀ a ∈ c.writeAccesses w, a.InBounds capacity (blocksOf (numPages capacity)) := by
  obtain ⟨offset, src, size⟩ := w
  cases src with
  | none => exact ⟨h, fun a ha => by cases ha⟩
  | some src =>
    by_cases hrange : size > c.capacity ∨ offset > c.capacity - size
    · rw [writeNext, writeAccesses, write]
      simp only
      rw [if_pos hrange, if_pos hrange]
      exact ⟨h, fun a ha => by cases ha⟩
    · obtain ⟨hloop, hacc⟩ := writeLoop_inBounds hfits h src offset (offset + size) 0
      have hwrite : c.write offset (some src) size = _ := write_inRange hrange
      rw [writeNext, writeAccesses]
      simp only
      rw [if_neg hrange, hwrite]
      generalize c.writeLoop src offset (offset + size) 0 = r at hloop
      obtain ⟨ok, c'⟩ := r
      cases ok with
      | false =>
        simp only [List.append_nil]
        exact ⟨hloop, hacc⟩
      | true =>
        have hcount : InPlay capacity { c' with totalWrites := c'.totalWrites + 1 } := { hloop with }
        simp only
        split_ifs
        · obtain ⟨hgc, hacc'⟩ := runGC_inBounds hfits hcount c'.gcTargetFree
          exact ⟨hgc, fun a ha => (List.mem_append.mp ha).elim (hacc a) (hacc' a)⟩
        · rw [List.append_nil]
          exact ⟨hcount, hacc⟩

/-! ### Runs -/

theorem initialFreeList_lt (n hotBlocks : ℕ) (hot : Bool) :
    ∀ x ∈ initialFreeList n hotBlocks hot, x < int32 n := by
  refine forLoop_preserves (P := fun free => ∀ x ∈ free, x < int32 n) (fun x hx => by cases hx) ?_
  intro i free _ _ ih
  simp only
  split_ifs
  · intro x hx
    rcases List.mem_append.mp hx with hx | hx
    · exact ih x hx
    · rw [List.mem_singleton.mp hx]
      omega
  · exact ih

theorem construct_physBlock (capacity : ℕ) : (construct capacity).physBlock = blockOf := by
  simp only [construct]

theorem construct_inPlay (capacity : ℕ) : InPlay capacity (construct capacity) where
  pageCount := rfl
  numBlocks := rfl
  physBlock := construct_physBlock capacity
  mapped lp := by
    have hnone : (construct capacity).l2pMap lp = -1 := rfl
    rw [hnone]
    omega
  valid _ hv := by cases hv
  free := by
    intro x hx
    simp only [freePages, construct, List.mem_append] at hx
    have hlt : x < int32 (numPages capacity) :=
      hx.elim (initialFreeList_lt _ _ _ x) (initialFreeList_lt _ _ _ x)
    have hle := int32_le (numPages capacity)
    rw [pageLimit]
    omega

/-- **Safe capacities.**  A run keeps to the pages in play, which fit. -/
theorem memorySafe_of_fits (hfits : Fits capacity) : MemorySafe capacity := by
  have hrun : ∀ ws, InPlay capacity (run writeNext (construct capacity) ws) := fun ws =>
    run_invariant (P := fun _ => True) (I := fun c => InPlay capacity c) (construct_inPlay capacity)
      (fun _ w h _ => (write_inBounds hfits h w).1) ws fun _ _ => trivial
  refine ⟨fun ws w => (write_inBounds hfits (hrun ws) w).2, fun ws x hx h0 => ?_⟩
  have hlt := (hrun ws).free x hx
  rw [(hrun ws).physBlock]
  exact (pageAccesses_inBounds hfits (by omega)).2

/-- A page that the page loop takes off the free lists is accessed as a whole. -/
theorem loopAccesses_of_free (src : ℕ → Byte) (startByte endByte written : ℕ)
    (hneg : ∀ x ∈ c.freePages, 0 ≤ x)
    (henough : pagesTouched startByte endByte ≤ c.freePages.length) :
    ∀ x ∈ c.freePages, x ∈ (c.writeLoop src startByte endByte written).2.freePages ∨
      Access.memory (x.toNat * pageSize) pageSize ∈
        c.loopAccesses src startByte endByte written := by
  refine writeLoop_free_induct src endByte (motive := fun c startByte written =>
    ∀ x ∈ c.freePages, x ∈ (c.writeLoop src startByte endByte written).2.freePages ∨
      Access.memory (x.toNat * pageSize) pageSize ∈
        c.loopAccesses src startByte endByte written) ?_ ?_ c startByte written hneg henough
  · intro c c' startByte written p hlt hclaim toWrite next hperm ih x hx
    rw [writeLoop_round hlt hclaim, if_neg (by omega), loopAccesses_round hlt hclaim,
      if_neg (by omega)]
    rcases List.mem_cons.mp (hperm.mem_iff.mp hx) with rfl | hx
    · -- the page claimed in this round
      refine .inr (List.mem_append_right _ (List.mem_append_left _ ?_))
      rw [storeAccesses, List.append_assoc, List.append_assoc]
      exact List.mem_append_left _ (List.mem_cons_self ..)
    · exact (ih x hx).imp_right fun hacc =>
        List.mem_append_right _ (List.mem_append_right _ hacc)
  · intro c startByte written hge x hx
    rw [writeLoop, if_neg hge]
    exact .inl hx

/-- The free lists of a new controller hold every page once. -/
theorem construct_freePages (hsmall : numPages capacity < 2 ^ 31) :
    (construct capacity).freePages.Perm (pagesDown (numPages capacity)) := by
  simp only [freePages, construct]
  exact initialFreeList_perm hsmall

theorem construct_free_nonneg (hsmall : numPages capacity < 2 ^ 31) :
    ∀ x ∈ (construct capacity).freePages, 0 ≤ x := fun x hx => by
  obtain ⟨r, -, rfl⟩ := mem_pagesDown.mp ((construct_freePages hsmall).mem_iff.mp hx)
  exact Int.natCast_nonneg r

theorem construct_free_length (hsmall : numPages capacity < 2 ^ 31) :
    (construct capacity).freePages.length = numPages capacity := by
  rw [(construct_freePages hsmall).length_eq, pagesDown, List.length_map, List.length_range]

/-- **A write of the whole drive** accesses every page of a new controller. -/
theorem whole_write_accesses (hsmall : numPages capacity < 2 ^ 31) (src : ℕ → Byte) {p : ℕ}
    (hp : p < numPages capacity) :
    Access.memory (p * pageSize) pageSize ∈
      (construct capacity).writeAccesses ⟨0, some src, capacity⟩ := by
  have hperm := construct_freePages hsmall
  have hneg := construct_free_nonneg hsmall
  have hlen := construct_free_length hsmall
  have htouch : pagesTouched 0 (0 + capacity) = numPages capacity := by
    simp only [pagesTouched, numPages, pageSize] at hp ⊢
    split_ifs <;> omega
  have hfree := loopAccesses_of_free src 0 (0 + capacity) 0 hneg (by rw [htouch, hlen]) p
    (hperm.mem_iff.mpr (mem_pagesDown.mpr ⟨p, hp, rfl⟩))
  obtain ⟨-, used, hused, hcount⟩ := writeLoop_of_free src 0 (0 + capacity) 0 hneg
    (by rw [htouch, hlen])
  -- the write has used up the free lists
  have hnone : ((construct capacity).writeLoop src 0 (0 + capacity) 0).2.freePages = [] := by
    have := hused.length_eq
    rw [List.length_append, hcount, htouch, hlen] at this
    exact List.length_eq_zero_iff.mp (by omega)
  rw [hnone] at hfree
  rw [writeAccesses]
  simp only
  rw [if_neg (by simp [construct])]
  exact List.mem_append_left _ (hfree.resolve_left List.not_mem_nil)

/-- A capacity below `2^31` pages that is safe fits. -/
theorem fits_of_memorySafe (hsmall : numPages capacity < 2 ^ 31) (h : MemorySafe capacity) :
    Fits capacity := by
  by_contra hfits
  rw [Fits, not_or, not_and_or, not_or] at hfits
  obtain ⟨-, hfits⟩ := hfits
  rcases hfits with hpage | ⟨hone, hblocks⟩
  · -- the last page is partial, and a write of the whole drive fills it
    have hdvd : capacity % pageSize ≠ 0 := fun h0 => hpage (Nat.dvd_of_mod_eq_zero h0)
    have hlast : capacity / pageSize < numPages capacity := by
      simp only [numPages, pageSize] at hdvd ⊢
      omega
    have hbound := h.accesses [] ⟨0, some fun _ => 0, capacity⟩ _
      (whole_write_accesses hsmall (fun _ => 0) hlast)
    simp only [Access.InBounds, pageSize] at hbound hdvd
    omega
  · -- the last page lies in a block beyond the last whole one
    have hlast : numPages capacity - 1 < numPages capacity := by omega
    have hbound := h.allocatable [] (numPages capacity - 1 : ℕ)
      ((construct_freePages hsmall).mem_iff.mpr (mem_pagesDown.mpr ⟨_, hlast, rfl⟩))
      (Int.natCast_nonneg _)
    have hblock : blockOf (numPages capacity - 1) =
        ((numPages capacity - 1) / pagesPerBlock : ℕ) := by
      refine int32_natCast ?_
      simp only [pagesPerBlock]
      omega
    have hlt : (numPages capacity - 1) / pagesPerBlock < blocksOf (numPages capacity) := by
      rw [run, List.foldl_nil, construct_physBlock, Int.toNat_natCast, hblock] at hbound
      exact Int.ofNat_lt.mp hbound.2
    have hmod : numPages capacity % pagesPerBlock ≠ 0 :=
      fun h0 => hblocks (Nat.dvd_of_mod_eq_zero h0)
    rw [blocksOf_eq] at hlt
    simp only [pagesPerBlock] at hone hmod hlt
    omega

/-- **The safe capacities.**  Wherever the constructor's loop counter does not overflow, every run of
writes stays inside its buffers exactly when the pages in play fit: the capacity is a multiple of
the page size, with at most one block of pages or a whole number of blocks, or so large that its
`int32_t` page numbers never reach its end. -/
theorem memorySafe_iff (capacity : ℕ) (hcounter : numPages capacity % 2 ^ 32 ≠ 2 ^ 31) :
    MemorySafe capacity ↔ Fits capacity := by
  by_cases hlarge : 2 ^ 31 ≤ capacity / pageSize
  · exact iff_of_true (memorySafe_of_fits (.inl hlarge)) (.inl hlarge)
  · refine ⟨fits_of_memorySafe ?_, memorySafe_of_fits⟩
    simp only [numPages, pageSize] at hlarge hcounter ⊢
    omega

theorem memorySafe_iff_two_blocks : MemorySafe (512 * 4096) :=
  (memorySafe_iff (512 * 4096) (by decide)).mpr
    (.inr ⟨⟨512, rfl⟩, .inr ⟨2, by decide⟩⟩)

/-- **An over-provisioned capacity.**  64 MiB and seven percent more, rounded up to whole pages, are
17531 pages: the free lists hold pages of block 68, and there are 68 counts. -/
theorem memorySafe_overprovisioned : ¬ MemorySafe (17531 * 4096) := by
  intro h
  have hfits := fits_of_memorySafe (by decide) h
  simp only [Fits, numPages, pageSize, pagesPerBlock] at hfits
  omega

end FTJController

end FtjSsdSim.Engine
