import Mathlib
import FtjSsdSim.Library.Bits
import FtjSsdSim.Library.ByteStore
import FtjSsdSim.Library.Loop
import FtjSsdSim.Engine.Ecc

/-!
# The storage controller

`FTJController`: a flat byte buffer with one check byte for every eight data bytes, behind a
page-granular flash translation layer.  Every write goes to a fresh physical page; `RunGC` reclaims
the stale ones block by block, moving what is still valid.

Arrays are functions on indices, and `size_t` is `ℕ` where no operation can wrap.  The `int32_t`
entries of the tables are integers: `-1` means "none", and `int32` is the narrowing cast.  Latency,
voltage and temperature, which the data path computes and never branches on, are left out.
-/

namespace FtjSsdSim.Engine

open FtjSsdSim.Library FtjSsdSim.Engine.Ecc

/-- A conversion to `int32_t`. -/
def int32 (x : ℤ) : ℤ := x.bmod (2 ^ 32)

/-- The members of `CrossbarPhysicsConfig` that the data path reads. -/
structure CrossbarPhysicsConfig where
  halfSelectDisturbThreshold : BitVec 32 := 100000
  enableDisturbTracking : Bool := true

structure FTJController where
  capacity : ℕ
  memoryBuffer : ℕ → Byte
  eccBuffer : ℕ → Byte
  pageWrites : ℕ → BitVec 32
  pageCount : ℕ
  physicsCfg : CrossbarPhysicsConfig
  pageDisturbs : ℕ → BitVec 32
  totalHalfSelectDisturbs : BitVec 64
  numBlocks : ℕ
  l2pMap : ℕ → ℤ
  physValid : ℕ → Bool
  physOwnerLba : ℕ → ℤ
  physBlock : ℕ → ℤ
  blockValidCount : ℕ → ℤ
  freePhysicalPagesHot : List ℤ
  freePhysicalPagesCold : List ℤ
  lbaHotCounters : ℕ → BitVec 32
  gcLowWatermark : ℕ
  gcTargetFree : ℕ
  totalReads : BitVec 64
  totalWrites : BitVec 64
  correctedErrors : BitVec 64
  uncorrectableErrors : BitVec 64
  totalBitFlips : BitVec 64
  totalPhysicalBytesWritten : BitVec 64

namespace FTJController

/-- `PAGE_SIZE`. -/
abbrev pageSize : ℕ := 4096

/-- `PAGES_PER_BLOCK`. -/
abbrev pagesPerBlock : ℕ := 256

/-- `WEAR_THRESHOLD`. -/
def wearThreshold : BitVec 32 := 50000

/-- `HOT_THRESHOLD`. -/
def hotThreshold : BitVec 32 := 4

/-! ### Construction -/

/-- `num_pages`. -/
def numPages (capacityBytes : ℕ) : ℕ := (capacityBytes + pageSize - 1) / pageSize

/-- `num_blocks_`: the whole blocks, and one for a drive smaller than a block. -/
def blocksOf (numPages : ℕ) : ℕ :=
  if numPages / pagesPerBlock = 0 then 1 else numPages / pagesPerBlock

/-- The entry of `phys_block_` for page `p`. -/
def blockOf (p : ℕ) : ℤ := int32 (p / pagesPerBlock : ℕ)

/-- The pages that the constructor's loop, from the last page down, pushes on the free list of the hot
zone, or on the one of the cold zone. -/
def initialFreeList (pageCount hotBlocks : ℕ) (hot : Bool) : List ℤ :=
  forLoop 0 (int32 pageCount).toNat (fun i free =>
    let p := int32 pageCount - 1 - i
    let b := blockOf p.toNat
    if decide (0 ≤ b ∧ b.toNat < hotBlocks) = hot then free ++ [p] else free) []

/-- The constructor. -/
def construct (capacityBytes : ℕ) : FTJController :=
  let numPages := numPages capacityBytes
  let numBlocks := blocksOf numPages
  let hotBlocks := max 1 (numBlocks / 5)
  { capacity := capacityBytes
    memoryBuffer := fun _ => 0
    eccBuffer := fun _ => 0
    pageWrites := fun _ => 0
    pageCount := numPages
    physicsCfg := {}
    pageDisturbs := fun _ => 0
    totalHalfSelectDisturbs := 0
    numBlocks := numBlocks
    l2pMap := fun _ => -1
    physValid := fun _ => false
    physOwnerLba := fun _ => -1
    physBlock := blockOf
    blockValidCount := fun _ => 0
    freePhysicalPagesHot := initialFreeList numPages hotBlocks true
    freePhysicalPagesCold := initialFreeList numPages hotBlocks false
    lbaHotCounters := fun _ => 0
    gcLowWatermark := max 1 (numPages / 20)
    gcTargetFree := max 1 (numPages / 10)
    totalReads := 0
    totalWrites := 0
    correctedErrors := 0
    uncorrectableErrors := 0
    totalBitFlips := 0
    totalPhysicalBytesWritten := 0 }

/-! ### Pages -/

/-- The eight bytes of chunk `k` as a word. -/
def word (c : FTJController) (k : ℕ) : Word := ofBytes fun i => c.memoryBuffer (8 * k + i)

/-- The copy of a page's bytes and of its check bytes. -/
def copyPage (c : FTJController) (dst src : ℕ) : FTJController :=
  { c with
    memoryBuffer := blit c.memoryBuffer (dst * pageSize) c.memoryBuffer (src * pageSize) pageSize
    eccBuffer := blit c.eccBuffer (dst * pageSize / 8) c.eccBuffer (src * pageSize / 8)
      (pageSize / 8) }

/-- The zero fill of a page's bytes and of its check bytes. -/
def zeroPage (c : FTJController) (dst : ℕ) : FTJController :=
  { c with
    memoryBuffer := blit c.memoryBuffer (dst * pageSize) (fun _ => 0) 0 pageSize
    eccBuffer := blit c.eccBuffer (dst * pageSize / 8) (fun _ => 0) 0 (pageSize / 8) }

/-- `for (c = first; c <= last; ++c) ecc_buffer_[c] = CalculateECC(word c)`. -/
def recomputeEcc (c : FTJController) (first last : ℕ) : FTJController :=
  forLoop first (last + 1) (fun k c =>
    { c with eccBuffer := Function.update c.eccBuffer k (calculateECC (c.word k)) }) c

/-- The bytes of a write that fall into page `q`, and their check bytes. -/
def programBytes (c : FTJController) (q pageOffset : ℕ) (src : ℕ → Byte) (written toWrite : ℕ) :
    FTJController :=
  let c := { c with
    memoryBuffer := blit c.memoryBuffer (q * pageSize + pageOffset) src written toWrite }
  c.recomputeEcc ((q * pageSize + pageOffset) / 8) ((q * pageSize + pageOffset + toWrite - 1) / 8)

/-- The mapping update for a freshly programmed page. -/
def mapPage (c : FTJController) (lp q : ℕ) (owner : ℤ) : FTJController :=
  { c with
    l2pMap := Function.update c.l2pMap lp q
    physValid := Function.update c.physValid q true
    physOwnerLba := Function.update c.physOwnerLba q owner
    blockValidCount := Function.update c.blockValidCount (c.physBlock q).toNat
      (int32 (c.blockValidCount (c.physBlock q).toNat + 1))
    pageWrites := Function.update c.pageWrites q (c.pageWrites q + 1)
    totalPhysicalBytesWritten := c.totalPhysicalBytesWritten + pageSize }

/-- The invalidation of the page that was mapped before. -/
def invalidatePage (c : FTJController) (p : ℕ) : FTJController :=
  { c with
    physValid := Function.update c.physValid p false
    physOwnerLba := Function.update c.physOwnerLba p (-1)
    blockValidCount := Function.update c.blockValidCount (c.physBlock p).toNat
      (max 0 (c.blockValidCount (c.physBlock p).toNat - 1)) }

/-- The half-select disturb that programming page `q` causes on its neighbour. -/
def disturbNeighbor (c : FTJController) (q : ℕ) : FTJController :=
  if c.physicsCfg.enableDisturbTracking ∧ c.pageCount > 1 then
    let neighborPage := (Int.tmod (q + 1) (int32 c.pageCount)).toNat
    { c with
      pageDisturbs := Function.update c.pageDisturbs neighborPage (c.pageDisturbs neighborPage + 1)
      totalHalfSelectDisturbs := c.totalHalfSelectDisturbs + 1 }
  else c

/-! ### Allocation and garbage collection -/

/-- The number of entries on the two free lists. -/
def freeCount (c : FTJController) : ℕ :=
  c.freePhysicalPagesHot.length + c.freePhysicalPagesCold.length

/-- `back()` and `pop_back()` of the hot list. -/
def popHot (c : FTJController) : Option (ℤ × FTJController) :=
  c.freePhysicalPagesHot.getLast?.map fun p =>
    (p, { c with freePhysicalPagesHot := c.freePhysicalPagesHot.dropLast })

/-- `back()` and `pop_back()` of the cold list. -/
def popCold (c : FTJController) : Option (ℤ × FTJController) :=
  c.freePhysicalPagesCold.getLast?.map fun p =>
    (p, { c with freePhysicalPagesCold := c.freePhysicalPagesCold.dropLast })

/-- `AllocatePhysicalPage`: the preferred zone first, then the other one, `-1` when both are
empty. -/
def allocatePhysicalPage (c : FTJController) (preferHot : Bool) : ℤ × FTJController :=
  if preferHot then (c.popHot.or c.popCold).getD (-1, c)
  else (c.popCold.or c.popHot).getD (-1, c)

/-- The hotness of block `b`: the hot counters of the owners of its pages. -/
def hotScore (c : FTJController) (b : ℕ) : ℤ :=
  forLoop (b * pagesPerBlock) (min c.pageCount (b * pagesPerBlock + pagesPerBlock)) (fun p score =>
    let owner := c.physOwnerLba p
    if 0 ≤ owner ∧ owner.toNat < c.pageCount then
      int32 (score + int32 (c.lbaHotCounters owner.toNat).toNat)
    else score) 0

/-- The weight of block `b` as a victim. -/
def victimMetric (c : FTJController) (b : ℕ) : ℤ :=
  int32 (int32 (c.blockValidCount b * 16) + c.hotScore b)

/-- The first block of least weight below `INT_MAX`. -/
def selectVictim (c : FTJController) : Option ℕ :=
  (forLoop 0 c.numBlocks (fun b (best : Option ℕ × ℤ) =>
    if c.victimMetric b < best.2 then (some b, c.victimMetric b) else best) (none, 2 ^ 31 - 1)).1

/-- One iteration of the move loop: a valid page goes to a page taken from the free lists. -/
def relocatePage (c : FTJController) (p : ℕ) : FTJController :=
  if c.physValid p then
    let owner := c.physOwnerLba p
    let (newP, c) := c.allocatePhysicalPage false
    if newP < 0 then c
    else
      let c := c.copyPage newP.toNat p
      if 0 ≤ owner ∧ owner.toNat < c.pageCount then
        (c.mapPage owner.toNat newP.toNat owner).invalidatePage p
      else c
  else c

/-- One iteration of the erase loop: a page that is not valid goes to the free list of its zone. -/
def erasePage (c : FTJController) (p : ℕ) : FTJController :=
  if c.physValid p then c
  else
    let c := { c with
      physValid := Function.update c.physValid p false
      physOwnerLba := Function.update c.physOwnerLba p (-1) }
    let b := c.physBlock p
    if 0 ≤ b ∧ b.toNat < c.numBlocks / 5 then
      { c with freePhysicalPagesHot := c.freePhysicalPagesHot ++ [int32 p] }
    else { c with freePhysicalPagesCold := c.freePhysicalPagesCold ++ [int32 p] }

/-- The pages of block `b`: `start_p` and `end_p`. -/
def blockStart (b : ℕ) : ℕ := b * pagesPerBlock

def blockEnd (c : FTJController) (b : ℕ) : ℕ := min c.pageCount (b * pagesPerBlock + pagesPerBlock)

/-- The move loop of a victim block. -/
def moveValidPages (c : FTJController) (b : ℕ) : FTJController :=
  forLoop (blockStart b) (c.blockEnd b) (fun p c => c.relocatePage p) c

/-- The erase loop of a victim block. -/
def eraseBlock (c : FTJController) (b : ℕ) : FTJController :=
  forLoop (blockStart b) (c.blockEnd b) (fun p c => c.erasePage p) c

/-- One collection of block `b`. -/
def collectBlock (c : FTJController) (b : ℕ) : FTJController :=
  let c := (c.moveValidPages b).eraseBlock b
  { c with blockValidCount := Function.update c.blockValidCount b 0 }

/-- `RunGC`. -/
def runGC (c : FTJController) (targetFree : ℕ) : FTJController :=
  if c.freeCount < targetFree then
    match c.selectVictim with
    | none => c
    | some b =>
      let c' := c.collectBlock b
      if c'.freeCount ≤ c.freeCount then c'
      else if targetFree ≤ c'.freeCount then c'
      else runGC c' targetFree
  else c
termination_by targetFree - c.freeCount
decreasing_by
  rename_i hlow hprogress _
  have h : ¬ (c.collectBlock b).freeCount ≤ c.freeCount := hprogress
  omega

/-! ### Write -/

/-- `std::min<uint32_t>(UINT32_MAX, x)`. -/
def capCounter (x : BitVec 32) : BitVec 32 :=
  if x < BitVec.allOnes 32 then x else BitVec.allOnes 32

/-- The hot counter of logical page `lp`, one higher. -/
def heat (c : FTJController) (lp : ℕ) : FTJController :=
  if lp < c.pageCount then
    { c with
      lbaHotCounters := Function.update c.lbaHotCounters lp
        (capCounter (c.lbaHotCounters lp + 1)) }
  else c

/-- Allocation for a write: a collection once, if there is no free page. -/
def claimPage (c : FTJController) (preferHot : Bool) : ℤ × FTJController :=
  let (newPhys, c) := c.allocatePhysicalPage preferHot
  if newPhys < 0 then (c.runGC c.gcTargetFree).allocatePhysicalPage preferHot else (newPhys, c)

/-- The part of a write that falls into logical page `lp`, put into physical page `q`. -/
def storePage (c : FTJController) (lp q pageOffset : ℕ) (src : ℕ → Byte) (written toWrite : ℕ) :
    FTJController :=
  let oldPhys := if lp < c.pageCount then c.l2pMap lp else -1
  let c := if 0 ≤ oldPhys then c.copyPage q oldPhys.toNat else c.zeroPage q
  let c := c.programBytes q pageOffset src written toWrite
  let c := c.mapPage lp q (int32 lp)
  let c := c.disturbNeighbor q
  if 0 ≤ oldPhys then c.invalidatePage oldPhys.toNat else c

/-- The page is written often enough to be kept in the hot zone. -/
def prefersHot (c : FTJController) (lp : ℕ) : Bool :=
  lp < c.pageCount && hotThreshold ≤ c.lbaHotCounters lp

/-- The page loop of `Write`; `false` when a page cannot be allocated. -/
def writeLoop (c : FTJController) (src : ℕ → Byte) (startByte endByte written : ℕ) :
    Bool × FTJController :=
  if startByte < endByte then
    let lp := startByte / pageSize
    let pageOffset := startByte % pageSize
    let toWrite := min (endByte - startByte) (pageSize - pageOffset)
    let c := c.heat lp
    let (newPhys, c) := c.claimPage (c.prefersHot lp)
    if newPhys < 0 then (false, c)
    else
      writeLoop (c.storePage lp newPhys.toNat pageOffset src written toWrite) src
        (startByte + toWrite) endByte (written + toWrite)
  else (true, c)
termination_by endByte - startByte
decreasing_by
  have := Nat.mod_lt startByte (show 0 < 4096 by decide)
  simp only [pageSize]
  omega

/-- `Write`; `none` is the null source pointer. -/
def write (c : FTJController) (offset : ℕ) (src : Option (ℕ → Byte)) (size : ℕ) :
    Bool × FTJController :=
  match src with
  | none => (false, c)
  | some src =>
    if size > c.capacity ∨ offset > c.capacity - size then (false, c)
    else
      match c.writeLoop src offset (offset + size) 0 with
      | (false, c) => (false, c)
      | (true, c) =>
        let c := { c with totalWrites := c.totalWrites + 1 }
        if c.freeCount < c.gcLowWatermark then (true, c.runGC c.gcTargetFree) else (true, c)

/-! ### Read -/

/-- `SimpleRand`: the next value of the seed. -/
def simpleRand (seed : Word) : Word := seed * 6364136223846793005 + 1442695040888963407

/-- `while (bit2 == bit1) bit2 = SimpleRand(g_seed) % 64`, from the seed of the last draw and for at
most so many rounds. -/
def redraw (bit1 : ℕ) : ℕ → Word → Word
  | 0, seed => seed
  | n + 1, seed => if seed.toNat % 64 = bit1 then redraw bit1 n (simpleRand seed) else seed

/-- A read in progress: the caller's buffer, how much of it is filled, and what the call changes. -/
structure ReadState where
  dest : ℕ → Byte
  destOffset : ℕ
  success : Bool
  seed : Word
  correctedErrors : BitVec 64
  uncorrectableErrors : BitVec 64
  totalBitFlips : BitVec 64

/-- The comparison of a drawn value (of 10000) with the error probability that the wear, the
disturbs and the disturb threshold give: the one step of the data path in floating point. -/
abbrev Hits := BitVec 32 → BitVec 32 → BitVec 32 → ℕ → Bool

/-- The page is worn or disturbed enough for bit errors. -/
def degraded (c : FTJController) (phys : ℕ) : Prop :=
  c.pageWrites phys > wearThreshold ∨
    c.pageDisturbs phys > c.physicsCfg.halfSelectDisturbThreshold

instance (c : FTJController) (phys : ℕ) : Decidable (c.degraded phys) :=
  inferInstanceAs (Decidable (_ ∨ _))

/-- The bit error simulation on one word of page `phys`: none, one or two flipped bits. -/
def injectBitErrors (hits : Hits) (c : FTJController) (phys : ℕ) (data : Word) (st : ReadState) :
    Word × ReadState :=
  if c.degraded phys then
    let seed := simpleRand st.seed
    if hits (c.pageWrites phys) (c.pageDisturbs phys) c.physicsCfg.halfSelectDisturbThreshold
        (seed.toNat % 10000) then
      let seed := simpleRand seed
      let bit1 := seed.toNat % 64
      let data := data ^^^ (1#64 <<< bit1)
      let st := { st with totalBitFlips := st.totalBitFlips + 1 }
      let seed := simpleRand seed
      -- `rand_val2 < 0.20`
      if seed.toNat % 10000 < 2000 then
        let seed := redraw bit1 64 (simpleRand seed)
        let bit2 := seed.toNat % 64
        (data ^^^ (1#64 <<< bit2),
          { st with seed := seed, totalBitFlips := st.totalBitFlips + 1 })
      else (data, { st with seed := seed })
    else (data, { st with seed := seed })
  else (data, st)

/-- The copy of bytes `startB, …, endB - 1` of a decoded word, which starts at `localOffset`. -/
def copyWord (data : Word) (localOffset startB endB : ℕ) (st : ReadState) : ReadState :=
  forLoop startB endB (fun b st => { st with
    dest := Function.update st.dest st.destOffset (byteAt data (b - localOffset))
    destOffset := st.destOffset + 1 }) st

/-- One 8-byte chunk of page `phys`. -/
def readChunk (hits : Hits) (c : FTJController) (phys pageOffset toCopy chunkOffset : ℕ)
    (st : ReadState) : ReadState :=
  let localOffset := chunkOffset - phys * pageSize
  let startB := if localOffset < pageOffset then pageOffset else localOffset
  let endB := min (localOffset + 8) (pageOffset + toCopy)
  let dataWord := ofBytes fun i => c.memoryBuffer (phys * pageSize + localOffset + i)
  let storedEcc := c.eccBuffer ((phys * pageSize + localOffset) / 8)
  let (dataWord, st) := injectBitErrors hits c phys dataWord st
  let (err, dataWord) := decodeAndCorrect dataWord storedEcc
  let st :=
    if err = 1 then { st with correctedErrors := st.correctedErrors + 1 }
    else if err = 2 then
      { st with uncorrectableErrors := st.uncorrectableErrors + 1, success := false }
    else st
  copyWord dataWord localOffset startB endB st

/-- The part of a read that falls into one logical page, whose table entry is `phys`. -/
def readPage (hits : Hits) (c : FTJController) (phys : ℤ) (pageOffset toCopy : ℕ)
    (st : ReadState) : ReadState :=
  if phys < 0 ∨ c.physValid phys.toNat = false then
    { st with
      dest := blit st.dest st.destOffset (fun _ => 0) 0 toCopy
      destOffset := st.destOffset + toCopy }
  else
    let first := phys.toNat * pageSize + pageOffset
    let chunkStart := first / 8 * 8
    let chunkEnd := (first + toCopy + 7) / 8 * 8
    forLoop 0 ((chunkEnd - chunkStart) / 8)
      (fun i st => readChunk hits c phys.toNat pageOffset toCopy (chunkStart + 8 * i) st) st

/-- The page loop of `Read`. -/
def readLoop (hits : Hits) (c : FTJController) (startByte endByte : ℕ) (st : ReadState) :
    ReadState :=
  if startByte < endByte then
    let lp := startByte / pageSize
    let pageOffset := startByte % pageSize
    let toCopy := min (endByte - startByte) (pageSize - pageOffset)
    let phys := if lp < c.pageCount then c.l2pMap lp else -1
    readLoop hits c (startByte + toCopy) endByte (readPage hits c phys pageOffset toCopy st)
  else st
termination_by endByte - startByte
decreasing_by
  have := Nat.mod_lt startByte (show 0 < 4096 by decide)
  simp only [pageSize]
  omega

/-- What `Read` returns and leaves behind. -/
structure ReadResult where
  ok : Bool
  dest : Option (ℕ → Byte)
  seed : Word
  controller : FTJController

/-- `Read`; `none` is the null destination pointer. -/
def read (hits : Hits) (c : FTJController) (seed : Word) (offset : ℕ)
    (dest : Option (ℕ → Byte)) (size : ℕ) : ReadResult :=
  match dest with
  | none => ⟨false, none, seed, c⟩
  | some dest =>
    if size > c.capacity ∨ offset > c.capacity - size then ⟨false, some dest, seed, c⟩
    else
      let st := readLoop hits c offset (offset + size)
        ⟨dest, 0, true, seed, c.correctedErrors, c.uncorrectableErrors, c.totalBitFlips⟩
      ⟨st.success, some st.dest, st.seed, { c with
        totalReads := c.totalReads + 1
        correctedErrors := st.correctedErrors
        uncorrectableErrors := st.uncorrectableErrors
        totalBitFlips := st.totalBitFlips }⟩

/-! ### Wear, drift and refresh -/

/-- `InjectHeavyWear`. -/
def injectHeavyWear (c : FTJController) (offset : ℕ) (writeCount : BitVec 32) : FTJController :=
  let page := offset / 4096
  if page < c.pageCount then
    { c with pageWrites := Function.update c.pageWrites page writeCount }
  else c

/-- `SimulateRetentionDrift`, from a seed and with the next seed as result: each valid page may lose one
bit.  `drifts` is the comparison of a drawn value (of 10000) with the probability that the time and the
temperature give. -/
def simulateRetentionDrift (drifts : ℕ → Bool) (c : FTJController) (seed : Word) :
    Word × FTJController :=
  forLoop 0 c.pageCount (fun p (r : Word × FTJController) =>
    if r.2.physValid p then
      let seed := simpleRand r.1
      if drifts (seed.toNat % 10000) then
        let seed := simpleRand seed
        let bytePos := p * pageSize + seed.toNat % pageSize
        let seed := simpleRand seed
        (seed, { r.2 with
          memoryBuffer := Function.update r.2.memoryBuffer bytePos
            (r.2.memoryBuffer bytePos ^^^ ((1 : Byte) <<< (seed.toNat % 8)))
          totalBitFlips := r.2.totalBitFlips + 1 })
      else (seed, r.2)
    else r) (seed, c)

/-- `SetPhysicsConfig`. -/
def setPhysicsConfig (c : FTJController) (config : CrossbarPhysicsConfig) : FTJController :=
  { c with physicsCfg := config }

/-- `TriggerAutonomousRefresh`, which returns the number of the pages it refreshes. -/
def triggerAutonomousRefresh (c : FTJController) : BitVec 64 × FTJController :=
  forLoop 0 c.pageCount (fun p (r : BitVec 64 × FTJController) =>
    if 0 < r.2.pageDisturbs p then
      (r.1 + 1, { r.2 with pageDisturbs := Function.update r.2.pageDisturbs p 0 })
    else r) (0, c)

end FTJController

end FtjSsdSim.Engine
