import Mathlib
import FtjSsdSim.Library.Machine
import FtjSsdSim.Hdl.Ecc

/-!
# The top-level controller

`ftj_top_controller` serves one AXI4 burst at a time: it fetches the address, collects the beats,
looks the block up in `ftl_l2p_map`, issues one NAND command and answers.  Garbage collection and
wear levelling are detours of the same FSM.  `step` is one clock edge with reset released, one
function for each `STATE_…`, with the non-blocking assignments in source order: every right-hand
side reads the registers `s` before the edge.

* The memories are not reset, so `reset` takes their contents as an argument.
* `pe_cycle_table` and `gc_valid_count` have `BLOCKS` entries.  A read past the end is undefined,
  which no comparison accepts; a write past the end has no effect.
* `nand_io` is `none` while no one drives it.  A word latched from such a bus is `none` as well.
-/

namespace FtjSsdSim.Hdl.TopController

open FtjSsdSim.Library

/-! ### The module of the source -/

/-- The parameters that the code reads.  `curr_pba[9:0]` has to be a part of an address. -/
structure Params where
  addrWidth : ℕ
  dataWidth : ℕ
  eccWidth : ℕ
  blocks : ℕ
  tlcMaxPe : ℕ
  gcThreshold : ℕ
  ten_le_addrWidth : 10 ≤ addrWidth
  dataWidth_pos : 0 < dataWidth
  eccWidth_pos : 0 < eccWidth

/-- The parameters at their defaults. -/
def defaults : Params where
  addrWidth := 32
  dataWidth := 64
  eccWidth := 8
  blocks := 1024
  tlcMaxPe := 3000
  gcThreshold := 100
  ten_le_addrWidth := by decide
  dataWidth_pos := by decide
  eccWidth_pos := by decide

/-- The sixteen states, in the order of their codes. -/
inductive Fsm where
  | idle
  | fetch
  | coalesce
  | ftlTranslate
  | eccGen
  | pageProgram
  | progWait
  | pageRead
  | readWait
  | gcSelect
  | gcCopy
  | blockErase
  | eraseWait
  | wlRemap
  | afeSense
  | respond
  deriving DecidableEq, Repr

/-- The input pins of the AXI channels that the controller reads. -/
structure Host where
  awvalid : Bool
  awaddr : BitVec 32
  awlen : Byte
  wvalid : Bool
  wdata : Word
  wlast : Bool
  bready : Bool
  arvalid : Bool
  araddr : BitVec 32
  arlen : Byte
  rready : Bool
  deriving DecidableEq, Repr

/-- A host that asks for nothing and takes nothing. -/
def Host.silent : Host where
  awvalid := false
  awaddr := 0
  awlen := 0
  wvalid := false
  wdata := 0
  wlast := false
  bready := false
  arvalid := false
  araddr := 0
  arlen := 0
  rready := false

/-- The input pins at a clock edge. -/
structure Input extends Host where
  nandRbN : Bool
  nandIo : Option Byte
  deriving DecidableEq, Repr

/-- The registers behind the AXI outputs. -/
structure AxiRegs where
  awready : Bool
  wready : Bool
  bvalid : Bool
  bresp : BitVec 2
  arready : Bool
  rvalid : Bool
  rdata : Option Word
  rresp : BitVec 2
  rlast : Bool
  deriving DecidableEq, Repr

/-- The registers behind the NAND pins; `oe` lets `io` onto the bus. -/
structure NandRegs where
  cle : Bool
  ale : Bool
  reN : Bool
  weN : Bool
  ceN : Bool
  io : Byte
  oe : Bool
  deriving DecidableEq, Repr

/-- The memories. -/
structure Memories (p : Params) where
  ftlL2pMap : Byte → BitVec p.addrWidth
  peCycleTable : BitVec 10 → BitVec 16
  gcValidCount : BitVec 10 → Byte

/-- Memories of zeros. -/
def blank (p : Params) : Memories p := ⟨fun _ => 0, fun _ => 0, fun _ => 0⟩

/-- The registers and memories of `ftj_top_controller`. -/
structure State (p : Params) extends Memories p where
  state : Fsm
  axi : AxiRegs
  nand : NandRegs
  freeBlockCount : BitVec 10
  gcVictimBlock : BitVec 10
  gcScanPtr : BitVec 10
  minGcCount : Byte
  wlColdVictim : BitVec p.addrWidth
  wlHotBlock : BitVec p.addrWidth
  wlScanPtr : BitVec 10
  minPeCount : BitVec 16
  wlNeeded : Bool
  burstBeatCnt : Byte
  burstLenLatch : Byte
  burstBaseAddr : BitVec p.addrWidth
  nandWaitCnt : BitVec 19
  initDone : Bool
  initPtr : Byte
  peInitPtr : BitVec 10
  currOp : Bool
  currPba : BitVec p.addrWidth
  currWdata : Word
  latchEcc : Byte
  latchRdata : Option (BitVec 72)

variable {p : Params}

/-- The state after reset. -/
def reset (m : Memories p) : State p where
  toMemories := m
  state := .idle
  axi := ⟨false, false, false, 0, false, false, some 0, 0, false⟩
  nand := ⟨false, false, true, true, true, 0x00, false⟩
  freeBlockCount := BitVec.ofNat 10 p.blocks
  gcVictimBlock := 0
  gcScanPtr := 0
  minGcCount := 0xFF
  wlColdVictim := 0
  wlHotBlock := 0
  wlScanPtr := 0
  minPeCount := 0xFFFF
  wlNeeded := false
  burstBeatCnt := 0
  burstLenLatch := 0
  burstBaseAddr := 0
  nandWaitCnt := 0
  initDone := false
  initPtr := 0
  peInitPtr := 0
  currOp := false
  currPba := 0
  currWdata := 0
  latchEcc := 0
  latchRdata := some 0

/-- The block `[9:0]` of an address. -/
def block (pba : BitVec p.addrWidth) : BitVec 10 := pba.setWidth 10

/-- `ptr` is an index of the `BLOCKS` entries. -/
def InRange (p : Params) (ptr : BitVec 10) : Prop := ptr.toNat < p.blocks

/-- `ptr == BLOCKS - 1`. -/
def IsLast (p : Params) (ptr : BitVec 10) : Prop := ptr.toNat + 1 = p.blocks

instance (ptr : BitVec 10) : Decidable (InRange p ptr) := inferInstanceAs (Decidable (_ < _))

instance (ptr : BitVec 10) : Decidable (IsLast p ptr) := inferInstanceAs (Decidable (_ = _))

/-- `table[ptr] <= v` for a table of `BLOCKS` entries. -/
def store {α : Type*} (p : Params) (table : BitVec 10 → α) (ptr : BitVec 10) (v : α) :
    BitVec 10 → α :=
  if InRange p ptr then Function.update table ptr v else table

/-- One cycle of initialisation. -/
def initialise (s : State p) : State p :=
  let n := { s with
    ftlL2pMap := Function.update s.ftlL2pMap s.initPtr (s.initPtr.setWidth p.addrWidth)
    initPtr := s.initPtr + 1
    peCycleTable := store p s.peCycleTable s.peInitPtr 0
    gcValidCount := store p s.gcValidCount s.peInitPtr 0
    peInitPtr := if IsLast p s.peInitPtr then s.peInitPtr else s.peInitPtr + 1 }
  if s.initPtr = 0xFF ∧ IsLast p s.peInitPtr then { n with initDone := true } else n

/-- `STATE_IDLE`. -/
def idle (s : State p) (i : Input) : State p :=
  let n := { s with axi := { s.axi with bvalid := false, rvalid := false, rlast := false } }
  if !s.initDone then initialise n
  else if s.freeBlockCount.toNat < p.gcThreshold then
    { n with state := .gcSelect, gcScanPtr := 0, gcVictimBlock := 0, minGcCount := 0xFF }
  else if i.awvalid && !s.axi.awready then
    { n with axi := { n.axi with awready := true }, state := .fetch }
  else if i.arvalid && !s.axi.arready then
    { n with
      axi := { n.axi with arready := true }
      currOp := false
      burstBaseAddr := i.araddr.setWidth p.addrWidth
      burstLenLatch := i.arlen
      state := .ftlTranslate }
  else n

/-- `STATE_FETCH`. -/
def fetch (s : State p) (i : Input) : State p :=
  { s with
    burstLenLatch := i.awlen
    burstBaseAddr := i.awaddr.setWidth p.addrWidth
    axi := { s.axi with awready := false, wready := true }
    currOp := true
    burstBeatCnt := 0
    state := .coalesce }

/-- `STATE_COALESCE`. -/
def coalesce (s : State p) (i : Input) : State p :=
  if i.wvalid && s.axi.wready then
    let n := { s with burstBeatCnt := s.burstBeatCnt + 1, currWdata := i.wdata }
    if i.wlast then
      { n with axi := { s.axi with wready := false }, state := .ftlTranslate }
    else n
  else s

/-- `STATE_FTL_TRANSLATE`. -/
def ftlTranslate (s : State p) : State p :=
  { s with
    axi := { s.axi with arready := false }
    currPba := s.ftlL2pMap (s.burstBaseAddr.setWidth 8)
    state := if s.currOp then .eccGen else .pageRead }

/-- `STATE_ECC_GEN`; `ecc_enc_out` is `ECC_WIDTH` bits wide. -/
def eccGen (s : State p) : State p :=
  { s with
    latchEcc := ((Ecc.ftjEccEncoder s.currWdata).setWidth p.eccWidth).setWidth 8
    state := .pageProgram }

/-- The pins while the command `cmd` is put on the bus. -/
def NandRegs.issue (r : NandRegs) (cmd : Byte) : NandRegs :=
  { r with cle := true, weN := false, io := cmd, oe := true, ceN := false }

/-- The pins in the wait states. -/
def NandRegs.release (r : NandRegs) : NandRegs := { r with cle := false, weN := true, oe := false }

/-- `STATE_PAGE_PROGRAM`. -/
def pageProgram (s : State p) : State p :=
  let b := block s.currPba
  let n := { s with
    nand := s.nand.issue 0x80
    nandWaitCnt := 30000
    peCycleTable := store p s.peCycleTable b (s.peCycleTable b + 1)
    state := .progWait }
  if InRange p b ∧ p.tlcMaxPe < (s.peCycleTable b).toNat then
    { n with wlNeeded := true, wlHotBlock := s.currPba }
  else { n with wlNeeded := false }

/-- `STATE_PROG_WAIT`. -/
def progWait (s : State p) (i : Input) : State p :=
  let n := { s with nand := s.nand.release }
  if s.nandWaitCnt > 0 then { n with nandWaitCnt := s.nandWaitCnt - 1 }
  else if i.nandRbN then
    if s.wlNeeded then
      { n with state := .wlRemap, wlScanPtr := 0, wlColdVictim := 0, minPeCount := 0xFFFF }
    else { n with state := .respond }
  else n

/-- `STATE_PAGE_READ`. -/
def pageRead (s : State p) : State p :=
  { s with nand := s.nand.issue 0x00, nandWaitCnt := 2500, state := .readWait }

/-- `STATE_READ_WAIT`. -/
def readWait (s : State p) (i : Input) : State p :=
  let n := { s with nand := s.nand.release }
  if s.nandWaitCnt > 0 then { n with nandWaitCnt := s.nandWaitCnt - 1 }
  else if i.nandRbN then
    { n with latchRdata := i.nandIo.map (BitVec.setWidth 72), state := .afeSense }
  else n

/-- `ecc_dec_out_data`.  Undefined bits in the low byte make every bit of the syndrome undefined, so
the decoder passes its input on. -/
def eccDecOutData (p : Params) (latch : Option (BitVec 72)) : Option Word :=
  latch.map fun d =>
    ((Ecc.ftjEccDecoder (d.extractLsb' 0 64) (d.extractLsb' 64 8)).dataOut.setWidth
      p.dataWidth).setWidth 64

/-- `STATE_AFE_SENSE`. -/
def afeSense (s : State p) : State p :=
  { s with
    axi := { s.axi with rvalid := true, rdata := eccDecOutData p s.latchRdata, rlast := true }
    state := .respond }

/-- `STATE_GC_SELECT`. -/
def gcSelect (s : State p) : State p :=
  if s.gcScanPtr = 0 then
    { s with minGcCount := s.gcValidCount 0, gcVictimBlock := 0, gcScanPtr := 1 }
  else
    let n :=
      if InRange p s.gcScanPtr ∧ s.gcValidCount s.gcScanPtr < s.minGcCount then
        { s with minGcCount := s.gcValidCount s.gcScanPtr, gcVictimBlock := s.gcScanPtr }
      else s
    let n := { n with gcScanPtr := s.gcScanPtr + 1 }
    if IsLast p s.gcScanPtr then { n with state := .gcCopy } else n

/-- `STATE_GC_COPY`. -/
def gcCopy (s : State p) : State p :=
  { s with gcValidCount := store p s.gcValidCount s.gcVictimBlock 0, state := .blockErase }

/-- `STATE_BLOCK_ERASE`. -/
def blockErase (s : State p) : State p :=
  { s with
    nand := s.nand.issue 0x60
    nandWaitCnt := 300000
    freeBlockCount := s.freeBlockCount + 1
    state := .eraseWait }

/-- `STATE_ERASE_WAIT`. -/
def eraseWait (s : State p) (i : Input) : State p :=
  let n := { s with nand := s.nand.release }
  if s.nandWaitCnt > 0 then { n with nandWaitCnt := s.nandWaitCnt - 1 }
  else if i.nandRbN then { n with nand := { n.nand with ceN := true }, state := .idle }
  else n

/-- `STATE_WL_REMAP`. -/
def wlRemap (s : State p) : State p :=
  if s.wlScanPtr = 0 then
    { s with minPeCount := s.peCycleTable 0, wlColdVictim := 0, wlScanPtr := 1 }
  else
    let n :=
      if InRange p s.wlScanPtr ∧ s.peCycleTable s.wlScanPtr < s.minPeCount then
        { s with
          minPeCount := s.peCycleTable s.wlScanPtr
          wlColdVictim := s.wlScanPtr.setWidth p.addrWidth }
      else s
    let n := { n with wlScanPtr := s.wlScanPtr + 1 }
    if IsLast p s.wlScanPtr then
      { n with
        ftlL2pMap := Function.update s.ftlL2pMap (s.wlColdVictim.setWidth 8) s.wlHotBlock
        state := .respond }
    else n

/-- `STATE_RESPOND`. -/
def respond (s : State p) (i : Input) : State p :=
  let n := { s with nand := { s.nand with ceN := true } }
  if s.currOp then
    let n := { n with axi := { s.axi with bvalid := true, bresp := 0 } }
    if i.bready && s.axi.bvalid then
      { n with axi := { n.axi with bvalid := false }, state := .idle }
    else n
  else if i.rready && s.axi.rvalid then
    { n with axi := { s.axi with rvalid := false, rlast := false }, state := .idle }
  else if !s.axi.rvalid then { n with state := .idle }
  else n

/-- One clock edge. -/
def step (s : State p) (i : Input) : State p :=
  match s.state with
  | .idle => idle s i
  | .fetch => fetch s i
  | .coalesce => coalesce s i
  | .ftlTranslate => ftlTranslate s
  | .eccGen => eccGen s
  | .pageProgram => pageProgram s
  | .progWait => progWait s i
  | .pageRead => pageRead s
  | .readWait => readWait s i
  | .gcSelect => gcSelect s
  | .gcCopy => gcCopy s
  | .blockErase => blockErase s
  | .eraseWait => eraseWait s i
  | .wlRemap => wlRemap s
  | .afeSense => afeSense s
  | .respond => respond s i

/-! ### What an edge does to a register -/

section

variable (s : State p) (i : Input)

/-- The wait states count down to zero. -/
theorem waiting_iff (w : BitVec 19) : w > 0 ↔ ¬ w = 0 := by
  bv_omega

/-- The transitions of the FSM. -/
theorem state_step : (step s i).state =
    match s.state with
    | .idle =>
      if s.initDone = false then .idle
      else if s.freeBlockCount.toNat < p.gcThreshold then .gcSelect
      else if i.awvalid = true ∧ s.axi.awready = false then .fetch
      else if i.arvalid = true ∧ s.axi.arready = false then .ftlTranslate
      else .idle
    | .fetch => .coalesce
    | .coalesce =>
      if i.wvalid = true ∧ s.axi.wready = true ∧ i.wlast = true then .ftlTranslate else .coalesce
    | .ftlTranslate => if s.currOp = true then .eccGen else .pageRead
    | .eccGen => .pageProgram
    | .pageProgram => .progWait
    | .progWait =>
      if s.nandWaitCnt = 0 ∧ i.nandRbN = true then
        if s.wlNeeded = true then .wlRemap else .respond
      else .progWait
    | .pageRead => .readWait
    | .readWait => if s.nandWaitCnt = 0 ∧ i.nandRbN = true then .afeSense else .readWait
    | .gcSelect => if s.gcScanPtr ≠ 0 ∧ IsLast p s.gcScanPtr then .gcCopy else .gcSelect
    | .gcCopy => .blockErase
    | .blockErase => .eraseWait
    | .eraseWait => if s.nandWaitCnt = 0 ∧ i.nandRbN = true then .idle else .eraseWait
    | .wlRemap => if s.wlScanPtr ≠ 0 ∧ IsLast p s.wlScanPtr then .respond else .wlRemap
    | .afeSense => .respond
    | .respond =>
      if s.currOp = true then
        if i.bready = true ∧ s.axi.bvalid = true then .idle else .respond
      else if i.rready = true ∨ s.axi.rvalid = false then .idle else .respond := by
  cases hs : s.state <;>
    simp only [step, hs, waiting_iff, idle, initialise, fetch, coalesce, ftlTranslate, eccGen, pageProgram,
      progWait, pageRead, readWait, afeSense, gcSelect, gcCopy, blockErase, eraseWait, wlRemap,
      respond] <;>
    split_ifs <;> simp_all

/-- The memories after an edge. -/
theorem toMemories_step : (step s i).toMemories =
    match s.state with
    | .idle => if s.initDone then s.toMemories else (initialise s).toMemories
    | .pageProgram => { s.toMemories with
        peCycleTable := store p s.peCycleTable (block s.currPba)
          (s.peCycleTable (block s.currPba) + 1) }
    | .gcCopy => { s.toMemories with gcValidCount := store p s.gcValidCount s.gcVictimBlock 0 }
    | .wlRemap =>
      if s.wlScanPtr ≠ 0 ∧ IsLast p s.wlScanPtr then { s.toMemories with
        ftlL2pMap := Function.update s.ftlL2pMap (s.wlColdVictim.setWidth 8) s.wlHotBlock }
      else s.toMemories
    | _ => s.toMemories := by
  cases hs : s.state <;>
    simp only [step, hs, idle, initialise, fetch, coalesce, ftlTranslate, eccGen, pageProgram,
      progWait, pageRead, readWait, afeSense, gcSelect, gcCopy, blockErase, eraseWait, wlRemap,
      respond] <;>
    split_ifs <;> simp_all

/-- After initialisation the memories move in three states only. -/
theorem toMemories_kept {s : State p} (i : Input) (hd : s.initDone = true)
    (hp : s.state ≠ .pageProgram) (hg : s.state ≠ .gcCopy) (hw : s.state ≠ .wlRemap) :
    (step s i).toMemories = s.toMemories := by
  rw [toMemories_step]
  cases hs : s.state with
  | idle => simp only [hd, if_true]
  | pageProgram => exact absurd hs hp
  | gcCopy => exact absurd hs hg
  | wlRemap => exact absurd hs hw
  | _ => rfl

/-- The initialisation registers after an edge. -/
theorem init_step : (step s i).initDone =
      (s.initDone || decide (s.state = .idle ∧ s.initPtr = 0xFF ∧ IsLast p s.peInitPtr)) ∧
    (s.state = .idle → s.initDone = false → (step s i).initPtr = s.initPtr + 1 ∧
      (step s i).peInitPtr = if IsLast p s.peInitPtr then s.peInitPtr else s.peInitPtr + 1) := by
  cases hs : s.state <;>
    simp only [step, hs, idle, initialise, fetch, coalesce, ftlTranslate, eccGen, pageProgram,
      progWait, pageRead, readWait, afeSense, gcSelect, gcCopy, blockErase, eraseWait, wlRemap,
      respond] <;>
    split_ifs <;> simp_all

/-- The registers of the victim scan after an edge. -/
theorem gcScan_step :
    ((step s i).gcScanPtr, (step s i).gcVictimBlock, (step s i).minGcCount) =
    match s.state with
    | .idle =>
      if s.initDone = true ∧ s.freeBlockCount.toNat < p.gcThreshold then (0, 0, 0xFF)
      else (s.gcScanPtr, s.gcVictimBlock, s.minGcCount)
    | .gcSelect =>
      if s.gcScanPtr = 0 then (1, 0, s.gcValidCount 0)
      else if InRange p s.gcScanPtr ∧ s.gcValidCount s.gcScanPtr < s.minGcCount then
        (s.gcScanPtr + 1, s.gcScanPtr, s.gcValidCount s.gcScanPtr)
      else (s.gcScanPtr + 1, s.gcVictimBlock, s.minGcCount)
    | _ => (s.gcScanPtr, s.gcVictimBlock, s.minGcCount) := by
  cases hs : s.state <;>
    simp only [step, hs, idle, initialise, fetch, coalesce, ftlTranslate, eccGen, pageProgram,
      progWait, pageRead, readWait, afeSense, gcSelect, gcCopy, blockErase, eraseWait, wlRemap,
      respond] <;>
    split_ifs <;> simp_all

/-- The NAND pins after an edge. -/
theorem nand_step : (step s i).nand =
    match s.state with
    | .pageProgram => s.nand.issue 0x80
    | .pageRead => s.nand.issue 0x00
    | .blockErase => s.nand.issue 0x60
    | .progWait => s.nand.release
    | .readWait => s.nand.release
    | .eraseWait =>
      if s.nandWaitCnt = 0 ∧ i.nandRbN = true then { s.nand.release with ceN := true }
      else s.nand.release
    | .respond => { s.nand with ceN := true }
    | _ => s.nand := by
  cases hs : s.state <;>
    simp only [step, hs, waiting_iff, idle, initialise, fetch, coalesce, ftlTranslate, eccGen, pageProgram,
      progWait, pageRead, readWait, afeSense, gcSelect, gcCopy, blockErase, eraseWait, wlRemap,
      respond] <;>
    split_ifs <;> simp_all

/-- The AXI registers after an edge. -/
theorem axi_step : (step s i).axi =
    match s.state with
    | .idle =>
      let a : AxiRegs := { s.axi with bvalid := false, rvalid := false, rlast := false }
      if s.initDone = false then a
      else if s.freeBlockCount.toNat < p.gcThreshold then a
      else if i.awvalid = true ∧ s.axi.awready = false then { a with awready := true }
      else if i.arvalid = true ∧ s.axi.arready = false then { a with arready := true }
      else a
    | .fetch => { s.axi with awready := false, wready := true }
    | .coalesce =>
      if i.wvalid = true ∧ s.axi.wready = true ∧ i.wlast = true then { s.axi with wready := false }
      else s.axi
    | .ftlTranslate => { s.axi with arready := false }
    | .afeSense =>
      { s.axi with rvalid := true, rdata := eccDecOutData p s.latchRdata, rlast := true }
    | .respond =>
      if s.currOp = true then
        if i.bready = true ∧ s.axi.bvalid = true then { s.axi with bvalid := false, bresp := 0 }
        else { s.axi with bvalid := true, bresp := 0 }
      else if i.rready = true ∧ s.axi.rvalid = true then
        { s.axi with rvalid := false, rlast := false }
      else s.axi
    | _ => s.axi := by
  cases hs : s.state <;>
    simp only [step, hs, idle, initialise, fetch, coalesce, ftlTranslate, eccGen, pageProgram,
      progWait, pageRead, readWait, afeSense, gcSelect, gcCopy, blockErase, eraseWait, wlRemap,
      respond] <;>
    split_ifs <;> simp_all

/-- The direction of the burst after an edge. -/
theorem currOp_step : (step s i).currOp =
    match s.state with
    | .idle => s.currOp && !decide ((step s i).state = .ftlTranslate)
    | .fetch => true
    | _ => s.currOp := by
  cases hs : s.state <;>
    simp only [step, hs, idle, initialise, fetch, coalesce, ftlTranslate, eccGen, pageProgram,
      progWait, pageRead, readWait, afeSense, gcSelect, gcCopy, blockErase, eraseWait, wlRemap,
      respond] <;>
    split_ifs <;> simp_all

theorem freeBlockCount_step : (step s i).freeBlockCount =
    if s.state = .blockErase then s.freeBlockCount + 1 else s.freeBlockCount := by
  cases hs : s.state <;>
    simp only [step, hs, idle, initialise, fetch, coalesce, ftlTranslate, eccGen, pageProgram,
      progWait, pageRead, readWait, afeSense, gcSelect, gcCopy, blockErase, eraseWait, wlRemap,
      respond, reduceCtorEq, if_true, if_false] <;>
    split_ifs <;> rfl

end

/-! ### Initialisation -/

theorem store_const {α : Type*} {t : BitVec 10 → α} {ptr b : BitVec 10} {v : α} (h : t b = v) :
    store p t ptr v b = v := by
  by_cases he : b = ptr
  · rw [store]
    split_ifs
    · rw [he, Function.update_self]
    · exact h
  · rw [store]
    split_ifs
    · rw [Function.update_of_ne he, h]
    · exact h

theorem store_of_le {α : Type*} {t : BitVec 10 → α} {ptr : BitVec 10} {v : α}
    (h : ∀ b, b < ptr → InRange p b → t b = v) {b : BitVec 10} (hle : b ≤ ptr)
    (hb : InRange p b) : store p t ptr v b = v := by
  by_cases he : b = ptr
  · rw [store, if_pos (he ▸ hb), he, Function.update_self]
  · exact store_const (h b (by bv_omega) hb)

/-- The entries that initialisation has written so far. -/
structure Filled (s : State p) : Prop where
  map : ∀ a, a < s.initPtr → s.ftlL2pMap a = a.setWidth p.addrWidth
  pe : ∀ b, b < s.peInitPtr → InRange p b → s.peCycleTable b = 0
  counts : ∀ b, b < s.peInitPtr → InRange p b → s.gcValidCount b = 0

/-- The memories that initialisation leaves. -/
structure Fresh (m : Memories p) : Prop where
  map : ∀ a, m.ftlL2pMap a = a.setWidth p.addrWidth
  pe : ∀ b, InRange p b → m.peCycleTable b = 0
  counts : ∀ b, InRange p b → m.gcValidCount b = 0

theorem filled_reset (m : Memories p) : Filled (reset m) where
  map a h := by simp [reset] at h
  pe b h := by simp [reset] at h
  counts b h := by simp [reset] at h

/-- **A cycle of initialisation** writes the next entries, and the last cycle completes them. -/
theorem Filled.step {s : State p} (h : Filled s) (hs : s.state = .idle) (hd : s.initDone = false)
    (i : Input) :
    ((step s i).initDone = false → Filled (step s i)) ∧
      ((step s i).initDone = true → Fresh (step s i).toMemories ∧ 1 ≤ p.blocks ∧
        p.blocks ≤ 1024) := by
  obtain ⟨hdone, hptr⟩ := init_step s i
  obtain ⟨hptr, hpe⟩ := hptr hs hd
  have hmem : (TopController.step s i).toMemories = (initialise s).toMemories := by
    rw [toMemories_step, hs]
    simp only [hd, Bool.false_eq_true, if_false]
  have hinit : (initialise s).toMemories =
      ⟨Function.update s.ftlL2pMap s.initPtr (s.initPtr.setWidth p.addrWidth),
        store p s.peCycleTable s.peInitPtr 0, store p s.gcValidCount s.peInitPtr 0⟩ := by
    rw [initialise]
    split_ifs <;> rfl
  have hmap : ∀ a, a ≤ s.initPtr → Function.update s.ftlL2pMap s.initPtr
      (s.initPtr.setWidth p.addrWidth) a = a.setWidth p.addrWidth := by
    intro a ha
    by_cases he : a = s.initPtr
    · rw [he, Function.update_self]
    · rw [Function.update_of_ne he]
      exact h.map a (by bv_omega)
  rw [hmem, hinit]
  constructor
  · intro _
    have hlast : ∀ b, b < (TopController.step s i).peInitPtr → b ≤ s.peInitPtr := by
      intro b hb
      rw [hpe] at hb
      split_ifs at hb <;> bv_omega
    refine ⟨fun a ha => ?_, fun b hb hr => ?_, fun b hb hr => ?_⟩
    · rw [hptr] at ha
      rw [congrArg Memories.ftlL2pMap (hmem.trans hinit)]
      exact hmap a (by bv_omega)
    · rw [congrArg Memories.peCycleTable (hmem.trans hinit)]
      exact store_of_le h.pe (hlast b hb) hr
    · rw [congrArg Memories.gcValidCount (hmem.trans hinit)]
      exact store_of_le h.counts (hlast b hb) hr
  · intro hfin
    rw [hdone, hd, Bool.false_or, decide_eq_true_eq] at hfin
    obtain ⟨-, hff, hlast⟩ := hfin
    rw [IsLast] at hlast
    have hle : ∀ b, InRange p b → b ≤ s.peInitPtr := by
      intro b hb
      rw [InRange] at hb
      exact BitVec.le_def.mpr (by omega)
    refine ⟨⟨fun a => hmap a ?_, fun b hb => store_of_le h.pe (hle b hb) hb,
      fun b hb => store_of_le h.counts (hle b hb) hb⟩, by omega, ?_⟩
    · rw [hff]
      bv_omega
    · have := s.peInitPtr.isLt
      omega

/-- A bound on the cycles of initialisation that are left. -/
def initRank (s : State p) : ℕ :=
  if s.initDone = true then 0
  else 256 * (p.blocks - 1 - s.peInitPtr.toNat) + (255 - s.initPtr.toNat) + 1

theorem initRank_step {s : State p} (i : Input) (hs : s.state = .idle) (hd : s.initDone = false)
    (hle : p.blocks ≤ 1024) (hptr : InRange p s.peInitPtr) :
    InRange p (step s i).peInitPtr ∧ initRank (step s i) < initRank s := by
  obtain ⟨hdone, hnext⟩ := init_step s i
  obtain ⟨ha, hb⟩ := hnext hs hd
  have hrank : initRank s =
      256 * (p.blocks - 1 - s.peInitPtr.toNat) + (255 - s.initPtr.toNat) + 1 := by
    rw [initRank, hd]
    rfl
  rw [InRange] at hptr
  rw [hrank, initRank, ha, hb]
  split_ifs with hlast hfin hfin
  · exact ⟨hptr, by omega⟩
  · -- the table is filled, and `init_ptr` has not wrapped
    rw [hdone, hd, Bool.false_or, decide_eq_true_eq] at hfin
    have hne : s.initPtr ≠ 0xFF := fun he => hfin ⟨hs, he, hlast⟩
    exact ⟨hptr, by bv_omega⟩
  all_goals
    rw [IsLast] at hlast
    have hnext : (s.peInitPtr + 1).toNat = s.peInitPtr.toNat + 1 := by bv_omega
    refine ⟨by rw [InRange]; omega, ?_⟩
  · omega
  · have h8 := s.initPtr.isLt
    have := (s.initPtr + 1).isLt
    omega

end FtjSsdSim.Hdl.TopController
