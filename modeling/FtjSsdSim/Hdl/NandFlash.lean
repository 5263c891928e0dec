import Mathlib
import FtjSsdSim.Library.Bits
import FtjSsdSim.Library.Machine

/-!
# The NAND flash model

`nand_flash_model` is the flash behind the controller's NAND pins.  It samples `WE_n` and `RE_n` one
cycle late and takes a command or address byte at a rising edge of `WE_n`.  `step` is one clock edge
with reset released, one function for each `NAND_…` state.

* The memories are not reset, so `reset` takes their contents as an argument.
* A byte on `nand_io` is `none` when it is undefined.  No `case` label matches such a byte, a register
  that latches one is undefined, and so is an index made of it: a read there gives no value, a write
  has no effect and no comparison holds.

The command and address states only move when `CLE` or `ALE` is high at the rising edge
(`step_ignores`).

Initialisation ends unless `BLOCKS` is 1024, which the 10 bits of `init_ptr_blk` never reach
(`init_ends_iff`).
-/

namespace FtjSsdSim.Hdl.NandFlash

open FtjSsdSim.Library

/-! ### The module of the source -/

/-- The parameters that the code reads.  `page_buf` has at least one byte. -/
structure Params where
  blocks : ℕ
  pageBytes : ℕ
  tprogCycles : ℕ
  tbersCycles : ℕ
  treadCycles : ℕ
  pageBytes_pos : 0 < pageBytes

/-- `NAND_IDLE`, …, `NAND_INIT`.  No assignment enters `NAND_CMD_LATCH`. -/
inductive Fsm where
  | idle
  | cmdLatch
  | addrLatch
  | dataIn
  | busyProg
  | busyRead
  | busyErase
  | dataOut
  | status
  | init
  deriving DecidableEq, Repr

/-- The input pins at a clock edge. -/
structure Pins where
  io : Option Byte
  cle : Bool
  ale : Bool
  reN : Bool
  weN : Bool
  ceN : Bool
  deriving DecidableEq, Repr

/-- The memories. -/
structure Memories where
  pageBuf : BitVec 13 → Option Byte
  blockPeCount : BitVec 10 → BitVec 16

/-- Memories of zeros. -/
def blank : Memories := ⟨fun _ => some 0, fun _ => 0⟩

/-- The registers and memories of `nand_flash_model`. -/
structure State extends Memories where
  state : Fsm
  rbN : Bool
  colAddrLo : Option Byte
  colAddrHi : Option Byte
  rowAddrLo : Option Byte
  rowAddrMid : Option Byte
  rowAddrHi : Option Byte
  addrCyc : BitVec 3
  pageIdx : Option (BitVec 13)
  waitCnt : BitVec 19
  oe : Bool
  ioOut : Option Byte
  weND1 : Bool
  reND1 : Bool
  initPtrPage : BitVec 13
  initPtrBlk : BitVec 10
  initDone : Bool

/-- The state after reset. -/
def reset (m : Memories) : State where
  toMemories := m
  state := .init
  rbN := true
  colAddrLo := some 0
  colAddrHi := some 0
  rowAddrLo := some 0
  rowAddrMid := some 0
  rowAddrHi := some 0
  addrCyc := 0
  pageIdx := some 0
  waitCnt := 0
  oe := false
  ioOut := some 0
  weND1 := true
  reND1 := true
  initPtrPage := 0
  initPtrBlk := 0
  initDone := false

/-- A rising edge of `WE_n` with the chip enabled. -/
def latches (s : State) (i : Pins) : Bool := !i.ceN && (i.weN && !s.weND1)

/-- `page_buf[page_idx]`. -/
def readPage (q : Params) (s : State) : Option Byte :=
  s.pageIdx.bind fun k => if k.toNat < q.pageBytes then s.pageBuf k else none

/-- `page_buf[page_idx] <= b`. -/
def storePage (q : Params) (s : State) (b : Option Byte) : BitVec 13 → Option Byte :=
  match s.pageIdx with
  | some k => if k.toNat < q.pageBytes then Function.update s.pageBuf k b else s.pageBuf
  | none => s.pageBuf

/-- `if (page_idx < PAGE_BYTES - 1) page_idx <= page_idx + 1`. -/
def advancePage (q : Params) (s : State) : Option (BitVec 13) :=
  s.pageIdx.map fun k => if k.toNat + 1 < q.pageBytes then k + 1 else k

/-- `block_pe_count[row_addr_mid] <= block_pe_count[row_addr_mid] + 1`. -/
def countPe (q : Params) (s : State) : BitVec 10 → BitVec 16 :=
  match s.rowAddrMid with
  | some b =>
    let k := b.setWidth 10
    if k.toNat < q.blocks then Function.update s.blockPeCount k (s.blockPeCount k + 1)
    else s.blockPeCount
  | none => s.blockPeCount

/-- A busy period of `cycles` cycles begins. -/
def busy (s : State) (state : Fsm) (cycles : ℕ) : State :=
  { s with state := state, rbN := false, waitCnt := BitVec.ofNat 19 cycles }

/-- The command `8'h10`. -/
def program (q : Params) (s : State) : State :=
  { busy s .busyProg q.tprogCycles with blockPeCount := countPe q s }

/-- The address cycle `addr_cyc` takes the byte on the bus. -/
def latchAddress (s : State) (io : Option Byte) : State :=
  let n := { s with addrCyc := s.addrCyc + 1 }
  match s.addrCyc.toNat with
  | 0 => { n with colAddrLo := io }
  | 1 => { n with colAddrHi := io }
  | 2 => { n with rowAddrLo := io }
  | 3 => { n with rowAddrMid := io }
  | 4 => { n with rowAddrHi := io }
  | _ => n

/-- `NAND_INIT`. -/
def init (q : Params) (s : State) : State :=
  let n := { s with
    pageBuf := if s.initPtrPage.toNat < q.pageBytes then
      Function.update s.pageBuf s.initPtrPage (some 0xFF) else s.pageBuf
    initPtrPage := s.initPtrPage + 1 }
  let n :=
    if s.initPtrBlk.toNat < q.blocks then
      { n with
        blockPeCount := Function.update s.blockPeCount s.initPtrBlk 0
        initPtrBlk := s.initPtrBlk + 1 }
    else n
  if s.initPtrPage.toNat + 1 = q.pageBytes ∧ s.initPtrBlk.toNat = q.blocks then
    { n with initDone := true, state := .idle }
  else n

/-- `NAND_IDLE`. -/
def idle (q : Params) (s : State) (i : Pins) : State :=
  let n := { s with oe := false }
  if latches s i then
    if i.cle then
      if i.io = some 0x80 then { n with state := .dataIn, addrCyc := 0, pageIdx := some 0 }
      else if i.io = some 0x10 then program q n
      else if i.io = some 0x00 then { n with state := .addrLatch, addrCyc := 0 }
      else if i.io = some 0x30 then busy n .busyRead q.treadCycles
      else if i.io = some 0x60 then { n with state := .addrLatch, addrCyc := 0 }
      else if i.io = some 0xD0 then busy n .busyErase q.tbersCycles
      else if i.io = some 0x70 then { n with state := .status }
      else { n with state := .idle }
    else if i.ale then { n with state := .addrLatch }
    else n
  else n

/-- `NAND_ADDR_LATCH`. -/
def addrLatch (q : Params) (s : State) (i : Pins) : State :=
  if latches s i then
    if i.cle then
      if i.io = some 0x30 then busy s .busyRead q.treadCycles
      else if i.io = some 0xD0 then busy s .busyErase q.tbersCycles
      else s
    else if i.ale then latchAddress s i.io
    else { s with state := .dataIn }
  else s

/-- `NAND_DATA_IN`. -/
def dataIn (q : Params) (s : State) (i : Pins) : State :=
  if latches s i then
    if i.cle then
      if i.io = some 0x10 then program q s else s
    else if i.ale then latchAddress s i.io
    else { s with pageBuf := storePage q s i.io, pageIdx := advancePage q s }
  else s

/-- `NAND_BUSY_PROG` and `NAND_BUSY_ERASE`. -/
def busyWait (s : State) : State :=
  if s.waitCnt > 0 then { s with waitCnt := s.waitCnt - 1 }
  else { s with rbN := true, state := .idle }

/-- `NAND_BUSY_READ`. -/
def busyRead (s : State) : State :=
  if s.waitCnt > 0 then { s with waitCnt := s.waitCnt - 1 }
  else
    { s with
      rbN := true
      pageIdx := s.colAddrHi.bind fun hi => s.colAddrLo.map fun lo => hi.extractLsb' 0 5 ++ lo
      state := .dataOut }

/-- `NAND_DATA_OUT`. -/
def dataOut (q : Params) (s : State) (i : Pins) : State :=
  if !i.ceN then
    let n :=
      if i.reN && !s.reND1 then { s with pageIdx := advancePage q s }
      else if !i.reN then { s with oe := true, ioOut := readPage q s }
      else { s with oe := false }
    if i.weN && !s.weND1 && i.cle then
      { n with oe := false, state := if i.io = some 0x70 then .status else .idle }
    else n
  else { s with oe := false }

/-- `NAND_STATUS`. -/
def status (s : State) (i : Pins) : State :=
  let n :=
    if !i.ceN && !i.reN then { s with oe := true, ioOut := some 0xe0 } else { s with oe := false }
  if latches s i && i.cle then
    { n with oe := false, state := if i.io = some 0x00 then .idle else .status }
  else n

/-- One clock edge. -/
def step (q : Params) (s : State) (i : Pins) : State :=
  let n :=
    match s.state with
    | .init => init q s
    | .idle => idle q s i
    | .addrLatch => addrLatch q s i
    | .dataIn => dataIn q s i
    | .busyProg => busyWait s
    | .busyRead => busyRead s
    | .busyErase => busyWait s
    | .dataOut => dataOut q s i
    | .status => status s i
    | .cmdLatch => { s with state := .idle }
  { n with weND1 := i.weN, reND1 := i.reN }

/-! ### A host that never latches -/

/-- Nothing has been latched since reset. -/
structure Quiet (s : State) : Prop where
  state : s.state = .init ∨ s.state = .idle
  rbN : s.rbN = true
  oe : s.oe = false

theorem quiet_reset (m : Memories) : Quiet (reset m) := ⟨.inl rfl, rfl, rfl⟩

/-- Initialisation writes the memories and its own pointers. -/
theorem init_quiet (q : Params) {s : State} (h : Quiet s) (hs : s.state = .init) :
    Quiet (init q s) := by
  obtain ⟨-, hrb, hoe⟩ := h
  simp only [init]
  split_ifs
  all_goals exact ⟨by simp [hs], hrb, hoe⟩

/-- A rising edge of `WE_n` without `CLE` and `ALE` latches nothing. -/
theorem idle_ignores (q : Params) {s : State} {i : Pins} (hcle : i.weN = true → i.cle = false)
    (hale : i.ale = false) : idle q s i = { s with oe := false } := by
  by_cases hl : latches s i = true
  · have hweN : i.weN = true := by
      rw [latches, Bool.and_eq_true, Bool.and_eq_true] at hl
      exact hl.2.1
    rw [idle, if_pos hl, hcle hweN, hale]
    rfl
  · exact if_neg hl

/-- The flash does not leave its idle state, stays ready and leaves the bus alone. -/
theorem step_ignores (q : Params) {s : State} {i : Pins} (h : Quiet s)
    (hcle : i.weN = true → i.cle = false) (hale : i.ale = false) : Quiet (step q s i) := by
  rcases h.state with hs | hs
  · have hq := init_quiet q h hs
    simp only [step, hs]
    exact ⟨hq.state, hq.rbN, hq.oe⟩
  · simp only [step, hs, idle_ignores q hcle hale]
    exact ⟨.inr rfl, h.rbN, rfl⟩

theorem step_stays_idle (q : Params) {s : State} {i : Pins} (hs : s.state = .idle)
    (hcle : i.weN = true → i.cle = false) (hale : i.ale = false) : (step q s i).state = .idle := by
  simp only [step, hs, idle_ignores q hcle hale]

/-! ### Initialisation -/

/-- The pointers and the state after a cycle of initialisation. -/
theorem init_step (q : Params) {s : State} (i : Pins) (hs : s.state = .init) :
    (step q s i).initPtrPage = s.initPtrPage + 1 ∧
      (step q s i).initPtrBlk =
        (if s.initPtrBlk.toNat < q.blocks then s.initPtrBlk + 1 else s.initPtrBlk) ∧
      (step q s i).state =
        if s.initPtrPage.toNat + 1 = q.pageBytes ∧ s.initPtrBlk.toNat = q.blocks then .idle
        else .init := by
  simp only [step, hs, init]
  split_ifs <;> exact ⟨rfl, rfl, rfl⟩

/-- A bound on the cycles of initialisation that are left: `init_ptr_blk` counts up to `BLOCKS`, and
from there `init_ptr_page` goes round to its last value. -/
def initRank (q : Params) (s : State) : ℕ :=
  if s.state = .init then
    8192 * (q.blocks - s.initPtrBlk.toNat) +
      (BitVec.ofNat 13 (q.pageBytes - 1) - s.initPtrPage).toNat + 1
  else 0

theorem initRank_step (q : Params) {s : State} (i : Pins) (hs : s.state = .init)
    (hblk : s.initPtrBlk.toNat ≤ q.blocks) (hlt : q.blocks < 1024) (hpage : q.pageBytes ≤ 8192) :
    (step q s i).initPtrBlk.toNat ≤ q.blocks ∧ initRank q (step q s i) < initRank q s := by
  obtain ⟨hptr, hnext, hstate⟩ := init_step q i hs
  have hround := (BitVec.ofNat 13 (q.pageBytes - 1) - (s.initPtrPage + 1)).isLt
  rw [initRank, initRank, if_pos hs, hptr, hnext]
  by_cases hmore : s.initPtrBlk.toNat < q.blocks
  · have hstay : (step q s i).state = .init := by rw [hstate, if_neg fun h => hmore.ne h.2]
    have hto : (s.initPtrBlk + 1).toNat = s.initPtrBlk.toNat + 1 := by bv_omega
    rw [if_pos hmore, if_pos hstay, hto]
    omega
  · have heq : s.initPtrBlk.toNat = q.blocks := by omega
    rw [if_neg hmore, heq]
    refine ⟨le_rfl, ?_⟩
    by_cases hend : s.initPtrPage.toNat + 1 = q.pageBytes
    · have hidle : (step q s i).state = .idle := by rw [hstate, if_pos ⟨hend, heq⟩]
      rw [hidle, if_neg (by decide)]
      exact Nat.succ_pos _
    · have hstay : (step q s i).state = .init := by rw [hstate, if_neg fun h => hend h.1]
      have hpos := q.pageBytes_pos
      have hlast : (BitVec.ofNat 13 (q.pageBytes - 1)).toNat = q.pageBytes - 1 := by
        rw [BitVec.toNat_ofNat, Nat.mod_eq_of_lt (by omega)]
      have hne : BitVec.ofNat 13 (q.pageBytes - 1) ≠ s.initPtrPage := fun h => by
        rw [← h, hlast] at hend
        omega
      rw [if_pos hstay]
      bv_omega

/-- `init_ptr_blk` never equals a `BLOCKS` of 1024. -/
theorem step_stays_init (q : Params) (hblk : q.blocks = 1024) {s : State} (i : Pins)
    (hs : s.state = .init) : (step q s i).state = .init := by
  obtain ⟨-, -, hstate⟩ := init_step q i hs
  have hptr := s.initPtrBlk.isLt
  rw [hstate, if_neg]
  rintro ⟨-, heq⟩
  omega

theorem run_stays_init (q : Params) (hblk : q.blocks = 1024) (m : Memories) (is : List Pins) :
    (run (step q) (reset m) is).state = .init :=
  run_invariant (P := fun _ => True) (I := fun s : State => s.state = .init) rfl
    (fun _ i hs _ => step_stays_init q hblk i hs) is fun _ _ => trivial

/-- **When initialisation ends.**  For every `BLOCKS` up to 1024 and every `PAGE_BYTES` up to 8192, all
memory contents and all inputs on the pins: the model gets from reset to `NAND_IDLE` exactly when
`BLOCKS` is not 1024. -/
theorem init_ends_iff (q : Params) (hblk : q.blocks ≤ 1024) (hpage : q.pageBytes ≤ 8192)
    (m : Memories) (pins : ℕ → Pins) :
    (∃ n, (run (step q) (reset m) ((List.range n).map pins)).state = .idle) ↔ q.blocks ≠ 1024 := by
  constructor
  · rintro ⟨n, hidle⟩ hblk'
    exact absurd (hidle.symm.trans (run_stays_init q hblk' m _)) (by decide)
  · intro hne
    have hnext : ∀ (s : State) (i : Pins),
        ((s.state = .init ∨ s.state = .idle) ∧ s.initPtrBlk.toNat ≤ q.blocks) →
        ¬ s.state = .idle →
        (((step q s i).state = .init ∨ (step q s i).state = .idle) ∧
          (step q s i).initPtrBlk.toNat ≤ q.blocks) ∧ initRank q (step q s i) < initRank q s := by
      intro s i hI hnot
      have hs := hI.1.resolve_right hnot
      obtain ⟨hptr, hlt⟩ := initRank_step q i hs hI.2 (by omega) hpage
      refine ⟨⟨?_, hptr⟩, hlt⟩
      rw [(init_step q i hs).2.2]
      split_ifs
      · exact .inr rfl
      · exact .inl rfl
    obtain ⟨n, -, hidle⟩ := exists_run_range (initRank q) hnext (s := reset m)
      ⟨.inl rfl, Nat.zero_le _⟩ pins
    exact ⟨n, hidle⟩

/-- The parameters of the module at their defaults. -/
def defaults : Params := ⟨1024, 4096, 30000, 300000, 2500, by decide⟩

/-- Pins of a host that leaves the chip alone. -/
def released : Pins := ⟨none, false, false, true, true, true⟩

/-- Half as many blocks. -/
theorem init_ends_iff_half :
    (∃ n, (run (step { defaults with blocks := 512 }) (reset blank)
      ((List.range n).map fun _ => released)).state = .idle) ↔ 512 ≠ 1024 :=
  init_ends_iff { defaults with blocks := 512 } (by decide) (by decide) blank fun _ => released

/-- **With the default parameters initialisation never ends.** -/
theorem default_init_never_ends :
    ¬ ∃ n, (run (step defaults) (reset blank) ((List.range n).map fun _ => released)).state =
      .idle := by
  rintro ⟨n, hidle⟩
  exact absurd (hidle.symm.trans (run_stays_init defaults rfl blank _)) (by decide)

end FtjSsdSim.Hdl.NandFlash
