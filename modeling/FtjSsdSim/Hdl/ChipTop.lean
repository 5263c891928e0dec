import Mathlib
import FtjSsdSim.Library.Machine
import FtjSsdSim.Hdl.BdiEncoder
import FtjSsdSim.Hdl.WordSerializer
import FtjSsdSim.Hdl.Compressor
import FtjSsdSim.Hdl.ByteAssembler
import FtjSsdSim.Hdl.TopController

/-!
# The chip

`ftj_chip_top` joins the write pipeline to the controller: the BDI encoder, the word serializer, the
compressor and the byte assembler stand between the host's write data channel and that of
`ftj_top_controller`.  All other channels go to the controller directly.  Every ready and valid signal
comes out of a register, so a clock edge steps the four clocked modules side by side, each from the
others' old registers.

`axi_wstrb` is a port of the chip that nothing is connected to.  What the controller is given depends
on the beats that the serializer accepts, whole, through their encodings (`delivered_eq_of_alike`).
-/

namespace FtjSsdSim.Hdl.ChipTop

open FtjSsdSim.Library

/-! ### The module of the source -/

variable {p : TopController.Params}

/-- The clocked modules of the chip. -/
structure State (p : TopController.Params) where
  serializer : WordSerializer.State
  compressor : Compressor.State
  assembler : ByteAssembler.State
  controller : TopController.State p

/-- The input pins at a clock edge: those of the controller, and the write strobes. -/
structure Input extends TopController.Input where
  wstrb : Byte
  deriving DecidableEq, Repr

/-- The registers after reset. -/
def reset (m : TopController.Memories p) : State p where
  serializer := WordSerializer.reset
  compressor := Compressor.reset
  assembler := ByteAssembler.reset
  controller := TopController.reset m

/-- The pins of `u_serializer`, with the encoded beat. -/
def serializerIn (s : State p) (i : Input) : WordSerializer.Input where
  inValid := i.wvalid
  inWord := (BdiEncoder.ftjBdiEncoder i.wdata).compOut
  inValidBytes := (BdiEncoder.ftjBdiEncoder i.wdata).validBytes
  inLast := i.wlast
  outReady := s.compressor.inReady

/-- The pins of `u_compressor`. -/
def compressorIn (s : State p) : Compressor.Input where
  inValid := s.serializer.outValid
  inData := s.serializer.outData
  inLast := s.serializer.outLast
  outReady := s.assembler.inReady

/-- The pins of `u_assembler`. -/
def assemblerIn (s : State p) : ByteAssembler.Input where
  inValid := s.compressor.outValid
  inData := s.compressor.outData
  inLast := s.compressor.outLast
  outReady := s.controller.axi.wready

/-- The pins of `u_controller`. -/
def controllerIn (s : State p) (i : Input) : TopController.Input :=
  { i.toInput with
    wvalid := s.assembler.outValid
    wdata := s.assembler.outWord
    wlast := s.assembler.outLast }

/-- One clock edge. -/
def step (s : State p) (i : Input) : State p where
  serializer := WordSerializer.step s.serializer (serializerIn s i)
  compressor := Compressor.next s.compressor (compressorIn s)
  assembler := ByteAssembler.step s.assembler (assemblerIn s)
  controller := TopController.step s.controller (controllerIn s i)

/-- `axi_wready`. -/
def axiWready (s : State p) : Bool := s.serializer.inReady

/-- The host's beat is accepted at the edge. -/
def AcceptsBeat (c : State p × Input) : Prop := (c.2.wvalid && axiWready c.1) = true

instance (c : State p × Input) : Decidable (AcceptsBeat c) := inferInstanceAs (Decidable (_ = _))

/-- The word, with its strobes and its `last` flag, that the controller takes at an edge. -/
def deliveredWord (c : State p × Input) : Option ByteAssembler.WordOut :=
  ByteAssembler.port.taken (c.1.assembler, assemblerIn c.1)

/-- The words delivered to the controller in a run from reset. -/
def delivered (m : TopController.Memories p) (is : List Input) : List ByteAssembler.WordOut :=
  observed step deliveredWord (reset m) is

/-! ### What the controller is given -/

/-- The second input differs from the first in bytes of `axi_wdata` whose strobe is not set, if at
all. -/
def SameButUnstrobed (i j : Input) : Prop :=
  j = { i with wdata := j.wdata } ∧
    ∀ k < 8, i.wstrb.getLsbD k = true → byteAt j.wdata k = byteAt i.wdata k

/-- The inputs of two runs at one cycle: they differ in unstrobed bytes at most, and if the beat is
accepted then its strobes are all set or both words have the same encoding. -/
def Alike (c : State p × Input) (j : Input) : Prop :=
  SameButUnstrobed c.2 j ∧
    (AcceptsBeat c → c.2.wstrb = 0xFF ∨
      BdiEncoder.ftjBdiEncoder j.wdata = BdiEncoder.ftjBdiEncoder c.2.wdata)

/-- A beat whose strobes are all set does not differ at all. -/
theorem SameButUnstrobed.wdata_eq {i j : Input} (h : SameButUnstrobed i j) (hfull : i.wstrb = 0xFF) :
    j.wdata = i.wdata := by
  refine word_ext fun k hk => h.2 k hk ?_
  rw [hfull]
  interval_cases k <;> rfl

/-- The serializer looks at a word only when it accepts one. -/
theorem serializer_step_congr (s : WordSerializer.State) {i j : WordSerializer.Input}
    (hvalid : i.inValid = j.inValid) (hlast : i.inLast = j.inLast) (hready : i.outReady = j.outReady)
    (hword : (i.inValid && s.inReady) = true →
      i.inWord = j.inWord ∧ i.inValidBytes = j.inValidBytes) :
    WordSerializer.step s i = WordSerializer.step s j := by
  cases hs : s.state with
  | idle =>
    cases ha : i.inValid && s.inReady with
    | false =>
      have ha' : (j.inValid && s.inReady) = false := hvalid ▸ ha
      simp only [WordSerializer.step, hs, ha, ha', hready, Bool.false_eq_true, if_false]
    | true =>
      have ha' : (j.inValid && s.inReady) = true := hvalid ▸ ha
      obtain ⟨hw, hbytes⟩ := hword ha
      simp only [WordSerializer.step, hs, ha, ha', hready, hw, hbytes, hlast]
  | stream => simp only [WordSerializer.step, hs, hready]
  | done => simp only [WordSerializer.step, hs, hready]

/-- Inputs that are alike take the same step. -/
theorem step_eq_of_alike (s : State p) (i j : Input) (h : Alike (s, i) j) : step s i = step s j := by
  obtain ⟨hsame, haccept⟩ := h
  have hrest := hsame.1
  have hserializer : WordSerializer.step s.serializer (serializerIn s i) =
      WordSerializer.step s.serializer (serializerIn s j) := by
    refine serializer_step_congr _ ?_ ?_ rfl fun ha => ?_
    · rw [hrest]
      rfl
    · rw [hrest]
      rfl
    · have hencoding : BdiEncoder.ftjBdiEncoder j.wdata = BdiEncoder.ftjBdiEncoder i.wdata := by
        rcases haccept ha with hfull | heq
        · rw [hsame.wdata_eq hfull]
        · exact heq
      simp only [serializerIn]
      rw [hencoding]
      exact ⟨rfl, rfl⟩
  have hcontroller : controllerIn s i = controllerIn s j := by
    rw [hrest]
    rfl
  rw [step, step, hserializer, hcontroller]

/-- **What the strobes are good for.**  Two runs of the chip whose inputs differ in unstrobed bytes of
`axi_wdata` only deliver the same words with the same strobes to the controller, if every accepted beat
has all its strobes set or is encoded alike in both. -/
theorem delivered_eq_of_alike (m : TopController.Memories p) (is js : List Input)
    (h : List.Forall₂ Alike (cycles step (reset m) is) js) : delivered m is = delivered m js :=
  observed_eq_of_alike step_eq_of_alike (fun _ _ _ _ => rfl) h

/-- A controller of 200 blocks. -/
def smallController : TopController.Params := { TopController.defaults with blocks := 200 }

/-- A host that asks for a burst, with a word on its data pins. -/
def burst (valid : Bool) (w : Word) (strb : Byte) : Input :=
  { TopController.Host.silent with
    awvalid := true
    wvalid := valid
    wdata := w
    wlast := true
    nandRbN := true
    nandIo := none
    wstrb := strb }

theorem SameButUnstrobed.refl (i : Input) : SameButUnstrobed i i := ⟨rfl, fun _ _ _ => rfl⟩

/-- Every run is like itself. -/
theorem alike_self (s : State p) (is : List Input) : List.Forall₂ Alike (cycles step s is) is := by
  induction is generalizing s with
  | nil => exact .nil
  | cons i is ih => exact .cons ⟨.refl i, fun _ => .inr rfl⟩ (ih _)

/-- One beat with its strobes, and the cycles until the controller takes it. -/
def oneBeat (w : Word) (strb : Byte) : List Input :=
  burst true w strb :: List.replicate 258 (burst false 0 0)

/-- Byte 1 of the beat is not strobed, and the encoder keeps its low nibble only: the word that is
delivered is the same. -/
theorem delivered_eq_of_alike_burst :
    let m := TopController.blank smallController
    AcceptsBeat (reset m, burst true 0x0F00 0xFD) ∧ delivered m (oneBeat 0x0F00 0xFD) ≠ [] ∧
      delivered m (oneBeat 0x0F00 0xFD) = delivered m (oneBeat 0xFF00 0xFD) := by
  refine ⟨by decide, by decide +kernel, ?_⟩
  refine delivered_eq_of_alike (TopController.blank smallController) _ _ (.cons ⟨?_, fun _ => .inr ?_⟩ ?_)
  · exact ⟨rfl, by decide⟩
  · decide
  · exact alike_self _ _

/-- **An unstrobed byte is delivered**, and strobed. -/
theorem unstrobed_byte_delivered :
    ¬ ∀ (p : TopController.Params) (m : TopController.Memories p) (is js : List Input),
      List.Forall₂ SameButUnstrobed is js → delivered m is = delivered m js := by
  intro h
  have hbeat : SameButUnstrobed (burst true 0x0123456789ABCDEF 0x7F)
      (burst true 0xFF23456789ABCDEF 0x7F) := ⟨rfl, by decide⟩
  have heq := h smallController (TopController.blank _) (oneBeat 0x0123456789ABCDEF 0x7F)
    (oneBeat 0xFF23456789ABCDEF 0x7F)
    (.cons hbeat (List.forall₂_same.mpr fun i _ => SameButUnstrobed.refl i))
  revert heq
  decide +kernel

end FtjSsdSim.Hdl.ChipTop
