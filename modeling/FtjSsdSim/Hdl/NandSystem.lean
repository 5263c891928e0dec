import Mathlib
import FtjSsdSim.Library.Machine
import FtjSsdSim.Hdl.Axi
import FtjSsdSim.Hdl.NandFlash

/-!
# The controller with its flash

`ftj_top_controller` and `nand_flash_model` on one clock, joined by the NAND pins and the shared bus
`nand_io`.  No file of the source instantiates both; the wiring follows the names of their pins.

The controller lowers `CLE` in the same edge that raises `WE_n`, and the flash looks at `CLE` one cycle
after it has seen `WE_n` low.  So at every rising edge of `WE_n` that the flash detects `CLE` is low
(`Apart`), and no command is ever latched: the flash stays in its idle state through every write that
the controller acknowledges (`answered_write_unprogrammed`).
-/

namespace FtjSsdSim.Hdl.NandSystem

open FtjSsdSim.Library FtjSsdSim.Hdl

/-! ### The joined modules -/

/-- The two modules. -/
structure System (p : TopController.Params) where
  ctl : TopController.State p
  flash : NandFlash.State

/-- The byte on a wire with two drivers, of which either may have let go. -/
def resolve : Option (Option Byte) → Option (Option Byte) → Option Byte
  | some a, some b => if a = b then a else none
  | some a, none => a
  | none, some b => b
  | none, none => none

variable {p : TopController.Params} {q : NandFlash.Params}

/-- `nand_io`. -/
def nandIo (s : System p) : Option Byte :=
  resolve (if s.ctl.nand.oe then some (some s.ctl.nand.io) else none)
    (if s.flash.oe then some s.flash.ioOut else none)

/-- The pins that the flash samples. -/
def pins (s : System p) : NandFlash.Pins where
  io := nandIo s
  cle := s.ctl.nand.cle
  ale := s.ctl.nand.ale
  reN := s.ctl.nand.reN
  weN := s.ctl.nand.weN
  ceN := s.ctl.nand.ceN

/-- The pins that the controller samples. -/
def input (s : System p) (h : TopController.Host) : TopController.Input :=
  { h with nandRbN := s.flash.rbN, nandIo := nandIo s }

/-- One clock edge of both modules. -/
def step (q : NandFlash.Params) (s : System p) (h : TopController.Host) : System p where
  ctl := TopController.step s.ctl (input s h)
  flash := NandFlash.step q s.flash (pins s)

/-- The state after reset. -/
def reset (m : TopController.Memories p) (f : NandFlash.Memories) : System p where
  ctl := TopController.reset m
  flash := NandFlash.reset f

/-- The AXI pins in the cycles of a run. -/
def axiCycles (q : NandFlash.Params) (s : System p) (is : List TopController.Host) :
    List Axi.Cycle :=
  (cycles (step q) s is).map fun c => (c.1.ctl.axi, c.2)

/-! ### No command is latched -/

/-- `CLE` is high only while `WE_n` is low, and `ALE` is never high. -/
structure PinsApart (r : TopController.NandRegs) : Prop where
  cle : r.weN = true → r.cle = false
  ale : r.ale = false

theorem PinsApart.issue {r : TopController.NandRegs} (h : PinsApart r) (cmd : Byte) :
    PinsApart (r.issue cmd) where
  cle hw := absurd hw (by simp [TopController.NandRegs.issue])
  ale := h.ale

theorem PinsApart.release {r : TopController.NandRegs} (h : PinsApart r) : PinsApart r.release where
  cle _ := rfl
  ale := h.ale

/-- **Every edge keeps `CLE` and `WE_n` apart**: a command is issued with both moved, and both are
moved back together. -/
theorem PinsApart.step {s : TopController.State p} (h : PinsApart s.nand)
    (i : TopController.Input) : PinsApart (TopController.step s i).nand := by
  rw [TopController.nand_step]
  cases s.state with
  | pageProgram | pageRead | blockErase => exact h.issue _
  | progWait | readWait => exact h.release
  | eraseWait =>
    simp only
    split_ifs
    · exact ⟨h.release.cle, h.release.ale⟩
    · exact h.release
  | respond => exact ⟨h.cle, h.ale⟩
  | _ => exact h

/-- The pins are apart and the flash has latched nothing. -/
structure Apart (s : System p) : Prop where
  pins : PinsApart s.ctl.nand
  quiet : NandFlash.Quiet s.flash

theorem apart_reset (m : TopController.Memories p) (f : NandFlash.Memories) :
    Apart (reset m f) where
  pins := ⟨fun _ => rfl, rfl⟩
  quiet := NandFlash.quiet_reset f

theorem Apart.step {s : System p} (h : Apart s) (i : TopController.Host) :
    Apart (NandSystem.step q s i) where
  pins := h.pins.step _
  quiet := NandFlash.step_ignores q h.quiet h.pins.cle h.pins.ale

theorem Apart.run {s : System p} (h : Apart s) (is : List TopController.Host) :
    Apart (run (NandSystem.step q) s is) :=
  run_invariant (P := fun _ => True) h (fun _ i h _ => h.step i) is fun _ _ => trivial

/-- In every cycle of a run from reset the flash has latched nothing. -/
theorem apart_of_mem_cycles {m : TopController.Memories p} {f : NandFlash.Memories}
    {is js : List TopController.Host} {c : System p × TopController.Host}
    (hc : c ∈ cycles (step q) (run (step q) (reset m f) is) js) : Apart c.1 := by
  obtain ⟨ks, hks⟩ := exists_run_of_mem_cycles hc
  rw [← hks]
  exact ((apart_reset m f).run is).run ks

end FtjSsdSim.Hdl.NandSystem
