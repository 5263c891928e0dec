import Mathlib
import FtjSsdSim.Library.Machine
import FtjSsdSim.Library.Stream
import FtjSsdSim.Hdl.Compressor

/-!
# The compressor under back-pressure

The compressor writes its output registers from three states and clears them in a fourth.  Only
`S_FLUSH_RUN` looks at `out_ready` first.  So a byte that waits there stays until it is taken, and in
the other states it stays as long as the state machine has nothing to write (`Touches`).

`compressor_stall_iff` is about every input and every pattern of `out_ready`.
-/

namespace FtjSsdSim.Hdl.Compressor

open FtjSsdSim.Library

/-! ### The output register -/

/-- The output byte with its `out_last` flag, behind `out_valid` and `out_ready`. -/
def port : Port State Input (Byte × Bool) where
  out s := if s.outValid then some (s.outData, s.outLast) else none
  ready i := i.outReady

/-- A zero that goes on with the run. -/
def extendsRun (s : State) (i : Input) : Bool :=
  (i.inData == 0 && decide (s.zeroRunCnt < maxRun)) && !i.inLast

/-- The literal, marker or count that an edge writes to the output registers. -/
def put (c : State × Input) : Option (Byte × Bool) :=
  match c.1.state with
  | .idle => if accepts c.1 c.2 ∧ c.2.inData ≠ 0 then some (c.2.inData, c.2.inLast) else none
  | .stream => if accepts c.1 c.2 ∧ extendsRun c.1 c.2 = false then some (0x00, false) else none
  | .flushRun =>
    if !c.1.outValid || c.2.outReady then some (c.1.zeroRunCnt, c.1.pendingLast) else none
  | .done => none

/-- The edges at which the state machine writes or clears the output registers without a look at
`out_ready`: `S_DONE`, a literal in `S_IDLE`, and the end of a run in `S_STREAM`. -/
def Touches (c : State × Input) : Prop :=
  match c.1.state with
  | .idle => accepts c.1 c.2 = true ∧ c.2.inData ≠ 0
  | .stream => accepts c.1 c.2 = true ∧ extendsRun c.1 c.2 = false
  | .flushRun => False
  | .done => True

/-- A byte that is not taken stays on the pins. -/
def Stays (c : State × Input) : Prop :=
  c.1.outValid = true → c.2.outReady = false →
    (next c.1 c.2).outValid = true ∧ (next c.1 c.2).outData = c.1.outData ∧
      (next c.1 c.2).outLast = c.1.outLast

theorem stalled_iff (c : State × Input) :
    port.Stalled c ↔ c.1.outValid = true ∧ c.2.outReady = false :=
  port.stalled_iff_valid (fun _ => rfl) c

theorem stays_iff (c : State × Input) :
    Stays c ↔ (port.Stalled c → port.out (next c.1 c.2) = port.out c.1) := by
  rw [stalled_iff, Stays, and_imp]
  refine imp_congr_right fun hvalid => imp_congr_right fun _ => ?_
  rw [port.out_eq_iff_valid (fun _ => rfl) hvalid, Prod.mk.injEq]

theorem out_handshake (s : State) (i : Input) :
    port.out (handshake s i) = if port.ready i then none else port.out s := by
  cases hv : s.outValid <;> cases hr : i.outReady <;> simp only [handshake, port, hv, hr]
  all_goals split_ifs <;> simp_all

/-- Only `S_DONE` clears the port, whether or not the byte there is taken. -/
theorem register : Register next port put fun c => c.1.state == .done where
  out c := by
    obtain ⟨s, i⟩ := c
    simp only
    rw [← out_handshake]
    cases hs : s.state with
    | idle =>
      rw [if_neg (by decide)]
      cases ha : accepts s i with
      | false =>
        have hput : put (s, i) = none := by simp [put, hs, ha]
        rw [next_idle_wait hs ha, hput]
        rfl
      | true =>
        by_cases hz : i.inData = 0
        · have hput : put (s, i) = none := by simp [put, hs, hz]
          rw [accepts] at ha
          simp only [hput, Option.none_or, next, hs, ha, hz, beq_self_eq_true, if_true, port]
        · have hput : put (s, i) = some (i.inData, i.inLast) := by
            simp only [put, hs]
            exact if_pos ⟨ha, hz⟩
          rw [next_idle_literal hs ha hz, hput]
          rfl
    | stream =>
      rw [if_neg (by decide)]
      cases ha : accepts s i with
      | false =>
        have hput : put (s, i) = none := by simp [put, hs, ha]
        rw [next_stream_wait hs ha, hput]
        rfl
      | true =>
        rw [accepts] at ha
        by_cases hz : (i.inData == 0 && decide (s.zeroRunCnt < maxRun)) = true
        · cases hl : i.inLast with
          | false =>
            have hext : extendsRun s i = true := by
              rw [extendsRun, hz, hl]
              rfl
            have hput : put (s, i) = none := by simp [put, hs, hext]
            simp only [hput, Option.none_or, next, hs, ha, hz, hl, if_true, Bool.false_eq_true,
              if_false, port]
          | true =>
            have hput : put (s, i) = some (0x00, false) := by
              simp [put, hs, extendsRun, hl, accepts, ha]
            rw [hput]
            simp only [next, hs, ha, hz, hl, if_true, port, Option.some_or]
        · have hext : extendsRun s i = false := by
            rw [extendsRun, Bool.eq_false_iff.mpr hz, Bool.false_and]
          have hput : put (s, i) = some (0x00, false) := by simp [put, hs, hext, accepts, ha]
          rw [hput]
          simp only [next, hs, ha, if_true, if_neg hz, port, Option.some_or]
    | flushRun =>
      rw [if_neg (by decide)]
      by_cases hfree : (!s.outValid || i.outReady) = true
      · have hput : put (s, i) = some (s.zeroRunCnt, s.pendingLast) := by
          simp only [put, hs, hfree, if_true]
        rw [hput]
        simp only [next, hs, if_pos hfree, port, if_true, Option.some_or]
      · have hput : put (s, i) = none := by simp only [put, hs, if_neg hfree]
        rw [hput, Option.none_or]
        simp only [next, hs, if_neg hfree]
    | done => simp [next, port, hs]
  put_of_clears c hdone := by
    have hs : c.1.state = .done := beq_iff_eq.mp hdone
    rw [put, hs]

theorem touches_iff {c : State × Input} (hwait : port.Stalled c) :
    ¬ Touches c ↔ (c.1.state == .done) = false ∧ put c = none := by
  obtain ⟨hvalid, hready⟩ := (stalled_iff c).mp hwait
  rw [Touches, put]
  cases hs : c.1.state <;> simp [hvalid, hready]

/-! ### Runs -/

/-- The literals, markers and counts written in a run from reset, with their `out_last` flags. -/
def written (is : List Input) : List (Byte × Bool) := observed next put reset is

/-- The bytes transferred in a run from reset, with their `out_last` flags. -/
def transferredBeats (is : List Input) : List (Byte × Bool) := observed next port.taken reset is

/-- **When stalls make no difference.**  For every input and every pattern of `out_ready`: a shown byte
stays until it is taken and every byte that is written is transferred or still shown, exactly when the
state machine writes or clears nothing while a byte waits. -/
theorem compressor_stall_iff (is : List Input) :
    ((∀ c ∈ cycles next reset is, Stays c) ∧
        ∀ js, js <+: is → written js = transferredBeats js ++ port.pending (run next reset js)) ↔
      ∀ c ∈ cycles next reset is, c.1.outValid = true → c.2.outReady = false → ¬ Touches c := by
  have hiff := register.intact_iff reset is
  have hnone : port.pending reset = [] := rfl
  have hcond : (∀ c ∈ cycles next reset is, port.Stalled c →
        (c.1.state == .done) = false ∧ put c = none) ↔
      ∀ c ∈ cycles next reset is, c.1.outValid = true → c.2.outReady = false → ¬ Touches c := by
    refine forall₂_congr fun c _ => ?_
    rw [← and_imp, ← stalled_iff]
    exact forall_congr' fun hwait => (touches_iff hwait).symm
  rw [hcond, hnone] at hiff
  simp only [List.nil_append] at hiff
  simp only [stays_iff]
  exact hiff

/-- **A literal is overwritten** by the next one when the reader is not ready for it. -/
theorem literal_overwritten :
    let is : List Input := [⟨true, 0xCC, false, true⟩, ⟨true, 0xDD, true, false⟩,
      ⟨false, 0, false, true⟩, ⟨false, 0, false, true⟩]
    accepted is = [(0xCC, false), (0xDD, true)] ∧ transferredBeats is = [(0xDD, true)] ∧
      ¬ ∀ c ∈ cycles next reset is, Stays c := by
  refine ⟨by decide, by decide, fun hstay => ?_⟩
  have hsecond := hstay (run next reset [⟨true, 0xCC, false, true⟩], ⟨true, 0xDD, true, false⟩)
    (by decide)
  exact absurd (hsecond (by decide) (by decide)).2.1 (by decide)

end FtjSsdSim.Hdl.Compressor
