import Mathlib
import FtjSsdSim.Library.Machine
import FtjSsdSim.Hdl.Compressor

/-!
# The compressor's telemetry

`total_bytes_in` and `total_bytes_out` count the two handshakes, and each byte accepted gives at most
two bytes out: a byte in the output register and a run that is still to be flushed are accounted for by
`owed`, whatever `out_ready` does.  So below `2 ^ 28` bytes in neither counter wraps, and neither does
the product by ten.

The quotient is then stored in eight bits.  There is no saturation: the register keeps the residue
modulo 256, which is the saturated value only while the ratio is below 25.6 or by coincidence
(`ratio_saturated_iff`).
-/

namespace FtjSsdSim.Hdl.Compressor

open FtjSsdSim.Library

/-! ### The counters at one edge -/

section

variable (s : State) (i : Input)

/-- The state machine leaves the telemetry registers to the handshake. -/
theorem next_counters :
    (next s i).totalBytesIn = (handshake s i).totalBytesIn ∧
      (next s i).totalBytesOut = (handshake s i).totalBytesOut ∧
      (next s i).lastCompressionRatioX10 = (handshake s i).lastCompressionRatioX10 := by
  cases hs : s.state with
  | done =>
    rw [next_done hs]
    exact ⟨rfl, rfl, rfl⟩
  | _ =>
    simp only [next, hs]
    split_ifs <;> exact ⟨rfl, rfl, rfl⟩

theorem next_totalBytesIn :
    (next s i).totalBytesIn = if accepts s i then s.totalBytesIn + 1 else s.totalBytesIn := by
  rw [(next_counters s i).1]
  unfold handshake accepts
  split_ifs <;> rfl

theorem next_totalBytesOut :
    (next s i).totalBytesOut =
      if s.outValid && i.outReady then s.totalBytesOut + 1 else s.totalBytesOut := by
  rw [(next_counters s i).2.1]
  unfold handshake
  split_ifs <;> rfl

/-- The edge assigns `last_compression_ratio_x10`. -/
def UpdatesRatio (c : State × Input) : Prop :=
  (c.1.outValid && c.2.outReady) = true ∧ c.1.totalBytesOut > 0

instance (c : State × Input) : Decidable (UpdatesRatio c) := inferInstanceAs (Decidable (_ ∧ _))

theorem next_lastCompressionRatioX10 :
    (next s i).lastCompressionRatioX10 =
      if UpdatesRatio (s, i) then ((s.totalBytesIn * 10) / (s.totalBytesOut + 1)).setWidth 8
      else s.lastCompressionRatioX10 := by
  rw [(next_counters s i).2.2]
  by_cases hup : UpdatesRatio (s, i)
  · obtain ⟨hout, hpos⟩ := id hup
    rw [if_pos hup]
    unfold handshake
    simp only at hout hpos
    simp only [hout, if_true, if_pos hpos]
  · rw [if_neg hup]
    unfold handshake
    by_cases hout : (s.outValid && i.outReady) = true
    · have hpos : ¬ s.totalBytesOut > 0 := fun hpos => hup ⟨hout, hpos⟩
      simp only [hout, if_true, if_neg hpos]
      split_ifs <;> rfl
    · simp only [if_neg hout]
      split_ifs <;> rfl

end

/-! ### What is owed -/

/-- The bytes that the registers will still give: the byte in the output register, and the marker and
count of an open run. -/
def owed (s : State) : ℕ :=
  (if s.outValid then 1 else 0) +
    match s.state with
    | .idle => 0
    | .stream => 2
    | .flushRun => 1
    | .done => 0

/-- The handshake hands the byte of the output register over or leaves it there. -/
theorem handshake_register (s : State) (i : Input) :
    (if (handshake s i).outValid then 1 else 0) + (transferredByte (s, i)).toList.length =
      if s.outValid then 1 else 0 := by
  unfold handshake transferredByte
  cases hv : s.outValid <;> cases hr : i.outReady <;> simp [hv] <;> split_ifs <;> simp [hv]

/-- An edge pays for what it transfers out of what was owed, and owes two more bytes at most for the
one it accepts. -/
theorem owed_next (s : State) (i : Input) :
    owed (next s i) + (transferredByte (s, i)).toList.length ≤
      owed s + 2 * (acceptedBeat (s, i)).toList.length := by
  have hregister := handshake_register s i
  cases ha : accepts s i with
  | false =>
    rw [acceptedBeat_neg ha, Option.toList_none, List.length_nil]
    cases hs : s.state with
    | idle =>
      rw [next_idle_wait hs ha]
      simp only [owed, handshake_state, hs]
      omega
    | stream =>
      rw [next_stream_wait hs ha]
      simp only [owed, handshake_state, hs]
      omega
    | flushRun =>
      simp only [next, hs]
      split_ifs with hfree hlast
      · simp only [owed, hs, if_true]
        omega
      · simp only [owed, hs, if_true]
        omega
      · simp only [owed, handshake_state, hs]
        omega
    | done =>
      rw [next_done hs]
      simp only [owed, hs, Bool.false_eq_true, if_false]
      omega
  | true =>
    rw [acceptedBeat_pos ha, Option.toList_some, List.length_singleton]
    rw [accepts] at ha
    cases hs : s.state with
    | done =>
      rw [next_done hs]
      simp only [owed, hs, Bool.false_eq_true, if_false]
      omega
    | _ =>
      simp only [next, hs, ha, if_true]
      split_ifs
      all_goals
        simp only [owed, handshake_state, hs, if_true]
        omega

/-! ### Runs -/

/-- The telemetry counters are the numbers of bytes accepted and transferred. -/
structure Counted (is : List Input) (s : State) : Prop where
  bytesIn : s.totalBytesIn = BitVec.ofNat 32 (accepted is).length
  bytesOut : s.totalBytesOut = BitVec.ofNat 32 (transferred is).length
  owed : (transferred is).length + owed s ≤ 2 * (accepted is).length

theorem ofNat_succ_length {α : Type*} (n : ℕ) (o : Option α) :
    BitVec.ofNat 32 (n + o.toList.length) =
      if o.isSome then BitVec.ofNat 32 n + 1 else BitVec.ofNat 32 n := by
  cases o with
  | none => rfl
  | some x => exact BitVec.ofNat_add n 1

theorem counted_run (is : List Input) : Counted is (run next reset is) := by
  refine run_induct (P := fun _ => True) (motive := Counted) ?base ?next is fun _ _ => trivial
  case base => exact ⟨rfl, rfl, by decide⟩
  case next =>
    intro is i h _
    refine ⟨?_, ?_, ?_⟩
    · rw [next_totalBytesIn, h.bytesIn, accepted_snoc, List.length_append, ofNat_succ_length]
      unfold acceptedBeat
      cases accepts (run next reset is) i <;> rfl
    · rw [next_totalBytesOut, h.bytesOut, transferred_snoc, List.length_append, ofNat_succ_length]
      unfold transferredByte
      cases (run next reset is).outValid && i.outReady <;> rfl
    · rw [accepted_snoc, transferred_snoc, List.length_append, List.length_append]
      have howed := owed_next (run next reset is) i
      have hsum := h.owed
      omega

/-- Below `2 ^ 28` bytes in, neither counter wraps. -/
theorem Counted.toNat {is : List Input} {s : State} (h : Counted is s)
    (hin : (accepted is).length < 2 ^ 28) :
    s.totalBytesIn.toNat = (accepted is).length ∧ s.totalBytesOut.toNat = (transferred is).length ∧
      (transferred is).length < 2 ^ 29 := by
  have howed := h.owed
  refine ⟨?_, ?_, by omega⟩
  · rw [h.bytesIn, BitVec.toNat_ofNat]
    omega
  · rw [h.bytesOut, BitVec.toNat_ofNat]
    omega

/-- The value that an update stores: the low eight bits of the quotient. -/
theorem ratio_toNat (is : List Input) (hin : (accepted is).length < 2 ^ 28) (i : Input)
    (hup : UpdatesRatio (run next reset is, i)) :
    (next (run next reset is) i).totalBytesOut.toNat =
        (run next reset is).totalBytesOut.toNat + 1 ∧
      (next (run next reset is) i).lastCompressionRatioX10.toNat =
        10 * (run next reset is).totalBytesIn.toNat /
          ((run next reset is).totalBytesOut.toNat + 1) % 256 := by
  obtain ⟨hbytesIn, hbytesOut, hlt⟩ := (counted_run is).toNat hin
  have hnext := next_totalBytesOut (run next reset is) i
  rw [if_pos hup.1] at hnext
  have hsucc : ((run next reset is).totalBytesOut + 1).toNat =
      (run next reset is).totalBytesOut.toNat + 1 := by
    rw [BitVec.toNat_add]
    show ((run next reset is).totalBytesOut.toNat + 1) % 2 ^ 32 = _
    omega
  have hten : ((run next reset is).totalBytesIn * 10).toNat =
      10 * (run next reset is).totalBytesIn.toNat := by
    rw [BitVec.toNat_mul]
    show (run next reset is).totalBytesIn.toNat * 10 % 2 ^ 32 = _
    omega
  constructor
  · rw [hnext, hsucc]
  · rw [next_lastCompressionRatioX10, if_pos hup, BitVec.toNat_setWidth, BitVec.toNat_udiv, hsucc,
      hten]

/-- **When the stored ratio is saturated.**  After every run with fewer than `2 ^ 28` bytes in and at
every edge that updates the ratio, the new value is the saturated quotient of the bytes in before the
edge by the bytes out after it exactly when the quotient fits in eight bits or happens to leave the
residue 255. -/
theorem ratio_saturated_iff (is : List Input) (hin : (accepted is).length < 2 ^ 28) (i : Input)
    (hup : UpdatesRatio (run next reset is, i)) :
    (next (run next reset is) i).lastCompressionRatioX10.toNat =
        min 255 (10 * (run next reset is).totalBytesIn.toNat /
          (next (run next reset is) i).totalBytesOut.toNat) ↔
      10 * (run next reset is).totalBytesIn.toNat <
          256 * ((run next reset is).totalBytesOut.toNat + 1) ∨
        10 * (run next reset is).totalBytesIn.toNat /
          ((run next reset is).totalBytesOut.toNat + 1) % 256 = 255 := by
  obtain ⟨hout, hratio⟩ := ratio_toNat is hin i hup
  rw [hratio, hout, ← Nat.div_lt_iff_lt_mul (Nat.succ_pos _)]
  generalize 10 * (run next reset is).totalBytesIn.toNat /
    ((run next reset is).totalBytesOut.toNat + 1) = q
  omega

/-- An accepted zero byte, with the reader ready. -/
def zeroByte (last : Bool) : Input := ⟨true, 0, last, true⟩

/-- An edge that only transfers. -/
def drain : Input := ⟨false, 0, false, true⟩

/-- A burst of 52 zeros and the transfer of its marker. -/
def zeros52 : List Input := List.replicate 51 (zeroByte false) ++ [zeroByte true, drain]

theorem ratio_saturated_iff_zeros52 :
    (next (run next reset zeros52) drain).lastCompressionRatioX10.toNat =
        min 255 (10 * (run next reset zeros52).totalBytesIn.toNat /
          (next (run next reset zeros52) drain).totalBytesOut.toNat) ↔
      10 * (run next reset zeros52).totalBytesIn.toNat <
          256 * ((run next reset zeros52).totalBytesOut.toNat + 1) ∨
        10 * (run next reset zeros52).totalBytesIn.toNat /
          ((run next reset zeros52).totalBytesOut.toNat + 1) % 256 = 255 :=
  ratio_saturated_iff zeros52 (by decide) drain (by decide +kernel)

/-- **52 bytes in and 2 out** make a ratio of 260 tenths, which is stored as 4. -/
theorem ratio_truncated :
    ¬ ∀ is i, (accepted (is ++ [i])).length < 2 ^ 28 → UpdatesRatio (run next reset is, i) →
      (next (run next reset is) i).lastCompressionRatioX10.toNat =
        min 255 (10 * (run next reset is).totalBytesIn.toNat /
          (next (run next reset is) i).totalBytesOut.toNat) := by
  intro h
  have hmin := h zeros52 drain (by decide) (by decide +kernel)
  revert hmin
  decide

end FtjSsdSim.Hdl.Compressor
