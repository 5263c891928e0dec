import Mathlib
import FtjSsdSim.Library.Bits
import FtjSsdSim.Library.Machine

/-!
# The zero-run compressor

`ftj_compressor` consumes a byte stream and replaces each run of zero bytes by the two-byte token
`0x00, count`.  `next` is the module's clocked process with its non-blocking assignments in source
order: `n` accumulates the new register values, every right-hand side reads the old registers `s`.

`expand` reads the output format back.  With `out_ready` high the output is lossless on every run
whose accepted bytes are all `Storable` — the condition names the four places where the process
accepts a byte that it does not keep:

* in `S_STREAM` a non-zero byte, or a zero when the count is at its limit, ends the run but is not
  itself emitted;
* in `S_IDLE` a zero with `in_last` enters `S_FLUSH_RUN` without the `0x00` marker;
* in `S_FLUSH_RUN` and `S_DONE` an accepted byte is not looked at.
-/

namespace FtjSsdSim.Hdl.Compressor

open FtjSsdSim.Library

/-! ### The module of the source -/

/-- `S_IDLE`, `S_STREAM`, `S_FLUSH_RUN`, `S_DONE`. -/
inductive Fsm where
  | idle
  | stream
  | flushRun
  | done
  deriving DecidableEq, Repr

/-- The registers of `ftj_compressor`. -/
structure State where
  state : Fsm
  inReady : Bool
  outValid : Bool
  outData : Byte
  outLast : Bool
  zeroRunCnt : Byte
  pendingLast : Bool
  totalBytesIn : BitVec 32
  totalBytesOut : BitVec 32
  lastCompressionRatioX10 : Byte
  deriving DecidableEq, Repr

/-- The input pins at a clock edge. -/
structure Input where
  inValid : Bool
  inData : Byte
  inLast : Bool
  outReady : Bool
  deriving DecidableEq, Repr

/-- The parameter `MAX_RUN` at its default. -/
def maxRun : Byte := 255

/-- The registers after reset. -/
def reset : State where
  state := .idle
  inReady := true
  outValid := false
  outData := 0
  outLast := false
  zeroRunCnt := 0
  pendingLast := false
  totalBytesIn := 0
  totalBytesOut := 0
  lastCompressionRatioX10 := 10

/-- The output handshake and the telemetry counters, before the FSM's own assignments. -/
def handshake (s : State) (i : Input) : State :=
  let n := if s.outValid && i.outReady then { s with outValid := false, outLast := false } else s
  let n := if i.inValid && s.inReady then { n with totalBytesIn := s.totalBytesIn + 1 } else n
  if s.outValid && i.outReady then
    let n := { n with totalBytesOut := s.totalBytesOut + 1 }
    if s.totalBytesOut > 0 then
      { n with lastCompressionRatioX10 :=
          ((s.totalBytesIn * 10) / (s.totalBytesOut + 1)).setWidth 8 }
    else n
  else n

/-- One clock edge. -/
def next (s : State) (i : Input) : State :=
  let n := handshake s i
  match s.state with
  | .idle =>
    let n := { n with inReady := true }
    if i.inValid && s.inReady then
      if i.inData == 0 then
        { n with
          zeroRunCnt := 1
          pendingLast := i.inLast
          state := if i.inLast then .flushRun else .stream }
      else
        { n with
          outValid := true
          outData := i.inData
          outLast := i.inLast
          state := if i.inLast then .done else .idle }
    else n
  | .stream =>
    if i.inValid && s.inReady then
      if i.inData == 0 && s.zeroRunCnt < maxRun then
        let n := { n with zeroRunCnt := s.zeroRunCnt + 1 }
        if i.inLast then
          { n with
            pendingLast := true
            inReady := false
            outValid := true
            outData := 0x00
            outLast := false
            state := .flushRun }
        else n
      else
        { n with
          inReady := false
          outValid := true
          outData := 0x00
          outLast := false
          pendingLast := i.inLast
          state := .flushRun }
    else n
  | .flushRun =>
    if !s.outValid || i.outReady then
      { n with
        outValid := true
        outData := s.zeroRunCnt
        outLast := s.pendingLast
        zeroRunCnt := 0
        inReady := true
        state := if s.pendingLast then .done else .idle }
    else n
  | .done => { n with inReady := true, outValid := false, outLast := false, state := .idle }

/-! ### What goes in and what comes out -/

/-- The edge accepts the input byte. -/
def accepts (s : State) (i : Input) : Bool := i.inValid && s.inReady

/-- The byte accepted at an edge, with its `in_last` flag. -/
def acceptedBeat (c : State × Input) : Option (Byte × Bool) :=
  if accepts c.1 c.2 then some (c.2.inData, c.2.inLast) else none

/-- The byte transferred at an edge. -/
def transferredByte (c : State × Input) : Option Byte :=
  if c.1.outValid && c.2.outReady then some c.1.outData else none

/-- The bytes accepted in a run from reset, with their `in_last` flags. -/
def accepted (is : List Input) : List (Byte × Bool) := observed next acceptedBeat reset is

/-- The bytes transferred in a run from reset. -/
def transferred (is : List Input) : List Byte := observed next transferredByte reset is

/-- The documented output format: non-zero bytes are literals, `0x00, count` is a run of zeros. -/
def expand : List Byte → Option (List Byte)
  | [] => some []
  | b :: bs =>
    if b ≠ 0 then (expand bs).map (b :: ·)
    else
      match bs with
      | [] => none
      | count :: rest => (expand rest).map (List.replicate count.toNat 0 ++ ·)

/-- The last accepted byte, if any, closed its burst. -/
def BurstsClosed (is : List Input) : Prop := ∀ beat ∈ (accepted is).getLast?, beat.2 = true

/-- An edge that accepts no byte, or one the process keeps. -/
def Storable (c : State × Input) : Prop :=
  accepts c.1 c.2 = true →
    match c.1.state with
    | .idle => ¬ (c.2.inData = 0 ∧ c.2.inLast = true)
    | .stream => c.2.inData = 0 ∧ c.1.zeroRunCnt < maxRun
    | .flushRun => False
    | .done => False

/-! ### Reading the output format -/

theorem expand_cons_literal {b : Byte} (hb : b ≠ 0) (bs : List Byte) :
    expand (b :: bs) = (expand bs).map (b :: ·) := by
  rw [expand.eq_def]
  exact if_pos hb

theorem expand_cons_token (count : Byte) (rest : List Byte) :
    expand (0 :: count :: rest) = (expand rest).map (List.replicate count.toNat 0 ++ ·) := by
  rw [expand.eq_def]
  exact if_neg (not_not.mpr rfl)

/-- Appending to a complete output expands piece by piece. -/
theorem expand_append (xs ys a : List Byte) (h : expand xs = some a) :
    expand (xs ++ ys) = (expand ys).map (a ++ ·) := by
  induction xs using expand.induct generalizing a with
  | case1 =>
    obtain rfl : [] = a := by simpa [expand] using h
    simp
  | case2 b bs hb ih =>
    rw [expand_cons_literal hb, Option.map_eq_some_iff] at h
    obtain ⟨a', ha', rfl⟩ := h
    rw [List.cons_append, expand_cons_literal hb, ih a' ha', Option.map_map]
    rfl
  | case3 b hb => simp_all [expand.eq_def]
  | case4 b hb count rest ih =>
    obtain rfl : b = 0 := not_not.mp hb
    rw [expand_cons_token, Option.map_eq_some_iff] at h
    obtain ⟨a', ha', rfl⟩ := h
    rw [List.cons_append, List.cons_append, expand_cons_token, ih a' ha', Option.map_map]
    refine congrArg (Option.map · _) ?_
    funext z
    exact (List.append_assoc ..).symm

theorem expand_literal (xs a : List Byte) (b : Byte) (h : expand xs = some a) (hb : b ≠ 0) :
    expand (xs ++ [b]) = some (a ++ [b]) := by
  rw [expand_append xs [b] a h, expand_cons_literal hb]
  rfl

theorem expand_token (xs a : List Byte) (count : Byte) (h : expand xs = some a) :
    expand (xs ++ [0, count]) = some (a ++ List.replicate count.toNat 0) := by
  rw [expand_append xs [0, count] a h, expand_cons_token]
  simp [expand]

/-! ### One edge, by state -/

@[simp] theorem handshake_state (s : State) (i : Input) : (handshake s i).state = s.state := by
  unfold handshake; split_ifs <;> rfl

@[simp] theorem handshake_inReady (s : State) (i : Input) :
    (handshake s i).inReady = s.inReady := by
  unfold handshake; split_ifs <;> rfl

@[simp] theorem handshake_zeroRunCnt (s : State) (i : Input) :
    (handshake s i).zeroRunCnt = s.zeroRunCnt := by
  unfold handshake; split_ifs <;> rfl

/-- With `out_ready` high the handshake always empties the output register. -/
theorem handshake_outValid (s : State) (i : Input) (hr : i.outReady = true) :
    (handshake s i).outValid = false := by
  unfold handshake
  cases hv : s.outValid <;> simp [hr, hv] <;> split_ifs <;> simp [hv]

/-- The byte in the output register. -/
def outReg (s : State) : List Byte := if s.outValid then [s.outData] else []

theorem transferredByte_toList (s : State) (i : Input) (hr : i.outReady = true) :
    (transferredByte (s, i)).toList = outReg s := by
  cases hv : s.outValid <;> simp [transferredByte, outReg, hr, hv]

/-- What the bytes transferred so far and the registers say about the bytes accepted so far: a
pending run is still to be added, and its marker is in the output register while it is flushed. -/
def Relates (out acc : List Byte) (s : State) : Prop :=
  match s.state with
  | .idle => expand (out ++ outReg s) = some acc
  | .done => expand (out ++ outReg s) = some acc
  | .stream => s.inReady = true ∧
      ∃ a, expand (out ++ outReg s) = some a ∧ acc = a ++ List.replicate s.zeroRunCnt.toNat 0
  | .flushRun => s.inReady = false ∧ s.pendingLast = true ∧ outReg s = [0] ∧
      ∃ a, expand out = some a ∧ acc = a ++ List.replicate s.zeroRunCnt.toNat 0

/-- The byte accepted at an edge. -/
def acceptedByte (c : State × Input) : Option Byte := (acceptedBeat c).map Prod.fst

theorem acceptedByte_pos {s : State} {i : Input} (h : accepts s i = true) :
    (acceptedByte (s, i)).toList = [i.inData] := by
  simp [acceptedByte, acceptedBeat, h]

theorem acceptedByte_neg {s : State} {i : Input} (h : accepts s i = false) :
    (acceptedByte (s, i)).toList = [] := by
  simp [acceptedByte, acceptedBeat, h]

theorem replicate_succ_toNat (c : Byte) (h : c < maxRun) :
    List.replicate (c + 1).toNat (0 : Byte) = List.replicate c.toNat 0 ++ [0] := by
  have hc : c.toNat < 255 := h
  have hs : (c + 1).toNat = c.toNat + 1 := by
    rw [BitVec.toNat_add]
    show (c.toNat + 1) % 2 ^ 8 = _
    omega
  rw [hs, List.replicate_succ']

/-- Without an accepted byte, idle only empties the output register. -/
theorem next_idle_wait {s : State} {i : Input} (hs : s.state = .idle)
    (ha : accepts s i = false) : next s i = { handshake s i with inReady := true } := by
  rw [accepts] at ha
  simp only [next, hs, ha, Bool.false_eq_true, if_false]

/-- A zero that does not close its burst opens a run. -/
theorem next_idle_zero {s : State} {i : Input} (hs : s.state = .idle) (ha : accepts s i = true)
    (hz : i.inData = 0) (hl : i.inLast = false) :
    next s i = { handshake s i with
      inReady := true, zeroRunCnt := 1, pendingLast := false, state := .stream } := by
  rw [accepts] at ha
  simp only [next, hs, ha, hz, hl, beq_self_eq_true, if_true, Bool.false_eq_true, if_false]

/-- A non-zero byte goes straight to the output register. -/
theorem next_idle_literal {s : State} {i : Input} (hs : s.state = .idle)
    (ha : accepts s i = true) (hz : i.inData ≠ 0) :
    next s i = { handshake s i with
      inReady := true, outValid := true, outData := i.inData, outLast := i.inLast,
      state := if i.inLast then .done else .idle } := by
  rw [accepts] at ha
  have hz' : (i.inData == 0) = false := beq_eq_false_iff_ne.mpr hz
  simp only [next, hs, ha, hz', if_true, Bool.false_eq_true, if_false]

theorem next_stream_wait {s : State} {i : Input} (hs : s.state = .stream)
    (ha : accepts s i = false) : next s i = handshake s i := by
  rw [accepts] at ha
  simp only [next, hs, ha, Bool.false_eq_true, if_false]

/-- A further zero is counted, and the one that closes the burst starts the flush. -/
theorem next_stream_zero {s : State} {i : Input} (hs : s.state = .stream)
    (ha : accepts s i = true) (hz : i.inData = 0) (hc : s.zeroRunCnt < maxRun) :
    next s i =
      if i.inLast then
        { handshake s i with
          zeroRunCnt := s.zeroRunCnt + 1, pendingLast := true, inReady := false,
          outValid := true, outData := 0, outLast := false, state := .flushRun }
      else { handshake s i with zeroRunCnt := s.zeroRunCnt + 1 } := by
  rw [accepts] at ha
  have hzc : (i.inData == 0 && decide (s.zeroRunCnt < maxRun)) = true := by
    rw [hz, decide_eq_true hc]; rfl
  simp only [next, hs, ha, hzc, if_true]

/-- A run that has given its marker gives its count next. -/
theorem next_flushRun {s : State} {i : Input} (hs : s.state = .flushRun)
    (hr : i.outReady = true) :
    next s i = { handshake s i with
      outValid := true, outData := s.zeroRunCnt, outLast := s.pendingLast, zeroRunCnt := 0,
      inReady := true, state := if s.pendingLast then .done else .idle } := by
  simp only [next, hs, hr, Bool.or_true, if_true]

theorem next_done {s : State} {i : Input} (hs : s.state = .done) :
    next s i = { handshake s i with
      inReady := true, outValid := false, outLast := false, state := .idle } := by
  simp only [next, hs]

/-- **One edge keeps the relation**, when it accepts nothing or a byte the process keeps. -/
theorem relates_next {out acc : List Byte} {s : State} {i : Input} (h : Relates out acc s)
    (hr : i.outReady = true) (hok : Storable (s, i)) :
    Relates (out ++ (transferredByte (s, i)).toList) (acc ++ (acceptedByte (s, i)).toList)
      (next s i) := by
  have hv := handshake_outValid s i hr
  have hok' : accepts s i = true → _ := hok
  rw [transferredByte_toList s i hr]
  cases hs : s.state with
  | idle =>
    simp only [Relates, hs] at h
    simp only [hs] at hok'
    cases ha : accepts s i with
    | false =>
      rw [acceptedByte_neg ha, List.append_nil, next_idle_wait hs ha]
      simpa [Relates, hs, outReg, hv] using h
    | true =>
      rw [acceptedByte_pos ha]
      by_cases hz : i.inData = 0
      · have hl : i.inLast = false := by
          cases hl : i.inLast with
          | false => rfl
          | true => exact absurd ⟨hz, hl⟩ (hok' ha)
        rw [next_idle_zero hs ha hz hl]
        refine ⟨rfl, acc, ?_, by rw [hz]; rfl⟩
        simpa [outReg, hv] using h
      · rw [next_idle_literal hs ha hz]
        have hexp := expand_literal _ _ _ h hz
        cases hl : i.inLast <;> simpa [Relates, outReg] using hexp
  | stream =>
    simp only [Relates, hs] at h
    simp only [hs] at hok'
    obtain ⟨hrdy, a, hexp, hacc⟩ := h
    cases ha : accepts s i with
    | false =>
      rw [acceptedByte_neg ha, List.append_nil, next_stream_wait hs ha]
      simp only [Relates, handshake_state, hs, handshake_inReady, handshake_zeroRunCnt]
      exact ⟨hrdy, a, by simpa [outReg, hv] using hexp, hacc⟩
    | true =>
      obtain ⟨hz, hc⟩ := hok' ha
      have hcount : acc ++ [i.inData] =
          a ++ List.replicate (s.zeroRunCnt + 1).toNat 0 := by
        rw [replicate_succ_toNat _ hc, hacc, hz, List.append_assoc]
      rw [acceptedByte_pos ha, next_stream_zero hs ha hz hc]
      cases hl : i.inLast with
      | false =>
        simp only [Relates, Bool.false_eq_true, if_false, handshake_state, hs, handshake_inReady]
        exact ⟨hrdy, a, by simpa [outReg, hv] using hexp, hcount⟩
      | true =>
        exact ⟨rfl, rfl, rfl, a, hexp, hcount⟩
  | flushRun =>
    simp only [Relates, hs] at h
    obtain ⟨hrdy, hlast, hmark, a, hexp, hacc⟩ := h
    have ha : accepts s i = false := by rw [accepts, hrdy, Bool.and_false]
    have htok := expand_token _ _ s.zeroRunCnt hexp
    rw [acceptedByte_neg ha, List.append_nil, next_flushRun hs hr, hmark, hlast, hacc]
    simpa [Relates, outReg] using htok
  | done =>
    simp only [Relates, hs] at h
    simp only [hs] at hok'
    have ha : accepts s i = false := Bool.eq_false_iff.mpr hok'
    rw [acceptedByte_neg ha, List.append_nil, next_done hs]
    simpa [Relates, outReg] using h

/-! ### Whole runs -/

/-- The edge is taken with `out_ready` high, and accepts only a byte the process keeps. -/
def Kept (c : State × Input) : Prop := c.2.outReady = true ∧ Storable c

/-- The bytes accepted in a run, without their flags. -/
def acceptedBytes (is : List Input) : List Byte := (accepted is).map Prod.fst

theorem accepted_snoc (is : List Input) (i : Input) :
    accepted (is ++ [i]) = accepted is ++ (acceptedBeat (run next reset is, i)).toList :=
  observed_snoc ..

theorem acceptedBytes_snoc (is : List Input) (i : Input) :
    acceptedBytes (is ++ [i]) = acceptedBytes is ++ (acceptedByte (run next reset is, i)).toList := by
  rw [acceptedBytes, accepted_snoc, List.map_append, acceptedByte, Option.toList_map]
  rfl

theorem transferred_snoc (is : List Input) (i : Input) :
    transferred (is ++ [i]) =
      transferred is ++ (transferredByte (run next reset is, i)).toList :=
  observed_snoc ..

/-- **The relation holds after every run** whose edges are all `Kept`. -/
theorem relates_run (is : List Input) (hok : ∀ c ∈ cycles next reset is, Kept c) :
    Relates (transferred is) (acceptedBytes is) (run next reset is) := by
  refine run_induct
    (motive := fun is s => Relates (transferred is) (acceptedBytes is) s) ?base ?next is hok
  case base => rfl
  case next =>
    intro is i h hc
    rw [transferred_snoc, acceptedBytes_snoc]
    exact relates_next h hc.1 hc.2

/-- While a run is being counted, the last accepted byte left its burst open. -/
def OpenWhileStreaming (beats : List (Byte × Bool)) (s : State) : Prop :=
  s.state = .stream → ∃ beat ∈ beats.getLast?, beat.2 = false

theorem acceptedBeat_pos {s : State} {i : Input} (h : accepts s i = true) :
    acceptedBeat (s, i) = some (i.inData, i.inLast) := if_pos h

theorem acceptedBeat_neg {s : State} {i : Input} (h : accepts s i = false) :
    acceptedBeat (s, i) = none := by simp [acceptedBeat, h]

theorem open_snoc {beats : List (Byte × Bool)} (b : Byte) :
    ∃ beat ∈ (beats ++ [(b, false)]).getLast?, beat.2 = false :=
  ⟨(b, false), List.getLast?_concat, rfl⟩

theorem openWhileStreaming_next {beats : List (Byte × Bool)} {s : State} {i : Input}
    (h : OpenWhileStreaming beats s) (hc : Kept (s, i)) :
    OpenWhileStreaming (beats ++ (acceptedBeat (s, i)).toList) (next s i) := by
  obtain ⟨hr, hok⟩ := hc
  have hok' : accepts s i = true → _ := hok
  intro hn
  cases hs : s.state with
  | idle =>
    simp only [hs] at hok'
    cases ha : accepts s i with
    | false => simp [next_idle_wait hs ha, hs] at hn
    | true =>
      rw [acceptedBeat_pos ha]
      cases hl : i.inLast with
      | false => exact open_snoc i.inData
      | true =>
        have hz : i.inData ≠ 0 := fun hz => hok' ha ⟨hz, hl⟩
        simp [next_idle_literal hs ha hz, hl] at hn
  | stream =>
    simp only [hs] at hok'
    cases ha : accepts s i with
    | false =>
      rw [acceptedBeat_neg ha, Option.toList_none, List.append_nil]
      exact h hs
    | true =>
      obtain ⟨hz, hcnt⟩ := hok' ha
      rw [acceptedBeat_pos ha]
      cases hl : i.inLast with
      | false => exact open_snoc i.inData
      | true => simp [next_stream_zero hs ha hz hcnt, hl] at hn
  | flushRun =>
    rw [next_flushRun hs hr] at hn
    cases hp : s.pendingLast <;> simp [hp] at hn
  | done => simp [next_done hs] at hn

theorem openWhileStreaming_run (is : List Input) (hok : ∀ c ∈ cycles next reset is, Kept c) :
    OpenWhileStreaming (accepted is) (run next reset is) := by
  refine run_induct (motive := fun is s => OpenWhileStreaming (accepted is) s) ?base ?next is hok
  case base => intro h; cases h
  case next =>
    intro is i h hc
    rw [accepted_snoc]
    exact openWhileStreaming_next h hc

/-- An edge with `in_valid` low and `out_ready` high. -/
def Quiet (i : Input) : Prop := i.inValid = false ∧ i.outReady = true

/-- Edges until the process is idle with an empty output register, if none is accepted. -/
def pending (s : State) : ℕ :=
  match s.state with
  | .idle => if s.outValid then 1 else 0
  | .stream => 0
  | .flushRun => 2
  | .done => 1

theorem accepts_quiet {s : State} {i : Input} (hq : Quiet i) : accepts s i = false := by
  rw [accepts, hq.1, Bool.false_and]

theorem kept_quiet {s : State} {i : Input} (hq : Quiet i) : Kept (s, i) :=
  ⟨hq.2, fun ha => by rw [accepts_quiet hq] at ha; cases ha⟩

/-- No run is open: what is left to emit does not depend on further input. -/
def Draining (s : State) : Prop :=
  s.state ≠ .stream ∧ (s.state = .flushRun → s.pendingLast = true)

/-- A quiet edge brings a closed burst one step nearer to having been flushed. -/
theorem pending_next {s : State} {i : Input} (hq : Quiet i) (hd : Draining s) :
    Draining (next s i) ∧ pending (next s i) ≤ pending s - 1 := by
  have hv := handshake_outValid s i hq.2
  cases hst : s.state with
  | idle =>
    rw [next_idle_wait hst (accepts_quiet hq)]
    simp [Draining, pending, hst, hv]
  | stream => exact absurd hst hd.1
  | flushRun =>
    rw [next_flushRun hst hq.2, hd.2 hst]
    simp [Draining, pending, hst]
  | done =>
    rw [next_done hst]
    simp [Draining, pending, hst]

theorem pending_run {s : State} (hd : Draining s) (js : List Input) (hq : ∀ i ∈ js, Quiet i) :
    Draining (run next s js) ∧ pending (run next s js) ≤ pending s - js.length := by
  induction js generalizing s with
  | nil => exact ⟨hd, le_rfl⟩
  | cons i js ih =>
    obtain ⟨hd', hp⟩ := pending_next (hq i (List.mem_cons_self ..)) hd
    obtain ⟨hd'', hp'⟩ := ih hd' fun j hj => hq j (List.mem_cons_of_mem _ hj)
    refine ⟨hd'', ?_⟩
    rw [List.length_cons]
    exact hp'.trans (by omega)

theorem pending_le_two (s : State) : pending s ≤ 2 := by
  unfold pending
  cases s.state <;> cases s.outValid <;> decide

/-- With nothing pending, what has been transferred expands to what has been accepted. -/
theorem expand_of_drained {out acc : List Byte} {s : State} (h : Relates out acc s)
    (hd : Draining s) (hp : pending s = 0) : expand out = some acc := by
  cases hst : s.state with
  | idle =>
    have hv : s.outValid = false := by simpa [pending, hst] using hp
    simpa [Relates, hst, outReg, hv] using h
  | stream => exact absurd hst hd.1
  | flushRun => simp [pending, hst] at hp
  | done => simp [pending, hst] at hp

theorem cycles_quiet {js : List Input} (hq : ∀ i ∈ js, Quiet i) (s : State) :
    ∀ c ∈ cycles next s js, Kept c := by
  induction js generalizing s with
  | nil => intro c hc; cases hc
  | cons i js ih =>
    intro c hc
    rcases List.mem_cons.mp hc with rfl | hc
    · exact kept_quiet (hq i (List.mem_cons_self ..))
    · exact ih (fun j hj => hq j (List.mem_cons_of_mem _ hj)) _ c hc

/-- **A run of kept bytes is recovered.**  Let every edge of `is` be taken with `out_ready` high and
accept only bytes that are `Storable`, and let the last burst be closed by `in_last`.  Two or more
quiet edges later the transferred bytes expand to exactly the accepted ones. -/
theorem compressor_lossless_of_storable (is js : List Input)
    (hready : ∀ i ∈ is, i.outReady = true)
    (hstore : ∀ c ∈ cycles next reset is, Storable c) (hclosed : BurstsClosed is)
    (hquiet : ∀ i ∈ js, Quiet i) (hlen : 2 ≤ js.length) :
    expand (transferred (is ++ js)) = some ((accepted (is ++ js)).map Prod.fst) := by
  have hkept : ∀ c ∈ cycles next reset is, Kept c := fun c hc =>
    ⟨hready _ (mem_of_mem_cycles hc), hstore c hc⟩
  have hall : ∀ c ∈ cycles next reset (is ++ js), Kept c := by
    intro c hc
    rw [cycles_append] at hc
    exact (List.mem_append.mp hc).elim (hkept c) (cycles_quiet hquiet _ c)
  have hrel := relates_run _ hall
  have hdrain : Draining (run next reset is) := by
    constructor
    · intro hst
      obtain ⟨beat, hmem, hopen⟩ := openWhileStreaming_run is hkept hst
      rw [hclosed beat hmem] at hopen
      cases hopen
    · intro hst
      have h := relates_run is hkept
      simp only [Relates, hst] at h
      exact h.2.1
  obtain ⟨hd, hp⟩ := pending_run hdrain js hquiet
  rw [← run_append] at hd hp
  have := pending_le_two (run next reset is)
  exact expand_of_drained hrel hd (by omega)

/-- The input sequence of a burst sent back to back. -/
def burst : List (Byte × Bool) → List Input := List.map fun b => ⟨true, b.1, b.2, true⟩

/-- An edge with nothing to send. -/
def gap : Input := ⟨false, 0, false, true⟩

set_option maxRecDepth 4000 in
theorem compressor_lossless_of_storable_literal_zeros :
    expand (transferred
      (burst [(0x41, false), (0, false), (0, true)] ++ List.replicate 2 gap)) =
      some ((accepted
        (burst [(0x41, false), (0, false), (0, true)] ++ List.replicate 2 gap)).map Prod.fst) :=
  compressor_lossless_of_storable _ _ (by decide)
    (by simp [burst, cycles, Storable, accepts, reset, next, handshake, maxRun])
    (by unfold BurstsClosed; decide) (by unfold Quiet; decide) (by decide)

set_option maxRecDepth 4000 in
/-- Zeros followed by a non-zero byte in one burst: `0x42` is accepted and never emitted. -/
theorem compressor_drops_byte_after_zeros :
    ¬ ∀ is js : List Input, (∀ i ∈ is, i.outReady = true) → BurstsClosed is →
      (∀ i ∈ js, Quiet i) → 2 ≤ js.length →
      expand (transferred (is ++ js)) = some ((accepted (is ++ js)).map Prod.fst) := by
  intro h
  have := h (burst [(0, false), (0, false), (0x42, true)]) (List.replicate 2 gap) (by decide)
    (by unfold BurstsClosed; decide) (by unfold Quiet; decide) (by decide)
  revert this
  decide

end FtjSsdSim.Hdl.Compressor
