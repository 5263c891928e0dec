import Mathlib
import FtjSsdSim.Library.Bits
import FtjSsdSim.Library.Machine
import FtjSsdSim.Library.Stream

/-!
# The word serializer

`ftj_word_serializer` takes a word with a count of valid bytes and hands the bytes on one by one.
`step` is one clock edge with reset released; every right-hand side reads the old registers `s`.

The state after the last byte of a burst, `S_DONE`, does two things at once that no other state does:
it shows `in_ready` without looking at the input, and it withdraws the output without looking at
`out_ready`.  A word that is offered there is accepted and dropped, and a byte that is not taken there
is lost.

* `accounts` — as long as no byte is withdrawn, the bytes of the words that are latched are those
  transferred, the one shown and those of the latched word that are left;
* `serializer_delivers_iff` — with `out_ready` high, when every accepted word is delivered;
* `serializer_stall_iff` — for one burst, when stalls make no difference.
-/

namespace FtjSsdSim.Hdl.WordSerializer

open FtjSsdSim.Library

/-! ### The module of the source -/

/-- `S_IDLE`, `S_STREAM`, `S_DONE`; the fourth value of the register is never assigned. -/
inductive Fsm where
  | idle
  | stream
  | done
  deriving DecidableEq, Repr

/-- The registers of `ftj_word_serializer`. -/
structure State where
  state : Fsm
  inReady : Bool
  outValid : Bool
  outData : Byte
  outLast : Bool
  wordLatch : Word
  bytesTotal : BitVec 4
  byteIdx : BitVec 4
  lastLatch : Bool
  deriving DecidableEq, Repr

/-- The input pins at a clock edge. -/
structure Input where
  inValid : Bool
  inWord : Word
  inValidBytes : BitVec 4
  inLast : Bool
  outReady : Bool
  deriving DecidableEq, Repr

/-- The registers after reset. -/
def reset : State where
  state := .idle
  inReady := true
  outValid := false
  outData := 0
  outLast := false
  wordLatch := 0
  bytesTotal := 0
  byteIdx := 0
  lastLatch := false

/-- `curr_byte`: the byte of `word_latch` that `byte_idx[2:0]` selects. -/
def currByte (s : State) : Byte := byteAt s.wordLatch (s.byteIdx.toNat % 8)

/-- `last_byte_of_word`. -/
def lastByteOfWord (s : State) : Bool := s.byteIdx == s.bytesTotal - 1

/-- One clock edge. -/
def step (s : State) (i : Input) : State :=
  let n := if s.outValid && i.outReady then { s with outValid := false, outLast := false } else s
  match s.state with
  | .idle =>
    let n := { n with inReady := true }
    if i.inValid && s.inReady then
      { n with
        wordLatch := i.inWord
        bytesTotal := i.inValidBytes
        lastLatch := i.inLast
        byteIdx := 0
        inReady := false
        state := .stream }
    else n
  | .stream =>
    if !s.outValid || i.outReady then
      let n := { n with
        outValid := true
        outData := currByte s
        outLast := s.lastLatch && lastByteOfWord s }
      if lastByteOfWord s then
        { n with byteIdx := 0, inReady := true, state := if s.lastLatch then .done else .idle }
      else { n with byteIdx := s.byteIdx + 1 }
    else n
  | .done => { n with inReady := true, outValid := false, outLast := false, state := .idle }

/-! ### What goes in and what comes out -/

/-- A word on the input pins: `in_word`, `in_valid_bytes` and `in_last`. -/
structure WordIn where
  word : Word
  validBytes : BitVec 4
  last : Bool
  deriving DecidableEq, Repr

/-- The count is one of those the port is made for. -/
def WordIn.Sized (w : WordIn) : Prop := 1 ≤ w.validBytes.toNat ∧ w.validBytes.toNat ≤ 8

instance (w : WordIn) : Decidable w.Sized := inferInstanceAs (Decidable (_ ∧ _))

/-- The valid bytes of a word, low ones first; the final one carries the word's `last` flag. -/
def WordIn.bytes (w : WordIn) : List (Byte × Bool) :=
  (List.range w.validBytes.toNat).map fun k =>
    (byteAt w.word k, w.last && decide (k + 1 = w.validBytes.toNat))

/-- The word that is offered. -/
def Input.offer (i : Input) : WordIn := ⟨i.inWord, i.inValidBytes, i.inLast⟩

/-- The word accepted at an edge: `in_valid && in_ready`. -/
def acceptedWord (c : State × Input) : Option WordIn :=
  if c.2.inValid && c.1.inReady then some c.2.offer else none

/-- The output byte with its `out_last` flag, behind `out_valid` and `out_ready`. -/
def port : Port State Input (Byte × Bool) where
  out s := if s.outValid then some (s.outData, s.outLast) else none
  ready i := i.outReady

/-- The words accepted in a run from reset. -/
def accepted (is : List Input) : List WordIn := observed step acceptedWord reset is

/-- The bytes transferred in a run from reset, with their `out_last` flags. -/
def transferred (is : List Input) : List (Byte × Bool) := observed step port.taken reset is

/-- Nothing is left to be shown or transferred. -/
def Drained (s : State) : Prop := s.state ≠ .stream ∧ s.outValid = false

instance (s : State) : Decidable (Drained s) := inferInstanceAs (Decidable (_ ∧ _))

/-- A byte that is not taken stays on the pins. -/
def Stays (c : State × Input) : Prop :=
  c.1.outValid = true → c.2.outReady = false →
    (step c.1 c.2).outValid = true ∧ (step c.1 c.2).outData = c.1.outData ∧
      (step c.1 c.2).outLast = c.1.outLast

/-! ### The output register -/

/-- The byte that an edge puts into the output register. -/
def put (c : State × Input) : Option (Byte × Bool) :=
  if c.1.state = .stream ∧ (!c.1.outValid || c.2.outReady) = true then
    some (currByte c.1, c.1.lastLatch && lastByteOfWord c.1)
  else none

theorem stalled_iff (c : State × Input) :
    port.Stalled c ↔ c.1.outValid = true ∧ c.2.outReady = false :=
  port.stalled_iff_valid (fun _ => rfl) c

theorem stays_iff (c : State × Input) :
    Stays c ↔ (port.Stalled c → port.out (step c.1 c.2) = port.out c.1) := by
  rw [stalled_iff, Stays, and_imp]
  refine imp_congr_right fun hvalid => imp_congr_right fun _ => ?_
  rw [port.out_eq_iff_valid (fun _ => rfl) hvalid, Prod.mk.injEq]

/-- Only `S_DONE` clears the port, whether or not the byte there is taken. -/
theorem register : Register step port put fun c => c.1.state == .done where
  out c := by
    obtain ⟨s, i⟩ := c
    cases hs : s.state with
    | idle =>
      have hput : put (s, i) = none := if_neg (by simp [hs])
      rw [hput, Option.none_or]
      cases hv : s.outValid <;> cases hr : i.outReady <;> simp only [step, port, hs, hv, hr]
      all_goals split_ifs <;> simp_all
    | stream =>
      cases hv : s.outValid <;> cases hr : i.outReady <;> simp only [step, put, port, hs, hv, hr]
      all_goals split_ifs <;> simp_all
    | done => simp [step, port, hs]
  put_of_clears c hdone := by
    have hs : c.1.state = .done := beq_iff_eq.mp hdone
    exact if_neg (by simp [hs])

theorem put_of_stalled {c : State × Input} (h : port.Stalled c) : put c = none := by
  obtain ⟨hvalid, hready⟩ := (stalled_iff c).mp h
  simp [put, hvalid, hready]

/-! ### The steps of the state machine -/

/-- The word that is latched. -/
def latched (s : State) : WordIn := ⟨s.wordLatch, s.bytesTotal, s.lastLatch⟩

variable {s : State} {i : Input}

theorem step_latch (hs : s.state = .idle) (hacc : (i.inValid && s.inReady) = true) :
    (step s i).state = .stream ∧ (step s i).inReady = false ∧ (step s i).byteIdx = 0 ∧
      latched (step s i) = i.offer := by
  simp [step, hs, hacc, latched, Input.offer]

theorem step_wait (hs : s.state = .idle) (hacc : ¬ (i.inValid && s.inReady) = true) :
    (step s i).state = .idle ∧ (step s i).inReady = true := by
  simp only [step, hs, if_neg hacc]
  split_ifs <;> simp [hs]

theorem step_emit (hs : s.state = .stream) (hfree : (!s.outValid || i.outReady) = true)
    (hlast : lastByteOfWord s = false) :
    (step s i).state = .stream ∧ (step s i).inReady = s.inReady ∧
      (step s i).byteIdx = s.byteIdx + 1 ∧ latched (step s i) = latched s := by
  simp only [step, hs, if_pos hfree, hlast, latched]
  split_ifs <;> simp_all

theorem step_finish (hs : s.state = .stream) (hfree : (!s.outValid || i.outReady) = true)
    (hlast : lastByteOfWord s = true) :
    (step s i).state = (if s.lastLatch then .done else .idle) ∧ (step s i).inReady = true ∧
      (step s i).outValid = true := by
  simp [step, hs, hfree, hlast]

theorem step_hold (hs : s.state = .stream) (hfree : ¬ (!s.outValid || i.outReady) = true) :
    step s i = s := by
  simp only [step, hs, if_neg hfree]
  refine if_neg fun hboth => hfree ?_
  rw [(Bool.and_eq_true_iff.mp hboth).2, Bool.or_true]

theorem step_done (hs : s.state = .done) : (step s i).state = .idle ∧ (step s i).inReady = true := by
  simp [step, hs]

/-! ### The words that are latched -/

/-- What the state says of the word it streams. -/
structure Sound (s : State) : Prop where
  inReady : s.inReady = true ↔ s.state ≠ .stream
  idx : s.state = .stream → s.byteIdx.toNat < s.bytesTotal.toNat
  total : s.state = .stream → s.bytesTotal.toNat ≤ 8
  shown : s.state = .done → s.outValid = true

/-- The word that an edge latches. -/
def keptWord (c : State × Input) : Option WordIn :=
  if c.1.state = .idle ∧ (c.2.inValid && c.1.inReady) = true then some c.2.offer else none

/-- The bytes of the latched word that are left. -/
def remaining (s : State) : List (Byte × Bool) :=
  if s.state = .stream then (latched s).bytes.drop s.byteIdx.toNat else []

/-- The last byte is the one before the end of the valid ones. -/
theorem Sound.last_iff (h : Sound s) (hs : s.state = .stream) :
    lastByteOfWord s = true ↔ s.byteIdx.toNat + 1 = s.bytesTotal.toNat := by
  have hidx := h.idx hs
  have htotal := h.total hs
  rw [lastByteOfWord, beq_iff_eq]
  bv_omega

theorem sound_reset : Sound reset where
  inReady := by decide
  idx h := by cases h
  total h := by cases h
  shown h := by cases h

/-- An idle state is sound if it is ready. -/
theorem sound_of_idle (hs : s.state = .idle) (hready : s.inReady = true) : Sound s where
  inReady := by simp [hs, hready]
  idx h := by cases hs.symm.trans h
  total h := by cases hs.symm.trans h
  shown h := by cases hs.symm.trans h

theorem Sound.step (h : Sound s) (hsized : ∀ w, keptWord (s, i) = some w → w.Sized) :
    Sound (step s i) := by
  cases hs : s.state with
  | idle =>
    by_cases hacc : (i.inValid && s.inReady) = true
    · have hw : i.offer.Sized := hsized _ (if_pos ⟨hs, hacc⟩)
      obtain ⟨hstate, hready, hidx, hword⟩ := step_latch hs hacc
      have htotal : (WordSerializer.step s i).bytesTotal = i.inValidBytes :=
        congrArg WordIn.validBytes hword
      refine ⟨by simp [hstate, hready], fun _ => ?_, fun _ => ?_, fun hd => ?_⟩
      · rw [hidx, htotal]
        exact hw.1
      · rw [htotal]
        exact hw.2
      · cases hstate.symm.trans hd
    · obtain ⟨hstate, hready⟩ := step_wait hs hacc
      exact sound_of_idle hstate hready
  | stream =>
    by_cases hfree : (!s.outValid || i.outReady) = true
    · cases hlast : lastByteOfWord s with
      | true =>
        obtain ⟨hstate, hready, hvalid⟩ := step_finish hs hfree hlast
        have hne : (WordSerializer.step s i).state ≠ .stream := by
          rw [hstate]
          split_ifs <;> decide
        exact ⟨by simp [hready, hne], fun hd => absurd hd hne, fun hd => absurd hd hne,
          fun _ => hvalid⟩
      | false =>
        obtain ⟨hstate, hready, hidx, hword⟩ := step_emit hs hfree hlast
        have htotal : (WordSerializer.step s i).bytesTotal = s.bytesTotal :=
          congrArg WordIn.validBytes hword
        have hmore : s.byteIdx.toNat + 1 ≠ s.bytesTotal.toNat := fun heq => by
          rw [(h.last_iff hs).mpr heq] at hlast
          cases hlast
        have hlt := h.idx hs
        refine ⟨by rw [hready, hstate, h.inReady, hs], fun _ => ?_, fun _ => ?_, fun hd => ?_⟩
        · rw [hidx, htotal]
          bv_omega
        · rw [htotal]
          exact h.total hs
        · cases hstate.symm.trans hd
    · rw [step_hold hs hfree]
      exact h
  | done =>
    obtain ⟨hstate, hready⟩ := step_done (i := i) hs
    exact sound_of_idle hstate hready

/-- **One edge**: what is left of the latched word, and a word that is latched, is what is put out and
what is left after it. -/
theorem Sound.remaining_step (h : Sound s) (i : Input) :
    remaining s ++ ((keptWord (s, i)).elim [] WordIn.bytes) =
      (put (s, i)).toList ++ remaining (WordSerializer.step s i) := by
  cases hs : s.state with
  | idle =>
    have hput : put (s, i) = none := if_neg (by simp [hs])
    have hrem : remaining s = [] := if_neg (by simp [hs])
    rw [hput, hrem]
    by_cases hacc : (i.inValid && s.inReady) = true
    · obtain ⟨hstate, -, hidx, hword⟩ := step_latch hs hacc
      have hkept : keptWord (s, i) = some i.offer := if_pos ⟨hs, hacc⟩
      rw [hkept, remaining, if_pos hstate, hidx, hword]
      rfl
    · have hkept : keptWord (s, i) = none := if_neg fun hk => hacc hk.2
      rw [hkept, remaining, if_neg (by simp [(step_wait hs hacc).1])]
      rfl
  | stream =>
    have hkept : keptWord (s, i) = none := if_neg fun hk => by cases hs.symm.trans hk.1
    have hidx := h.idx hs
    have htotal := h.total hs
    rw [hkept, remaining, if_pos hs]
    by_cases hfree : (!s.outValid || i.outReady) = true
    · have hput : put (s, i) = some (currByte s, s.lastLatch && lastByteOfWord s) :=
        if_pos ⟨hs, hfree⟩
      have hlen : s.byteIdx.toNat < (latched s).bytes.length := by
        rw [WordIn.bytes, List.length_map, List.length_range]
        exact hidx
      have hhead : (latched s).bytes[s.byteIdx.toNat] =
          (currByte s, s.lastLatch && lastByteOfWord s) := by
        have hmod : s.byteIdx.toNat % 8 = s.byteIdx.toNat := Nat.mod_eq_of_lt (by omega)
        have hflag : lastByteOfWord s = decide (s.byteIdx.toNat + 1 = s.bytesTotal.toNat) := by
          rw [Bool.eq_iff_iff, h.last_iff hs, decide_eq_true_iff]
        simp only [WordIn.bytes, List.getElem_map, List.getElem_range, currByte, hmod, hflag]
        rfl
      rw [hput, List.drop_eq_getElem_cons hlen, hhead]
      cases hlast : lastByteOfWord s with
      | true =>
        have hend : (latched s).bytes.drop (s.byteIdx.toNat + 1) = [] := by
          rw [List.drop_eq_nil_iff, WordIn.bytes, List.length_map, List.length_range]
          exact ((h.last_iff hs).mp hlast).ge
        have hne : (WordSerializer.step s i).state ≠ .stream := by
          rw [(step_finish hs hfree hlast).1]
          split_ifs <;> decide
        rw [hend, remaining, if_neg hne]
        rfl
      | false =>
        obtain ⟨hstate, -, hnext, hword⟩ := step_emit hs hfree hlast
        have hto : (s.byteIdx + 1).toNat = s.byteIdx.toNat + 1 := by bv_omega
        rw [remaining, if_pos hstate, hnext, hword, hto]
        exact List.append_nil _
    · have hput : put (s, i) = none := if_neg fun hp => hfree hp.2
      rw [hput, step_hold hs hfree, remaining, if_pos hs]
      exact List.append_nil _
  | done =>
    have hput : put (s, i) = none := if_neg (by simp [hs])
    have hkept : keptWord (s, i) = none := if_neg (by simp [hs])
    rw [hput, hkept, remaining, remaining, if_neg (by simp [hs]), if_neg (by simp [step_done hs])]
    rfl

/-! ### Runs -/

/-- The words that a run latches are of the sizes the port is made for. -/
def SizedRun (is : List Input) : Prop :=
  ∀ c ∈ cycles step reset is, ∀ w, acceptedWord c = some w → w.Sized

theorem acceptedWord_of_kept {c : State × Input} {w : WordIn} (h : keptWord c = some w) :
    acceptedWord c = some w := by
  simp only [keptWord, acceptedWord] at h ⊢
  split_ifs at h with hk
  rwa [if_pos hk.2]

theorem cycles_sound {is : List Input} (hsized : SizedRun is) :
    ∀ c ∈ cycles step reset is, Sound c.1 :=
  cycles_invariant (P := fun c => ∀ w, acceptedWord c = some w → w.Sized) sound_reset
    (fun _ _ h hw => h.step fun w hk => hw w (acceptedWord_of_kept hk)) is hsized

theorem run_sound {is : List Input} (hsized : SizedRun is) : Sound (run step reset is) :=
  run_invariant (P := fun c => ∀ w, acceptedWord c = some w → w.Sized) sound_reset
    (fun _ _ h hw => h.step fun w hk => hw w (acceptedWord_of_kept hk)) is hsized

/-- **Where no byte is withdrawn**, the bytes of the words that are latched are those transferred, the
one shown and those that are left. -/
theorem accounts {is : List Input} (hsized : SizedRun is)
    (hstall : ∀ c ∈ cycles step reset is, port.Stalled c → ¬ c.1.state = .done) :
    (cycles step reset is).flatMap (fun c => (keptWord c).elim [] WordIn.bytes) =
      transferred is ++ (port.pending (run step reset is) ++ remaining (run step reset is)) := by
  have hput := register.accounts fun c hc hwait =>
    ⟨beq_eq_false_iff_ne.mpr (hstall c hc hwait), put_of_stalled hwait⟩
  have hstep : ∀ c ∈ cycles step reset is, remaining c.1 ++ (keptWord c).elim [] WordIn.bytes =
      (put c).toList ++ remaining (step c.1 c.2) :=
    fun c hc => (cycles_sound hsized c hc).remaining_step c.2
  have hkept := conserved hstep
  rw [← observed_eq_flatMap] at hkept
  have hnone : remaining reset = [] := rfl
  have hnone' : port.pending reset = [] := rfl
  rw [hnone, List.nil_append] at hkept
  rw [hnone', List.nil_append] at hput
  rw [hkept, hput, List.append_assoc]
  rfl

/-- A drained state holds nothing back. -/
theorem Drained.nothing_left {s : State} (h : Drained s) :
    port.pending s ++ remaining s = [] := by
  have hout : port.out s = none := by simp [port, h.2]
  rw [Port.pending, hout, remaining, if_neg h.1]
  rfl

/-- A word is accepted without being latched only in `S_DONE`. -/
theorem Sound.accepted_cases (h : Sound s) (i : Input) :
    keptWord (s, i) = acceptedWord (s, i) ∨
      (keptWord (s, i) = none ∧ acceptedWord (s, i) = some i.offer ∧ s.state = .done ∧
        i.inValid = true) := by
  cases hs : s.state with
  | idle => exact .inl (by simp [keptWord, acceptedWord, hs])
  | stream =>
    have hready : s.inReady = false := Bool.eq_false_iff.mpr fun hr => h.inReady.mp hr hs
    exact .inl (by simp [keptWord, acceptedWord, hs, hready])
  | done =>
    have hready : s.inReady = true := h.inReady.mpr (by simp [hs])
    cases hvalid : i.inValid with
    | false => exact .inl (by simp [keptWord, acceptedWord, hs, hvalid])
    | true => exact .inr ⟨by simp [keptWord, hs], by simp [acceptedWord, hvalid, hready], rfl, rfl⟩

theorem WordIn.Sized.bytes_ne_nil {w : WordIn} (h : w.Sized) : w.bytes ≠ [] := by
  have hpos := h.1
  rw [WordIn.bytes, ne_eq, List.map_eq_nil_iff, List.range_eq_nil]
  omega

/-- **The words latched are the words accepted** exactly when none is offered in `S_DONE`. -/
theorem kept_eq_accepted_iff {is : List Input} (hsized : SizedRun is) :
    (cycles step reset is).flatMap (fun c => (keptWord c).elim [] WordIn.bytes) =
        (accepted is).flatMap WordIn.bytes ↔
      ∀ c ∈ cycles step reset is, c.1.state = .done → c.2.inValid = false := by
  rw [accepted, flatMap_observed, flatMap_eq_iff]
  · refine forall₂_congr fun c hc => ?_
    rcases (cycles_sound hsized c hc).accepted_cases c.2 with hsame | ⟨hnone, hsome, hdone, hvalid⟩
    · refine iff_of_true (congrArg (Option.elim · [] WordIn.bytes) hsame) fun hdone => ?_
      by_contra hvalid
      have hready := (cycles_sound hsized c hc).inReady.mpr (by simp [hdone])
      simp [keptWord, acceptedWord, hdone, hready, hvalid] at hsame
    · have hne := (hsized c hc _ hsome).bytes_ne_nil
      refine iff_of_false (fun heq => hne ?_) fun hok => ?_
      · rw [hnone, hsome] at heq
        exact heq.symm
      · exact absurd ((hok hdone).symm.trans hvalid) (by decide)
  · intro c hc
    rcases (cycles_sound hsized c hc).accepted_cases c.2 with hsame | ⟨hnone, hsome, -, -⟩
    · exact .inl (congrArg (Option.elim · [] WordIn.bytes) hsame)
    · refine .inr ⟨by rw [hnone]; rfl, ?_⟩
      rw [hsome]
      exact (hsized c hc _ hsome).bytes_ne_nil

/-! ### Draining -/

/-- The edges that the bytes held back still need. -/
def drainRank (s : State) : ℕ :=
  if s.state = .stream then s.bytesTotal.toNat - s.byteIdx.toNat + 1
  else if s.outValid then 1 else 0

/-- An edge with nothing on offer and a ready reader. -/
def Quiet (i : Input) : Prop := i.inValid = false ∧ i.outReady = true

theorem Sound.drainRank_step (h : Sound s) (hi : Quiet i) :
    drainRank (WordSerializer.step s i) ≤ drainRank s - 1 := by
  obtain ⟨hvalid, hready⟩ := hi
  by_cases hs : s.state = .stream
  · have hidx := h.idx hs
    have hfree : (!s.outValid || i.outReady) = true := by rw [hready, Bool.or_true]
    rw [drainRank, drainRank, if_pos hs]
    cases hlast : lastByteOfWord s with
    | true =>
      obtain ⟨hstate, -, hshown⟩ := step_finish hs hfree hlast
      have hne : (WordSerializer.step s i).state ≠ .stream := by
        rw [hstate]
        split_ifs <;> decide
      rw [if_neg hne, if_pos hshown]
      omega
    | false =>
      obtain ⟨hstate, -, hnext, hword⟩ := step_emit hs hfree hlast
      have htotal : (WordSerializer.step s i).bytesTotal = s.bytesTotal :=
        congrArg WordIn.validBytes hword
      have htop := h.total hs
      rw [if_pos hstate, hnext, htotal]
      bv_omega
  · -- nothing is put out, and what was shown is taken
    have hput : put (s, i) = none := if_neg fun hp => hs hp.1
    have hout : port.out (WordSerializer.step s i) = none :=
      (register.out_free (c := (s, i)) (port.not_stalled_of_ready hready)).trans hput
    have hclear : (WordSerializer.step s i).outValid = false := by
      by_contra hshown
      simp [port, hshown] at hout
    have hne : (WordSerializer.step s i).state ≠ .stream := by
      cases hs' : s.state with
      | idle => simp [(step_wait (i := i) hs' (by simp [hvalid])).1]
      | stream => exact absurd hs' hs
      | done => simp [(step_done (i := i) hs').1]
    rw [drainRank, if_neg hne, hclear]
    exact Nat.zero_le _

theorem Sound.drainRank_run (h : Sound s) {js : List Input} (hjs : ∀ j ∈ js, Quiet j) :
    drainRank (run WordSerializer.step s js) ≤ drainRank s - js.length := by
  induction js generalizing s with
  | nil => exact le_rfl
  | cons j js ih =>
    rw [List.forall_mem_cons] at hjs
    have hkept : keptWord (s, j) = none := by simp [keptWord, hjs.1.1]
    have hnext : Sound (WordSerializer.step s j) := h.step fun w hw => by
      cases hkept.symm.trans hw
    have hrest := ih hnext hjs.2
    have hstep := h.drainRank_step hjs.1
    rw [run_cons, List.length_cons]
    omega

/-- **Nine quiet edges drain the port**: eight bytes and the transfer of the last one. -/
theorem Sound.drains (h : Sound s) {js : List Input} (hjs : ∀ j ∈ js, Quiet j)
    (hlong : 9 ≤ js.length) : Drained (run WordSerializer.step s js) := by
  have hrun := h.drainRank_run hjs
  have hstart : drainRank s ≤ 9 := by
    rw [drainRank]
    split_ifs with hs
    · have := h.total hs
      omega
    · decide
    · decide
  have hzero : drainRank (run WordSerializer.step s js) = 0 := by omega
  rw [drainRank] at hzero
  split_ifs at hzero with hstream hshown
  exact ⟨hstream, Bool.eq_false_iff.mpr hshown⟩

/-! ### With a ready reader -/

/-- **When every accepted word is delivered.**  With `out_ready` high, for every sequence of words of
one to eight valid bytes: nine quiet edges drain the port, and once it is drained the transferred bytes
are the valid bytes of the accepted words, in order and with `out_last` on the final byte of each word
accepted with `in_last`, exactly when no word was offered in `S_DONE`. -/
theorem serializer_delivers_iff (is : List Input) (hready : ∀ i ∈ is, i.outReady = true)
    (hsized : ∀ i ∈ is, i.inValid = true → i.offer.Sized) :
    (∀ js, (∀ j ∈ js, Quiet j) → 9 ≤ js.length → Drained (run step reset (is ++ js))) ∧
      (Drained (run step reset is) →
        (transferred is = (accepted is).flatMap WordIn.bytes ↔
          ∀ c ∈ cycles step reset is, c.1.state = .done → c.2.inValid = false)) := by
  have hsized' : SizedRun is := by
    intro c hc w hw
    simp only [acceptedWord] at hw
    split_ifs at hw with hacc
    rw [← Option.some.inj hw]
    exact hsized c.2 (mem_of_mem_cycles hc) (Bool.and_eq_true_iff.mp hacc).1
  constructor
  · intro js hjs hlong
    rw [run_append]
    exact (run_sound hsized').drains hjs hlong
  · intro hdrained
    have hflow := accounts hsized' fun c hc hstall =>
      absurd hstall (port.not_stalled_of_ready (hready c.2 (mem_of_mem_cycles hc)))
    rw [hdrained.nothing_left, List.append_nil] at hflow
    rw [← hflow]
    exact kept_eq_accepted_iff hsized'

/-- Two words held until they are accepted, the second with `in_last`; then no offer.  The lists are the
reader's `ready`, edge by edge. -/
def holdTwoWords (ready ready' : List Bool) : List Input :=
  ⟨true, 0x03B001, 3, false, true⟩ :: ready.map (fun r => ⟨true, 0x1100, 2, true, r⟩) ++
    ready'.map fun r => ⟨false, 0, 0, false, r⟩

/-- A burst of two words and, once `S_DONE` is over, one of a single word. -/
theorem serializer_delivers_iff_two_bursts :
    let is : List Input := holdTwoWords (List.replicate 4 true) (List.replicate 3 true) ++
      ⟨true, 0xAA, 1, true, true⟩ :: List.replicate 9 ⟨false, 0, 0, false, true⟩
    ((accepted is).length = 3 ∧ Drained (run step reset is) ∧
      ∀ c ∈ cycles step reset is, c.1.state = .done → c.2.inValid = false) ∧
    (∀ js, (∀ j ∈ js, Quiet j) → 9 ≤ js.length → Drained (run step reset (is ++ js))) ∧
      (Drained (run step reset is) →
        (transferred is = (accepted is).flatMap WordIn.bytes ↔
          ∀ c ∈ cycles step reset is, c.1.state = .done → c.2.inValid = false)) :=
  ⟨by decide, serializer_delivers_iff _ (by decide) (by decide)⟩

/-- **The first word of the next burst gets lost** when it is offered as soon as `in_ready` shows: two
bursts of one byte each, offered until they are accepted. -/
theorem back_to_back_word_lost :
    let is : List Input := [⟨true, 1, 1, true, true⟩, ⟨true, 2, 1, true, true⟩,
      ⟨true, 2, 1, true, true⟩] ++ List.replicate 9 ⟨false, 0, 0, false, true⟩
    (∀ i ∈ is, i.outReady = true) ∧ (∀ i ∈ is, i.inValid = true → i.offer.Sized) ∧
      Drained (run step reset is) ∧ transferred is = [(1, true)] ∧
      (accepted is).flatMap WordIn.bytes = [(1, true), (2, true)] := by
  decide

/-! ### One burst under back-pressure -/

/-- The words of one burst: `in_last` on the final one. -/
structure Burst (ws : List WordIn) : Prop where
  sized : ∀ w ∈ ws, w.Sized
  open_before : ∀ w ∈ ws.dropLast, w.last = false
  closed : ∀ w ∈ ws.getLast?, w.last = true

variable {ws : List WordIn} {is : List Input}

theorem Burst.sizedRun (h : Burst ws) (his : accepted is <+: ws) : SizedRun is := by
  intro c hc w hw
  exact h.sized w (his.subset (List.mem_filterMap.mpr ⟨c, hc, hw⟩))

/-- What a run within a burst says of its final state. -/
structure WithinBurst (is : List Input) (s : State) : Prop where
  streams : s.state = .stream → (accepted is).getLast? = some (latched s)
  ends : s.state = .done → ∃ w, (accepted is).getLast? = some w ∧ w.last = true

theorem withinBurst_of_idle (hs : s.state = .idle) : WithinBurst is s where
  streams hd := by cases hs.symm.trans hd
  ends hd := by cases hs.symm.trans hd

theorem Burst.within (h : Burst ws) (his : accepted is <+: ws) :
    WithinBurst is (run step reset is) := by
  induction is using List.reverseRecOn with
  | nil => exact withinBurst_of_idle rfl
  | append_singleton is i ih =>
    have hsnoc : accepted (is ++ [i]) = accepted is ++ (acceptedWord (run step reset is, i)).toList :=
      observed_snoc ..
    have hpre : accepted is <+: ws := by
      rw [hsnoc] at his
      exact (List.prefix_append ..).trans his
    have hsound := run_sound (h.sizedRun hpre)
    have hold := ih hpre
    rw [run_snoc]
    generalize run step reset is = s at hsnoc hsound hold ⊢
    cases hs : s.state with
    | idle =>
      by_cases hacc : (i.inValid && s.inReady) = true
      · obtain ⟨hstate, -, -, hword⟩ := step_latch hs hacc
        have hoffer : acceptedWord (s, i) = some i.offer := if_pos hacc
        refine ⟨fun _ => ?_, fun hd => by cases hstate.symm.trans hd⟩
        rw [hsnoc, hoffer, hword]
        exact List.getLast?_concat ..
      · exact withinBurst_of_idle (step_wait hs hacc).1
    | stream =>
      have hnone : acceptedWord (s, i) = none := by
        have hready : s.inReady = false := Bool.eq_false_iff.mpr fun hr => hsound.inReady.mp hr hs
        simp [acceptedWord, hready]
      have hsame : accepted (is ++ [i]) = accepted is := by
        rw [hsnoc, hnone]
        exact List.append_nil _
      have hlast := hold.streams hs
      by_cases hfree : (!s.outValid || i.outReady) = true
      · cases hbyte : lastByteOfWord s with
        | true =>
          have hstate := (step_finish hs hfree hbyte).1
          refine ⟨fun hd => ?_, fun hd => ⟨latched s, hsame ▸ hlast, ?_⟩⟩
          · rw [hstate] at hd
            split_ifs at hd
          · rw [hstate] at hd
            split_ifs at hd with hl
            exact hl
        | false =>
          obtain ⟨hstate, -, -, hword⟩ := step_emit hs hfree hbyte
          exact ⟨fun _ => by rw [hsame, hword, hlast], fun hd => by cases hstate.symm.trans hd⟩
      · rw [step_hold hs hfree]
        exact ⟨fun _ => hsame ▸ hlast, fun hd => by cases hs.symm.trans hd⟩
    | done => exact withinBurst_of_idle (step_done hs).1

/-- Nothing is accepted after the last word of the burst. -/
theorem Burst.not_offered (h : Burst ws) (his : accepted is <+: ws) :
    ∀ c ∈ cycles step reset is, c.1.state = .done → c.2.inValid = false := by
  induction is using List.reverseRecOn with
  | nil => exact fun c hc => by cases hc
  | append_singleton is i ih =>
    have hsnoc : accepted (is ++ [i]) = accepted is ++ (acceptedWord (run step reset is, i)).toList :=
      observed_snoc ..
    have hpre : accepted is <+: ws := by
      rw [hsnoc] at his
      exact (List.prefix_append ..).trans his
    have hlast : cycles step reset (is ++ [i]) = cycles step reset is ++ [(run step reset is, i)] :=
      cycles_append step reset is [i]
    rw [hlast, List.forall_mem_append, List.forall_mem_singleton]
    refine ⟨ih hpre, fun hdone => ?_⟩
    -- the word before would have been the last one
    obtain ⟨w, hw, hflag⟩ := (h.within hpre).ends hdone
    have hne : (run step reset is).state ≠ .stream := fun hs => by cases hs.symm.trans hdone
    have hready := (run_sound (h.sizedRun hpre)).inReady.mpr hne
    by_contra hvalid
    have hoffer : acceptedWord (run step reset is, i) = some i.offer := by
      simp [acceptedWord, hready, hvalid]
    obtain ⟨rest, hrest⟩ := his
    rw [hsnoc, hoffer, List.append_assoc] at hrest
    have hmem : w ∈ ws.dropLast := by
      rw [← hrest, List.dropLast_append_of_ne_nil (by simp)]
      exact List.mem_append_left _ (List.mem_of_getLast? hw)
    exact absurd (hflag.symm.trans (h.open_before w hmem)) (by decide)

/-- Within a burst and where no byte is withdrawn, the bytes of the accepted words are those
transferred, the one shown and those that are left. -/
theorem Burst.accounts (h : Burst ws) (his : accepted is <+: ws)
    (hstall : ∀ c ∈ cycles step reset is, port.Stalled c → ¬ c.1.state = .done) :
    (accepted is).flatMap WordIn.bytes =
      transferred is ++ (port.pending (run step reset is) ++ remaining (run step reset is)) := by
  rw [← (kept_eq_accepted_iff (h.sizedRun his)).mpr (h.not_offered his)]
  exact WordSerializer.accounts (h.sizedRun his) hstall

/-- **When stalls make no difference.**  For every burst, every run `is` that accepts its words in order
under any pattern of `out_ready`, and a run `js` of the same burst with `out_ready` always high: a
shown byte stays until it is taken, and the bytes transferred are those of `js`, exactly when
`out_ready` is high whenever the state machine is in `S_DONE`. -/
theorem serializer_stall_iff {js : List Input} (hws : Burst ws) (his : accepted is <+: ws)
    (hjs : accepted js = ws) (hready : ∀ j ∈ js, j.outReady = true)
    (hdrained : Drained (run step reset js)) :
    ((∀ c ∈ cycles step reset is, Stays c) ∧ transferred is <+: transferred js ∧
        (accepted is = ws → Drained (run step reset is) → transferred is = transferred js)) ↔
      ∀ c ∈ cycles step reset is, c.1.state = .done → c.2.outReady = true := by
  have hall : transferred js = ws.flatMap WordIn.bytes := by
    have hfree : ∀ c ∈ cycles step reset js, port.Stalled c → ¬ c.1.state = .done :=
      fun c hc hstall =>
        absurd hstall (port.not_stalled_of_ready (hready c.2 (mem_of_mem_cycles hc)))
    have hflow := hws.accounts (hjs ▸ List.prefix_rfl) hfree
    rw [hdrained.nothing_left, List.append_nil, hjs] at hflow
    exact hflow.symm
  have hsound := cycles_sound (hws.sizedRun his)
  have hcond : (∀ c ∈ cycles step reset is, port.Stalled c → ¬ c.1.state = .done) ↔
      ∀ c ∈ cycles step reset is, c.1.state = .done → c.2.outReady = true := by
    refine forall₂_congr fun c hc => ?_
    rw [stalled_iff]
    constructor
    · intro hok hdone
      by_contra hstop
      exact hok ⟨(hsound c hc).shown hdone, by simpa using hstop⟩ hdone
    · intro hok hstall hdone
      exact absurd ((hok hdone).symm.trans hstall.2) (by decide)
  rw [← hcond]
  constructor
  · rintro ⟨hstay, -, -⟩ c hc hstall hdone
    have hout := (stays_iff c).mp (hstay c hc) hstall
    rw [register.out, if_pos (beq_iff_eq.mpr hdone)] at hout
    exact hstall.1 hout.symm
  · intro hok
    have hflow := hws.accounts his hok
    refine ⟨fun c hc => (stays_iff c).mpr fun hstall => ?_, ?_, fun hcomplete hdone => ?_⟩
    · exact register.out_stalled hstall (beq_eq_false_iff_ne.mpr (hok c hc hstall))
        (put_of_stalled hstall)
    · rw [hall]
      exact List.IsPrefix.trans ⟨_, hflow.symm⟩ (his.flatMap _)
    · rw [hdone.nothing_left, List.append_nil, hcomplete] at hflow
      rw [hall, hflow]

/-- A burst of one word of one byte. -/
def oneByte : List WordIn := [⟨1, 1, true⟩]

theorem oneByte_burst : Burst oneByte := ⟨by decide, by decide, by decide⟩

/-- That burst offered once, and then the reader's `ready` edge by edge. -/
def offerOnce (ready : List Bool) : List Input :=
  ⟨true, 1, 1, true, true⟩ :: ready.map fun r => ⟨false, 0, 0, false, r⟩

theorem twoWords_burst : Burst [⟨0x03B001, 3, false⟩, ⟨0x1100, 2, true⟩] :=
  ⟨by decide, by decide, by decide⟩

/-- Three shown bytes are stalled, one of them in `S_IDLE` between the words: it does no harm. -/
theorem serializer_stall_iff_two_words :
    let is := holdTwoWords [true, false, true, true, false] [true, false, true, true, true]
    let js := holdTwoWords [true, true, true, true] [true, true, true]
    (((cycles step reset is).countP fun c => c.1.outValid && !c.2.outReady) = 3 ∧
      ∀ c ∈ cycles step reset is, c.1.state = .done → c.2.outReady = true) ∧
    (((∀ c ∈ cycles step reset is, Stays c) ∧ transferred is <+: transferred js ∧
        (accepted is = [⟨0x03B001, 3, false⟩, ⟨0x1100, 2, true⟩] → Drained (run step reset is) →
          transferred is = transferred js)) ↔
      ∀ c ∈ cycles step reset is, c.1.state = .done → c.2.outReady = true) :=
  ⟨by decide, serializer_stall_iff twoWords_burst (by decide) (by decide) (by decide) (by decide)⟩

/-- **The last byte of a burst is withdrawn** when the reader is not ready in the edge after it is
shown. -/
theorem last_byte_withdrawn :
    let is := offerOnce [true, false, true]
    let js := offerOnce [true, true, true]
    Burst oneByte ∧ accepted is = oneByte ∧ accepted js = oneByte ∧ Drained (run step reset is) ∧
      Drained (run step reset js) ∧ transferred is = [] ∧ transferred js = [(1, true)] ∧
      ¬ ∀ c ∈ cycles step reset is, Stays c := by
  refine ⟨oneByte_burst, by decide, by decide, by decide, by decide, by decide, by decide, ?_⟩
  intro hstay
  have hdone := hstay (run step reset (offerOnce [true]), ⟨false, 0, 0, false, false⟩) (by decide)
  exact absurd (hdone (by decide) (by decide)).1 (by decide)

end FtjSsdSim.Hdl.WordSerializer
