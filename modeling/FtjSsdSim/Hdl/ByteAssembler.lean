import Mathlib
import FtjSsdSim.Library.Bits
import FtjSsdSim.Library.Machine
import FtjSsdSim.Library.Stream

/-!
# The byte assembler

`ftj_byte_assembler` collects the bytes of a burst into words of eight, and sends a shorter word for
the rest of the burst.  `step` is one clock edge with reset released; every right-hand side reads the
old registers `s`.

The words that are formed depend on the bytes alone (`formed_eq_pack`).  `in_ready` is set at reset and
never withdrawn, so a word that waits is overwritten by the next one.

* `assembler_exact` — with `out_ready` high, what the words of every burst are;
* `assembler_stall_iff` — when no word is dropped under back-pressure.
-/

namespace FtjSsdSim.Hdl.ByteAssembler

open FtjSsdSim.Library

/-! ### The module of the source -/

/-- The registers of `ftj_byte_assembler`. -/
structure State where
  inReady : Bool
  outValid : Bool
  outWord : Word
  outWstrb : Byte
  outLast : Bool
  bufB : BitVec 3 → Byte
  byteCnt : BitVec 3

/-- The input pins at a clock edge. -/
structure Input where
  inValid : Bool
  inData : Byte
  inLast : Bool
  outReady : Bool
  deriving DecidableEq, Repr

/-- The registers after reset. -/
def reset : State where
  inReady := true
  outValid := false
  outWord := 0
  outWstrb := 0
  outLast := false
  bufB := fun _ => 0
  byteCnt := 0

/-- `next_word`: the buffer with the incoming byte in its place. -/
def nextWord (s : State) (i : Input) : Word :=
  ofBytes fun k => if s.byteCnt == BitVec.ofNat 3 k && i.inValid then i.inData
    else s.bufB (BitVec.ofNat 3 k)

/-- `next_wstrb`. -/
def nextWstrb (s : State) : Byte := (0xFF : Byte) >>> (7 - s.byteCnt).toNat

/-- One clock edge. -/
def step (s : State) (i : Input) : State :=
  let n :=
    if s.outValid && i.outReady then { s with outValid := false, outWstrb := 0, outLast := false }
    else s
  if i.inValid && s.inReady then
    let n := { n with bufB := Function.update s.bufB s.byteCnt i.inData }
    if s.byteCnt == 7 || i.inLast then
      { n with
        outValid := true
        outWord := nextWord s i
        outWstrb := nextWstrb s
        outLast := i.inLast
        byteCnt := 0
        bufB := fun _ => 0 }
    else { n with byteCnt := s.byteCnt + 1 }
  else n

/-! ### What goes in and what comes out -/

/-- The byte accepted at an edge, with its `in_last` flag. -/
def acceptedBeat (c : State × Input) : Option (Byte × Bool) :=
  if c.2.inValid && c.1.inReady then some (c.2.inData, c.2.inLast) else none

/-- A word on the output pins: `out_word`, `out_wstrb` and `out_last`. -/
structure WordOut where
  word : Word
  wstrb : Byte
  last : Bool
  deriving DecidableEq, Repr

/-- The bytes of a word whose strobe is set, low ones first. -/
def WordOut.strobed (w : WordOut) : List Byte :=
  ((List.range 8).filter fun k => w.wstrb.getLsbD k).map (byteAt w.word)

/-- The output word behind `out_valid` and `out_ready`. -/
def port : Port State Input WordOut where
  out s := if s.outValid then some ⟨s.outWord, s.outWstrb, s.outLast⟩ else none
  ready i := i.outReady

/-- The bytes accepted in a run from reset, with their `in_last` flags. -/
def accepted (is : List Input) : List (Byte × Bool) := observed step acceptedBeat reset is

/-- The words transferred in a run from reset. -/
def transferred (is : List Input) : List WordOut := observed step port.taken reset is

/-- A word that is not taken stays on the pins. -/
def Stays (c : State × Input) : Prop :=
  c.1.outValid = true → c.2.outReady = false →
    (step c.1 c.2).outValid = true ∧ (step c.1 c.2).outWord = c.1.outWord ∧
      (step c.1 c.2).outWstrb = c.1.outWstrb ∧ (step c.1 c.2).outLast = c.1.outLast

/-! ### The output register -/

/-- An edge that accepts the byte that completes a word: the eighth, or the last of the burst. -/
def Completes (c : State × Input) : Prop :=
  (c.2.inValid && c.1.inReady) = true ∧ (c.1.byteCnt == 7 || c.2.inLast) = true

instance (c : State × Input) : Decidable (Completes c) := inferInstanceAs (Decidable (_ ∧ _))

/-- The word that an edge forms. -/
def put (c : State × Input) : Option WordOut :=
  if Completes c then some ⟨nextWord c.1 c.2, nextWstrb c.1, c.2.inLast⟩ else none

theorem stalled_iff (c : State × Input) :
    port.Stalled c ↔ c.1.outValid = true ∧ c.2.outReady = false :=
  port.stalled_iff_valid (fun _ => rfl) c

theorem stays_iff (c : State × Input) :
    Stays c ↔ (port.Stalled c → port.out (step c.1 c.2) = port.out c.1) := by
  rw [stalled_iff, Stays, and_imp]
  refine imp_congr_right fun hvalid => imp_congr_right fun _ => ?_
  rw [port.out_eq_iff_valid (fun _ => rfl) hvalid, WordOut.mk.injEq]

/-- No edge clears the port, and none asks whether it is free. -/
theorem register : Register step port put fun _ => false where
  out c := by
    obtain ⟨s, i⟩ := c
    by_cases hacc : (i.inValid && s.inReady) = true
    · by_cases hfull : (s.byteCnt == 7 || i.inLast) = true
      · have hput : put (s, i) = some ⟨nextWord s i, nextWstrb s, i.inLast⟩ := if_pos ⟨hacc, hfull⟩
        rw [hput]
        simp only [step, if_pos hacc, if_pos hfull]
        rfl
      · have hput : put (s, i) = none := if_neg fun h => hfull h.2
        rw [hput]
        cases hv : s.outValid <;> cases hr : i.outReady <;>
          simp only [step, if_pos hacc, if_neg hfull, port, hv, hr] <;> simp [hv]
    · have hput : put (s, i) = none := if_neg fun h => hacc h.1
      rw [hput]
      cases hv : s.outValid <;> cases hr : i.outReady <;>
        simp only [step, if_neg hacc, port, hv, hr] <;> simp [hv]
  put_of_clears c h := by cases h

/-! ### The words of a byte stream -/

/-- The strobes of `n` bytes. -/
def mask (n : ℕ) : Byte := (0xFF : Byte) >>> (8 - n)

/-- The word that carries `bytes`, with zeros above. -/
def emit (bytes : List Byte) (last : Bool) : WordOut :=
  ⟨ofBytes fun k => bytes.getD k 0, mask bytes.length, last⟩

/-- The words formed of a byte stream, with `buf` collected before: one for every eight bytes, and one
for the rest of a burst. -/
def pack : List Byte → List (Byte × Bool) → List WordOut
  | _, [] => []
  | buf, (b, last) :: beats =>
    if buf.length = 7 ∨ last = true then emit (buf ++ [b]) last :: pack [] beats
    else pack (buf ++ [b]) beats

/-- The state has collected the bytes `buf`. -/
structure Holds (s : State) (buf : List Byte) : Prop where
  inReady : s.inReady = true
  count : s.byteCnt.toNat = buf.length
  slots : ∀ k < 8, s.bufB (BitVec.ofNat 3 k) = buf.getD k 0

variable {s : State} {buf : List Byte}

theorem holds_reset : Holds reset [] := ⟨rfl, rfl, fun _ _ => rfl⟩

theorem Holds.length_le (h : Holds s buf) : buf.length ≤ 7 := by
  have hlt := s.byteCnt.isLt
  have hcount := h.count
  omega

/-- The slot of `byte_cnt` is the one after the collected bytes. -/
theorem Holds.slot_iff (h : Holds s buf) {k : ℕ} (hk : k < 8) :
    s.byteCnt = BitVec.ofNat 3 k ↔ k = buf.length := by
  have hcount := h.count
  rw [← BitVec.toNat_inj, BitVec.toNat_ofNat, hcount, Nat.mod_eq_of_lt (by omega)]
  exact eq_comm

/-- The collected bytes and the incoming one. -/
theorem Holds.getD_snoc (h : Holds s buf) {k : ℕ} (hk : k < 8) (b : Byte) :
    (buf ++ [b]).getD k 0 =
      if s.byteCnt = BitVec.ofNat 3 k then b else s.bufB (BitVec.ofNat 3 k) := by
  rw [h.slots k hk, if_congr (h.slot_iff hk) rfl rfl]
  rcases Nat.lt_trichotomy k buf.length with hlt | rfl | hgt
  · rw [if_neg hlt.ne, List.getD_append _ _ _ _ hlt]
  · rw [if_pos rfl, List.getD_append_right _ _ _ _ le_rfl, Nat.sub_self]
    rfl
  · rw [if_neg hgt.ne', List.getD_eq_default _ _ (by simpa using hgt),
      List.getD_eq_default _ _ hgt.le]

/-- **A completed word** carries the collected bytes and the incoming one. -/
theorem Holds.put_of_completes (h : Holds s buf) {i : Input} (hc : Completes (s, i)) :
    put (s, i) = some (emit (buf ++ [i.inData]) i.inLast) := by
  have hvalid : i.inValid = true := (Bool.and_eq_true_iff.mp hc.1).1
  have hword : nextWord s i = ofBytes fun k => (buf ++ [i.inData]).getD k 0 := by
    refine ofBytes_congr fun k hk => ?_
    rw [h.getD_snoc hk, hvalid, Bool.and_true]
    simp only [beq_iff_eq]
  have hstrb : nextWstrb s = mask (buf ++ [i.inData]).length := by
    have hcount := h.count
    have hshift : (7 - s.byteCnt).toNat = 8 - (buf.length + 1) := by bv_omega
    rw [nextWstrb, mask, List.length_append, List.length_singleton, hshift]
  rw [put, if_pos hc, hword, hstrb]
  rfl

/-- **One edge**: the bytes that are collected after it. -/
theorem Holds.step (h : Holds s buf) (i : Input) :
    Holds (step s i) (if Completes (s, i) then []
      else if i.inValid then buf ++ [i.inData] else buf) := by
  have hready := h.inReady
  by_cases hacc : (i.inValid && s.inReady) = true
  · have hvalid : i.inValid = true := (Bool.and_eq_true_iff.mp hacc).1
    by_cases hfull : (s.byteCnt == 7 || i.inLast) = true
    · rw [if_pos ⟨hacc, hfull⟩]
      simp only [ByteAssembler.step, if_pos hacc, if_pos hfull]
      refine ⟨?_, rfl, fun _ _ => rfl⟩
      show (if s.outValid && i.outReady then _ else s).inReady = true
      split_ifs <;> exact hready
    · have hnot : ¬ Completes (s, i) := fun hc => hfull hc.2
      rw [if_neg hnot, if_pos hvalid]
      have hcount : s.byteCnt.toNat ≠ 7 := fun heq => hfull (by
        have hseven : s.byteCnt = 7 := by bv_omega
        rw [hseven]
        rfl)
      have hold := h.count
      have hnext : (ByteAssembler.step s i).inReady = s.inReady ∧
          (ByteAssembler.step s i).byteCnt = s.byteCnt + 1 ∧
          (ByteAssembler.step s i).bufB = Function.update s.bufB s.byteCnt i.inData := by
        simp only [ByteAssembler.step, if_pos hacc, if_neg hfull]
        split_ifs <;> simp
      obtain ⟨hready', hcnt, hbuf⟩ := hnext
      refine ⟨hready'.trans hready, ?_, fun k hk => ?_⟩
      · rw [hcnt, List.length_append, List.length_singleton]
        bv_omega
      · rw [hbuf, h.getD_snoc hk, Function.update_apply]
        exact if_congr eq_comm rfl rfl
  · have hvalid : i.inValid = false := by simpa [hready] using hacc
    have hnot : ¬ Completes (s, i) := fun hc => hacc hc.1
    have hnext : (ByteAssembler.step s i).inReady = s.inReady ∧
        (ByteAssembler.step s i).byteCnt = s.byteCnt ∧ (ByteAssembler.step s i).bufB = s.bufB := by
      simp only [ByteAssembler.step, if_neg hacc]
      split_ifs <;> simp
    obtain ⟨hready', hcnt, hbuf⟩ := hnext
    rw [if_neg hnot, hvalid]
    exact ⟨hready'.trans hready, hcnt ▸ h.count, hbuf ▸ h.slots⟩

/-- The byte on the input pins, with its `in_last` flag. -/
def offered (i : Input) : Option (Byte × Bool) :=
  if i.inValid then some (i.inData, i.inLast) else none

/-- Every byte that is offered is accepted. -/
theorem Holds.accepted (h : Holds s buf) (is : List Input) :
    observed ByteAssembler.step acceptedBeat s is = is.filterMap offered := by
  induction is generalizing s buf with
  | nil => rfl
  | cons i is ih =>
    have hone : acceptedBeat (s, i) = offered i := by
      simp only [acceptedBeat, offered, h.inReady, Bool.and_true]
    have hrest := ih (h.step i)
    rw [observed, cycles, List.filterMap_cons, List.filterMap_cons, hone, ← observed, hrest]

/-- **The words of a run** are those of the bytes it accepts. -/
theorem Holds.formed (h : Holds s buf) (is : List Input) :
    observed ByteAssembler.step put s is = pack buf (is.filterMap offered) := by
  induction is generalizing s buf with
  | nil => rfl
  | cons i is ih =>
    have hrest := ih (h.step i)
    rw [observed, cycles, List.filterMap_cons, ← observed, hrest, List.filterMap_cons]
    by_cases hc : Completes (s, i)
    · have hvalid : i.inValid = true := (Bool.and_eq_true_iff.mp hc.1).1
      have hfull : buf.length = 7 ∨ i.inLast = true := by
        have hcount := h.count
        refine (Bool.or_eq_true_iff.mp hc.2).imp (fun hseven => ?_) id
        have := beq_iff_eq.mp hseven
        rw [this] at hcount
        exact hcount.symm
      simp only [h.put_of_completes hc, if_pos hc, offered, hvalid, if_true, pack, if_pos hfull]
    · have hnone : put (s, i) = none := if_neg hc
      rw [hnone, if_neg hc]
      cases hvalid : i.inValid with
      | false => simp only [offered, hvalid, Bool.false_eq_true, if_false]
      | true =>
        have hopen : ¬ (buf.length = 7 ∨ i.inLast = true) := by
          have hcount := h.count
          intro hfull
          refine hc ⟨by simp [hvalid, h.inReady], ?_⟩
          refine Bool.or_eq_true_iff.mpr (hfull.imp (fun hseven => ?_) id)
          have heq : s.byteCnt = 7 := by bv_omega
          rw [heq]
          rfl
        simp only [offered, hvalid, if_true, pack, if_neg hopen]

/-! ### The words of a burst -/

/-- The bytes of a burst, `in_last` on the final one. -/
def burstBeats : List Byte → List (Byte × Bool)
  | [] => []
  | [b] => [(b, true)]
  | b :: c :: bytes => (b, false) :: burstBeats (c :: bytes)

/-- The words of a burst: eight bytes each, and the rest in the last one. -/
def burstWords (bytes : List Byte) : List WordOut :=
  if bytes.length ≤ 8 then [emit bytes true]
  else emit (bytes.take 8) false :: burstWords (bytes.drop 8)
termination_by bytes.length
decreasing_by
  rw [List.length_drop]
  omega

theorem burstWords_short {bytes : List Byte} (h : bytes.length ≤ 8) :
    burstWords bytes = [emit bytes true] := by
  rw [burstWords, if_pos h]

theorem burstWords_long {bytes : List Byte} (h : ¬ bytes.length ≤ 8) :
    burstWords bytes = emit (bytes.take 8) false :: burstWords (bytes.drop 8) := by
  rw [burstWords, if_neg h]

/-- **The bytes of a burst** make up its words, and nothing is left of it. -/
theorem pack_burst {bytes : List Byte} (hne : bytes ≠ []) (hbuf : buf.length ≤ 7)
    (rest : List (Byte × Bool)) :
    pack buf (burstBeats bytes ++ rest) = burstWords (buf ++ bytes) ++ pack [] rest := by
  induction bytes using burstBeats.induct generalizing buf with
  | case1 => exact absurd rfl hne
  | case2 b =>
    have hshort : (buf ++ [b]).length ≤ 8 := by
      rw [List.length_append, List.length_singleton]
      omega
    rw [burstWords_short hshort]
    exact if_pos (.inr rfl)
  | case3 b c bytes ih =>
    have hpack : pack buf (burstBeats (b :: c :: bytes) ++ rest) =
        if buf.length = 7 ∨ false = true then
          emit (buf ++ [b]) false :: pack [] (burstBeats (c :: bytes) ++ rest)
        else pack (buf ++ [b]) (burstBeats (c :: bytes) ++ rest) := rfl
    have hsplit : buf ++ b :: c :: bytes = (buf ++ [b]) ++ c :: bytes := by simp
    rw [hpack, hsplit]
    by_cases hfull : buf.length = 7
    · have height : (buf ++ [b]).length = 8 := by
        rw [List.length_append, List.length_singleton, hfull]
      have hlong : ¬ ((buf ++ [b]) ++ c :: bytes).length ≤ 8 := by
        rw [List.length_append, height, List.length_cons]
        omega
      rw [if_pos (.inl hfull), ih (List.cons_ne_nil _ _) (Nat.zero_le _), burstWords_long hlong,
        List.take_left' height, List.drop_left' height]
      rfl
    · have hmore : (buf ++ [b]).length ≤ 7 := by
        rw [List.length_append, List.length_singleton]
        omega
      rw [if_neg (by simp [hfull]), ih (List.cons_ne_nil _ _) hmore]

theorem pack_bursts {bursts : List (List Byte)} (hne : ∀ bytes ∈ bursts, bytes ≠ []) :
    pack [] (bursts.flatMap burstBeats) = bursts.flatMap burstWords := by
  induction bursts with
  | nil => rfl
  | cons bytes bursts ih =>
    rw [List.forall_mem_cons] at hne
    rw [List.flatMap_cons, List.flatMap_cons, pack_burst hne.1 (Nat.zero_le _), ih hne.2,
      List.nil_append]

/-- What the words of a burst are to be. -/
structure Packs (bytes : List Byte) (ws : List WordOut) : Prop where
  count : ws.length = (bytes.length + 7) / 8
  strobed : ws.flatMap WordOut.strobed = bytes
  low_mask : ∀ w ∈ ws, ∃ n, 1 ≤ n ∧ n ≤ 8 ∧ ∀ k < 8, w.wstrb.getLsbD k = decide (k < n)
  zeros : ∀ w ∈ ws, ∀ k < 8, w.wstrb.getLsbD k = false → byteAt w.word k = 0
  not_last : ∀ w ∈ ws.dropLast, w.last = false
  last : ∀ w ∈ ws.getLast?, w.last = true

theorem mask_getLsbD {n k : ℕ} (hn : n ≤ 8) : (mask n).getLsbD k = decide (k < n) := by
  have hones : (0xFF : Byte) = BitVec.allOnes 8 := rfl
  rw [mask, BitVec.getLsbD_ushiftRight, hones, BitVec.getLsbD_allOnes]
  exact decide_eq_decide.mpr (by omega)

section

variable {bytes : List Byte} (last : Bool)

theorem byteAt_emit {k : ℕ} (hk : k < 8) : byteAt (emit bytes last).word k = bytes.getD k 0 := by
  rw [emit, byteAt_ofBytes _ k hk]

/-- The strobed bytes of a word are those it carries. -/
theorem strobed_emit (hlen : bytes.length ≤ 8) : (emit bytes last).strobed = bytes := by
  have hfilter : (List.range 8).filter (fun k => (emit bytes last).wstrb.getLsbD k) =
      List.range bytes.length := by
    have hmask : ∀ k ∈ List.range 8, (emit bytes last).wstrb.getLsbD k = decide (k < bytes.length) :=
      fun k _ => mask_getLsbD hlen
    obtain ⟨rest, hrest⟩ := Nat.exists_eq_add_of_le hlen
    rw [List.filter_congr hmask, hrest, List.range_add, List.filter_append,
      List.filter_eq_self.mpr fun k hk => decide_eq_true (List.mem_range.mp hk),
      List.filter_eq_nil_iff.mpr, List.append_nil]
    intro k hk
    obtain ⟨j, -, rfl⟩ := List.mem_map.mp hk
    simp
  rw [WordOut.strobed, hfilter]
  refine List.ext_getElem (by simp) fun k hk hk' => ?_
  rw [List.getElem_map, List.getElem_range, byteAt_emit last (by omega),
    List.getD_eq_getElem _ _ hk']

theorem low_mask_emit (hne : bytes ≠ []) (hlen : bytes.length ≤ 8) :
    ∃ n, 1 ≤ n ∧ n ≤ 8 ∧ ∀ k < 8, (emit bytes last).wstrb.getLsbD k = decide (k < n) :=
  ⟨bytes.length, List.length_pos_iff.mpr hne, hlen, fun _ _ => mask_getLsbD hlen⟩

theorem zeros_emit (hlen : bytes.length ≤ 8) {k : ℕ} (hk : k < 8)
    (hstrb : (emit bytes last).wstrb.getLsbD k = false) : byteAt (emit bytes last).word k = 0 := by
  have hge : ¬ k < bytes.length := by
    have hmask : decide (k < bytes.length) = false := (mask_getLsbD hlen).symm.trans hstrb
    exact of_decide_eq_false hmask
  rw [byteAt_emit last hk, List.getD_eq_default _ _ (not_lt.mp hge)]

end

/-- **The words of a burst** are as many as it takes, carry its bytes and mark its end. -/
theorem burstWords_packs {bytes : List Byte} (hne : bytes ≠ []) : Packs bytes (burstWords bytes) := by
  induction bytes using burstWords.induct with
  | case1 bytes hshort =>
    have hpos := List.length_pos_iff.mpr hne
    rw [burstWords_short hshort]
    constructor
    case count =>
      rw [List.length_singleton]
      omega
    case strobed => rw [List.flatMap_singleton, strobed_emit true hshort]
    case low_mask =>
      intro w hw
      rw [List.mem_singleton.mp hw]
      exact low_mask_emit true hne hshort
    case zeros =>
      intro w hw k hk hstrb
      rw [List.mem_singleton.mp hw] at hstrb ⊢
      exact zeros_emit true hshort hk hstrb
    case not_last => exact fun w hw => by cases hw
    case last =>
      intro w hw
      rw [← Option.some.inj (Option.mem_def.mp hw)]
      rfl
  | case2 bytes hlong ih =>
    have hrest : bytes.drop 8 ≠ [] := by
      rw [ne_eq, List.drop_eq_nil_iff]
      exact hlong
    have htake : (bytes.take 8).length = 8 := List.length_take_of_le (by omega)
    have hfull : bytes.take 8 ≠ [] := List.ne_nil_of_length_pos (by omega)
    obtain ⟨hcount, hstrobed, hmask, hzeros, hnot, hlast⟩ := ih hrest
    have hwords : burstWords (bytes.drop 8) ≠ [] := by
      refine List.ne_nil_of_length_pos ?_
      rw [hcount, List.length_drop]
      omega
    rw [burstWords_long hlong]
    constructor
    case count =>
      rw [List.length_cons, hcount, List.length_drop]
      omega
    case strobed =>
      rw [List.flatMap_cons, hstrobed, strobed_emit false htake.le, List.take_append_drop]
    case low_mask =>
      exact List.forall_mem_cons.mpr ⟨low_mask_emit false hfull htake.le, hmask⟩
    case zeros =>
      refine List.forall_mem_cons.mpr ⟨fun k hk hstrb => ?_, hzeros⟩
      exact zeros_emit false htake.le hk hstrb
    case not_last =>
      rw [List.dropLast_cons_of_ne_nil hwords]
      exact List.forall_mem_cons.mpr ⟨rfl, hnot⟩
    case last =>
      rw [List.getLast?_cons_of_ne_nil hwords]
      exact hlast

/-! ### Runs -/

/-- The words formed in a run from reset. -/
def formed (is : List Input) : List WordOut := observed step put reset is

theorem formed_eq_pack (is : List Input) : formed is = pack [] (is.filterMap offered) :=
  holds_reset.formed is

theorem accepted_eq_offered (is : List Input) : accepted is = is.filterMap offered :=
  holds_reset.accepted is

/-- Where the reader is always ready, every word that is formed is transferred or shown. -/
theorem formed_of_ready {is : List Input} (hready : ∀ i ∈ is, i.outReady = true) :
    formed is = transferred is ++ port.pending (run step reset is) := by
  have hfree : ∀ c ∈ cycles step reset is, port.Stalled c → false = false ∧ put c = none :=
    fun c hc hstall =>
      absurd hstall (port.not_stalled_of_ready (hready c.2 (mem_of_mem_cycles hc)))
  exact register.accounts hfree

theorem burstBeats_bytes (bytes : List Byte) : (burstBeats bytes).map Prod.fst = bytes := by
  induction bytes using burstBeats.induct with
  | case1 => rfl
  | case2 b => rfl
  | case3 b c bytes ih => rw [burstBeats, List.map_cons, ih]

/-- **The words of every burst.**  With `out_ready` high, for every sequence of bursts and any gaps
between their bytes, the words transferred by the edge after the last byte are those of the bursts in
order: each burst has as many words as it needs, every `out_wstrb` is a low mask, bytes without a
strobe are zero, and `out_last` is set on the word with the burst's last byte alone. -/
theorem assembler_exact {is : List Input} {i : Input} {bursts : List (List Byte)}
    (hready : ∀ j ∈ is ++ [i], j.outReady = true) (hne : ∀ bytes ∈ bursts, bytes ≠ [])
    (hin : accepted is = bursts.flatMap burstBeats) :
    transferred (is ++ [i]) = bursts.flatMap burstWords ∧
      (∀ bytes ∈ bursts, Packs bytes (burstWords bytes)) ∧
      (transferred (is ++ [i])).flatMap WordOut.strobed = (accepted is).map Prod.fst := by
  have hwords : transferred (is ++ [i]) = bursts.flatMap burstWords := by
    have hflow := formed_of_ready fun j hj => hready j (List.mem_append_left _ hj)
    have hi : i.outReady = true := hready i (by simp)
    have hlast : port.taken (run step reset is, i) = port.out (run step reset is) := if_pos hi
    rw [formed_eq_pack, ← accepted_eq_offered, hin, pack_bursts hne] at hflow
    rw [hflow, transferred, observed_snoc, hlast]
    rfl
  refine ⟨hwords, fun bytes hmem => burstWords_packs (hne bytes hmem), ?_⟩
  rw [hwords, hin, List.flatMap_assoc, List.map_flatMap]
  refine List.flatMap_congr fun bytes hmem => ?_
  rw [(burstWords_packs (hne bytes hmem)).strobed, burstBeats_bytes]

/-- Two bursts, of nine bytes and of one. -/
theorem assembler_exact_nine_one :
    let is := (List.range 9).map (fun k => ⟨true, BitVec.ofNat 8 k, k == 8, true⟩) ++
      [⟨false, 0, false, true⟩, ⟨true, 0xAB, true, true⟩]
    let bursts : List (List Byte) := [[0, 1, 2, 3, 4, 5, 6, 7, 8], [0xAB]]
    transferred (is ++ [⟨false, 0, false, true⟩]) = bursts.flatMap burstWords ∧
      (∀ bytes ∈ bursts, Packs bytes (burstWords bytes)) ∧
      (transferred (is ++ [⟨false, 0, false, true⟩])).flatMap WordOut.strobed =
        (accepted is).map Prod.fst :=
  assembler_exact (by decide) (by decide) (by decide)

/-- The same inputs with `out_ready` always high. -/
def alwaysReady (is : List Input) : List Input := is.map fun i => { i with outReady := true }

theorem alwaysReady_ready (is : List Input) : ∀ i ∈ alwaysReady is, i.outReady = true := by
  intro i hi
  obtain ⟨j, -, rfl⟩ := List.mem_map.mp hi
  rfl

/-- The words formed do not depend on the reader. -/
theorem formed_alwaysReady (is : List Input) : formed (alwaysReady is) = formed is := by
  rw [formed_eq_pack, formed_eq_pack, alwaysReady, List.filterMap_map]
  rfl

/-- What is transferred under stalls that lose no word is a prefix of what is transferred without
them. -/
theorem transferred_prefix {is : List Input}
    (hflow : formed is = transferred is ++ port.pending (run step reset is)) :
    transferred is <+: transferred (alwaysReady is) := by
  have hfree := formed_of_ready (alwaysReady_ready is)
  rw [formed_alwaysReady, hflow] at hfree
  induction is using List.reverseRecOn with
  | nil => exact List.prefix_rfl
  | append_singleton is i _ =>
    have hsnoc : alwaysReady (is ++ [i]) = alwaysReady is ++ [{ i with outReady := true }] :=
      List.map_append
    -- the last edge forms the same word in both runs
    have hput : (put (run step reset is, i)).toList =
        (put (run step reset (alwaysReady is), { i with outReady := true })).toList := by
      have hsame := formed_alwaysReady (is ++ [i])
      rw [hsnoc, formed, observed_snoc, formed, observed_snoc, ← formed, ← formed,
        formed_alwaysReady] at hsame
      exact (List.append_cancel_left hsame).symm
    have hshown : port.pending (run step reset (alwaysReady (is ++ [i]))) =
        (put (run step reset is, i)).toList := by
      rw [hput, hsnoc, run_snoc, Port.pending,
        register.out_free (c := (_, _)) (port.not_stalled_of_ready rfl)]
    rw [hshown] at hfree
    cases hword : put (run step reset is, i) with
    | none =>
      rw [hword, Option.toList_none, List.append_nil] at hfree
      exact ⟨_, hfree⟩
    | some w =>
      have hpend : port.pending (run step reset (is ++ [i])) = [w] := by
        rw [run_snoc, Port.pending, register.out (run step reset is, i), if_neg (by decide), hword]
        rfl
      rw [hpend, hword] at hfree
      exact List.append_cancel_right hfree ▸ List.prefix_rfl

/-- **When no word is dropped.**  For every byte stream and every pattern of `out_ready`: a word that is
not taken stays on the pins, what is transferred is a prefix of what is transferred with `out_ready`
always high, and the words transferred or shown are the same, exactly when no word is completed while
one waits. -/
theorem assembler_stall_iff (is : List Input) :
    ((∀ c ∈ cycles step reset is, Stays c) ∧
        (∀ js, js <+: is → transferred js <+: transferred (alwaysReady js)) ∧
        ∀ js, js <+: is → transferred js ++ port.pending (run step reset js) =
          transferred (alwaysReady js) ++ port.pending (run step reset (alwaysReady js))) ↔
      ∀ c ∈ cycles step reset is, c.1.outValid = true → c.2.outReady = false → ¬ Completes c := by
  have hiff := register.intact_iff reset is
  have hcond : (∀ c ∈ cycles step reset is, port.Stalled c → false = false ∧ put c = none) ↔
      ∀ c ∈ cycles step reset is, c.1.outValid = true → c.2.outReady = false → ¬ Completes c := by
    refine forall₂_congr fun c _ => ?_
    rw [← and_imp, ← stalled_iff]
    refine forall_congr' fun _ => ?_
    rw [put, ite_eq_right_iff]
    simp
  have hfree : ∀ js, formed js =
      transferred (alwaysReady js) ++ port.pending (run step reset (alwaysReady js)) := by
    intro js
    rw [← formed_of_ready (alwaysReady_ready js), formed_alwaysReady]
  have hsame : ∀ js, transferred js ++ port.pending (run step reset js) =
        transferred (alwaysReady js) ++ port.pending (run step reset (alwaysReady js)) ↔
      port.pending reset ++ formed js = transferred js ++ port.pending (run step reset js) := by
    intro js
    rw [← hfree js]
    exact eq_comm
  rw [hcond] at hiff
  simp only [stays_iff, hsame]
  rw [← hiff]
  refine and_congr_right fun _ => ⟨And.right, fun hall => ⟨fun js hjs => ?_, hall⟩⟩
  exact transferred_prefix (hall js hjs)

/-- **A word is overwritten** by the next one when the reader is not ready for it. -/
theorem word_overwritten :
    let is : List Input := [⟨true, 0xAA, true, false⟩, ⟨true, 0xBB, true, false⟩,
      ⟨false, 0, false, true⟩]
    accepted is = [(0xAA, true), (0xBB, true)] ∧ transferred is = [emit [0xBB] true] ∧
      transferred (alwaysReady is) = [emit [0xAA] true, emit [0xBB] true] ∧
      ¬ ∀ c ∈ cycles step reset is, Stays c := by
  refine ⟨by decide, by decide, by decide, fun hstay => ?_⟩
  have hsecond := hstay (run step reset [⟨true, 0xAA, true, false⟩], ⟨true, 0xBB, true, false⟩)
    (by exact List.mem_cons_of_mem _ (List.mem_cons_self ..))
  exact absurd (hsecond (by decide) (by decide)).2.1 (by decide)

end FtjSsdSim.Hdl.ByteAssembler
