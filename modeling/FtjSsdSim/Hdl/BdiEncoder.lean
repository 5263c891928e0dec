import Mathlib
import FtjSsdSim.Library.Bits

/-!
# The base-delta-immediate encoder

The combinational module `ftj_bdi_encoder`: a 64-bit word is classified as all-zero, uniform,
base-plus-deltas or raw, in that priority, and packed into 1, 2, 6 or 8 bytes.  `decode` is the
layout documented in the module's header, read backwards.

A delta is admitted when its upper nibble is `0000` or `1111`, but only its low nibble is stored
and the documented decoding sign-extends bit 3.  The two agree on the deltas in `[-8, 7]` only:

* `decode_encode_iff` — decoding recovers a word exactly when its admitted deltas lie in that range;
* `stored_eq_iff` — two words share type and bytes exactly when they are equal or `Clash`.
-/

namespace FtjSsdSim.Hdl.BdiEncoder

open FtjSsdSim.Library

/-! ### The module of the source -/

/-- `TYPE_ZERO`, `TYPE_UNIFORM`, `TYPE_BASE4`, `TYPE_RAW`. -/
inductive CompType where
  | zero
  | uniform
  | base4
  | raw
  deriving DecidableEq, Repr

/-- The output ports. -/
structure EncoderOut where
  compOut : Word
  validBytes : BitVec 4
  compType : CompType
  compSavingsBytes : BitVec 4
  deriving DecidableEq, Repr

def isZero (dataIn : Word) : Bool := dataIn == 0

def isUniform (dataIn : Word) : Bool :=
  let b0 := byteAt dataIn 0
  byteAt dataIn 1 == b0 && byteAt dataIn 2 == b0 && byteAt dataIn 3 == b0 && byteAt dataIn 4 == b0
    && byteAt dataIn 5 == b0 && byteAt dataIn 6 == b0 && byteAt dataIn 7 == b0

/-- `d_i = b_i - b0`, modulo 256. -/
def delta (dataIn : Word) (i : ℕ) : Byte := byteAt dataIn i - byteAt dataIn 0

/-- `f_i`: the upper nibble of the delta is all-0 or all-1. -/
def nibbleFits (d : Byte) : Bool := d.extractLsb' 4 4 == 0b0000 || d.extractLsb' 4 4 == 0b1111

def allDeltasFit (dataIn : Word) : Bool :=
  nibbleFits (delta dataIn 1) && nibbleFits (delta dataIn 2) && nibbleFits (delta dataIn 3)
    && nibbleFits (delta dataIn 4) && nibbleFits (delta dataIn 5) && nibbleFits (delta dataIn 6)
    && nibbleFits (delta dataIn 7)

/-- `d[3:0]`. -/
def lowNibble (d : Byte) : BitVec 4 := d.extractLsb' 0 4

/-- The 64-bit payload of `TYPE_BASE4`. -/
def packBase4 (b0 : Byte) (n1 n2 n3 n4 n5 n6 n7 : BitVec 4) : Word :=
  0x0000#16 ++ 0b0000#4 ++ n7 ++ n6 ++ n5 ++ n4 ++ n3 ++ n2 ++ n1 ++ b0 ++ 0x02#8

/-- The output mux, without the savings port. -/
def encodeMux (dataIn : Word) : CompType × BitVec 4 × Word :=
  let n i := lowNibble (delta dataIn i)
  if isZero dataIn then (.zero, 1, 0)
  else if isUniform dataIn then (.uniform, 2, 0#48 ++ byteAt dataIn 0 ++ 0x01#8)
  else if allDeltasFit dataIn then
    (.base4, 6, packBase4 (byteAt dataIn 0) (n 1) (n 2) (n 3) (n 4) (n 5) (n 6) (n 7))
  else (.raw, 8, dataIn)

def ftjBdiEncoder (dataIn : Word) : EncoderOut :=
  let (compType, validBytes, compOut) := encodeMux dataIn
  { compOut, validBytes, compType, compSavingsBytes := 8 - validBytes }

/-- The bytes of `comp_out` that are forwarded: the first `valid_bytes`, low byte first. -/
def payload (dataIn : Word) : List Byte :=
  bytesLE (ftjBdiEncoder dataIn).validBytes.toNat (ftjBdiEncoder dataIn).compOut

/-- What is known of a word after encoding: its type and its payload. -/
def stored (dataIn : Word) : CompType × List Byte := ((ftjBdiEncoder dataIn).compType, payload dataIn)

/-- The decoding documented in the header of the module: deltas are signed 4-bit values added to
the base modulo 256; delta `i` is in byte `2 + (i - 1) / 2`, odd ones in the low nibble. -/
def decode : CompType × List Byte → Word
  | (.zero, _) => 0
  | (.uniform, bs) => ofBytes fun _ => bs.getD 1 0
  | (.base4, bs) => ofBytes fun i =>
      if i = 0 then bs.getD 1 0
      else
        bs.getD 1 0 + ((bs.getD (2 + (i - 1) / 2) 0).extractLsb' (4 * ((i - 1) % 2)) 4).signExtend 8
  | (.raw, bs) => ofBytes fun i => bs.getD i 0

/-- Every delta is a signed 4-bit value. -/
def DeltasInRange (dataIn : Word) : Prop :=
  ∀ i, i < 8 → -8 ≤ (delta dataIn i).toInt ∧ (delta dataIn i).toInt ≤ 7

/-- Two words that `TYPE_BASE4` packs into the same six bytes. -/
def Clash (a b : Word) : Prop :=
  allDeltasFit a = true ∧ isUniform a = false ∧ allDeltasFit b = true ∧ isUniform b = false ∧
    byteAt a 0 = byteAt b 0 ∧ ∀ i, i < 8 → lowNibble (delta a i) = lowNibble (delta b i)

/-! ### Payloads by type -/

theorem isUniform_iff (w : Word) : isUniform w = true ↔ ∀ i, i < 8 → byteAt w i = byteAt w 0 := by
  simp only [isUniform, Bool.and_eq_true, beq_iff_eq]
  constructor
  · rintro ⟨⟨⟨⟨⟨⟨h1, h2⟩, h3⟩, h4⟩, h5⟩, h6⟩, h7⟩ i hi
    interval_cases i <;> first | rfl | assumption
  · intro h
    exact ⟨⟨⟨⟨⟨⟨h 1 (by omega), h 2 (by omega)⟩, h 3 (by omega)⟩, h 4 (by omega)⟩,
      h 5 (by omega)⟩, h 6 (by omega)⟩, h 7 (by omega)⟩

theorem delta_zero (w : Word) : delta w 0 = 0 := BitVec.sub_self _

theorem isUniform_of_isZero {w : Word} (h : isZero w = true) : isUniform w = true := by
  rw [isZero, beq_iff_eq] at h
  rw [h]
  decide

/-- A uniform word has no deltas to speak of. -/
theorem deltasInRange_of_isUniform {w : Word} (h : isUniform w = true) : DeltasInRange w := by
  intro i hi
  have hd : delta w i = 0 := by
    rw [delta, (isUniform_iff w).mp h i hi]
    exact BitVec.sub_self _
  rw [hd]
  decide

/-- The six bytes of a base word and seven nibbles. -/
def base4Bytes (b0 : Byte) (n : ℕ → BitVec 4) : List Byte :=
  [0x02, b0, n 2 ++ n 1, n 4 ++ n 3, n 6 ++ n 5, 0#4 ++ n 7]

theorem bytesLE_packBase4 (b0 : Byte) (n : ℕ → BitVec 4) :
    bytesLE 6 (packBase4 b0 (n 1) (n 2) (n 3) (n 4) (n 5) (n 6) (n 7)) = base4Bytes b0 n := by
  have h : packBase4 b0 (n 1) (n 2) (n 3) (n 4) (n 5) (n 6) (n 7) =
      ofBytes fun i => (base4Bytes b0 n).getD i 0 := by
    apply BitVec.eq_of_getLsbD_eq
    intro i hi
    simp only [packBase4, ofBytes, base4Bytes, BitVec.getLsbD_append, List.getD_cons_zero,
      List.getD_cons_succ, List.getD_nil, BitVec.getLsbD_zero]
    grind
  rw [h, bytesLE_ofBytes _ _ (by omega)]
  rfl

/-- Nibble `i` is where the documentation puts it. -/
theorem base4Bytes_nibble (b0 : Byte) (n : ℕ → BitVec 4) (i : ℕ) (h1 : i ≠ 0) (h8 : i < 8) :
    ((base4Bytes b0 n).getD (2 + (i - 1) / 2) 0).extractLsb' (4 * ((i - 1) % 2)) 4 = n i := by
  have hlow : ∀ a b : BitVec 4, (a ++ b).extractLsb' 0 4 = b := by decide
  have hhigh : ∀ a b : BitVec 4, (a ++ b).extractLsb' 4 4 = a := by decide
  interval_cases i
  · exact absurd rfl h1
  · exact hlow _ _
  · exact hhigh _ _
  · exact hlow _ _
  · exact hhigh _ _
  · exact hlow _ _
  · exact hhigh _ _
  · exact hlow _ _

/-- The nibbles a word would store. -/
def nibbles (w : Word) (i : ℕ) : BitVec 4 := lowNibble (delta w i)

/-- **What is stored, by type.** -/
theorem stored_cases (w : Word) :
    (isZero w = true ∧ stored w = (.zero, [0])) ∨
    (isZero w = false ∧ isUniform w = true ∧ stored w = (.uniform, [0x01, byteAt w 0])) ∨
    (isUniform w = false ∧ allDeltasFit w = true ∧
      stored w = (.base4, base4Bytes (byteAt w 0) (nibbles w))) ∨
    (isUniform w = false ∧ allDeltasFit w = false ∧ stored w = (.raw, bytesLE 8 w)) := by
  cases hz : isZero w with
  | true =>
    refine Or.inl ⟨rfl, ?_⟩
    simp only [stored, payload, ftjBdiEncoder, encodeMux, hz, if_true]
    rfl
  | false =>
    cases hu : isUniform w with
    | true =>
      refine Or.inr (Or.inl ⟨rfl, rfl, ?_⟩)
      have hbytes : bytesLE 2 (0#48 ++ byteAt w 0 ++ 0x01#8) = [0x01, byteAt w 0] := by
        have h : (0#48 ++ byteAt w 0 ++ 0x01#8 : Word) =
            ofBytes fun i => [0x01#8, byteAt w 0].getD i 0 := by
          apply BitVec.eq_of_getLsbD_eq
          intro i hi
          simp only [ofBytes, BitVec.getLsbD_append, List.getD_cons_zero, List.getD_cons_succ,
            List.getD_nil, BitVec.getLsbD_zero]
          grind
        rw [h, bytesLE_ofBytes _ _ (by omega)]
        rfl
      simp only [stored, payload, ftjBdiEncoder, encodeMux, hz, hu, if_true, Bool.false_eq_true,
        if_false]
      exact congrArg (Prod.mk CompType.uniform) hbytes
    | false =>
      refine Or.inr (Or.inr ?_)
      cases hd : allDeltasFit w with
      | true =>
        refine Or.inl ⟨rfl, rfl, ?_⟩
        simp only [stored, payload, ftjBdiEncoder, encodeMux, hz, hu, hd, if_true,
          Bool.false_eq_true, if_false]
        exact congrArg (Prod.mk CompType.base4) (bytesLE_packBase4 (byteAt w 0) (nibbles w))
      | false =>
        refine Or.inr ⟨rfl, rfl, ?_⟩
        simp only [stored, payload, ftjBdiEncoder, encodeMux, hz, hu, hd, Bool.false_eq_true,
          if_false]
        rfl

/-! ### Decoding -/

/-- A delta survives the low nibble exactly when it is a signed 4-bit value. -/
theorem signExtend_lowNibble_iff : ∀ d : Byte,
    (lowNibble d).signExtend 8 = d ↔ -8 ≤ d.toInt ∧ d.toInt ≤ 7 := by
  decide

theorem ofBytes_eq_iff (f : ℕ → Byte) (w : Word) :
    ofBytes f = w ↔ ∀ i, i < 8 → f i = byteAt w i := by
  constructor
  · rintro rfl i hi
    exact (byteAt_ofBytes f i hi).symm
  · intro h
    exact word_ext fun i hi => by rw [byteAt_ofBytes f i hi, h i hi]

/-- Decoding `TYPE_BASE4` adds the sign-extended nibbles to the base. -/
theorem decode_base4 (b0 : Byte) (n : ℕ → BitVec 4) :
    decode (.base4, base4Bytes b0 n) =
      ofBytes fun i => if i = 0 then b0 else b0 + (n i).signExtend 8 := by
  rw [decode]
  refine ofBytes_congr fun i hi => ?_
  have hb : (base4Bytes b0 n).getD 1 0 = b0 := rfl
  by_cases h0 : i = 0
  · rw [if_pos h0, if_pos h0, hb]
  · rw [if_neg h0, if_neg h0, base4Bytes_nibble b0 n i h0 hi, hb]

theorem decode_base4_iff (w : Word) :
    decode (.base4, base4Bytes (byteAt w 0) (nibbles w)) = w ↔ DeltasInRange w := by
  rw [decode_base4, ofBytes_eq_iff]
  refine forall_congr' fun i => forall_congr' fun _ => ?_
  rw [← signExtend_lowNibble_iff]
  by_cases h0 : i = 0
  · subst h0
    rw [if_pos rfl, delta_zero]
    exact ⟨fun _ => by decide, fun _ => rfl⟩
  · rw [if_neg h0, delta, BitVec.eq_sub_iff_add_eq, BitVec.add_comm]
    rfl

/-- **Decoding.**  The documented decoding recovers a word exactly when the deltas that pass the
nibble test are signed 4-bit values. -/
theorem decode_stored_iff (w : Word) :
    decode (stored w) = w ↔ (allDeltasFit w = true → DeltasInRange w) := by
  rcases stored_cases w with ⟨hz, hs⟩ | ⟨-, hu, hs⟩ | ⟨hu, hd, hs⟩ | ⟨hu, hd, hs⟩
  · have hw : w = 0 := by rwa [isZero, beq_iff_eq] at hz
    rw [hs]
    exact ⟨fun _ _ => deltasInRange_of_isUniform (isUniform_of_isZero hz), fun _ => hw.symm⟩
  · rw [hs]
    refine ⟨fun _ _ => deltasInRange_of_isUniform hu, fun _ => ?_⟩
    show ofBytes (fun _ => byteAt w 0) = w
    rw [ofBytes_eq_iff]
    exact fun i hi => ((isUniform_iff w).mp hu i hi).symm
  · rw [hs, decode_base4_iff]
    exact ⟨fun h _ => h, fun h => h hd⟩
  · rw [hs]
    refine ⟨fun _ h => absurd h (by rw [hd]; exact Bool.false_ne_true), fun _ => ?_⟩
    show ofBytes (fun i => (bytesLE 8 w).getD i 0) = w
    rw [ofBytes_eq_iff]
    exact fun i hi => bytesLE_getD 8 i w hi

/-! ### Distinct words -/

/-- The six bytes determine the base and the nibbles. -/
theorem base4Bytes_inj {b c : Byte} {m n : ℕ → BitVec 4} (h : base4Bytes b m = base4Bytes c n) :
    b = c ∧ ∀ i, i ≠ 0 → i < 8 → m i = n i := by
  refine ⟨?_, fun i h0 hi => ?_⟩
  · simp only [base4Bytes, List.cons.injEq] at h
    exact h.2.1
  · rw [← base4Bytes_nibble b m i h0 hi, h, base4Bytes_nibble c n i h0 hi]

theorem base4Bytes_congr {b : Byte} {m n : ℕ → BitVec 4} (h : ∀ i, i < 8 → m i = n i) :
    base4Bytes b m = base4Bytes b n := by
  simp only [base4Bytes, h 1 (by omega), h 2 (by omega), h 3 (by omega), h 4 (by omega),
    h 5 (by omega), h 6 (by omega), h 7 (by omega)]

theorem stored_of_base4 {w : Word} (hu : isUniform w = false) (hd : allDeltasFit w = true) :
    stored w = (.base4, base4Bytes (byteAt w 0) (nibbles w)) := by
  rcases stored_cases w with ⟨hz, -⟩ | ⟨-, hu', -⟩ | ⟨-, -, hs⟩ | ⟨-, hd', -⟩
  · exact absurd (isUniform_of_isZero hz) (by rw [hu]; exact Bool.false_ne_true)
  · exact absurd hu' (by rw [hu]; exact Bool.false_ne_true)
  · exact hs
  · exact absurd hd (by rw [hd']; exact Bool.false_ne_true)

theorem eq_of_uniform {a b : Word} (ha : isUniform a = true) (hb : isUniform b = true)
    (h0 : byteAt a 0 = byteAt b 0) : a = b :=
  word_ext fun i hi => by
    rw [(isUniform_iff a).mp ha i hi, (isUniform_iff b).mp hb i hi, h0]

theorem stored_eq_iff (a b : Word) : stored a = stored b ↔ a = b ∨ Clash a b := by
  constructor
  · intro h
    rcases stored_cases a with ⟨ha, hs⟩ | ⟨-, hau, hs⟩ | ⟨hau, had, hs⟩ | ⟨-, -, hs⟩ <;>
      rcases stored_cases b with ⟨hb, ht⟩ | ⟨-, hbu, ht⟩ | ⟨hbu, hbd, ht⟩ | ⟨-, -, ht⟩ <;>
      rw [hs, ht] at h <;> obtain ⟨htype, hbytes⟩ := Prod.mk.inj h <;> cases htype
    -- what is left are the four pairs of equal type
    · rw [isZero, beq_iff_eq] at ha hb
      exact Or.inl (ha.trans hb.symm)
    · exact Or.inl (eq_of_uniform hau hbu (List.cons.inj (List.cons.inj hbytes).2).1)
    · obtain ⟨h0, hn⟩ := base4Bytes_inj hbytes
      refine Or.inr ⟨had, hau, hbd, hbu, h0, fun i hi => ?_⟩
      by_cases hi0 : i = 0
      · rw [hi0, delta_zero, delta_zero]
      · exact hn i hi0 hi
    · refine Or.inl (word_ext fun i hi => ?_)
      rw [← bytesLE_getD 8 i a hi, hbytes, bytesLE_getD 8 i b hi]
  · rintro (rfl | ⟨had, hau, hbd, hbu, h0, hn⟩)
    · rfl
    · rw [stored_of_base4 hau had, stored_of_base4 hbu hbd, h0,
        show base4Bytes (byteAt b 0) (nibbles a) = base4Bytes (byteAt b 0) (nibbles b) from
          base4Bytes_congr hn]

/-- **Losslessness.**  Two words share type and bytes exactly when they are equal or clash, and the
documented decoding recovers a word exactly when its admitted deltas are signed 4-bit values. -/
theorem encoder_lossless_iff (a b : Word) :
    (stored a = stored b ↔ a = b ∨ Clash a b) ∧
      (decode (stored a) = a ↔ (allDeltasFit a = true → DeltasInRange a)) :=
  ⟨stored_eq_iff a b, decode_stored_iff a⟩

/-- The deltas `+15` and `-1` share a low nibble. -/
theorem encoder_lossless_delta15 :
    (0x0F00 : Word) ≠ 0xFF00 ∧ stored 0x0F00 = stored 0xFF00 ∧
      decode (stored 0x0F00) ≠ 0x0F00 := by
  decide

/-- The classifications the repository's test bench expects. -/
example :
    (stored 0).1 = .zero ∧ (stored 0x4242424242424242).1 = .uniform ∧
      (stored 0x1716151413121110).1 = .base4 ∧ (stored 0x797A7B7C7D7E7F80).1 = .base4 ∧
      (stored 0xDEADBEEFCAFE1234).1 = .raw ∧ (stored 0xFF00FF00FF00FF00).1 = .base4 := by
  decide

end FtjSsdSim.Hdl.BdiEncoder
