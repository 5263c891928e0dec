import Mathlib
import FtjSsdSim.Library.Bits
import FtjSsdSim.Library.LinearCheck

/-!
# The SECDED encoder and decoder of the memory controller

The combinational modules `ftj_ecc_encoder` and `ftj_ecc_decoder` at the end of the controller's
source.  The encoder's seven parity trees are six masks over the bit index — each selecting the
bits whose index has a given bit *clear* — and the parity of the whole word; the eighth bit adds
the word parity to those seven.

The decoder corrects bit `syndrome[6:0] - 1` when the eighth syndrome bit is set.  But a flipped
data bit `i` leaves `syndrome[6:0] = 127 - i` (`signature_data`), so that rule never points at it:
`decoder_one_flip_iff` finds the overall check bit as the only position whose flip is handled.  Of
the double errors it reports those that the overall check does not see, but for one pair of equal
columns (`decoder_two_flips_iff`).
-/

namespace FtjSsdSim.Hdl.Ecc

open FtjSsdSim.Library

/-! ### The modules of the source -/

/-- `ftj_ecc_encoder`: the reduction-xor parity trees. -/
def ftjEccEncoder (dataIn : Word) : Byte :=
  let p0 := parity (dataIn &&& 0x5555555555555555)
  let p1 := parity (dataIn &&& 0x3333333333333333)
  let p2 := parity (dataIn &&& 0x0F0F0F0F0F0F0F0F)
  let p3 := parity (dataIn &&& 0x00FF00FF00FF00FF)
  let p4 := parity (dataIn &&& 0x0000FFFF0000FFFF)
  let p5 := parity (dataIn &&& 0x00000000FFFFFFFF)
  let p6 := parity dataIn
  let p7 := parity dataIn ^^ (p0 ^^ p1 ^^ p2 ^^ p3 ^^ p4 ^^ p5 ^^ p6)
  BitVec.ofFnLE ![p0, p1, p2, p3, p4, p5, p6, p7]

/-- The outputs of `ftj_ecc_decoder`. -/
structure DecoderOut where
  dataOut : Word
  corrected : Bool
  uncorrectable : Bool
  deriving DecidableEq, Repr

/-- `data_out[i] = ~data_in[i]`; a write to a bit outside the vector has no effect. -/
def invertBit (data : Word) (i : ℕ) : Word :=
  if i < 64 then data ^^^ BitVec.twoPow 64 i else data

/-- `ftj_ecc_decoder`.  The index `syndrome[6:0]-1` is a 32-bit unsigned expression. -/
def ftjEccDecoder (dataIn : Word) (parityIn : Byte) : DecoderOut :=
  let syndrome := ftjEccEncoder dataIn ^^^ parityIn
  let low := syndrome.extractLsb' 0 7
  let syndromeZero := low == 0
  let parityError := syndrome.getLsbD 7
  if syndrome ≠ 0 then
    if parityError then
      { dataOut := if low ≤ 64 then invertBit dataIn (low.setWidth 32 - 1).toNat else dataIn
        corrected := true
        uncorrectable := false }
    else if !syndromeZero then
      { dataOut := dataIn, corrected := false, uncorrectable := true }
    else
      { dataOut := dataIn, corrected := false, uncorrectable := false }
  else
    { dataOut := dataIn, corrected := false, uncorrectable := false }

/-- Decoding of a received pair. -/
def decodeReceived (c : Word × Byte) : DecoderOut := ftjEccDecoder c.1 c.2

/-- The codeword the controller stores for a data word. -/
def encode (data : Word) : Word × Byte := (data, ftjEccEncoder data)

/-! ### The encoder is linear -/

/-- The masks of the eight parity outputs; the overall bit selects the data bits that an even
number of the others cover. -/
def fullMask : Fin 8 → Word :=
  ![0x5555555555555555, 0x3333333333333333, 0x0F0F0F0F0F0F0F0F, 0x00FF00FF00FF00FF,
    0x0000FFFF0000FFFF, 0x00000000FFFFFFFF, 0xFFFFFFFFFFFFFFFF, 0x6996966996696996]

theorem ftjEccEncoder_eq (data : Word) : ftjEccEncoder data = checkBits fullMask data := by
  have hall : parity (data &&& 0xFFFFFFFFFFFFFFFF) = parity data :=
    congrArg parity (BitVec.and_allOnes (x := data))
  have hover : parity (data &&& 0x6996966996696996) =
      (parity data ^^ (parity (data &&& 0x5555555555555555) ^^ parity (data &&& 0x3333333333333333)
        ^^ parity (data &&& 0x0F0F0F0F0F0F0F0F) ^^ parity (data &&& 0x00FF00FF00FF00FF)
        ^^ parity (data &&& 0x0000FFFF0000FFFF) ^^ parity (data &&& 0x00000000FFFFFFFF)
        ^^ parity data)) := by
    rw [show (0x6996966996696996 : Word) = 0x5555555555555555 ^^^ 0x3333333333333333
        ^^^ 0x0F0F0F0F0F0F0F0F ^^^ 0x00FF00FF00FF00FF ^^^ 0x0000FFFF0000FFFF
        ^^^ 0x00000000FFFFFFFF by decide]
    simp only [parity_and_xor]
    cases parity data <;> simp
  have hvec : ∀ f : Fin 8 → Bool, ![f 0, f 1, f 2, f 3, f 4, f 5, f 6, f 7] = f := by
    intro f
    funext i
    fin_cases i <;> rfl
  have hmask : fullMask 6 = 0xFFFFFFFFFFFFFFFF ∧ fullMask 7 = 0x6996966996696996 := ⟨rfl, rfl⟩
  rw [checkBits, ← hvec fun i => parity (data &&& fullMask i), hmask.1, hmask.2, hall, hover]
  rfl

/-! ### Signatures of the positions -/

/-- A flipped data bit moves every check whose index bit it has clear, so the low seven syndrome
bits read `127 - i`. -/
def dataSignature (d : ℕ) : Byte :=
  BitVec.ofNat 8 (127 - d + if parity (BitVec.ofNat 7 (127 - d)) then 0 else 128)

theorem signature_data : ∀ d : Fin 64, signature fullMask (.inl d) = dataSignature d := by
  decide

/-! ### Decoding by syndrome -/

theorem syndrome_received (c : Word × Byte) :
    ftjEccEncoder c.1 ^^^ c.2 = syndrome fullMask c := by
  rw [ftjEccEncoder_eq]; rfl

theorem syndrome_encoded (data : Word) : syndrome fullMask (encode data) = 0 := by
  rw [encode, ftjEccEncoder_eq]
  exact syndrome_encode fullMask data

theorem syndrome_one_flip (data : Word) (p : Position 64 8) :
    syndrome fullMask (flipBit p (encode data)) = signature fullMask p := by
  rw [syndrome_flipBit, syndrome_encoded]
  exact BitVec.zero_xor

theorem decode_clean {c : Word × Byte} (h : syndrome fullMask c = 0) :
    decodeReceived c = ⟨c.1, false, false⟩ := by
  rw [decodeReceived, ftjEccDecoder, syndrome_received, h]
  rfl

/-- Without the overall bit a non-zero syndrome only raises `uncorrectable`. -/
theorem decode_double {c : Word × Byte} (hne : syndrome fullMask c ≠ 0)
    (ho : (syndrome fullMask c).getLsbD 7 = false) :
    decodeReceived c = ⟨c.1, false, true⟩ := by
  have hlow : ∀ s : Byte, s ≠ 0 → s.getLsbD 7 = false → (!(s.extractLsb' 0 7 == 0)) = true := by
    decide
  rw [decodeReceived, ftjEccDecoder, syndrome_received, if_pos hne]
  simp only [ho, hlow _ hne ho, if_true, Bool.false_eq_true, if_false]

/-- With the overall bit the decoder inverts the data bit below its low syndrome bits. -/
theorem decode_single {c : Word × Byte} (ho : (syndrome fullMask c).getLsbD 7 = true) :
    decodeReceived c =
      ⟨if (syndrome fullMask c).extractLsb' 0 7 ≤ 64 then
          invertBit c.1 (((syndrome fullMask c).extractLsb' 0 7).setWidth 32 - 1).toNat
        else c.1, true, false⟩ := by
  have hne : syndrome fullMask c ≠ 0 := fun h => by
    rw [h] at ho
    exact absurd ho (by decide)
  rw [decodeReceived, ftjEccDecoder, syndrome_received, if_pos hne]
  simp only [ho, if_true]

/-- The overall check bit alone: the index `0 - 1` wraps to `2^32 - 1`, outside the word. -/
theorem decode_overall {c : Word × Byte} (hs : syndrome fullMask c = BitVec.twoPow 8 7) :
    decodeReceived c = ⟨c.1, true, false⟩ := by
  have hidx : ∀ s : Byte, s = BitVec.twoPow 8 7 →
      ¬ ((s.extractLsb' 0 7).setWidth 32 - 1).toNat < 64 := by decide
  have ho : (syndrome fullMask c).getLsbD 7 = true := by
    rw [hs, BitVec.getLsbD_twoPow]
    rfl
  rw [decode_single ho]
  simp only [invertBit, if_neg (hidx _ hs), ite_self]

/-! ### Single errors -/

/-- A data bit whose flip reaches the correction branch has low syndrome bits above 64. -/
theorem dataSignature_high : ∀ d : Fin 64, (dataSignature d).getLsbD 7 = true →
    ¬ (dataSignature d).extractLsb' 0 7 ≤ 64 := by
  decide

theorem dataSignature_ne_zero : ∀ d : Fin 64, dataSignature d ≠ 0 := by
  decide

theorem xor_twoPow_ne (data : Word) (d : Fin 64) : data ^^^ BitVec.twoPow 64 d ≠ data := by
  intro h
  have hbit : (data ^^^ BitVec.twoPow 64 d).getLsbD d = data.getLsbD d := by rw [h]
  rw [BitVec.getLsbD_xor, BitVec.getLsbD_twoPow, decide_eq_true d.isLt, decide_eq_true rfl] at hbit
  cases hb : data.getLsbD d <;> rw [hb] at hbit <;> exact absurd hbit (by decide)

/-- No flipped data bit is restored. -/
theorem decode_data_flip (data : Word) (d : Fin 64) :
    (decodeReceived (flipBit (.inl d) (encode data))).dataOut = data ^^^ BitVec.twoPow 64 d := by
  have hs := syndrome_one_flip data (.inl d)
  rw [signature_data] at hs
  cases ho : (dataSignature d).getLsbD 7 with
  | true =>
    rw [decode_single (by rw [hs]; exact ho), hs, if_neg (dataSignature_high d ho)]
    rfl
  | false =>
    rw [decode_double (by rw [hs]; exact dataSignature_ne_zero d) (by rw [hs]; exact ho)]
    rfl

/-- **Single errors.**  An unflipped word decodes cleanly; a single flip gives back the word with
`corrected` set exactly when the flipped bit is the overall check bit. -/
theorem decoder_one_flip_iff (data : Word) :
    decodeReceived (encode data) = ⟨data, false, false⟩ ∧
      ∀ p : Position 64 8,
        decodeReceived (flipBit p (encode data)) = ⟨data, true, false⟩ ↔ p = .inr 7 := by
  refine ⟨decode_clean (syndrome_encoded data), fun p => ⟨fun h => ?_, fun h => ?_⟩⟩
  · cases p with
    | inl d =>
      have hd := congrArg DecoderOut.dataOut h
      rw [decode_data_flip] at hd
      exact absurd hd (xor_twoPow_ne data d)
    | inr j =>
      by_contra hj
      have hs := syndrome_one_flip data (.inr j)
      have hne : ∀ k : Fin 8, signature fullMask (.inr k) ≠ 0 := by decide
      have hbit : (BitVec.twoPow 8 j).getLsbD 7 = false := by
        rw [BitVec.getLsbD_twoPow]
        have : j.val ≠ 7 := fun h7 => hj (by rw [show j = 7 from Fin.ext h7])
        simp [this]
      rw [decode_double (by rw [hs]; exact hne j) (by rw [hs]; exact hbit)] at h
      exact absurd (congrArg DecoderOut.corrected h) Bool.false_ne_true
  · subst h
    exact decode_overall (syndrome_one_flip data (.inr 7))

set_option maxRecDepth 4000 in
/-- The flip of data bit 0 reaches the host as the wrong word. -/
theorem decoder_one_flip_bit0 :
    ¬ (decodeReceived (flipBit (.inl 0) (encode 0)) = ⟨0, true, false⟩) := by
  decide

/-! ### Double errors -/

/-- The position takes part in the overall check. -/
def inOverall : Position 64 8 → Bool
  | .inl d => (fullMask (Fin.last 7)).getLsbD d
  | .inr j => j = Fin.last 7

theorem signature_overall : ∀ p : Position 64 8,
    (signature fullMask p).getLsbD 7 = inOverall p := by
  decide

/-- The low seven bits of a data bit's signature tell it from every other data bit. -/
theorem dataSignature_low : ∀ d : Fin 64, (dataSignature d).toNat % 128 = 127 - d := by
  decide

theorem signature_data_ne {d e : Fin 64} (hne : d ≠ e) :
    signature fullMask (.inl d) ≠ signature fullMask (.inl e) := by
  rw [signature_data, signature_data]
  intro h
  have hlow := congrArg (fun s : Byte => s.toNat % 128) h
  simp only [dataSignature_low] at hlow
  exact hne (Fin.ext (by omega))

/-- A data bit looks like a check bit in one case only. -/
theorem signature_data_check : ∀ (d : Fin 64) (j : Fin 8),
    dataSignature d = signature fullMask (.inr j) ↔ d = 63 ∧ j = 6 := by
  decide

theorem signature_check_ne : ∀ j k : Fin 8, j ≠ k →
    signature fullMask (.inr j) ≠ signature fullMask (.inr k) := by
  decide

/-- **Coinciding columns.**  Two distinct positions have the same signature only if they are data bit
63 and check bit 6. -/
theorem signature_eq_iff {p q : Position 64 8} (hpq : p ≠ q) :
    signature fullMask p = signature fullMask q ↔
      (p = .inl 63 ∧ q = .inr 6) ∨ (p = .inr 6 ∧ q = .inl 63) := by
  cases p with
  | inl d =>
    cases q with
    | inl e =>
      refine iff_of_false (signature_data_ne fun h => hpq (by rw [h])) ?_
      rintro (⟨-, h⟩ | ⟨h, -⟩) <;> cases h
    | inr j =>
      rw [signature_data, signature_data_check]
      simp
  | inr j =>
    cases q with
    | inl d =>
      rw [eq_comm, signature_data, signature_data_check]
      simp [and_comm]
    | inr k =>
      refine iff_of_false (signature_check_ne j k fun h => hpq (by rw [h])) ?_
      rintro (⟨h, -⟩ | ⟨-, h⟩) <;> cases h

theorem syndrome_two_flips (data : Word) (p q : Position 64 8) :
    syndrome fullMask (flipBit q (flipBit p (encode data))) =
      signature fullMask p ^^^ signature fullMask q := by
  rw [syndrome_flipBit, syndrome_one_flip]

/-- **Double errors.**  Two flips in a codeword raise `uncorrectable`, and not `corrected`, exactly
when both positions or neither take part in the overall check and they are not data bit 63 and check
bit 6. -/
theorem decoder_two_flips_iff (data : Word) {p q : Position 64 8} (hpq : p ≠ q) :
    ((decodeReceived (flipBit q (flipBit p (encode data)))).uncorrectable = true ∧
        (decodeReceived (flipBit q (flipBit p (encode data)))).corrected = false) ↔
      inOverall p = inOverall q ∧
        ¬ ((p = .inl 63 ∧ q = .inr 6) ∨ (p = .inr 6 ∧ q = .inl 63)) := by
  have hs := syndrome_two_flips data p q
  have hbit : (syndrome fullMask (flipBit q (flipBit p (encode data)))).getLsbD 7 =
      (inOverall p ^^ inOverall q) := by
    rw [hs, BitVec.getLsbD_xor, signature_overall, signature_overall]
  by_cases hov : inOverall p = inOverall q
  · rw [hov, Bool.xor_self] at hbit
    by_cases hcol : signature fullMask p = signature fullMask q
    · -- the two columns cancel, and the word looks clean
      rw [decode_clean (by rw [hs, hcol]; exact BitVec.xor_self)]
      exact iff_of_false (fun h => Bool.false_ne_true h.1)
        fun h => h.2 ((signature_eq_iff hpq).mp hcol)
    · have hne : syndrome fullMask (flipBit q (flipBit p (encode data))) ≠ 0 := by
        rw [hs]
        exact fun h => hcol (BitVec.xor_eq_zero_iff.mp h)
      rw [decode_double hne hbit]
      exact iff_of_true ⟨rfl, rfl⟩ ⟨hov, fun h => hcol ((signature_eq_iff hpq).mpr h)⟩
  · -- the overall check sees one flip, and the decoder takes the word for a single error
    have hodd : (inOverall p ^^ inOverall q) = true := by
      cases hp : inOverall p <;> cases hq : inOverall q <;> simp_all
    rw [decode_single (hbit.trans hodd)]
    exact iff_of_false (fun h => Bool.false_ne_true h.1) fun h => hov h.1

theorem decoder_two_flips_bits_0_and_3 :
    (decodeReceived (flipBit (.inl 3) (flipBit (.inl 0) (encode 0)))).uncorrectable = true :=
  ((decoder_two_flips_iff 0 (p := .inl 0) (q := .inl 3) (by decide)).mpr (by decide)).1

set_option maxRecDepth 4000 in
/-- Flips of data bits 0 and 1 are taken for a single error and reported as corrected. -/
theorem decoder_two_flips_adjacent :
    ¬ ((decodeReceived (flipBit (.inl 1) (flipBit (.inl 0) (encode 0)))).uncorrectable = true ∧
      (decodeReceived (flipBit (.inl 1) (flipBit (.inl 0) (encode 0)))).corrected = false) := by
  decide

end FtjSsdSim.Hdl.Ecc
