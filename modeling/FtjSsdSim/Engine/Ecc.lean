import Mathlib
import FtjSsdSim.Library.Bits
import FtjSsdSim.Library.Loop
import FtjSsdSim.Library.LinearCheck

/-!
# The SECDED code of the storage engine

`FTJController::CalculateECC` and `FTJController::DecodeAndCorrect` on 64-bit words with one check
byte.  Data bit `d` sits at `codeIdx d`, the `d`-th code position that is not a power of two; check
bit `i < 7` is the parity of the data bits whose position has bit `i` set, and the eighth check bit
is the parity of the word and of the seven checks.

The check byte is a linear code (`calculateECC_eq`), so a received pair is judged by its syndrome
(`decodeAndCorrect_eq`).  The decoder recomputes the *eighth* bit from the data it received and
not from the received check bits: flipping a data bit moves the word parity and `codeIdx d`'s
checks together.  `flagsOverall` records which of the 72 positions the eighth bit therefore sees.
-/

namespace FtjSsdSim.Engine.Ecc

open FtjSsdSim.Library

/-! ### The code of the source -/

/-- The chained increments `code_idx = d + 1; if (code_idx >= 1) code_idx++; …`. -/
def codeIdx (d : ℕ) : ℕ :=
  let c := d + 1
  let c := if c ≥ 1 then c + 1 else c
  let c := if c ≥ 2 then c + 1 else c
  let c := if c ≥ 4 then c + 1 else c
  let c := if c ≥ 8 then c + 1 else c
  let c := if c ≥ 16 then c + 1 else c
  let c := if c ≥ 32 then c + 1 else c
  if c ≥ 64 then c + 1 else c

/-- The mask of check bit `i`, collected over the 64 data bits. -/
def eccMask (i : ℕ) : Word :=
  forLoop 0 64 (fun d mask => if codeIdx d &&& (1 <<< i) ≠ 0 then mask ||| (1#64 <<< d) else mask) 0

/-- `__builtin_parityll` as a `uint8_t`. -/
def builtinParity {w : ℕ} (x : BitVec w) : Byte := if parity x then 1 else 0

def calculateECC (data : Word) : Byte :=
  let ecc := forLoop 0 7 (fun i ecc => ecc ||| (builtinParity (data &&& eccMask i) <<< i)) 0
  let overall := (builtinParity data + builtinParity ecc) &&& 1
  ecc ||| (overall <<< 7)

/-- The return code of `DecodeAndCorrect` and the data word it leaves behind. -/
def decodeAndCorrect (data : Word) (storedEcc : Byte) : ℕ × Word :=
  let calculatedEcc := calculateECC data
  let syndrome := (calculatedEcc ^^^ storedEcc) &&& 0x7F
  let overallParity := (calculatedEcc ^^^ storedEcc) &&& 0x80
  if syndrome = 0 ∧ overallParity = 0 then (0, data)
  else if overallParity ≠ 0 then
    match (List.range 64).find? fun d => codeIdx d = syndrome.toNat with
    | some dataBit => (1, data ^^^ (1#64 <<< dataBit))
    | none => (1, data)
  else (2, data)

/-- Decoding of a received pair. -/
def decodeReceived (c : Word × Byte) : ℕ × Word := decodeAndCorrect c.1 c.2

/-- The positions whose flip toggles the recomputed overall parity: a data bit covered by an even
number of checks, and the eighth check bit itself. -/
def flagsOverall : Position 64 8 → Bool
  | .inl d => !parity (BitVec.ofNat 7 (codeIdx d))
  | .inr j => j = 7

/-! ### The check byte is linear -/

/-- The masks of the eight check bits.  The overall bit adds the word parity to the seven checks,
so it selects the data bits that an even number of checks cover. -/
def fullMask : Fin 8 → Word := fun i =>
  if i = 7 then
    BitVec.allOnes 64 ^^^ eccMask 0 ^^^ eccMask 1 ^^^ eccMask 2 ^^^ eccMask 3 ^^^ eccMask 4
      ^^^ eccMask 5 ^^^ eccMask 6
  else eccMask i

theorem and_one_shiftLeft_ne_zero (n i : ℕ) : n &&& (1 <<< i) ≠ 0 ↔ n.testBit i = true := by
  rw [Nat.one_shiftLeft, Nat.and_two_pow]
  cases n.testBit i <;> simp

/-- The mask collected over the first `n` data bits. -/
theorem eccMask_prefix (i n e : ℕ) (hn : n ≤ 64) :
    (forLoop 0 n (fun d mask =>
      if codeIdx d &&& (1 <<< i) ≠ 0 then mask ||| (1#64 <<< d) else mask) 0#64).getLsbD e =
      (decide (e < n) && (codeIdx e).testBit i) := by
  induction n with
  | zero => simp [forLoop_empty]
  | succ n ih =>
    rw [forLoop_succ (Nat.zero_le n)]
    have hlt : decide (e < n + 1) = (decide (e < n) || decide (n = e)) := by
      rw [← Bool.decide_or, decide_eq_decide]; omega
    rw [hlt, Bool.and_or_distrib_right, ← ih (by omega)]
    by_cases hbit : (codeIdx n).testBit i = true
    · rw [if_pos ((and_one_shiftLeft_ne_zero _ _).mpr hbit), BitVec.getLsbD_or,
        show (1#64 <<< n) = BitVec.twoPow 64 n from rfl, BitVec.getLsbD_twoPow]
      by_cases he : n = e
      · subst he; simp [hbit, show n < 64 by omega]
      · simp [he]
    · rw [if_neg fun hc => hbit ((and_one_shiftLeft_ne_zero _ _).mp hc)]
      by_cases he : n = e
      · subst he; simp [hbit]
      · simp [he]

/-- Bit `d` of the mask of check `i` is bit `i` of the code position of `d`. -/
theorem eccMask_getLsbD (i d : ℕ) (hd : d < 64) :
    (eccMask i).getLsbD d = (codeIdx d).testBit i := by
  have h := eccMask_prefix i 64 d (Nat.le_refl 64)
  rw [decide_eq_true hd, Bool.true_and] at h
  exact h

/-- The accumulation `ecc |= p << i` places the seven parities and the overall bit in order. -/
theorem pack_bits : ∀ q p0 p1 p2 p3 p4 p5 p6 : Bool,
    let b (p : Bool) : Byte := if p then 1 else 0
    let ecc : Byte := 0 ||| b p0 <<< 0 ||| b p1 <<< 1 ||| b p2 <<< 2 ||| b p3 <<< 3
      ||| b p4 <<< 4 ||| b p5 <<< 5 ||| b p6 <<< 6
    ecc ||| (((b q + b (parity ecc)) &&& 1) <<< 7) =
      BitVec.ofFnLE ![p0, p1, p2, p3, p4, p5, p6, q ^^ p0 ^^ p1 ^^ p2 ^^ p3 ^^ p4 ^^ p5 ^^ p6] := by
  decide

theorem pack_fn (f : Fin 8 → Bool) (q : Bool)
    (h7 : f 7 = (q ^^ f 0 ^^ f 1 ^^ f 2 ^^ f 3 ^^ f 4 ^^ f 5 ^^ f 6)) :
    let b (p : Bool) : Byte := if p then 1 else 0
    let ecc : Byte := 0 ||| b (f 0) <<< 0 ||| b (f 1) <<< 1 ||| b (f 2) <<< 2 ||| b (f 3) <<< 3
      ||| b (f 4) <<< 4 ||| b (f 5) <<< 5 ||| b (f 6) <<< 6
    ecc ||| (((b q + b (parity ecc)) &&& 1) <<< 7) = BitVec.ofFnLE f := by
  have hf : f = ![f 0, f 1, f 2, f 3, f 4, f 5, f 6, f 7] := by
    funext i
    fin_cases i <;> rfl
  have h := pack_bits q (f 0) (f 1) (f 2) (f 3) (f 4) (f 5) (f 6)
  rw [← h7, ← hf] at h
  exact h

/-- **The check byte is the eight masked parities.** -/
theorem calculateECC_eq (data : Word) : calculateECC data = checkBits fullMask data := by
  have hover : parity (data &&& fullMask 7) = (parity data ^^ parity (data &&& eccMask 0)
      ^^ parity (data &&& eccMask 1) ^^ parity (data &&& eccMask 2) ^^ parity (data &&& eccMask 3)
      ^^ parity (data &&& eccMask 4) ^^ parity (data &&& eccMask 5)
      ^^ parity (data &&& eccMask 6)) := by
    simp only [fullMask, if_pos, parity_and_xor, BitVec.and_allOnes]
  exact pack_fn (fun i => parity (data &&& fullMask i)) (parity data) hover

/-! ### Signatures of the positions -/

/-- The syndrome a flipped data bit leaves: its code position, with the overall bit on top when an
even number of checks moved. -/
def dataSignature (d : ℕ) : Byte :=
  BitVec.ofNat 8 (codeIdx d + if parity (BitVec.ofNat 7 (codeIdx d)) then 0 else 128)

theorem dataSignature_getLsbD : ∀ (d : Fin 64) (i : Fin 8), (dataSignature d).getLsbD i =
    if i = 7 then flagsOverall (.inl d) else (codeIdx d).testBit i := by
  decide

theorem signature_data (d : Fin 64) : signature fullMask (.inl d) = dataSignature d := by
  apply BitVec.eq_of_getLsbD_eq
  intro i hi
  rw [dataSignature_getLsbD d ⟨i, hi⟩, signature, column, BitVec.getLsbD_ofFnLE, dif_pos hi]
  by_cases h7 : (⟨i, hi⟩ : Fin 8) = 7
  · rw [if_pos h7, h7]
    simp only [fullMask, if_pos, BitVec.getLsbD_xor, BitVec.getLsbD_allOnes,
      eccMask_getLsbD _ _ d.isLt, d.isLt, decide_true, flagsOverall, parity, xorSum,
      BitVec.getLsbD_ofNat]
    simp
  · rw [if_neg h7, fullMask, if_neg h7, eccMask_getLsbD _ _ d.isLt]

/-- The overall bit of a signature. -/
theorem signature_overall (p : Position 64 8) :
    (signature fullMask p).getLsbD 7 = flagsOverall p := by
  cases p with
  | inl d => rw [signature_data]; exact dataSignature_getLsbD d 7
  | inr j => revert j; decide

/-- Distinct positions have distinct signatures. -/
theorem signature_injective : Function.Injective (signature fullMask) := by
  have hdata : ∀ d e : Fin 64, dataSignature d = dataSignature e → d = e := by decide +kernel
  have hmixed : ∀ (d : Fin 64) (j : Fin 8), dataSignature d ≠ BitVec.twoPow 8 j := by
    decide
  have hcheck : ∀ i j : Fin 8, BitVec.twoPow 8 i = BitVec.twoPow 8 j → i = j := by decide
  intro p q h
  match p, q with
  | .inl d, .inl e =>
    rw [signature_data, signature_data] at h
    rw [hdata d e h]
  | .inl d, .inr j =>
    rw [signature_data] at h
    exact absurd h (hmixed d j)
  | .inr i, .inl e =>
    rw [signature_data] at h
    exact absurd h.symm (hmixed e i)
  | .inr i, .inr j => rw [hcheck i j h]

/-! ### Decoding by syndrome -/

theorem overall_eq_zero (s : Byte) : s &&& 0x80 = 0 ↔ s.getLsbD 7 = false := by
  revert s; decide

theorem low_overall_eq_zero (s : Byte) : (s &&& 0x7F = 0 ∧ s &&& 0x80 = 0) ↔ s = 0 := by
  revert s; decide

/-- The decoder sees a received pair through its syndrome. -/
theorem syndrome_received (c : Word × Byte) :
    calculateECC c.1 ^^^ c.2 = syndrome fullMask c := by
  rw [calculateECC_eq]; rfl

theorem decode_clean {c : Word × Byte} (h : syndrome fullMask c = 0) :
    decodeReceived c = (0, c.1) := by
  rw [decodeReceived, decodeAndCorrect, syndrome_received, if_pos ((low_overall_eq_zero _).mpr h)]

/-- A non-zero syndrome without the overall bit is reported uncorrectable, data untouched. -/
theorem decode_double {c : Word × Byte} (hne : syndrome fullMask c ≠ 0)
    (ho : (syndrome fullMask c).getLsbD 7 = false) : decodeReceived c = (2, c.1) := by
  have hz := (overall_eq_zero _).mpr ho
  rw [decodeReceived, decodeAndCorrect, syndrome_received,
    if_neg fun h => hne ((low_overall_eq_zero _).mp h), if_neg (not_not.mpr hz)]

/-- The overall bit in the syndrome sends the decoder to the code position in the low bits. -/
theorem decode_single {c : Word × Byte} (ho : (syndrome fullMask c).getLsbD 7 = true) :
    decodeReceived c =
      match (List.range 64).find? fun d =>
        codeIdx d = (syndrome fullMask c &&& 0x7F).toNat with
      | some dataBit => (1, c.1 ^^^ (1#64 <<< dataBit))
      | none => (1, c.1) := by
  have hz : syndrome fullMask c &&& 0x80 ≠ 0 := fun h => by
    rw [(overall_eq_zero _).mp h] at ho
    exact Bool.noConfusion ho
  rw [decodeReceived, decodeAndCorrect, syndrome_received, if_neg fun h => hz h.2, if_pos hz]

/-- A syndrome with the overall bit is never reported as clean or uncorrectable. -/
theorem decode_single_code {c : Word × Byte} (ho : (syndrome fullMask c).getLsbD 7 = true) :
    (decodeReceived c).1 = 1 := by
  rw [decode_single ho]
  split <;> rfl

/-- The search of the decoder inverts `codeIdx`. -/
theorem find_dataSignature : ∀ d : Fin 64,
    ((List.range 64).find? fun e => codeIdx e = (dataSignature d &&& 0x7F).toNat) = some d.val := by
  decide

theorem find_overall :
    ((List.range 64).find? fun e => codeIdx e = (BitVec.twoPow 8 7 &&& 0x7F).toNat) = none := by
  decide

/-! ### Single and double errors -/

/-- The stored codeword of a data word. -/
def encode (data : Word) : Word × Byte := (data, calculateECC data)

theorem syndrome_encoded (data : Word) : syndrome fullMask (encode data) = 0 := by
  rw [encode, calculateECC_eq]
  exact syndrome_encode fullMask data

theorem syndrome_one_flip (data : Word) (p : Position 64 8) :
    syndrome fullMask (flipBit p (encode data)) = signature fullMask p := by
  rw [syndrome_flipBit, syndrome_encoded]
  exact BitVec.zero_xor

theorem syndrome_two_flips (data : Word) (p q : Position 64 8) :
    syndrome fullMask (flipBit q (flipBit p (encode data))) =
      signature fullMask p ^^^ signature fullMask q := by
  rw [syndrome_flipBit, syndrome_one_flip]

theorem signature_ne_zero (p : Position 64 8) : signature fullMask p ≠ 0 := by
  match p with
  | .inl d =>
    rw [signature_data]
    revert d
    decide
  | .inr j => revert j; decide

/-- **Single errors.**  An unflipped codeword decodes cleanly; a single flip is corrected exactly
at the positions the overall bit sees. -/
theorem decode_one_flip_iff (data : Word) :
    decodeReceived (encode data) = (0, data) ∧
      ∀ p : Position 64 8,
        decodeReceived (flipBit p (encode data)) = (1, data) ↔ flagsOverall p = true := by
  refine ⟨decode_clean (syndrome_encoded data), fun p => ⟨fun h => ?_, fun h => ?_⟩⟩
  · -- an unseen flip leaves a non-zero syndrome without the overall bit
    by_contra hf
    rw [Bool.not_eq_true] at hf
    rw [decode_double (by rw [syndrome_one_flip]; exact signature_ne_zero p)
      (by rw [syndrome_one_flip, signature_overall]; exact hf)] at h
    exact absurd (show (2 : ℕ) = 1 from congrArg Prod.fst h) (by decide)
  · rw [decode_single (by rw [syndrome_one_flip, signature_overall]; exact h), syndrome_one_flip]
    match p with
    | .inl d =>
      rw [signature_data, find_dataSignature d]
      show (1, (data ^^^ BitVec.twoPow 64 d) ^^^ BitVec.twoPow 64 d) = (1, data)
      rw [BitVec.xor_assoc, BitVec.xor_self, BitVec.xor_zero]
    | .inr j =>
      obtain rfl : j = 7 := of_decide_eq_true h
      show (match (List.range 64).find? fun e =>
          codeIdx e = (BitVec.twoPow 8 7 &&& 0x7F).toNat with
        | some dataBit => (1, data ^^^ (1#64 <<< dataBit))
        | none => (1, data)) = (1, data)
      rw [find_overall]

set_option maxRecDepth 4000 in
/-- Data bit 3 sits at code position 7, under three checks: its flip is not corrected. -/
theorem decode_one_flip_bit3 :
    ¬ (decodeReceived (flipBit (.inl 3) (encode 0x0123456789ABCDEF)) = (1, 0x0123456789ABCDEF)) := by
  decide

set_option maxRecDepth 4000 in
/-- The three checks of the repository's own test. -/
example :
    decodeReceived (encode 0x0123456789ABCDEF) = (0, 0x0123456789ABCDEF) ∧
      decodeReceived (flipBit (.inl 5) (encode 0x0123456789ABCDEF)) = (1, 0x0123456789ABCDEF) ∧
      (decodeReceived (flipBit (.inl 10) (flipBit (.inl 5) (encode 0x0123456789ABCDEF)))).1 = 2 := by
  decide

/-- **Double errors.**  Two distinct flips are reported as uncorrectable, with the received data
untouched, exactly when the overall bit sees both of them or neither. -/
theorem decode_two_flips_iff (data : Word) (p q : Position 64 8) (hpq : p ≠ q) :
    decodeReceived (flipBit q (flipBit p (encode data))) =
        (2, (flipBit q (flipBit p (encode data))).1) ↔ flagsOverall p = flagsOverall q := by
  have hover : (syndrome fullMask (flipBit q (flipBit p (encode data)))).getLsbD 7 =
      (flagsOverall p ^^ flagsOverall q) := by
    rw [syndrome_two_flips, BitVec.getLsbD_xor, signature_overall, signature_overall]
  constructor
  · intro h
    by_contra hf
    have hone : (decodeReceived (flipBit q (flipBit p (encode data)))).1 = 1 := by
      apply decode_single_code
      rw [hover]
      revert hf
      cases flagsOverall p <;> cases flagsOverall q <;> simp
    rw [h] at hone
    exact absurd (show (2 : ℕ) = 1 from hone) (by decide)
  · intro h
    refine decode_double ?_ (by rw [hover, h, Bool.xor_self])
    rw [syndrome_two_flips]
    intro hz
    exact hpq (signature_injective (BitVec.xor_eq_zero_iff.mp hz))

theorem decode_two_flips_iff_bits_5_10 :
    ((.inl 5 : Position 64 8) ≠ .inl 10) ∧
      (decodeReceived (flipBit (.inl 10) (flipBit (.inl 5) (encode 0x0123456789ABCDEF))) =
        (2, (flipBit (.inl 10) (flipBit (.inl 5) (encode 0x0123456789ABCDEF))).1) ↔
        flagsOverall (.inl 5) = flagsOverall (.inl 10)) :=
  ⟨by decide, decode_two_flips_iff 0x0123456789ABCDEF (.inl 5) (.inl 10) (by decide)⟩

set_option maxRecDepth 4000 in
/-- Data bits 3 and 5 lie under three and two checks: flipping both is taken for a single error. -/
theorem decode_two_flips_bits_3_5 :
    ((.inl 3 : Position 64 8) ≠ .inl 5) ∧
      ¬ (decodeReceived (flipBit (.inl 5) (flipBit (.inl 3) (encode 0x0123456789ABCDEF))) =
        (2, (flipBit (.inl 5) (flipBit (.inl 3) (encode 0x0123456789ABCDEF))).1)) := by
  decide

/-! ### The distance of the code -/

/-- The overall bit makes every signature odd. -/
theorem signature_odd (p : Position 64 8) : parity (signature fullMask p) = true := by
  match p with
  | .inl d =>
    rw [signature_data]
    revert d
    decide
  | .inr j => revert j; decide

/-- **Minimum distance.**  The codewords of two different words differ in at least four of the 72
positions. -/
theorem minimum_distance (a b : Word) (hab : a ≠ b) : 4 ≤ distance (encode a) (encode b) :=
  four_le_distance signature_odd signature_injective (syndrome_encoded a) (syndrome_encoded b)
    fun h => hab (congrArg Prod.fst h)

theorem minimum_distance_zero_one : 4 ≤ distance (encode 0) (encode 1) :=
  minimum_distance 0 1 (by decide)

end FtjSsdSim.Engine.Ecc
