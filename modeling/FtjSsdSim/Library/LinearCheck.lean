import Mathlib

/-!
# Linear check bits and their syndromes

A systematic code over bit vectors: the codeword of `x` is `(x, checkBits mask x)`, where check bit
`i` is the parity of the data bits selected by `mask i`.  The check bits are linear over xor
(`checkBits_xor`), so what an error does to a received pair depends on the error alone:

* `signature mask p` is what flipping position `p` adds to the syndrome — a column of the parity
  matrix for a data bit, a unit vector for a check bit;
* `syndrome_flipBit` — flipping a position adds its signature, whatever the word was.

`four_le_distance` is the distance of such a code, from its signatures alone.

Every decoder that looks only at `syndrome` is therefore analysed on the finitely many positions,
not on the words.
-/

namespace FtjSsdSim.Library

/-- The sum over the two-element field of the first `n` bits of `f`. -/
def xorSum : ℕ → (ℕ → Bool) → Bool
  | 0, _ => false
  | n + 1, f => xorSum n f ^^ f n

theorem xorSum_xor (n : ℕ) (f g : ℕ → Bool) :
    xorSum n (fun i => f i ^^ g i) = (xorSum n f ^^ xorSum n g) := by
  induction n with
  | zero => rfl
  | succ n ih =>
    simp only [xorSum, ih]
    cases xorSum n f <;> cases xorSum n g <;> cases f n <;> cases g n <;> rfl

theorem xorSum_congr {n : ℕ} {f g : ℕ → Bool} (h : ∀ i, i < n → f i = g i) :
    xorSum n f = xorSum n g := by
  induction n with
  | zero => rfl
  | succ n ih =>
    rw [xorSum, xorSum, ih fun i hi => h i (Nat.lt_succ_of_lt hi), h n (Nat.lt_succ_self n)]

/-- A sum with one non-zero term is that term. -/
theorem xorSum_single (n d : ℕ) (b : Bool) (hd : d < n) :
    xorSum n (fun i => decide (d = i) && b) = b := by
  induction n with
  | zero => omega
  | succ n ih =>
    rw [xorSum]
    by_cases h : d = n
    · have hz : xorSum n (fun i => decide (d = i) && b) = xorSum n fun _ => false :=
        xorSum_congr fun i hi => by simp [show d ≠ i by omega]
      have hzero : ∀ m, xorSum m (fun _ => false) = false := by
        intro m
        induction m with
        | zero => rfl
        | succ m ihm => simp [xorSum, ihm]
      rw [hz, hzero]
      simp [h]
    · rw [ih (by omega)]
      simp [h]

/-- The parity of the number of set bits. -/
def parity {w : ℕ} (x : BitVec w) : Bool := xorSum w x.getLsbD

section Parity

variable {w : ℕ}

theorem parity_xor (x y : BitVec w) : parity (x ^^^ y) = (parity x ^^ parity y) := by
  rw [parity, parity, parity, ← xorSum_xor]
  exact xorSum_congr fun i _ => BitVec.getLsbD_xor

theorem parity_and_xor (x m m' : BitVec w) :
    parity (x &&& (m ^^^ m')) = (parity (x &&& m) ^^ parity (x &&& m')) := by
  rw [← parity_xor]
  congr 1
  ext i hi
  simp only [BitVec.getElem_and, BitVec.getElem_xor, Bool.and_xor_distrib_left]

/-- A one-bit word meets a mask in that bit of the mask. -/
theorem parity_twoPow_and (d : ℕ) (m : BitVec w) (hd : d < w) :
    parity (BitVec.twoPow w d &&& m) = m.getLsbD d := by
  rw [← xorSum_single w d (m.getLsbD d) hd, parity]
  apply xorSum_congr
  intro i hi
  rw [BitVec.getLsbD_and, BitVec.getLsbD_twoPow]
  by_cases h : d = i
  · simp [h, hi]
  · simp [h]

end Parity

/-! ### Check bits -/

/-- The check bits of `x`: bit `i` is the parity of `x` under `mask i`. -/
def checkBits {w k : ℕ} (mask : Fin k → BitVec w) (x : BitVec w) : BitVec k :=
  BitVec.ofFnLE fun i => parity (x &&& mask i)

/-- Column `d` of the parity matrix: which checks data bit `d` takes part in. -/
def column {w k : ℕ} (mask : Fin k → BitVec w) (d : Fin w) : BitVec k :=
  BitVec.ofFnLE fun i => (mask i).getLsbD d

/-- A position of a codeword: a data bit or a check bit. -/
abbrev Position (w k : ℕ) := Fin w ⊕ Fin k

/-- Invert one position of a received pair. -/
def flipBit {w k : ℕ} : Position w k → BitVec w × BitVec k → BitVec w × BitVec k
  | .inl d, c => (c.1 ^^^ BitVec.twoPow w d, c.2)
  | .inr j, c => (c.1, c.2 ^^^ BitVec.twoPow k j)

/-- What a flipped position adds to the syndrome. -/
def signature {w k : ℕ} (mask : Fin k → BitVec w) : Position w k → BitVec k
  | .inl d => column mask d
  | .inr j => BitVec.twoPow k j

/-- The recomputed check bits against the received ones. -/
def syndrome {w k : ℕ} (mask : Fin k → BitVec w) (c : BitVec w × BitVec k) : BitVec k :=
  checkBits mask c.1 ^^^ c.2

section CheckBits

variable {w k : ℕ} (mask : Fin k → BitVec w)

theorem checkBits_xor (x y : BitVec w) :
    checkBits mask (x ^^^ y) = checkBits mask x ^^^ checkBits mask y := by
  ext i hi
  simp only [checkBits, BitVec.getElem_ofFnLE, BitVec.getElem_xor, ← parity_xor]
  congr 1
  ext j hj
  simp only [BitVec.getElem_and, BitVec.getElem_xor, Bool.and_xor_distrib_right]

theorem checkBits_twoPow (d : Fin w) : checkBits mask (BitVec.twoPow w d) = column mask d := by
  ext i hi
  simp only [checkBits, column, BitVec.getElem_ofFnLE]
  exact parity_twoPow_and d _ d.isLt

@[simp] theorem syndrome_encode (x : BitVec w) : syndrome mask (x, checkBits mask x) = 0#k :=
  BitVec.xor_self

/-- **Flipping a position adds its signature to the syndrome.** -/
theorem syndrome_flipBit (p : Position w k) (c : BitVec w × BitVec k) :
    syndrome mask (flipBit p c) = syndrome mask c ^^^ signature mask p := by
  cases p with
  | inl d =>
    simp only [syndrome, flipBit, signature, checkBits_xor, checkBits_twoPow]
    rw [BitVec.xor_assoc, BitVec.xor_assoc, BitVec.xor_comm c.2]
  | inr j => simp only [syndrome, flipBit, signature, BitVec.xor_assoc]

end CheckBits

/-! ### Distance -/

/-- The bit of a received pair at a position. -/
def bitAt {w k : ℕ} (c : BitVec w × BitVec k) : Position w k → Bool
  | .inl d => c.1.getLsbD d
  | .inr j => c.2.getLsbD j

section Distance

variable {w k : ℕ}

theorem bitAt_injective : Function.Injective (bitAt : BitVec w × BitVec k → Position w k → Bool) := by
  intro c c' h
  refine Prod.ext ?_ ?_
  · exact BitVec.eq_of_getLsbD_eq fun i hi => congrFun h (.inl ⟨i, hi⟩)
  · exact BitVec.eq_of_getLsbD_eq fun i hi => congrFun h (.inr ⟨i, hi⟩)

theorem getLsbD_xor_twoPow {n : ℕ} (x : BitVec n) (i j : Fin n) :
    (x ^^^ BitVec.twoPow n i).getLsbD j = (x.getLsbD j ^^ decide (j = i)) := by
  rw [BitVec.getLsbD_xor, BitVec.getLsbD_twoPow]
  simp [Fin.ext_iff, eq_comm]

/-- A flip inverts its position and no other. -/
theorem bitAt_flipBit (p q : Position w k) (c : BitVec w × BitVec k) :
    bitAt (flipBit p c) q = (bitAt c q ^^ decide (q = p)) := by
  match p, q with
  | .inl i, .inl j => simp only [flipBit, bitAt, getLsbD_xor_twoPow, Sum.inl.injEq]
  | .inl i, .inr j => simp [flipBit, bitAt]
  | .inr i, .inl j => simp [flipBit, bitAt]
  | .inr i, .inr j => simp only [flipBit, bitAt, getLsbD_xor_twoPow, Sum.inr.injEq]

theorem flipBit_flipBit (p : Position w k) (c : BitVec w × BitVec k) :
    flipBit p (flipBit p c) = c := by
  apply bitAt_injective
  funext q
  rw [bitAt_flipBit, bitAt_flipBit, Bool.xor_assoc, Bool.xor_self, Bool.xor_false]

/-- The number of positions in which two pairs differ. -/
def distance (c c' : BitVec w × BitVec k) : ℕ := hammingDist (bitAt c) (bitAt c')

theorem distance_eq_zero {c c' : BitVec w × BitVec k} : distance c c' = 0 ↔ c = c' :=
  hammingDist_eq_zero.trans bitAt_injective.eq_iff

/-- One flip brings two pairs that differ one position closer. -/
theorem exists_flip_of_distance {c c' : BitVec w × BitVec k} {n : ℕ} (h : distance c c' = n + 1) :
    ∃ p, distance (flipBit p c) c' = n := by
  obtain ⟨p, hp⟩ : ∃ p, bitAt c p ≠ bitAt c' p := by
    by_contra hall
    rw [not_exists] at hall
    rw [distance_eq_zero.mpr (bitAt_injective (funext fun p => not_not.mp (hall p)))] at h
    omega
  refine ⟨p, ?_⟩
  have herase : Finset.univ.filter (fun q => bitAt (flipBit p c) q ≠ bitAt c' q) =
      (Finset.univ.filter fun q => bitAt c q ≠ bitAt c' q).erase p := by
    ext q
    rw [Finset.mem_erase, Finset.mem_filter, Finset.mem_filter, bitAt_flipBit]
    by_cases hq : q = p
    · subst hq
      revert hp
      cases bitAt c q <;> cases bitAt c' q <;> simp
    · simp [hq]
  have hmem : p ∈ Finset.univ.filter fun q => bitAt c q ≠ bitAt c' q :=
    Finset.mem_filter.mpr ⟨Finset.mem_univ p, hp⟩
  have hcard := Finset.card_erase_of_mem hmem
  rw [← herase] at hcard
  exact hcard.trans (congrArg (· - 1) h)

variable {mask : Fin k → BitVec w}

/-- Where every signature has odd parity, the parity of a syndrome moves by one for each position. -/
theorem parity_syndrome_of_odd (hodd : ∀ p, parity (signature mask p) = true) {n : ℕ}
    {c c' : BitVec w × BitVec k} (h : distance c c' = n) :
    (parity (syndrome mask c) ^^ parity (syndrome mask c')) = n.bodd := by
  induction n generalizing c with
  | zero => rw [distance_eq_zero.mp h, Bool.xor_self, Nat.bodd_zero]
  | succ n ih =>
    obtain ⟨p, hp⟩ := exists_flip_of_distance h
    have hflip := ih hp
    rw [syndrome_flipBit, parity_xor, hodd p] at hflip
    rw [Nat.bodd_succ, ← hflip]
    cases parity (syndrome mask c) <;> cases parity (syndrome mask c') <;> rfl

/-- **Distance four.**  Where the signatures are distinct and of odd parity, two different codewords
differ in at least four positions. -/
theorem four_le_distance (hodd : ∀ p, parity (signature mask p) = true)
    (hinj : Function.Injective (signature mask)) {c c' : BitVec w × BitVec k}
    (hc : syndrome mask c = 0#k) (hc' : syndrome mask c' = 0#k) (hne : c ≠ c') :
    4 ≤ distance c c' := by
  have heven : (distance c c').bodd = false := by
    rw [← parity_syndrome_of_odd hodd rfl, hc, hc', Bool.xor_self]
  -- two flips with distinct signatures leave a syndrome
  have htwo : distance c c' ≠ 2 := by
    intro h2
    obtain ⟨p, hp⟩ := exists_flip_of_distance h2
    obtain ⟨q, hq⟩ := exists_flip_of_distance hp
    have hflips := distance_eq_zero.mp hq
    have hsyndrome : signature mask p = signature mask q := by
      rw [← hflips, syndrome_flipBit, syndrome_flipBit, hc] at hc'
      simpa using hc'
    rw [hinj hsyndrome, flipBit_flipBit] at hflips
    exact hne hflips
  have hzero : distance c c' ≠ 0 := fun h0 => hne (distance_eq_zero.mp h0)
  have hmod := Nat.mod_two_of_bodd (distance c c')
  rw [heven, Bool.toNat_false] at hmod
  omega

end Distance

end FtjSsdSim.Library
