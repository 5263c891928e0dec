import Mathlib

/-!
# Linear congruential generators on machine words

`affine a c` is the step `x ↦ x * a + c` of a generator on `w`-bit words.  Modulo a divisor `m` of
`2 ^ w` for which the multiplier is congruent to one, the step is the translation by `c`
(`affine_mod`), so `n` steps add `n * c` (`iterate_affine_mod`).  Two draws that are `n` steps apart
therefore differ in their low part as soon as `m` does not divide `n * c`
(`iterate_affine_mod_ne`): no randomness is needed, only the algebra of the low bits.
-/

namespace FtjSsdSim.Library

/-- One step of the generator. -/
def affine {w : ℕ} (a c x : BitVec w) : BitVec w := x * a + c

section Affine

variable {w m : ℕ} {a c : BitVec w}

/-- Where the multiplier is one, the step is a translation. -/
theorem affine_mod (hm : m ∣ 2 ^ w) (ha : a.toNat ≡ 1 [MOD m]) (x : BitVec w) :
    (affine a c x).toNat ≡ x.toNat + c.toNat [MOD m] := by
  have hwrap : (affine a c x).toNat ≡ x.toNat * a.toNat + c.toNat [MOD m] := by
    rw [affine, BitVec.toNat_add, BitVec.toNat_mul, Nat.mod_add_mod]
    exact (Nat.mod_modEq _ _).of_dvd hm
  have hone : x.toNat * a.toNat ≡ x.toNat [MOD m] := by
    simpa only [Nat.mul_one] using ha.mul_left x.toNat
  exact hwrap.trans (hone.add_right c.toNat)

theorem iterate_affine_mod (hm : m ∣ 2 ^ w) (ha : a.toNat ≡ 1 [MOD m]) (n : ℕ) (x : BitVec w) :
    ((affine a c)^[n] x).toNat ≡ x.toNat + n * c.toNat [MOD m] := by
  induction n generalizing x with
  | zero =>
    show x.toNat ≡ x.toNat + 0 * c.toNat [MOD m]
    rw [Nat.zero_mul, Nat.add_zero]
  | succ n ih =>
    show ((affine a c)^[n] (affine a c x)).toNat ≡ x.toNat + (n + 1) * c.toNat [MOD m]
    calc ((affine a c)^[n] (affine a c x)).toNat
        ≡ (affine a c x).toNat + n * c.toNat [MOD m] := ih _
      _ ≡ x.toNat + c.toNat + n * c.toNat [MOD m] := (affine_mod hm ha x).add_right _
      _ ≡ x.toNat + (n + 1) * c.toNat [MOD m] := by
        rw [Nat.succ_mul, Nat.add_assoc, Nat.add_comm c.toNat]

/-- **Draws that are not a period of the low bits apart are different**, in any range whose size is
a multiple of `m`. -/
theorem iterate_affine_mod_ne (hm : m ∣ 2 ^ w) (ha : a.toNat ≡ 1 [MOD m]) {n k : ℕ} (hk : m ∣ k)
    (hn : ¬ m ∣ n * c.toNat) (x : BitVec w) :
    ((affine a c)^[n] x).toNat % k ≠ x.toNat % k := by
  intro heq
  have hsame : x.toNat ≡ x.toNat + n * c.toNat [MOD m] :=
    (Nat.ModEq.of_dvd hk heq).symm.trans (iterate_affine_mod hm ha n x)
  apply hn
  have hdvd := (Nat.modEq_iff_dvd' (Nat.le_add_right _ _)).mp hsame
  rwa [Nat.add_sub_cancel_left] at hdvd

end Affine

end FtjSsdSim.Library
