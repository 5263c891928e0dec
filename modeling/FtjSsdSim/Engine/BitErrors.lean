import Mathlib
import FtjSsdSim.Library.Bits
import FtjSsdSim.Library.Lcg
import FtjSsdSim.Engine.Controller

/-!
# The injected bit errors

`Read` flips a second bit of a degraded word by drawing positions until one differs from the first.
The source bounds this loop by nothing, and the draws come from a linear congruential generator
modulo `2 ^ 64`.  `Redraws` is the loop as written.

Modulo four the generator adds three.  The two positions are two draws apart, so they differ modulo
four (`two_draws_differ`), the loop is left at its first test and its bounded form `redraw` is what
it computes (`Redraws.eq_redraw`).
-/

namespace FtjSsdSim.Engine

open FtjSsdSim.Library

namespace FTJController

/-- `while (bit2 == bit1) bit2 = SimpleRand(g_seed) % 64`: from the seed of a draw, the loop ends with
the seed of another. -/
inductive Redraws (bit1 : ℕ) : Word → Word → Prop
  | exit {seed : Word} : seed.toNat % 64 ≠ bit1 → Redraws bit1 seed seed
  | again {seed last : Word} : seed.toNat % 64 = bit1 → Redraws bit1 (simpleRand seed) last →
      Redraws bit1 seed last

/-! ### The low bits of the generator -/

theorem simpleRand_eq_affine : simpleRand = affine 6364136223846793005 1442695040888963407 := rfl

/-- Two draws that are two steps apart differ in their last two bits. -/
theorem two_draws_differ (seed : Word) :
    (simpleRand (simpleRand seed)).toNat % 64 ≠ seed.toNat % 64 := by
  have hmul : (6364136223846793005 : Word).toNat ≡ 1 [MOD 4] := by decide
  have hstep : ¬ 4 ∣ 2 * (1442695040888963407 : Word).toNat := by decide
  have hne := iterate_affine_mod_ne (m := 4) (n := 2) (k := 64) (by decide) hmul (by decide) hstep seed
  rw [← simpleRand_eq_affine] at hne
  exact hne

/-! ### The loop -/

/-- The loop is left with a different position. -/
theorem Redraws.ne {bit1 : ℕ} {seed last : Word} (h : Redraws bit1 seed last) :
    last.toNat % 64 ≠ bit1 := by
  induction h with
  | exit hne => exact hne
  | again _ _ ih => exact ih

/-- A draw that differs ends the loop where it is. -/
theorem Redraws.eq_of_ne {bit1 : ℕ} {seed last : Word} (h : Redraws bit1 seed last)
    (hne : seed.toNat % 64 ≠ bit1) : last = seed := by
  cases h with
  | exit _ => rfl
  | again heq _ => exact absurd heq hne

theorem redraw_of_ne {bit1 n : ℕ} {seed : Word} (hne : seed.toNat % 64 ≠ bit1) :
    redraw bit1 n seed = seed := by
  cases n with
  | zero => rfl
  | succ n => exact if_neg hne

/-! ### The simulation on one word -/

/-- The bits of `data` that are inverted in a result are those that it counts, at most two. -/
def CountsFlips (data : Word) (st : ReadState) (r : Word × ReadState) : Prop :=
  (differing data r.1).card ≤ 2 ∧
    r.2.totalBitFlips = st.totalBitFlips + BitVec.ofNat 64 (differing data r.1).card

section

variable (data seed : Word) (st : ReadState)

theorem CountsFlips.unflipped : CountsFlips data st (data, { st with seed := seed }) := by
  have hcard : (differing data data).card = 0 := by rw [differing_self, Finset.card_empty]
  constructor
  · show (differing data data).card ≤ 2
    rw [hcard]
    decide
  · show st.totalBitFlips = st.totalBitFlips + BitVec.ofNat 64 (differing data data).card
    rw [hcard]
    exact (BitVec.add_zero _).symm

theorem CountsFlips.one (first : Word) :
    CountsFlips data st (data ^^^ (1#64 <<< (first.toNat % 64)),
      { st with seed := seed, totalBitFlips := st.totalBitFlips + 1 }) := by
  have hlt : first.toNat % 64 < 64 := Nat.mod_lt _ (by decide)
  have hcard : (differing data (data ^^^ (1#64 <<< (first.toNat % 64)))).card = 1 := by
    rw [differing_flip data ⟨first.toNat % 64, hlt⟩, Finset.card_singleton]
  constructor
  · show (differing data (data ^^^ (1#64 <<< (first.toNat % 64)))).card ≤ 2
    rw [hcard]
    decide
  · show st.totalBitFlips + 1 = st.totalBitFlips +
      BitVec.ofNat 64 (differing data (data ^^^ (1#64 <<< (first.toNat % 64)))).card
    rw [hcard]
    rfl

theorem CountsFlips.two {first last : Word} (hne : last.toNat % 64 ≠ first.toNat % 64) :
    CountsFlips data st
      (data ^^^ (1#64 <<< (first.toNat % 64)) ^^^ (1#64 <<< (last.toNat % 64)),
        { st with seed := seed, totalBitFlips := st.totalBitFlips + 1 + 1 }) := by
  have hfirst : first.toNat % 64 < 64 := Nat.mod_lt _ (by decide)
  have hlast : last.toNat % 64 < 64 := Nat.mod_lt _ (by decide)
  have hfin : (⟨first.toNat % 64, hfirst⟩ : Fin 64) ≠ ⟨last.toNat % 64, hlast⟩ := by
    intro he
    exact hne (congrArg Fin.val he).symm
  have hcard : (differing data
      (data ^^^ (1#64 <<< (first.toNat % 64)) ^^^ (1#64 <<< (last.toNat % 64)))).card = 2 := by
    rw [differing_flip_flip data hfin, Finset.card_pair hfin]
  constructor
  · show (differing data
      (data ^^^ (1#64 <<< (first.toNat % 64)) ^^^ (1#64 <<< (last.toNat % 64)))).card ≤ 2
    rw [hcard]
  · show st.totalBitFlips + 1 + 1 = st.totalBitFlips + BitVec.ofNat 64 (differing data
      (data ^^^ (1#64 <<< (first.toNat % 64)) ^^^ (1#64 <<< (last.toNat % 64)))).card
    rw [hcard, BitVec.add_assoc]
    rfl

end

theorem injectBitErrors_counts (hits : Hits) (c : FTJController) (phys : ℕ) (data : Word)
    (st : ReadState) : CountsFlips data st (injectBitErrors hits c phys data st) := by
  have hne := two_draws_differ (simpleRand (simpleRand st.seed))
  unfold injectBitErrors
  simp only
  split_ifs with hdegraded hhit htwice
  · rw [redraw_of_ne hne]
    exact .two data _ st hne
  · exact .one data _ st _
  · exact .unflipped data _ st
  · exact .unflipped data st.seed st

/-- **The second position is found**, and no more than the two bits drawn are inverted: from every
seed the loop ends, in the draw that its bounded form gives and at a position other than the first;
and the word that is decoded differs from the stored one in as many bits, at most two, as the
simulation counts. -/
theorem double_flip_ends (hits : Hits) (c : FTJController) (phys : ℕ) (data : Word)
    (st : ReadState) :
    let first := simpleRand (simpleRand st.seed)
    let drawn := simpleRand (simpleRand first)
    (∃ last, Redraws (first.toNat % 64) drawn last) ∧
    (∀ last, Redraws (first.toNat % 64) drawn last →
      last = redraw (first.toNat % 64) 64 drawn ∧ last.toNat % 64 ≠ first.toNat % 64) ∧
    (differing data (injectBitErrors hits c phys data st).1).card ≤ 2 ∧
    (injectBitErrors hits c phys data st).2.totalBitFlips = st.totalBitFlips +
      BitVec.ofNat 64 (differing data (injectBitErrors hits c phys data st).1).card := by
  intro first drawn
  have hne : drawn.toNat % 64 ≠ first.toNat % 64 := two_draws_differ first
  refine ⟨⟨drawn, .exit hne⟩, ?_, injectBitErrors_counts hits c phys data st⟩
  intro last h
  refine ⟨?_, h.ne⟩
  rw [h.eq_of_ne hne, redraw_of_ne hne]

end FTJController

end FtjSsdSim.Engine
