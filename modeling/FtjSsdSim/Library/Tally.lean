import Mathlib

/-!
# Tallies of marked indices

A counter for every label is to hold the number of the marked indices with that label.  Marking an
index or clearing it moves one tally by one, the tally of its label, and leaves the others alone.
-/

namespace FtjSsdSim.Library

variable {β : Type*} [DecidableEq β]

/-- The number of marked indices below `n` with label `b`. -/
def tally (n : ℕ) (label : ℕ → β) (mark : ℕ → Bool) (b : β) : ℕ :=
  ((Finset.range n).filter fun i => label i = b ∧ mark i = true).card

variable {n p : ℕ} {label : ℕ → β} {mark : ℕ → Bool} {b : β}

/-- A tally runs over the indices below `n`. -/
theorem tally_le (n : ℕ) (label : ℕ → β) (mark : ℕ → Bool) (b : β) : tally n label mark b ≤ n :=
  (Finset.card_filter_le _ _).trans_eq (Finset.card_range n)

theorem tally_eq_zero (h : ∀ i < n, label i = b → mark i = false) : tally n label mark b = 0 := by
  rw [tally, Finset.card_eq_zero, Finset.filter_eq_empty_iff]
  intro i hi hmark
  exact absurd (hmark.2.symm.trans (h i (Finset.mem_range.mp hi) hmark.1)) (by decide)

/-- Only the label of an index counts. -/
theorem tally_update_of_ne (hb : label p ≠ b) (m : Bool) :
    tally n label (Function.update mark p m) b = tally n label mark b := by
  refine congrArg Finset.card (Finset.filter_congr fun i _ => ?_)
  refine and_congr_right fun hi => ?_
  rw [Function.update_of_ne]
  rintro rfl
  exact hb hi

/-- Marking an index. -/
theorem tally_set (label : ℕ → β) (hp : p < n) (hmark : mark p = false) :
    tally n label (Function.update mark p true) (label p) = tally n label mark (label p) + 1 := by
  have hinsert : ((Finset.range n).filter fun i =>
        label i = label p ∧ Function.update mark p true i = true) =
      insert p ((Finset.range n).filter fun i => label i = label p ∧ mark i = true) := by
    ext i
    by_cases hi : i = p
    · subst hi
      simp [hp]
    · simp [hi]
  rw [tally, hinsert, Finset.card_insert_of_notMem (by simp [hmark])]
  rfl

/-- Clearing an index. -/
theorem tally_clear (label : ℕ → β) (hp : p < n) (hmark : mark p = true) :
    tally n label (Function.update mark p false) (label p) + 1 = tally n label mark (label p) := by
  have hset := tally_set label hp (Function.update_self p false mark)
  rw [Function.update_idem, ← hmark, Function.update_eq_self] at hset
  exact hset.symm

end FtjSsdSim.Library
