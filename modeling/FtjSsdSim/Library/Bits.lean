import Mathlib

/-!
# Bytes and little-endian words

A 64-bit word is eight bytes, least significant first.  `byteAt` reads one of them, `ofBytes`
assembles a word from eight, and `word_ext` is the extensionality both sides of a codec need:
words with equal bytes are equal.
-/

namespace FtjSsdSim.Library

/-- A byte. -/
abbrev Byte := BitVec 8

/-- A 64-bit word. -/
abbrev Word := BitVec 64

/-- Byte `i` of a word, counted from the least significant end. -/
def byteAt (w : Word) (i : ℕ) : Byte := w.extractLsb' (8 * i) 8

/-- The word with byte `i` equal to `b i`. -/
def ofBytes (b : ℕ → Byte) : Word :=
  b 7 ++ b 6 ++ b 5 ++ b 4 ++ b 3 ++ b 2 ++ b 1 ++ b 0

/-- The first `n` bytes of a word, least significant first. -/
def bytesLE (n : ℕ) (w : Word) : List Byte := (List.range n).map (byteAt w)

theorem byteAt_getLsbD (w : Word) (i j : ℕ) :
    (byteAt w i).getLsbD j = (decide (j < 8) && w.getLsbD (8 * i + j)) := by
  rw [byteAt, BitVec.getLsbD_extractLsb']

/-- Words with the same eight bytes are equal. -/
theorem word_ext {v w : Word} (h : ∀ i, i < 8 → byteAt v i = byteAt w i) : v = w := by
  apply BitVec.eq_of_getLsbD_eq
  intro k hk
  have hb := congrArg (fun b => BitVec.getLsbD b (k % 8)) (h (k / 8) (by omega))
  simp only [byteAt_getLsbD, show k % 8 < 8 by omega, decide_true, Bool.true_and,
    Nat.div_add_mod] at hb
  exact hb

theorem byteAt_ofBytes (b : ℕ → Byte) (i : ℕ) (hi : i < 8) : byteAt (ofBytes b) i = b i := by
  apply BitVec.eq_of_getLsbD_eq
  intro j hj
  rw [byteAt_getLsbD, decide_eq_true hj, Bool.true_and, ofBytes]
  simp only [BitVec.getLsbD_append]
  interval_cases i <;> grind

theorem ofBytes_congr {a b : ℕ → Byte} (h : ∀ i, i < 8 → a i = b i) : ofBytes a = ofBytes b :=
  word_ext fun i hi => by rw [byteAt_ofBytes a i hi, byteAt_ofBytes b i hi, h i hi]

theorem bytesLE_ofBytes (n : ℕ) (b : ℕ → Byte) (hn : n ≤ 8) :
    bytesLE n (ofBytes b) = (List.range n).map b :=
  List.map_congr_left fun i hi => byteAt_ofBytes b i (by have := List.mem_range.mp hi; omega)

theorem bytesLE_getD (n i : ℕ) (w : Word) (hi : i < n) : (bytesLE n w).getD i 0 = byteAt w i := by
  rw [List.getD_eq_getElem _ _ (by rw [bytesLE, List.length_map, List.length_range]; exact hi)]
  simp [bytesLE]

@[simp] theorem bytesLE_length (n : ℕ) (w : Word) : (bytesLE n w).length = n := by
  simp [bytesLE]

/-! ### Positions in which two words differ -/

section Differing

variable {w : ℕ}

/-- The positions in which two words differ. -/
def differing (x y : BitVec w) : Finset (Fin w) :=
  Finset.univ.filter fun i => x.getLsbD i ≠ y.getLsbD i

theorem differing_self (x : BitVec w) : differing x x = ∅ :=
  Finset.filter_eq_empty_iff.mpr fun _ _ h => h rfl

/-- Two words differ where their difference is set. -/
theorem mem_differing_xor (x e : BitVec w) (i : Fin w) :
    i ∈ differing x (x ^^^ e) ↔ e.getLsbD i = true := by
  rw [differing, Finset.mem_filter, BitVec.getLsbD_xor]
  cases x.getLsbD i <;> cases e.getLsbD i <;> simp

/-- One inverted bit. -/
theorem differing_flip (x : BitVec w) (i : Fin w) : differing x (x ^^^ (1#w <<< i.val)) = {i} := by
  ext k
  rw [mem_differing_xor, ← BitVec.twoPow_eq, BitVec.getLsbD_twoPow, Finset.mem_singleton]
  simp [Fin.ext_iff, eq_comm]

/-- Two inverted bits at different positions. -/
theorem differing_flip_flip (x : BitVec w) {i j : Fin w} (hij : i ≠ j) :
    differing x (x ^^^ (1#w <<< i.val) ^^^ (1#w <<< j.val)) = {i, j} := by
  ext k
  have hval : (i : ℕ) ≠ j := fun he => hij (Fin.ext he)
  rw [BitVec.xor_assoc, mem_differing_xor, ← BitVec.twoPow_eq, ← BitVec.twoPow_eq,
    BitVec.getLsbD_xor, BitVec.getLsbD_twoPow, BitVec.getLsbD_twoPow, Finset.mem_insert,
    Finset.mem_singleton, Fin.ext_iff, Fin.ext_iff]
  have hk := k.isLt
  by_cases hi : (i : ℕ) = k
  · simp [hi, show (j : ℕ) ≠ k by omega]
  · simp [hi, show (k : ℕ) ≠ i by omega, eq_comm]

end Differing

end FtjSsdSim.Library
