import Mathlib

/-!
# Byte stores

`blit` is `memcpy` on arrays given as functions, and a `Patch` is a write: a range of addresses and
the values put there.  `lastWrite` says what a store that has taken a list of writes should answer:
at each address the value of the last write that covers it.

`lastWrite_snoc` is the recurrence every store is checked against — one more write is one more
`blit` over what was there.
-/

namespace FtjSsdSim.Library

variable {α : Type*}

/-- `memcpy(dst + d, src + s, n)`. -/
def blit (dst : ℕ → α) (d : ℕ) (src : ℕ → α) (s n : ℕ) : ℕ → α := fun i =>
  if d ≤ i ∧ i < d + n then src (s + (i - d)) else dst i

theorem blit_in {dst src : ℕ → α} {d s n i : ℕ} (h : d ≤ i) (h' : i < d + n) :
    blit dst d src s n i = src (s + (i - d)) := if_pos ⟨h, h'⟩

theorem blit_out {dst src : ℕ → α} {d s n i : ℕ} (h : ¬ (d ≤ i ∧ i < d + n)) :
    blit dst d src s n i = dst i := if_neg h

@[simp] theorem blit_zero (dst src : ℕ → α) (d s : ℕ) : blit dst d src s 0 = dst := by
  funext i
  exact blit_out (by omega)

/-- What is copied is all that matters of the source. -/
theorem blit_congr {dst src src' : ℕ → α} {d s s' n : ℕ} (h : ∀ i < n, src (s + i) = src' (s' + i)) :
    blit dst d src s n = blit dst d src' s' n := by
  funext i
  by_cases hi : d ≤ i ∧ i < d + n
  · rw [blit_in hi.1 hi.2, blit_in hi.1 hi.2, h (i - d) (by omega)]
  · rw [blit_out hi, blit_out hi]

/-- Copying and then mapping the values is mapping them and then copying. -/
theorem blit_map {β : Type*} (f : α → β) (dst src : ℕ → α) (d s n : ℕ) :
    blit (f ∘ dst) d (f ∘ src) s n = f ∘ blit dst d src s n := by
  funext i
  exact (apply_ite f _ _ _).symm

/-- Two adjacent pieces of one source are one piece. -/
theorem blit_blit (dst src : ℕ → α) (d s m n : ℕ) :
    blit (blit dst d src s m) (d + m) src (s + m) n = blit dst d src s (m + n) := by
  funext i
  simp only [blit]
  by_cases h : d ≤ i ∧ i < d + m
  · rw [if_neg (by omega), if_pos h, if_pos (by omega)]
  · by_cases h' : d + m ≤ i ∧ i < d + m + n
    · rw [if_pos h', if_pos (by omega), show s + m + (i - (d + m)) = s + (i - d) by omega]
    · rw [if_neg h', if_neg h, if_neg (by omega)]

/-- A write: `size` values from `offset` on. -/
structure Patch (α : Type*) where
  offset : ℕ
  src : ℕ → α
  size : ℕ

/-- The write reaches address `a`. -/
def Patch.covers (w : Patch α) (a : ℕ) : Bool := w.offset ≤ a && a < w.offset + w.size

/-- The store after the write. -/
def Patch.apply (w : Patch α) (f : ℕ → α) : ℕ → α := blit f w.offset w.src 0 w.size

/-- At each address the value of the last write that covers it, or `zero` if none does. -/
def lastWrite (zero : α) (ws : List (Patch α)) (a : ℕ) : α :=
  match ws.reverse.find? fun w => w.covers a with
  | some w => w.src (a - w.offset)
  | none => zero

/-- **One more write.** -/
theorem lastWrite_snoc (zero : α) (ws : List (Patch α)) (w : Patch α) :
    lastWrite zero (ws ++ [w]) = w.apply (lastWrite zero ws) := by
  funext a
  rw [lastWrite, List.reverse_append, List.reverse_singleton, List.singleton_append,
    List.find?_cons, Patch.apply]
  cases h : w.covers a with
  | true =>
    have hr : w.offset ≤ a ∧ a < w.offset + w.size := by simpa [Patch.covers] using h
    rw [blit_in hr.1 hr.2, Nat.zero_add]
  | false =>
    have hr : ¬ (w.offset ≤ a ∧ a < w.offset + w.size) := by simpa [Patch.covers] using h
    rw [blit_out hr]
    rfl

end FtjSsdSim.Library
