import Mathlib

/-!
# Files of bytes

What a file holds is a list.  `resize` cuts it or fills it up with zeros, `splice` writes a list over it
from an offset on — behind a gap of zeros, if the offset is past the end — and `slice` reads.  `window`
is the list of the first values of a memory given as a function: what an implementation that keeps a
file in a larger block of memory shows of it.

Every operation is settled by what it leaves at each index (`getElem?_resize`, `getElem?_splice`).
`slice_splice_self` and `slice_splice_of_disjoint` are the laws of a store: a read of what was written
last gives it back, and a read beside it is not disturbed.
-/

namespace FtjSsdSim.Library

variable {α : Type*}

/-- The list cut to `n` values, or filled up with `zero`. -/
def resize (zero : α) (l : List α) (n : ℕ) : List α := l.takeD n zero

/-- The list with `bs` written over it from `offset` on. -/
def splice (zero : α) (l : List α) (offset : ℕ) (bs : List α) : List α :=
  resize zero l offset ++ bs ++ l.drop (offset + bs.length)

/-- `n` values from `offset` on, or what there is of them. -/
def slice (l : List α) (offset n : ℕ) : List α := (l.drop offset).take n

/-- The first `n` values of a memory. -/
def window (f : ℕ → α) (n : ℕ) : List α := (List.range n).map f

@[simp] theorem length_window (f : ℕ → α) (n : ℕ) : (window f n).length = n := by
  rw [window, List.length_map, List.length_range]

theorem getElem?_window (f : ℕ → α) (n i : ℕ) :
    (window f n)[i]? = if i < n then some (f i) else none := by
  rw [window, List.getElem?_map]
  split_ifs with h
  · rw [List.getElem?_range h]
    rfl
  · rw [List.getElem?_eq_none (by rw [List.length_range]; omega)]
    rfl

@[simp] theorem length_resize (zero : α) (l : List α) (n : ℕ) : (resize zero l n).length = n :=
  List.takeD_length n l zero

theorem getElem?_resize (zero : α) (l : List α) (n i : ℕ) :
    (resize zero l n)[i]? = if i < n then some (l[i]?.getD zero) else none := by
  rw [resize]
  induction n generalizing l i with
  | zero => rw [List.takeD_zero, if_neg (Nat.not_lt_zero i)]; rfl
  | succ n ih =>
    rw [List.takeD_succ]
    cases i with
    | zero =>
      rw [if_pos (Nat.succ_pos n), List.getElem?_cons_zero, List.head?_eq_getElem?]
    | succ i =>
      rw [List.getElem?_cons_succ, ih, List.getElem?_tail]
      simp only [Nat.succ_lt_succ_iff]

theorem length_splice (zero : α) (l : List α) (offset : ℕ) (bs : List α) :
    (splice zero l offset bs).length = max l.length (offset + bs.length) := by
  rw [splice, List.length_append, List.length_append, length_resize, List.length_drop]
  omega

theorem getElem?_splice (zero : α) (l : List α) (offset : ℕ) (bs : List α) (i : ℕ) :
    (splice zero l offset bs)[i]? =
      if i < offset then some (l[i]?.getD zero)
      else if i < offset + bs.length then bs[i - offset]? else l[i]? := by
  rw [splice]
  by_cases h₁ : i < offset
  · rw [if_pos h₁, List.getElem?_append_left (by simp; omega),
      List.getElem?_append_left (by simp [h₁]), getElem?_resize, if_pos h₁]
  · rw [if_neg h₁]
    by_cases h₂ : i < offset + bs.length
    · rw [if_pos h₂, List.getElem?_append_left (by simp; omega),
        List.getElem?_append_right (by simp; omega), length_resize]
    · rw [if_neg h₂, List.getElem?_append_right (by simp; omega), List.getElem?_drop,
        List.length_append, length_resize]
      congr 1
      omega

theorem getElem?_slice (l : List α) (offset n i : ℕ) :
    (slice l offset n)[i]? = if i < n then l[offset + i]? else none := by
  rw [slice, List.getElem?_take]
  split_ifs
  · rw [List.getElem?_drop]
  · rfl

/-- **A read gives back what was written last.** -/
theorem slice_splice_self (zero : α) (l : List α) (offset : ℕ) (bs : List α) :
    slice (splice zero l offset bs) offset bs.length = bs := by
  refine List.ext_getElem? ?_
  intro i
  rw [getElem?_slice, getElem?_splice]
  by_cases h : i < bs.length
  · rw [if_pos h, if_neg (by omega), if_pos (by omega), Nat.add_sub_cancel_left]
  · rw [if_neg h, List.getElem?_eq_none (by omega)]

/-- **A read beside what was written** is a read of the list before, as far as it went. -/
theorem slice_splice_of_disjoint (zero : α) (l : List α) {offset : ℕ} {bs : List α} {o n : ℕ}
    (hin : o + n ≤ l.length) (h : o + n ≤ offset ∨ offset + bs.length ≤ o) :
    slice (splice zero l offset bs) o n = slice l o n := by
  refine List.ext_getElem? ?_
  intro i
  rw [getElem?_slice, getElem?_slice, getElem?_splice]
  by_cases hi : i < n
  · rw [if_pos hi, if_pos hi]
    rcases h with h | h
    · rw [if_pos (by omega), List.getElem?_eq_getElem (by omega : o + i < l.length)]
      rfl
    · rw [if_neg (by omega), if_neg (by omega)]
  · rw [if_neg hi, if_neg hi]

end FtjSsdSim.Library
