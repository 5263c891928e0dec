import Mathlib

/-!
# Paths in lexicographic order

A path is a list of components, and the order of paths is the lexicographic order of lists.  In that
order a path comes right before everything below it, so the paths below a given one are a block of any
sorted list.

* `prefix_of_between` — what lies between a path and a path below it lies below it too;
* `takeWhile_prefix_eq_filter` — walking a sorted list while the prefix holds finds every path of the
  list that has the prefix;
* `exists_child_iff_head` — in a list that holds the parent of each of its paths, one look at the
  successor of a path tells whether it has children.
-/

namespace FtjSsdSim.Library

open Std

section

variable {α : Type*} [Ord α] [LawfulEqOrd α]

/-- A list is walked while `P` holds.  Where `P` is never met again once it has failed, that finds all
members with `P`. -/
theorem takeWhile_eq_filter {β : Type*} {P : β → Bool} {l : List β}
    (h : l.Pairwise fun x y => P y = true → P x = true) : l.takeWhile P = l.filter P := by
  induction l with
  | nil => rfl
  | cons x l ih =>
    have hx := List.pairwise_cons.mp h
    by_cases hP : P x = true
    · rw [List.takeWhile_cons_of_pos hP, List.filter_cons_of_pos hP, ih hx.2]
    · rw [List.takeWhile_cons_of_neg hP, List.filter_cons_of_neg hP]
      refine (List.filter_eq_nil_iff.mpr ?_).symm
      intro y hy hPy
      exact hP (hx.1 y hy hPy)

/-! ### Prefixes -/

theorem compare_append_append (xs ys zs : List α) :
    compare (xs ++ ys) (xs ++ zs) = compare ys zs := by
  induction xs with
  | nil => rfl
  | cons x xs ih =>
    rw [List.cons_append, List.cons_append, List.compare_cons_cons, ReflOrd.compare_self, ih]
    rfl

theorem compare_self_append (xs ys : List α) : compare xs (xs ++ ys) = compare [] ys := by
  have h := compare_append_append xs [] ys
  rwa [List.append_nil] at h

/-- A path is at most every path below it. -/
theorem isLE_of_prefix {xs ys : List α} (h : xs <+: ys) : (compare xs ys).isLE = true := by
  obtain ⟨zs, rfl⟩ := h
  rw [compare_self_append]
  exact List.isLE_compare_nil_left

theorem lt_append_cons (xs : List α) (y : α) (ys : List α) : compare xs (xs ++ y :: ys) = .lt := by
  rw [compare_self_append]
  rfl

variable [TransOrd α]

/-- **The paths below a path are an interval.** -/
theorem prefix_of_between {xs ys zs : List α} (hpre : xs <+: zs) (hle : (compare xs ys).isLE = true)
    (hle' : (compare ys zs).isLE = true) : xs <+: ys := by
  induction xs generalizing ys zs with
  | nil => exact List.nil_prefix
  | cons x xs ih =>
    obtain ⟨ws, rfl⟩ := hpre
    cases ys with
    | nil => cases hle
    | cons y ys =>
      rw [List.compare_cons_cons] at hle
      rw [List.cons_append, List.compare_cons_cons] at hle'
      -- `x ≤ y ≤ x`, so the heads agree and the tails are compared
      cases hxy : compare x y with
      | lt =>
        rw [OrientedOrd.eq_swap (a := y), hxy] at hle'
        cases hle'
      | gt =>
        rw [hxy] at hle
        cases hle
      | eq =>
        obtain rfl := LawfulEqOrd.eq_of_compare hxy
        rw [hxy] at hle hle'
        have htail : xs <+: ys := ih (List.prefix_append xs ws) hle hle'
        exact (List.prefix_cons_inj x).mpr htail

/-! ### Sorted lists of paths -/

/-- Strictly increasing lists of entries that are filed under paths. -/
def Ascending {β : Type*} (path : β → List α) (l : List β) : Prop :=
  l.Pairwise fun x y => compare (path x) (path y) = .lt

variable {β : Type*} {path : β → List α} {l : List β}

omit [LawfulEqOrd α] [TransOrd α] in
theorem Ascending.filter (h : Ascending path l) (P : β → Bool) : Ascending path (l.filter P) :=
  List.Pairwise.filter P h

/-- **Walking a subtree.**  From a place at or above `xs`, walking on while `xs` is a prefix finds all
that is left of its subtree. -/
theorem takeWhile_prefix_eq_filter (h : Ascending path l) {xs : List α} {P : β → Bool}
    (hle : ∀ x ∈ l, (compare xs (path x)).isLE = true) (hP : ∀ x ∈ l, P x = true ↔ xs <+: path x) :
    l.takeWhile P = l.filter P := by
  refine takeWhile_eq_filter ?_
  refine List.Pairwise.imp_of_mem ?_ h
  intro x y hx hy hlt hPy
  rw [hP y hy] at hPy
  rw [hP x hx]
  refine prefix_of_between hPy (hle x hx) ?_
  rw [hlt]
  rfl

/-- The list holds the parent of each of its paths. -/
def ParentClosed (path : β → List α) (l : List β) : Prop :=
  ∀ x ∈ l, ∀ xs c, path x = xs ++ [c] → ∃ y ∈ l, path y = xs

omit [Ord α] [LawfulEqOrd α] [TransOrd α] in
/-- In a closed list with a path strictly below `xs`, a child of `xs` is listed. -/
theorem ParentClosed.exists_child (h : ParentClosed path l) {xs ys : List α} {y : α} {x : β}
    (hx : x ∈ l) (hpath : path x = xs ++ y :: ys) : ∃ z ∈ l, path z = xs ++ [y] := by
  induction ys using List.reverseRecOn generalizing x with
  | nil => exact ⟨x, hx, hpath⟩
  | append_singleton ys c ih =>
    obtain ⟨w, hw, hwpath⟩ := h x hx (xs ++ y :: ys) c (by rw [hpath]; simp)
    exact ih hw hwpath

/-- **One look is enough.**  In an ascending list that holds the parent of each of its paths, the first
entry after `xs` is a child of `xs` exactly when `xs` has a child in the list. -/
theorem exists_child_iff_head (h : Ascending path l) (hclosed : ParentClosed path l) (xs : List α) :
    (∃ x ∈ (l.filter fun x => compare xs (path x) == .lt).head?, ∃ c, path x = xs ++ [c]) ↔
      ∃ x ∈ l, ∃ c, path x = xs ++ [c] := by
  constructor
  · intro ⟨x, hx, hchild⟩
    exact ⟨x, (List.mem_filter.mp (List.mem_of_mem_head? hx)).1, hchild⟩
  · intro ⟨x, hx, c, hc⟩
    have hmem : x ∈ l.filter fun x => compare xs (path x) == .lt := by
      rw [List.mem_filter, hc, lt_append_cons]
      exact ⟨hx, rfl⟩
    have hsorted := h.filter fun x => compare xs (path x) == .lt
    cases hl : l.filter fun x => compare xs (path x) == .lt with
    | nil =>
      rw [hl] at hmem
      cases hmem
    | cons z zs =>
      refine ⟨z, rfl, ?_⟩
      have hz : z ∈ l ∧ compare xs (path z) = .lt := by
        have hz : z ∈ l.filter fun x => compare xs (path x) == .lt := by
          rw [hl]
          exact List.mem_cons_self ..
        simpa using List.mem_filter.mp hz
      -- the successor `z` lies between `xs` and its child, so below `xs`
      have hzx : (compare (path z) (path x)).isLE = true := by
        rw [hl] at hmem hsorted
        rcases List.mem_cons.mp hmem with rfl | hmem
        · rw [ReflOrd.compare_self]
          rfl
        · rw [(List.pairwise_cons.mp hsorted).1 x hmem]
          rfl
      have hpre : xs <+: path z := by
        have hbelow : xs <+: path x := by
          rw [hc]
          exact List.prefix_append xs [c]
        exact prefix_of_between hbelow (by rw [hz.2]; rfl) hzx
      obtain ⟨ys, hys⟩ := hpre
      cases ys with
      | nil =>
        rw [List.append_nil] at hys
        rw [← hys, ReflOrd.compare_self] at hz
        cases hz.2
      | cons y ys =>
        -- were `z` deeper than a child, that child would be listed before it
        obtain ⟨w, hw, hwpath⟩ := hclosed.exists_child hz.1 hys.symm
        have hwmem : w ∈ l.filter fun x => compare xs (path x) == .lt := by
          rw [List.mem_filter, hwpath, lt_append_cons]
          exact ⟨hw, rfl⟩
        rw [hl] at hwmem hsorted
        rcases List.mem_cons.mp hwmem with rfl | hwmem
        · exact ⟨y, hwpath⟩
        · have hzw := (List.pairwise_cons.mp hsorted).1 w hwmem
          have hwz : (compare (path w) (path z)).isLE = true := by
            rw [hwpath, ← hys]
            exact isLE_of_prefix ⟨ys, by simp⟩
          rw [OrientedOrd.eq_swap (a := path w), hzw] at hwz
          cases hwz

end

end FtjSsdSim.Library
