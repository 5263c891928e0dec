import Mathlib

/-!
# Reading a sorted list in pages

A reader that gets a sorted list in pages names the last entry it has got, and the next page starts
behind that entry.  Where every page is a first part of what is left (`IsPage`), naming its last entry
drops exactly that part (`IsPage.behind_eq`), so no entry is missed and none comes twice.
-/

namespace FtjSsdSim.Library

variable {α β : Type*} [Ord α] {key : β → α} {l rest page : List β} {marker : Option α} {last : Bool}

/-- The entries whose keys are behind the marker. -/
def behind (key : β → α) (marker : Option α) (l : List β) : List β :=
  l.filter fun x => marker.all fun m => compare m (key x) == .lt

/-- The keys are strictly increasing. -/
def SortedBy (key : β → α) (l : List β) : Prop := l.Pairwise fun x y => compare (key x) (key y) = .lt

theorem behind_none (l : List β) : behind key none l = l := by
  refine List.filter_eq_self.mpr ?_
  intro x _
  rfl

theorem behind_append (marker : Option α) (xs ys : List β) :
    behind key marker (xs ++ ys) = behind key marker xs ++ behind key marker ys := List.filter_append ..

theorem mem_behind {x : β} (hx : x ∈ behind key marker l) : x ∈ l := List.mem_of_mem_filter hx

/-- Nothing is left out behind a marker that is less than every key. -/
theorem behind_eq_self {m : α} (h : ∀ x ∈ l, compare m (key x) = .lt) : behind key (some m) l = l := by
  refine List.filter_eq_self.mpr ?_
  intro x hx
  rw [Option.all_some, h x hx]
  rfl

/-- An entry that is not behind the marker is left out. -/
theorem behind_cons_of_ne {m : α} {x : β} (h : compare m (key x) ≠ .lt) (l : List β) :
    behind key (some m) (x :: l) = behind key (some m) l := by
  refine List.filter_cons_of_neg ?_
  rw [Option.all_some, beq_iff_eq]
  exact h

/-- Nothing is left behind a marker that is not less than any key. -/
theorem behind_eq_nil {m : α} (h : ∀ x ∈ l, compare m (key x) ≠ .lt) : behind key (some m) l = [] := by
  refine List.filter_eq_nil_iff.mpr ?_
  intro x hx
  rw [Option.all_some, beq_iff_eq]
  exact h x hx

/-- A page of what is left, and whether that was all of it. -/
structure IsPage (rest page : List β) (last : Bool) : Prop where
  first : page <+: rest
  all : last = true ↔ page = rest
  progress : rest ≠ [] → page ≠ []

/-- A page of the images of a list is the image of a page. -/
theorem IsPage.of_map {γ : Type*} {f : β → γ} {images : List γ} (h : IsPage (rest.map f) images last) :
    ∃ page, images = page.map f ∧ IsPage rest page last := by
  have htake : images = (rest.take images.length).map f := by
    rw [List.map_take]
    exact List.prefix_iff_eq_take.mp h.first
  refine ⟨rest.take images.length, htake, List.take_prefix _ _, h.all.trans ?_, fun hne hnil => ?_⟩
  · have hle := h.first.length_le
    rw [List.length_map] at hle
    constructor
    · intro heq
      rw [heq, List.length_map, List.take_length]
    · intro heq
      rw [htake, heq]
  · rw [hnil] at htake
    exact h.progress (by simpa using hne) htake

section

open Std

variable [TransOrd α]

/-- Behind an entry of a sorted list are the entries after it. -/
theorem behind_mid {xs ys : List β} {x : β} (h : SortedBy key (xs ++ x :: ys)) :
    behind key (some (key x)) (xs ++ x :: ys) = ys := by
  rw [SortedBy, List.pairwise_append, List.pairwise_cons] at h
  obtain ⟨-, ⟨hys, -⟩, hxs⟩ := h
  have hxs' : behind key (some (key x)) xs = [] := by
    refine behind_eq_nil fun y hy => ?_
    rw [OrientedOrd.eq_swap, hxs y hy x (List.mem_cons_self ..)]
    decide
  rw [behind_append, hxs', List.nil_append, behind, List.filter_cons_of_neg]
  · exact behind_eq_self hys
  · rw [Option.all_some, ReflOrd.compare_self]
    decide

/-- **The next page** starts where the last one ended. -/
theorem IsPage.behind_eq (h : IsPage (behind key marker l) page last) (hl : SortedBy key l) {x : β}
    (hx : page.getLast? = some x) : behind key marker l = page ++ behind key (some (key x)) l := by
  obtain ⟨xs, rfl⟩ : ∃ xs, page = xs ++ [x] := List.getLast?_eq_some_iff.mp hx
  obtain ⟨rest, hrest⟩ := h.first
  -- what is behind `x` is behind the marker as well
  have hbehind : behind key (some (key x)) l = behind key (some (key x)) (behind key marker l) := by
    rw [behind, behind, behind, List.filter_filter]
    refine List.filter_congr ?_
    intro y _
    have hmem : x ∈ behind key marker l := by
      rw [← hrest]
      simp
    have hmarker := (List.mem_filter.mp hmem).2
    rw [Bool.eq_iff_iff, Bool.and_eq_true]
    refine (and_iff_left_of_imp fun hlt => ?_).symm
    cases marker with
    | none => rfl
    | some m =>
      rw [Option.all_some, beq_iff_eq] at hlt hmarker ⊢
      exact TransCmp.lt_trans hmarker hlt
  have hsorted : SortedBy key (behind key marker l) := hl.filter _
  rw [← hrest, List.append_assoc, List.singleton_append] at hsorted
  rw [hbehind, ← hrest, List.append_assoc, List.singleton_append, behind_mid hsorted, List.append_assoc,
    List.singleton_append]

end

end FtjSsdSim.Library
