import Mathlib
import FtjSsdSim.Library.ByteStore
import FtjSsdSim.Library.Machine
import FtjSsdSim.Engine.Writing

/-!
# Runs of writes

The states a controller reaches from its construction by any sequence of `Write` calls.

* `construct_represents` — a new controller is consistent and reads as zeros;
* `run_represents` — while every erase loop of a run is clean, the controller stays consistent, and
  when all its writes return `true` its address space holds the last write to every byte;
* `metadata_invariant_of_clean` — the invariant of the tables and the free lists, for such runs.
-/

namespace FtjSsdSim.Engine

open FtjSsdSim.Library

namespace FTJController

/-! ### The new controller -/

/-- A positive number of whole pages, in one block or in whole blocks. -/
def Admitted (capacity : ℕ) : Prop :=
  0 < capacity ∧ pageSize ∣ capacity ∧
    (capacity / pageSize ≤ pagesPerBlock ∨ pagesPerBlock ∣ capacity / pageSize)

/-- The pages from the last one down. -/
def pagesDown (n : ℕ) : List ℤ := (List.range n).map fun i : ℕ => (n : ℤ) - 1 - i

theorem initialFreeList_eq {n hotBlocks : ℕ} (hn : n < 2 ^ 31) (hot : Bool) :
    initialFreeList n hotBlocks hot = (pagesDown n).filter fun p =>
      decide (0 ≤ blockOf p.toNat ∧ (blockOf p.toNat).toNat < hotBlocks) = hot := by
  rw [initialFreeList, int32_natCast hn, Int.toNat_natCast]
  refine forLoop_induct (motive := fun i free => free = ((List.range i).map fun j : ℕ =>
    (n : ℤ) - 1 - j).filter fun p =>
      decide (0 ≤ blockOf p.toNat ∧ (blockOf p.toNat).toNat < hotBlocks) = hot)
    (Nat.zero_le n) rfl ?_
  rintro i free - - rfl
  rw [List.range_succ, List.map_append, List.filter_append, List.map_singleton,
    List.filter_singleton]
  simp only
  generalize decide (0 ≤ blockOf ((n : ℤ) - 1 - i).toNat ∧
    (blockOf ((n : ℤ) - 1 - i).toNat).toNat < hotBlocks) = b
  by_cases hb : b = hot
  · rw [if_pos hb, decide_eq_true hb, cond_true]
  · rw [if_neg hb, decide_eq_false hb, cond_false, List.append_nil]

/-- The constructor's lists hold every page once. -/
theorem initialFreeList_perm {n hotBlocks : ℕ} (hn : n < 2 ^ 31) :
    (initialFreeList n hotBlocks true ++ initialFreeList n hotBlocks false).Perm
      (pagesDown n) := by
  rw [initialFreeList_eq hn, initialFreeList_eq hn]
  refine List.Perm.trans ?_ (List.filter_append_perm
    (fun p : ℤ => decide (0 ≤ blockOf p.toNat ∧ (blockOf p.toNat).toNat < hotBlocks)) _)
  refine List.Perm.append (.of_eq ?_) (.of_eq ?_)
  all_goals
    refine List.filter_congr fun p _ => ?_
    generalize decide (0 ≤ blockOf p.toNat ∧ (blockOf p.toNat).toNat < hotBlocks) = b
    cases b <;> rfl

theorem mem_pagesDown {n : ℕ} {x : ℤ} : x ∈ pagesDown n ↔ ∃ p < n, x = (p : ℤ) := by
  simp only [pagesDown, List.mem_map, List.mem_range]
  constructor
  · rintro ⟨i, hi, rfl⟩
    exact ⟨n - 1 - i, by omega, by omega⟩
  · rintro ⟨p, hp, rfl⟩
    exact ⟨n - 1 - p, by omega, by omega⟩

theorem pagesDown_nodup (n : ℕ) : (pagesDown n).Nodup := by
  refine List.Nodup.map (fun i j h => ?_) List.nodup_range
  have h' : (n : ℤ) - 1 - i = n - 1 - j := h
  omega

theorem numPages_eq {capacity : ℕ} (h : Admitted capacity) :
    numPages capacity = capacity / pageSize := by
  obtain ⟨-, ⟨k, rfl⟩, -⟩ := h
  simp only [numPages, pageSize]
  omega

theorem construct_pageCount {capacity : ℕ} (h : Admitted capacity) :
    (construct capacity).pageCount = capacity / pageSize := by
  rw [← numPages_eq h, construct]

/-- A new controller is consistent, and none of its logical pages is mapped. -/
theorem construct_represents {capacity : ℕ} (h : Admitted capacity)
    (hsmall : capacity / pageSize < 2 ^ 31) : (construct capacity).Represents fun _ => none := by
  have hcount := construct_pageCount h
  have hfree : (construct capacity).freePages.Perm (pagesDown (construct capacity).pageCount) := by
    simp only [freePages, construct]
    exact initialFreeList_perm (by rw [numPages_eq h]; exact hsmall)
  constructor
  case view =>
    funext lp
    simp [PageMap.view, pageMap, construct]
  case consistent =>
    constructor
    case capacity_eq =>
      rw [hcount]
      exact (Nat.div_mul_cancel h.2.1).symm
    case small => rwa [hcount]
    case range => exact fun lp _ => .inl rfl
    case owned => exact fun p _ hv => by cases hv
    case agree =>
      intro lp _ p _
      refine iff_of_false ?_ fun hv => by cases hv.1
      show (-1 : ℤ) ≠ p
      omega
    case free_nodup => exact hfree.nodup_iff.mpr (pagesDown_nodup _)
    case free_range => exact fun x hx => mem_pagesDown.mp (hfree.mem_iff.mp hx)
    case free_invalid => exact fun p _ => rfl

/-! ### Runs -/

/-- A call of `Write`. -/
structure WriteCall where
  offset : ℕ
  src : Option (ℕ → Byte)
  size : ℕ

/-- The controller after a call. -/
def writeNext (c : FTJController) (w : WriteCall) : FTJController :=
  (c.write w.offset w.src w.size).2

/-- What the call returns. -/
def writeResult (x : FTJController × WriteCall) : Bool :=
  (x.1.write x.2.offset x.2.src x.2.size).1

/-- No erase loop of the call meets a page that is on a free list already. -/
def CleanWrite (x : FTJController × WriteCall) : Prop :=
  ∀ e ∈ x.1.writeErases x.2.offset x.2.src x.2.size, EraseClean e

instance (x : FTJController × WriteCall) : Decidable (CleanWrite x) :=
  inferInstanceAs (Decidable (∀ _ ∈ _, _))

/-- The bytes a call is to put. -/
def WriteCall.patch (w : WriteCall) : Patch Byte := ⟨w.offset, w.src.getD fun _ => 0, w.size⟩

/-- One clean call, on the level of the address space. -/
theorem writeNext_represents {c : FTJController} {v : ℕ → Option Page} (h : c.Represents v)
    (w : WriteCall) (hclean : CleanWrite (c, w)) :
    ∃ v', (c.writeNext w).Represents v' ∧ (c.writeNext w).pageCount = c.pageCount ∧
      (writeResult (c, w) = true → contentOf v' = w.patch.apply (contentOf v)) := by
  obtain ⟨offset, src, size⟩ := w
  cases src with
  | none => exact ⟨v, h, rfl, fun hf => by cases hf⟩
  | some src =>
    obtain ⟨v', k, hrep, hcount, hcontent, hall, -⟩ := write_represents h offset src size hclean
    refine ⟨v', hrep, hcount, fun ht => ?_⟩
    rw [hcontent, hall ht]
    rfl

/-- **Clean runs.**  The controller stays consistent, and if every call returned `true`, its address
space holds the last write to every byte. -/
theorem run_represents {capacity : ℕ} (hcap : Admitted capacity)
    (hsmall : capacity / pageSize < 2 ^ 31) (ws : List WriteCall)
    (hclean : ∀ x ∈ cycles writeNext (construct capacity) ws, CleanWrite x) :
    ∃ v, (run writeNext (construct capacity) ws).Represents v ∧
      (run writeNext (construct capacity) ws).pageCount = capacity / pageSize ∧
      ((∀ x ∈ cycles writeNext (construct capacity) ws, writeResult x = true) →
        contentOf v = lastWrite 0 (ws.map WriteCall.patch)) := by
  refine run_induct (P := CleanWrite)
    (motive := fun ws c => ∃ v, c.Represents v ∧ c.pageCount = capacity / pageSize ∧
      ((∀ x ∈ cycles writeNext (construct capacity) ws, writeResult x = true) →
        contentOf v = lastWrite 0 (ws.map WriteCall.patch))) ?base ?next ws hclean
  case base =>
    exact ⟨_, construct_represents hcap hsmall, construct_pageCount hcap, fun _ => rfl⟩
  case next =>
    rintro ws w ⟨v, hrep, hcount, hcontent⟩ hw
    obtain ⟨v', hrep', hcount', hcontent'⟩ := writeNext_represents hrep w hw
    refine ⟨v', hrep', hcount'.trans hcount, fun hall => ?_⟩
    rw [hcontent' (hall _ (mem_cycles_snoc ..)), hcontent fun x hx => hall x ?_, List.map_append]
    · exact (lastWrite_snoc ..).symm
    · rw [cycles_append]
      exact List.mem_append_left _ hx

/-- The invariant of the mapping tables and the free lists:
* a logical page's entry is a page exactly when that page is valid and owned by it;
* the free lists together have no duplicate and hold no valid page. -/
structure MetadataInvariant (c : FTJController) : Prop where
  in_range : ∀ lp < c.pageCount, 0 ≤ c.l2pMap lp → c.l2pMap lp < c.pageCount
  agree : ∀ lp < c.pageCount, ∀ p < c.pageCount,
    c.l2pMap lp = p ↔ c.physValid p = true ∧ c.physOwnerLba p = lp
  free_nodup : (c.freePhysicalPagesHot ++ c.freePhysicalPagesCold).Nodup
  free_invalid : ∀ p : ℕ, (p : ℤ) ∈ c.freePhysicalPagesHot ++ c.freePhysicalPagesCold →
    c.physValid p = false

theorem Consistent.metadataInvariant {c : FTJController} (h : c.Consistent) :
    c.MetadataInvariant where
  in_range lp hlp h0 := by
    rcases h.range lp hlp with hn | ⟨p, hp, hl⟩ <;> omega
  agree := h.agree
  free_nodup := h.free_nodup
  free_invalid := h.free_invalid

/-- **The tables and the free lists after a clean run.**  For every admitted capacity below `2^31`
pages, in every state reached by `Write` calls whose erase loops never meet a page that is on a
free list already, the metadata invariant holds. -/
theorem metadata_invariant_of_clean {capacity : ℕ} (hcap : Admitted capacity)
    (hsmall : capacity / pageSize < 2 ^ 31) (ws : List WriteCall)
    (hclean : ∀ x ∈ cycles writeNext (construct capacity) ws, CleanWrite x) :
    (run writeNext (construct capacity) ws).MetadataInvariant := by
  obtain ⟨v, hrep, -, -⟩ := run_represents hcap hsmall ws hclean
  exact hrep.consistent.metadataInvariant

/-- A drive of sixty pages: garbage collection starts when fewer than three are free. -/
def sixtyPages : ℕ := 60 * pageSize

theorem sixtyPages_admitted : Admitted sixtyPages :=
  ⟨by decide, ⟨60, rfl⟩, .inl (by decide)⟩

/-- A write of one byte at address 0. -/
def writeFirst : WriteCall := ⟨0, some fun _ => 0, 1⟩

/-- Fifty-eight writes of one page end with a collection, which is clean. -/
theorem metadata_invariant_of_clean_collection :
    (run writeNext (construct sixtyPages) (List.replicate 58 writeFirst)).MetadataInvariant :=
  metadata_invariant_of_clean sixtyPages_admitted (by decide) _ (by decide +kernel)

/-- **The second collection frees a page twice.**  After 115 writes of one page the victim block still
has a page on the free list when `RunGC` erases it: the erase loop, which only looks at
`phys_valid_`, pushes that page again. -/
theorem metadata_invariant_free_twice :
    Admitted sixtyPages ∧
      ¬ (run writeNext (construct sixtyPages) (List.replicate 115 writeFirst)).MetadataInvariant :=
  ⟨sixtyPages_admitted, fun h => absurd h.free_nodup (by decide +kernel)⟩

end FTJController

end FtjSsdSim.Engine
