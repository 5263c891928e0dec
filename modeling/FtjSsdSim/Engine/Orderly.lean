import Mathlib
import FtjSsdSim.Library.Loop
import FtjSsdSim.Library.Machine
import FtjSsdSim.Engine.FreePages
import FtjSsdSim.Engine.DriveCalls

/-!
# What every call keeps of the tables

Free pages are not negative, and a valid page has an owner among the logical pages (`Orderly`).
This holds after any calls (`run_orderly`), also where an erase loop has freed a page twice and the
tables no longer agree with each other.
-/

namespace FtjSsdSim.Engine

open FtjSsdSim.Library

namespace FTJController

/-- What every call keeps: free pages are not negative, and a valid page has an owner to be moved
for. -/
structure Orderly (capacity : ℕ) (c : FTJController) : Prop where
  capacity_eq : c.capacity = capacity
  pages : c.pageCount * pageSize = capacity
  small : c.pageCount < 2 ^ 31
  target : 0 < c.gcTargetFree
  free_nonneg : ∀ x ∈ c.freePages, 0 ≤ x
  owned : ∀ p, c.physValid p = true →
    0 ≤ c.physOwnerLba p ∧ (c.physOwnerLba p).toNat < c.pageCount

variable {capacity endByte : ℕ} {c : FTJController}

theorem construct_orderly (hcap : Admitted capacity) (hsmall : capacity / pageSize < 2 ^ 31) :
    Orderly capacity (construct capacity) where
  capacity_eq := rfl
  pages := by
    rw [construct_pageCount hcap]
    exact Nat.div_mul_cancel hcap.2.1
  small := by rwa [construct_pageCount hcap]
  target := Nat.lt_of_lt_of_le Nat.zero_lt_one (le_max_left ..)
  free_nonneg x hx := by
    obtain ⟨p, -, rfl⟩ := (construct_represents hcap hsmall).consistent.free_range x hx
    exact Int.natCast_nonneg p
  owned p hp := by cases hp

/-- The tables and lists are all that matters. -/
theorem Orderly.congr {c' : FTJController} (h : Orderly capacity c)
    (hg : c'.geometry = c.geometry) (hf : ∀ x ∈ c'.freePages, 0 ≤ x)
    (hv : ∀ p, c'.physValid p = true → 0 ≤ c'.physOwnerLba p ∧
      (c'.physOwnerLba p).toNat < c.pageCount) : Orderly capacity c' := by
  obtain ⟨hcap, hpages, -, -, htarget⟩ : c'.capacity = c.capacity ∧ c'.pageCount = c.pageCount ∧
      c'.numBlocks = c.numBlocks ∧ c'.gcLowWatermark = c.gcLowWatermark ∧
      c'.gcTargetFree = c.gcTargetFree := by
    simpa only [geometry, Prod.mk.injEq] using hg
  exact ⟨hcap.trans h.capacity_eq, hpages.symm ▸ h.pages, hpages.symm ▸ h.small,
    htarget.symm ▸ h.target, hf, hpages.symm ▸ hv⟩

/-- Allocation hands out a free page, and nothing only if there is none. -/
theorem Orderly.allocate (h : Orderly capacity c) (preferHot : Bool) :
    (c.allocatePhysicalPage preferHot = (-1, c) ∧ c.freePages = []) ∨
      ∃ (q : ℕ) (hot cold : List ℤ),
        c.allocatePhysicalPage preferHot = ((q : ℤ), c.withFree hot cold) ∧
        c.freePages.Perm ((q : ℤ) :: (hot ++ cold)) ∧ Orderly capacity (c.withFree hot cold) := by
  rcases allocate_cases c preferHot with hnone | ⟨q, hot, cold, heq, hperm⟩
  · exact .inl hnone
  · obtain ⟨p, rfl⟩ := Int.eq_ofNat_of_zero_le
      (h.free_nonneg q (hperm.mem_iff.mpr (List.mem_cons_self ..)))
    exact .inr ⟨p, hot, cold, heq, hperm, { h with
      free_nonneg := fun x hx =>
        h.free_nonneg x (hperm.mem_iff.mpr (List.mem_cons_of_mem _ hx)) }⟩

/-- A valid page moves whenever there is a free page. -/
theorem Orderly.relocatePage (h : Orderly capacity c) (p : ℕ) :
    (c.relocatePage p = c ∧ (c.physValid p = true → c.freePages = [])) ∨
      (Orderly capacity (c.relocatePage p) ∧ (c.relocatePage p).physValid p = false) := by
  by_cases hv : c.physValid p = true
  · obtain ⟨howner, hlt⟩ := h.owned p hv
    rcases h.allocate false with ⟨heq, hnil⟩ | ⟨q, hot, cold, heq, -, h'⟩
    · refine .inl ⟨?_, fun _ => hnil⟩
      rw [FTJController.relocatePage, if_pos hv, heq]
      exact if_pos (by decide)
    · have hmoved : c.relocatePage p =
          (((c.withFree hot cold).copyPage q p).mapPage (c.physOwnerLba p).toNat q
            (c.physOwnerLba p)).invalidatePage p := by
        rw [FTJController.relocatePage, if_pos hv, heq]
        simp only
        rw [if_neg (by omega)]
        exact if_pos ⟨howner, hlt⟩
      rw [hmoved]
      refine .inr ⟨h'.congr rfl h'.free_nonneg fun r hr => ?_, Function.update_self ..⟩
      -- the moved page is not valid any more, and its owner is the one of the new page
      have hrp : r ≠ p := by
        rintro rfl
        exact absurd (hr.symm.trans (Function.update_self ..)) (by decide)
      simp only [FTJController.invalidatePage, FTJController.mapPage, FTJController.copyPage,
        withFree, Function.update_of_ne hrp] at hr ⊢
      by_cases hrq : r = q
      · rw [hrq, Function.update_self]
        exact ⟨howner, hlt⟩
      · rw [Function.update_of_ne hrq] at hr ⊢
        exact h.owned r hr
  · refine .inl ⟨?_, fun hv' => absurd hv' hv⟩
    rw [FTJController.relocatePage, if_neg hv]

/-- Erasing a page that is not valid makes it free. -/
theorem Orderly.erasePage (h : Orderly capacity c) {p : ℕ} (hp : p < c.pageCount) :
    Orderly capacity (c.erasePage p) ∧
      (c.erasePage p).physValid = c.physValid ∧
      ((c.erasePage p).freePages = [] ↔ c.physValid p = true ∧ c.freePages = []) := by
  rcases erasePage_cases c p with ⟨hv, heq⟩ | ⟨hv, hot, cold, heq, hperm⟩
  · rw [heq]
    exact ⟨h, rfl, (and_iff_right hv).symm⟩
  · rw [int32_natCast (hp.trans h.small)] at hperm
    rw [heq]
    refine ⟨h.congr rfl (fun x hx => ?_) fun r hr => ?_, rfl, ?_⟩
    · rcases List.mem_cons.mp (hperm.mem_iff.mp hx) with rfl | hx
      · exact Int.natCast_nonneg p
      · exact h.free_nonneg x hx
    · have hrp : r ≠ p := by
        rintro rfl
        exact absurd (hr.symm.trans hv) (by decide)
      simp only [Function.update_of_ne hrp]
      exact h.owned r hr
    · refine iff_of_false (fun hnil => ?_) fun hb => absurd (hb.1.symm.trans hv) (by decide)
      have hlen := hperm.length_eq
      rw [show hot ++ cold = [] from hnil] at hlen
      cases hlen

/-- Storing maps the page for a logical page of the drive. -/
theorem Orderly.storePage (h : Orderly capacity c) {lp : ℕ} (hlp : lp < c.pageCount) (q d : ℕ)
    (src : ℕ → Byte) (s n : ℕ) : Orderly capacity (c.storePage lp q d src s n) := by
  have hgeom := (geometry_stable (lp * pageSize + 1) c.geometry).store c lp q d src s n
    (Nat.lt_succ_self _) rfl
  refine h.congr hgeom ?_ ?_
  · rw [storePage_freePages]
    exact h.free_nonneg
  · intro r hr
    have hint : int32 lp = lp := int32_natCast (hlp.trans h.small)
    obtain ⟨_, _, _, _, heq⟩ := storePage_eq c lp q d src s n
    rw [heq] at hr ⊢
    have hmap : (c.mapPage lp q (int32 lp)).physValid r = true →
        0 ≤ (c.mapPage lp q (int32 lp)).physOwnerLba r ∧
          ((c.mapPage lp q (int32 lp)).physOwnerLba r).toNat < c.pageCount := by
      simp only [mapPage, hint]
      by_cases hrq : r = q
      · rw [hrq, Function.update_self, Function.update_self, Int.toNat_natCast]
        exact fun _ => ⟨Int.natCast_nonneg lp, hlp⟩
      · rw [Function.update_of_ne hrq, Function.update_of_ne hrq]
        exact h.owned r
    simp only [remap] at hr ⊢
    split_ifs at hr ⊢ with h0
    · have hrp : r ≠ (c.oldPage lp).toNat := by
        rintro rfl
        exact absurd (hr.symm.trans (Function.update_self ..)) (by decide)
      simp only [invalidatePage, Function.update_of_ne hrp] at hr ⊢
      exact hmap hr
    · exact hmap hr

theorem orderly_stable (hend : endByte ≤ capacity) : WriteStable endByte (Orderly capacity) where
  heat c lp h := by
    rw [heat]
    split_ifs
    · exact h.congr rfl h.free_nonneg h.owned
    · exact h
  allocate c preferHot h := by
    rcases h.allocate preferHot with ⟨heq, -⟩ | ⟨q, hot, cold, heq, -, h'⟩
    · rwa [heq]
    · rwa [heq]
  relocate c p _ h := by
    rcases h.relocatePage p with ⟨heq, -⟩ | ⟨h', -⟩
    · rwa [heq]
    · exact h'
  erase c p hp h := (h.erasePage hp).1
  resetCount c counts h := h.congr rfl h.free_nonneg h.owned
  store c lp q d src s n hlp h := by
    refine h.storePage ?_ q d src s n
    have hpages := h.pages
    by_contra hge
    have := Nat.mul_le_mul_right pageSize (not_lt.mp hge)
    omega
  countWrite c h := h.congr rfl h.free_nonneg h.owned

theorem Orderly.callNext (h : Orderly capacity c) (call : Call) :
    Orderly capacity (c.callNext call) := by
  rcases c.callNext_cases call with ⟨w, rfl⟩ | ⟨_, _, _, _, _, _, heq⟩
  · refine WriteStable.write (fun endByte hend => orderly_stable ?_) h w
    rwa [← h.capacity_eq]
  · rw [heq]
    exact h.congr rfl h.free_nonneg h.owned

theorem run_orderly (hcap : Admitted capacity) (hsmall : capacity / pageSize < 2 ^ 31)
    (calls : List Call) : Orderly capacity (run callNext (construct capacity) calls) :=
  run_invariant (P := fun _ => True) (I := Orderly capacity) (construct_orderly hcap hsmall)
    (fun _ call h _ => h.callNext call) calls fun _ _ => trivial

end FTJController

end FtjSsdSim.Engine
