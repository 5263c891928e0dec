import Mathlib
import FtjSsdSim.Library.Loop
import FtjSsdSim.Engine.Mapping

/-!
# Garbage collection

A pass of `RunGC` over a block moves the valid pages out and puts every page of the block that is
not valid on a free list.  The erase loop does not ask whether the page is on a free list already:
`EraseClean` says that this does not come up.

* `collectBlock_represents` — a collection with a clean erase loop keeps every logical page and
  leaves the tables consistent;
* `runGC_keeps` — the rule for what a whole `RunGC` keeps, by the erase loops (`gcErases`) it runs;
* `runGC_represents` — it keeps the view, if all of them are clean.
-/

namespace FtjSsdSim.Engine

open FtjSsdSim.Library

namespace FTJController

variable {c : FTJController} {v : ℕ → Option Page}

/-! ### Erasing and collecting a block -/

theorem int32_natCast {p : ℕ} (h : p < 2 ^ 31) : int32 p = p := by
  rw [int32, Int.bmod_eq_of_le_mul_two] <;> omega

/-- Erasing a page leaves a valid page alone, and frees any other one: that page has no owner then. -/
theorem erasePage_cases (c : FTJController) (p : ℕ) :
    (c.physValid p = true ∧ c.erasePage p = c) ∨
      (c.physValid p = false ∧ ∃ hot cold,
        c.erasePage p = { c with
          physOwnerLba := Function.update c.physOwnerLba p (-1)
          freePhysicalPagesHot := hot
          freePhysicalPagesCold := cold } ∧
        (hot ++ cold).Perm (int32 p :: c.freePages)) := by
  cases hv : c.physValid p with
  | true => exact .inl ⟨rfl, if_pos hv⟩
  | false =>
    have hvalid : Function.update c.physValid p false = c.physValid :=
      Function.update_eq_self_iff.mpr hv.symm
    refine .inr ⟨rfl, ?_⟩
    rw [erasePage, if_neg (by simp [hv]), hvalid]
    simp only
    split_ifs
    · refine ⟨_, _, rfl, ?_⟩
      rw [List.append_assoc]
      exact List.perm_middle
    · refine ⟨_, _, rfl, ?_⟩
      rw [← List.append_assoc]
      exact List.perm_append_singleton ..

@[simp] theorem erasePage_pageCount (c : FTJController) (p : ℕ) :
    (c.erasePage p).pageCount = c.pageCount := by
  rcases erasePage_cases c p with ⟨-, heq⟩ | ⟨-, hot, cold, heq, -⟩ <;> rw [heq]

@[simp] theorem erasePage_physValid (c : FTJController) (p : ℕ) :
    (c.erasePage p).physValid = c.physValid := by
  rcases erasePage_cases c p with ⟨-, heq⟩ | ⟨-, hot, cold, heq, -⟩ <;> rw [heq]

@[simp] theorem erasePage_pageMap (c : FTJController) (p : ℕ) :
    (c.erasePage p).pageMap = c.pageMap := by
  rcases erasePage_cases c p with ⟨-, heq⟩ | ⟨-, hot, cold, heq, -⟩
  · rw [heq]
  · rw [heq]
    rfl

/-- Erasing a page touches no page in use. -/
theorem TablesAgree.erasePage (h : c.TablesAgree) (p : ℕ) : (c.erasePage p).TablesAgree := by
  rcases erasePage_cases c p with ⟨-, heq⟩ | ⟨hv, hot, cold, heq, -⟩
  · rwa [heq]
  · have howner : ∀ r, c.physValid r = true →
        Function.update c.physOwnerLba p (-1) r = c.physOwnerLba r := fun r hr => by
      refine Function.update_of_ne ?_ ..
      rintro rfl
      rw [hv] at hr
      cases hr
    rw [heq]
    exact ⟨h.range,
      fun r hr hrv => (h.owned r hr hrv).imp fun lp hlp => ⟨hlp.1, (howner r hrv).trans hlp.2⟩,
      fun lp hlp r hr => (h.agree lp hlp r hr).trans
        (and_congr_right fun hrv => Eq.congr_left (howner r hrv).symm)⟩

/-- The page goes to the free lists, if it was not on one. -/
theorem FreeDistinct.erasePage (h : c.FreeDistinct) {p : ℕ} (hp : p < c.pageCount)
    (hint : int32 p = p) (hfree : c.physValid p = false → (p : ℤ) ∉ c.freePages) :
    (c.erasePage p).FreeDistinct := by
  rcases erasePage_cases c p with ⟨-, heq⟩ | ⟨hv, hot, cold, heq, hperm⟩
  · rwa [heq]
  · rw [hint] at hperm
    rw [heq]
    constructor
    case nodup => exact hperm.nodup_iff.mpr (List.nodup_cons.mpr ⟨hfree hv, h.nodup⟩)
    case range =>
      intro x hx
      rcases List.mem_cons.mp (hperm.mem_iff.mp hx) with rfl | hx
      · exact ⟨p, hp, rfl⟩
      · exact h.range x hx
    case invalid =>
      intro r hr
      rcases List.mem_cons.mp (hperm.mem_iff.mp hr) with hrp | hr
      · obtain rfl : r = p := by omega
        exact hv
      · exact h.invalid r hr

/-- Erasing keeps the view, if the page was not on a free list. -/
theorem erasePage_represents (h : c.Represents v) {p : ℕ} (hp : p < c.pageCount)
    (hfree : c.physValid p = false → (p : ℤ) ∉ c.freePages) : (c.erasePage p).Represents v := by
  obtain ⟨hc, hv⟩ := h
  have hcoherent : (c.erasePage p).Coherent := ⟨hc.coherent.tables.erasePage p,
    hc.coherent.free.erasePage hp (int32_natCast (hp.trans hc.small)) hfree⟩
  have hcap : (c.erasePage p).capacity = c.capacity := by
    rcases erasePage_cases c p with ⟨-, heq⟩ | ⟨-, hot, cold, heq, -⟩ <;> rw [heq]
  refine ⟨hcoherent.consistent ?_ ?_, by rw [erasePage_pageMap, hv]⟩
  · rw [hcap, erasePage_pageCount]; exact hc.capacity_eq
  · rw [erasePage_pageCount]; exact hc.small

/-- The erase loop about to run on block `e.2` of `e.1` meets no page that is on a free list. -/
def EraseClean (e : FTJController × ℕ) : Prop :=
  ∀ p, blockStart e.2 ≤ p → p < e.1.blockEnd e.2 → e.1.physValid p = false →
    (p : ℤ) ∉ e.1.freePages

instance (e : FTJController × ℕ) : Decidable (EraseClean e) :=
  inferInstanceAs (Decidable (∀ p, _ ≤ p → p < _ → _ → _))

theorem eraseBlock_represents (h : c.Represents v) {b : ℕ} (hclean : EraseClean (c, b)) :
    (c.eraseBlock b).Represents v := by
  rcases Nat.le_total (c.blockEnd b) (blockStart b) with hle | hle
  · rw [eraseBlock, forLoop_empty hle]
    exact h
  -- pages the loop has not reached are as they were: the ones already freed lie behind it
  have hinv := forLoop_induct (f := fun p (c : FTJController) => c.erasePage p)
    (motive := fun i (c' : FTJController) => c'.Represents v ∧ c'.pageCount = c.pageCount ∧
      c'.physValid = c.physValid ∧ ∀ p : ℕ, i ≤ p → (p : ℤ) ∈ c'.freePages → (p : ℤ) ∈ c.freePages)
    hle ⟨h, rfl, rfl, fun _ _ hp => hp⟩ ?_
  · exact hinv.1
  · rintro i t hlo hhi ⟨hrep, hcount, hvalid, hfree⟩
    have hi : i < c.pageCount := hhi.trans_le (min_le_left ..)
    have hnot : t.physValid i = false → (i : ℤ) ∉ t.freePages := fun hv hm =>
      hclean i hlo hhi (hvalid ▸ hv) (hfree i le_rfl hm)
    refine ⟨erasePage_represents hrep (hcount ▸ hi) hnot, by rw [erasePage_pageCount, hcount],
      by rw [erasePage_physValid, hvalid], ?_⟩
    rcases erasePage_cases t i with ⟨-, heq⟩ | ⟨hv, hot, cold, heq, hperm⟩
    · rw [heq]
      exact fun p hp => hfree p (by omega)
    · intro p hp hm
      rw [int32_natCast (hi.trans h.consistent.small)] at hperm
      rw [heq] at hm
      rcases List.mem_cons.mp (hperm.mem_iff.mp hm) with hpi | hm
      · omega
      · exact hfree p (by omega) hm

/-- The move loop keeps the view. -/
theorem moveValidPages_represents (h : c.Represents v) (b : ℕ) :
    (c.moveValidPages b).Represents v ∧ (c.moveValidPages b).pageCount = c.pageCount := by
  refine forLoop_preserves (P := fun c' : FTJController => c'.Represents v ∧ c'.pageCount = c.pageCount)
    ⟨h, rfl⟩ ?_
  rintro i t - hhi ⟨hrep, hcount⟩
  have hi : i < t.pageCount := hcount ▸ hhi.trans_le (min_le_left ..)
  exact ⟨relocatePage_represents hrep hi, by rw [relocatePage_pageCount, hcount]⟩

/-- **A collection keeps the view**, if its erase loop is clean. -/
theorem collectBlock_represents (h : c.Represents v) {b : ℕ}
    (hclean : EraseClean (c.moveValidPages b, b)) : (c.collectBlock b).Represents v :=
  (eraseBlock_represents (moveValidPages_represents h b).1 hclean).of_same
    ⟨rfl, rfl, rfl, rfl, rfl, rfl⟩ rfl

@[simp] theorem collectBlock_pageCount (c : FTJController) (b : ℕ) :
    (c.collectBlock b).pageCount = c.pageCount := by
  have hmove : (c.moveValidPages b).pageCount = c.pageCount :=
    forLoop_preserves (P := fun c' : FTJController => c'.pageCount = c.pageCount) rfl
      fun i t _ _ ht => by rw [relocatePage_pageCount, ht]
  have herase : ((c.moveValidPages b).eraseBlock b).pageCount = (c.moveValidPages b).pageCount :=
    forLoop_preserves (P := fun c' : FTJController => c'.pageCount = (c.moveValidPages b).pageCount) rfl
      fun i t _ _ ht => by rw [erasePage_pageCount, ht]
  exact herase.trans hmove

/-- The erase loops a call of `RunGC` runs: the controller each one starts from, and its block. -/
def gcErases (c : FTJController) (targetFree : ℕ) : List (FTJController × ℕ) :=
  if c.freeCount < targetFree then
    match c.selectVictim with
    | none => []
    | some b =>
      let c' := c.collectBlock b
      (c.moveValidPages b, b) ::
        if c'.freeCount ≤ c.freeCount then []
        else if targetFree ≤ c'.freeCount then []
        else gcErases c' targetFree
  else []
termination_by targetFree - c.freeCount
decreasing_by
  rename_i hlow hprogress _
  have h : ¬ (c.collectBlock b).freeCount ≤ c.freeCount := hprogress
  omega

/-- **The rule for garbage collection.**  What a collection keeps if its erase loop is as `E` says, a
call of `RunGC` keeps if all its erase loops are. -/
theorem runGC_keeps {E : FTJController × ℕ → Prop} {I : FTJController → Prop}
    (collect : ∀ c b, I c → E (c.moveValidPages b, b) → I (c.collectBlock b)) (h : I c)
    (targetFree : ℕ) (herases : ∀ e ∈ c.gcErases targetFree, E e) : I (c.runGC targetFree) := by
  induction c using runGC.induct targetFree with
  | case1 c hlow hnone =>
    rw [runGC, if_pos hlow, hnone]
    exact h
  | case2 c hlow b hb c' hstop =>
    rw [gcErases, if_pos hlow, hb] at herases
    rw [runGC, if_pos hlow, hb]
    simp only
    rw [if_pos hstop]
    exact collect c b h (herases _ (List.mem_cons_self ..))
  | case3 c hlow b hb c' hgo hdone =>
    rw [gcErases, if_pos hlow, hb] at herases
    rw [runGC, if_pos hlow, hb]
    simp only
    rw [if_neg hgo, if_pos hdone]
    exact collect c b h (herases _ (List.mem_cons_self ..))
  | case4 c hlow b hb c' hgo hmore ih =>
    rw [gcErases, if_pos hlow, hb] at herases
    simp only at herases
    rw [if_neg hgo, if_neg hmore] at herases
    rw [runGC, if_pos hlow, hb]
    simp only
    rw [if_neg hgo, if_neg hmore]
    have hstep := collect c b h (herases _ (List.mem_cons_self ..))
    exact ih hstep fun e he => herases e (List.mem_cons_of_mem _ he)
  | case5 c hfull =>
    rw [runGC, if_neg hfull]
    exact h

/-- **Garbage collection keeps the view**, if all its erase loops are clean. -/
theorem runGC_represents (h : c.Represents v) (targetFree : ℕ)
    (hclean : ∀ e ∈ c.gcErases targetFree, EraseClean e) :
    (c.runGC targetFree).Represents v ∧ (c.runGC targetFree).pageCount = c.pageCount := by
  refine runGC_keeps (E := EraseClean)
    (I := fun c' : FTJController => c'.Represents v ∧ c'.pageCount = c.pageCount) ?_ ⟨h, rfl⟩
    targetFree hclean
  intro c' b h' hclean'
  exact ⟨collectBlock_represents h'.1 hclean', (collectBlock_pageCount c' b).trans h'.2⟩

end FTJController

end FtjSsdSim.Engine
