import Mathlib
import FtjSsdSim.Library.Loop
import FtjSsdSim.Library.Machine
import FtjSsdSim.Engine.WriteRuns

/-!
# Invariants of writes

`Write` and `RunGC` are made of a few steps on the controller: heating, allocating, collecting,
storing a page, and counting the write.

* `WriteRule` — what these steps keep, as long as every erase loop is as `E` says, every write and so
  every run of writes keeps (`WriteRule.write`); a page is stored where one was `Claimed`;
* `WriteStable` — the invariants for which it does not matter what an erase loop meets.
-/

namespace FtjSsdSim.Engine

open FtjSsdSim.Library

namespace FTJController

/-- What the steps of a write that ends at or before byte `endByte` keep, if its erase loops are as `E`
says.  A page `q` that is handed out is `Claimed q` until it is stored to. -/
structure WriteRule (endByte : ℕ) (E : FTJController × ℕ → Prop) (I : FTJController → Prop)
    (Claimed : ℕ → FTJController → Prop) : Prop where
  heat : ∀ c lp, I c → I (c.heat lp)
  allocate : ∀ c preferHot q c', I c → c.allocatePhysicalPage preferHot = (q, c') →
    (q < 0 → I c') ∧ (0 ≤ q → Claimed q.toNat c')
  collect : ∀ c b, I c → E (c.moveValidPages b, b) → I (c.collectBlock b)
  store : ∀ c lp q d src s n, lp * pageSize < endByte → d + n ≤ pageSize → Claimed q c →
    I (c.storePage lp q d src s n)
  countWrite : ∀ c : FTJController, I c → I { c with totalWrites := c.totalWrites + 1 }

variable {endByte : ℕ} {E : FTJController × ℕ → Prop} {I : FTJController → Prop}
  {Claimed : ℕ → FTJController → Prop} {c : FTJController}

namespace WriteRule

theorem claimPage (h : WriteRule endByte E I Claimed) (hc : I c) {preferHot : Bool} {q : ℤ}
    {c' : FTJController} (herases : ∀ e ∈ c.claimErases preferHot, E e)
    (hclaim : c.claimPage preferHot = (q, c')) :
    (q < 0 → I c') ∧ (0 ≤ q → Claimed q.toNat c') := by
  rw [claimErases] at herases
  rw [FTJController.claimPage] at hclaim
  cases hfirst : c.allocatePhysicalPage preferHot with
  | mk q₁ c₁ =>
    have halloc := h.allocate c preferHot q₁ c₁ hc hfirst
    rw [hfirst] at herases hclaim
    simp only at herases hclaim
    split_ifs at herases hclaim with hneg
    · have hgc := runGC_keeps h.collect (halloc.1 hneg) c₁.gcTargetFree herases
      exact h.allocate _ preferHot q c' hgc hclaim
    · obtain ⟨rfl, rfl⟩ : q₁ = q ∧ c₁ = c' := by simpa using hclaim
      exact halloc

theorem writeLoop (h : WriteRule endByte E I Claimed) (hc : I c) (src : ℕ → Byte)
    (startByte written : ℕ) (herases : ∀ e ∈ c.loopErases src startByte endByte written, E e) :
    I (c.writeLoop src startByte endByte written).2 := by
  induction c, startByte, written using writeLoop.induct src endByte with
  | case1 c startByte written hlt lp c₁ q c₂ hclaim =>
    rename_i hneg
    rw [loopErases_round hlt hclaim] at herases
    rw [writeLoop_round hlt hclaim, if_pos hneg]
    exact (h.claimPage (h.heat c lp hc) (fun e he => herases e (List.mem_append_left _ he))
      hclaim).1 hneg
  | case2 c startByte written hlt lp pageOffset toWrite c₁ q c₂ hclaim hneg =>
    rename_i ih
    rw [loopErases_round hlt hclaim, if_neg hneg] at herases
    rw [writeLoop_round hlt hclaim, if_neg hneg]
    have hclaimed := (h.claimPage (h.heat c lp hc)
      (fun e he => herases e (List.mem_append_left _ he)) hclaim).2 (not_lt.mp hneg)
    have hlp : lp * pageSize < endByte := (Nat.div_mul_le_self ..).trans_lt hlt
    have hpage : pageOffset + toWrite ≤ pageSize := by
      have hmod := Nat.mod_lt startByte (show 0 < pageSize by decide)
      simp only [pageOffset, toWrite, pageSize] at hmod ⊢
      omega
    exact ih (h.store c₂ lp _ _ _ _ _ hlp hpage hclaimed) fun e he =>
      herases e (List.mem_append_right _ he)
  | case3 c startByte written hge =>
    rw [FTJController.writeLoop, if_neg hge]
    exact hc

/-- **A write.** -/
theorem write (h : ∀ endByte ≤ c.capacity, WriteRule endByte E I Claimed) (hc : I c) (w : WriteCall)
    (herases : ∀ e ∈ c.writeErases w.offset w.src w.size, E e) : I (c.writeNext w) := by
  obtain ⟨offset, src, size⟩ := w
  cases src with
  | none => exact hc
  | some src =>
    by_cases hrange : size > c.capacity ∨ offset > c.capacity - size
    · have hsame : c.write offset (some src) size = (false, c) := if_pos hrange
      rw [writeNext, hsame]
      exact hc
    · have hrule := h (offset + size) (by omega)
      simp only [writeErases, if_neg hrange] at herases
      have hloop := hrule.writeLoop hc src offset 0 fun e he =>
        herases e (List.mem_append_left _ he)
      rw [writeNext, write_inRange hrange]
      cases hres : c.writeLoop src offset (offset + size) 0 with
      | mk ok c' =>
        rw [hres] at hloop herases
        cases ok with
        | false => exact hloop
        | true =>
          have hcounted := hrule.countWrite c' hloop
          simp only at herases ⊢
          split_ifs at herases ⊢
          · exact runGC_keeps hrule.collect hcounted _ fun e he =>
              herases e (List.mem_append_right _ he)
          · exact hcounted

end WriteRule

/-! ### Invariants that no erase loop harms -/

/-- Every step of a write that ends at or before byte `endByte` keeps `I`. -/
structure WriteStable (endByte : ℕ) (I : FTJController → Prop) : Prop where
  heat : ∀ c lp, I c → I (c.heat lp)
  allocate : ∀ c preferHot, I c → I (c.allocatePhysicalPage preferHot).2
  relocate : ∀ c p, p < c.pageCount → I c → I (c.relocatePage p)
  erase : ∀ c p, p < c.pageCount → I c → I (c.erasePage p)
  resetCount : ∀ (c : FTJController) counts, I c → I { c with blockValidCount := counts }
  store : ∀ c lp q d src s n, lp * pageSize < endByte → I c → I (c.storePage lp q d src s n)
  countWrite : ∀ c : FTJController, I c → I { c with totalWrites := c.totalWrites + 1 }

theorem WriteStable.moveValidPages (h : WriteStable endByte I) (hc : I c) (b : ℕ) :
    I (c.moveValidPages b) ∧ (c.moveValidPages b).pageCount = c.pageCount := by
  refine forLoop_preserves (P := fun c' : FTJController => I c' ∧ c'.pageCount = c.pageCount)
    ⟨hc, rfl⟩ ?_
  rintro p t - hp ⟨ht, hcount⟩
  have hlt : p < t.pageCount := hcount ▸ hp.trans_le (min_le_left ..)
  exact ⟨h.relocate t p hlt ht, (relocatePage_pageCount t p).trans hcount⟩

theorem WriteStable.collectBlock (h : WriteStable endByte I) (hc : I c) (b : ℕ) :
    I (c.collectBlock b) := by
  have herase : I ((c.moveValidPages b).eraseBlock b) ∧
      ((c.moveValidPages b).eraseBlock b).pageCount = (c.moveValidPages b).pageCount := by
    refine forLoop_preserves (P := fun c' : FTJController => I c' ∧
      c'.pageCount = (c.moveValidPages b).pageCount) ⟨(h.moveValidPages hc b).1, rfl⟩ ?_
    rintro p t - hp ⟨ht, hcount⟩
    have hlt : p < t.pageCount := hcount ▸ hp.trans_le (min_le_left ..)
    exact ⟨h.erase t p hlt ht, (erasePage_pageCount t p).trans hcount⟩
  exact h.resetCount _ _ herase.1

/-- A stable invariant is kept whatever the erase loops meet. -/
theorem WriteStable.rule (h : WriteStable endByte I) :
    WriteRule endByte (fun _ => True) I fun _ => I where
  heat := h.heat
  allocate c preferHot q c' hc heq := by
    have hkeep := h.allocate c preferHot hc
    rw [heq] at hkeep
    exact ⟨fun _ => hkeep, fun _ => hkeep⟩
  collect c b hc _ := h.collectBlock hc b
  store c lp q d src s n hlp _ hc := h.store c lp q d src s n hlp hc
  countWrite := h.countWrite

theorem WriteStable.runGC (h : WriteStable endByte I) (hc : I c) (targetFree : ℕ) :
    I (c.runGC targetFree) :=
  runGC_keeps h.rule.collect hc targetFree fun _ _ => trivial

theorem WriteStable.writeLoop (h : WriteStable endByte I) (hc : I c) (src : ℕ → Byte)
    (startByte written : ℕ) : I (c.writeLoop src startByte endByte written).2 :=
  h.rule.writeLoop hc src startByte written fun _ _ => trivial

theorem WriteStable.write (h : ∀ endByte ≤ c.capacity, WriteStable endByte I) (hc : I c)
    (w : WriteCall) : I (c.writeNext w) :=
  WriteRule.write (fun endByte hend => (h endByte hend).rule) hc w fun _ _ => trivial

/-! ### What the constructor sets once -/

/-- The members that no write changes. -/
def geometry (c : FTJController) : ℕ × ℕ × ℕ × ℕ × ℕ :=
  (c.capacity, c.pageCount, c.numBlocks, c.gcLowWatermark, c.gcTargetFree)

theorem geometry_stable (endByte : ℕ) (g : ℕ × ℕ × ℕ × ℕ × ℕ) :
    WriteStable endByte fun c => c.geometry = g where
  heat c lp h := by
    rw [heat]
    split_ifs <;> exact h
  allocate c preferHot h := by
    rcases allocate_cases c preferHot with ⟨heq, -⟩ | ⟨q, hot, cold, heq, -⟩ <;> rw [heq] <;> exact h
  relocate c p _ h := by
    obtain ⟨_, _, _, _, _, _, _, _, _, _, heq⟩ := relocatePage_frame c p
    rw [heq]
    exact h
  erase c p _ h := by
    unfold erasePage
    simp only
    split_ifs <;> exact h
  resetCount _ _ h := h
  store c lp q d src s n _ h := by
    obtain ⟨_, _, _, _, _, _, _, _, _, _, heq⟩ := storePage_frame c lp q d src s n
    rw [heq]
    exact h
  countWrite _ h := h

theorem writeNext_geometry (c : FTJController) (w : WriteCall) :
    (c.writeNext w).geometry = c.geometry :=
  WriteStable.write (I := fun c' => c'.geometry = c.geometry)
    (fun endByte _ => geometry_stable endByte c.geometry) rfl w

end FTJController

end FtjSsdSim.Engine
