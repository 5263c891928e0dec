import Mathlib
import FtjSsdSim.Library.Loop
import FtjSsdSim.Library.Machine
import FtjSsdSim.Engine.WriteRuns
import FtjSsdSim.Engine.WriteInvariant

/-!
# The stored check bytes

Every check byte in `ecc_buffer_` is the check byte of its word (`EccMatches`).  This needs nothing
of the mapping tables: a page's check bytes travel with its bytes, and whatever a write touches is
recomputed.

* `recomputeEcc_spec` — what the recomputation loop of `Write` assigns;
* `write_eccMatches`, `run_eccMatches` — the match survives every write, and every run of writes.
-/

namespace FtjSsdSim.Engine

open FtjSsdSim.Library FtjSsdSim.Engine.Ecc

namespace FTJController

/-- Every check byte is the check byte of its word. -/
def EccMatches (c : FTJController) : Prop := ∀ k, c.eccBuffer k = calculateECC (c.word k)

variable {c : FTJController}

/-- The match is about the two buffers only. -/
theorem EccMatches.congr {c' : FTJController} (h : c.EccMatches)
    (hm : c'.memoryBuffer = c.memoryBuffer) (he : c'.eccBuffer = c.eccBuffer) :
    c'.EccMatches := by
  intro k
  rw [he, word, hm]
  exact h k

set_option maxRecDepth 4000 in
theorem calculateECC_zero : calculateECC 0 = 0 := by decide

theorem construct_eccMatches (capacity : ℕ) : (construct capacity).EccMatches := by
  intro k
  have hzero : ofBytes (fun _ => 0) = 0 := by decide
  exact (congrArg calculateECC hzero).trans calculateECC_zero |>.symm

/-! ### Page operations -/

/-- A word of an array of bytes into which whole words were copied. -/
theorem ofBytes_blit (f src : ℕ → Byte) (d s n k : ℕ) :
    ofBytes (fun i => blit f (8 * d) src (8 * s) (8 * n) (8 * k + i)) =
      if d ≤ k ∧ k < d + n then ofBytes (fun i => src (8 * (s + (k - d)) + i))
      else ofBytes fun i => f (8 * k + i) := by
  split_ifs with hk
  · refine ofBytes_congr fun i hi => ?_
    rw [blit_in (by omega) (by omega),
      show 8 * s + (8 * k + i - 8 * d) = 8 * (s + (k - d)) + i by omega]
  · exact ofBytes_congr fun i hi => blit_out (by omega)

/-- A page has as many check bytes as words. -/
theorem pageSize_words (p : ℕ) : p * pageSize = 8 * (p * 512) ∧ p * pageSize / 8 = p * 512 := by
  simp only [pageSize]
  omega

theorem copyPage_eccMatches (h : c.EccMatches) (dst src : ℕ) : (c.copyPage dst src).EccMatches := by
  intro k
  have hword : (c.copyPage dst src).word k = if dst * 512 ≤ k ∧ k < dst * 512 + 512
      then c.word (src * 512 + (k - dst * 512)) else c.word k := by
    rw [word, copyPage]
    simp only
    rw [(pageSize_words dst).1, (pageSize_words src).1]
    exact ofBytes_blit c.memoryBuffer c.memoryBuffer (dst * 512) (src * 512) 512 k
  rw [hword, copyPage]
  simp only [blit]
  rw [(pageSize_words dst).2, (pageSize_words src).2, show pageSize / 8 = 512 from rfl]
  split_ifs
  · exact h _
  · exact h k

theorem zeroPage_eccMatches (h : c.EccMatches) (dst : ℕ) : (c.zeroPage dst).EccMatches := by
  intro k
  have hword : (c.zeroPage dst).word k = if dst * 512 ≤ k ∧ k < dst * 512 + 512
      then 0 else c.word k := by
    have hzero : ofBytes (fun _ => 0) = 0 := by decide
    rw [word, zeroPage]
    simp only
    rw [(pageSize_words dst).1, ← hzero]
    exact ofBytes_blit c.memoryBuffer (fun _ => 0) (dst * 512) 0 512 k
  rw [hword, zeroPage]
  simp only [blit]
  rw [(pageSize_words dst).2, show pageSize / 8 = 512 from rfl]
  split_ifs
  · exact calculateECC_zero.symm
  · exact h k

/-- **The recomputation loop** assigns the check bytes of the chunks `first, …, last`. -/
theorem recomputeEcc_spec (c : FTJController) (first last : ℕ) :
    (c.recomputeEcc first last).memoryBuffer = c.memoryBuffer ∧
      ∀ k, (c.recomputeEcc first last).eccBuffer k =
        if first ≤ k ∧ k ≤ last then calculateECC (c.word k) else c.eccBuffer k := by
  rcases Nat.le_total (last + 1) first with hle | hle
  · rw [recomputeEcc, forLoop_empty hle]
    exact ⟨rfl, fun k => (if_neg (by omega)).symm⟩
  · have h := forLoop_induct (s := c)
      (f := fun k (c : FTJController) =>
        { c with eccBuffer := Function.update c.eccBuffer k (calculateECC (c.word k)) })
      (motive := fun i c' => c'.memoryBuffer = c.memoryBuffer ∧ ∀ k, c'.eccBuffer k =
        if first ≤ k ∧ k < i then calculateECC (c.word k) else c.eccBuffer k)
      hle ⟨rfl, fun k => (if_neg (by omega)).symm⟩ ?_
    · exact ⟨h.1, fun k => (h.2 k).trans (if_congr (by omega) rfl rfl)⟩
    · rintro i t hlo - ⟨hm, he⟩
      refine ⟨hm, fun k => ?_⟩
      by_cases hk : k = i
      · subst hk
        rw [if_pos ⟨hlo, Nat.lt_succ_self k⟩]
        refine (Function.update_self ..).trans ?_
        rw [word, hm, word]
      · refine (Function.update_of_ne hk ..).trans ((he k).trans ?_)
        exact if_congr (by omega) rfl rfl

/-- Programming recomputes the check byte of every word it touches. -/
theorem programBytes_eccMatches (h : c.EccMatches) (q d : ℕ) (src : ℕ → Byte) (s n : ℕ) :
    (c.programBytes q d src s n).EccMatches := by
  intro k
  obtain ⟨hm, he⟩ := recomputeEcc_spec
    { c with memoryBuffer := blit c.memoryBuffer (q * pageSize + d) src s n }
    ((q * pageSize + d) / 8) ((q * pageSize + d + n - 1) / 8)
  rw [programBytes]
  refine (he k).trans ?_
  split_ifs with hk
  · rw [word, word, hm]
  · have hword : FTJController.word
        { c with memoryBuffer := blit c.memoryBuffer (q * pageSize + d) src s n } k = c.word k :=
      ofBytes_congr fun i hi => blit_out (by omega)
    rw [word, hm]
    exact (h k).trans (congrArg calculateECC hword.symm)

/-! ### Garbage collection and writing -/

theorem allocate_eccMatches (h : c.EccMatches) (preferHot : Bool) :
    (c.allocatePhysicalPage preferHot).2.EccMatches := by
  rcases allocate_cases c preferHot with ⟨heq, -⟩ | ⟨q, hot, cold, heq, -⟩ <;> rw [heq]
  · exact h
  · exact h.congr rfl rfl

theorem relocatePage_eccMatches (h : c.EccMatches) (p : ℕ) : (c.relocatePage p).EccMatches := by
  have halloc := allocate_eccMatches h false
  unfold relocatePage
  split_ifs
  · cases hc : c.allocatePhysicalPage false with
    | mk q c' =>
      rw [hc] at halloc
      simp only
      split_ifs
      · exact halloc
      · exact (copyPage_eccMatches halloc q.toNat p).congr rfl rfl
      · exact copyPage_eccMatches halloc q.toNat p
  · exact h

theorem erasePage_eccMatches (h : c.EccMatches) (p : ℕ) : (c.erasePage p).EccMatches := by
  unfold erasePage
  simp only
  split_ifs
  · exact h
  · exact h.congr rfl rfl
  · exact h.congr rfl rfl

theorem storePage_eccMatches (h : c.EccMatches) (lp q d : ℕ) (src : ℕ → Byte) (s n : ℕ) :
    (c.storePage lp q d src s n).EccMatches := by
  have hdist : ∀ c₁ : FTJController, c₁.EccMatches → (c₁.disturbNeighbor q).EccMatches := by
    intro c₁ h₁
    obtain ⟨dd, t, heq⟩ := disturbNeighbor_eq c₁ q
    rw [heq]
    exact h₁.congr rfl rfl
  have hrest : ∀ c₁ : FTJController, c₁.EccMatches →
      (((c₁.programBytes q d src s n).mapPage lp q (int32 lp)).disturbNeighbor q).EccMatches := by
    intro c₁ h₁
    have hprog := programBytes_eccMatches h₁ q d src s n
    have hmap : ((c₁.programBytes q d src s n).mapPage lp q (int32 lp)).EccMatches :=
      EccMatches.congr hprog rfl rfl
    exact hdist _ hmap
  unfold storePage
  simp only
  by_cases hold : 0 ≤ (if lp < c.pageCount then c.l2pMap lp else -1)
  · rw [if_pos hold, if_pos hold]
    exact EccMatches.congr (hrest _ (copyPage_eccMatches h q _)) rfl rfl
  · rw [if_neg hold, if_neg hold]
    exact hrest _ (zeroPage_eccMatches h q)

theorem heat_eccMatches (h : c.EccMatches) (lp : ℕ) : (c.heat lp).EccMatches := by
  unfold heat
  split_ifs
  · exact h.congr rfl rfl
  · exact h

theorem eccMatches_stable (endByte : ℕ) : WriteStable endByte EccMatches where
  heat _ lp h := heat_eccMatches h lp
  allocate _ preferHot h := allocate_eccMatches h preferHot
  relocate _ p _ h := relocatePage_eccMatches h p
  erase _ p _ h := erasePage_eccMatches h p
  resetCount _ _ h := h.congr rfl rfl
  store _ lp q d src s n _ h := storePage_eccMatches h lp q d src s n
  countWrite _ h := h.congr rfl rfl

/-- **Every write keeps the match.** -/
theorem write_eccMatches (h : c.EccMatches) (offset : ℕ) (src : Option (ℕ → Byte)) (size : ℕ) :
    (c.write offset src size).2.EccMatches :=
  WriteStable.write (fun endByte _ => eccMatches_stable endByte) h ⟨offset, src, size⟩

/-- **The check bytes match after every run of writes.** -/
theorem run_eccMatches (capacity : ℕ) (ws : List WriteCall) :
    (run writeNext (construct capacity) ws).EccMatches :=
  run_invariant (P := fun _ => True) (construct_eccMatches capacity)
    (fun _ _ h _ => write_eccMatches h _ _ _) ws fun _ _ => trivial

end FTJController

end FtjSsdSim.Engine
