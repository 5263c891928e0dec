import Mathlib
import FtjSsdSim.Library.ByteStore
import FtjSsdSim.Library.Loop
import FtjSsdSim.Engine.Collection

/-!
# Writing

`contentOf` reads the logical pages as one byte address space, and `Write` is then a `blit`:

* `storePage_remapped` — the part of a write that falls into one logical page puts that page, with
  the new bytes in place, on a fresh physical page;
* `writeLoop_represents` — the page loop writes a prefix of the bytes;
* `write_represents` — a write that returns `true` has written exactly its bytes, and nothing else
  has changed.
-/

namespace FtjSsdSim.Engine

open FtjSsdSim.Library

namespace FTJController

variable {c : FTJController} {v : ℕ → Option Page}

/-! ### The byte address space -/

/-- The bytes of the logical address space; an unmapped page reads as zeros. -/
def contentOf (v : ℕ → Option Page) (a : ℕ) : Byte :=
  match v (a / pageSize) with
  | some x => x ⟨a % pageSize, Nat.mod_lt _ (by decide)⟩
  | none => 0

/-- Page `old` with `n` bytes from offset `d` on replaced. -/
def patchPage (old : Option Page) (d : ℕ) (src : ℕ → Byte) (s n : ℕ) : Page := fun r =>
  if d ≤ r.val ∧ r.val < d + n then src (s + (r.val - d)) else (old.map (· r)).getD 0

/-- Patching one page is patching the address space. -/
theorem contentOf_patchPage (lp d s n : ℕ) (src : ℕ → Byte) (hd : d + n ≤ pageSize) :
    contentOf (Function.update v lp (some (patchPage (v lp) d src s n))) =
      blit (contentOf v) (lp * pageSize + d) src s n := by
  funext a
  have hmod := Nat.mod_lt a (show 0 < pageSize by decide)
  have hdiv := Nat.div_add_mod a pageSize
  simp only [pageSize] at hd hmod hdiv
  by_cases hlp : a / pageSize = lp
  · have hval : a = lp * pageSize + a % pageSize := by
      rw [← hlp]
      simp only [pageSize]
      omega
    rw [contentOf, hlp, Function.update_self]
    simp only [patchPage]
    by_cases hin : d ≤ a % pageSize ∧ a % pageSize < d + n
    · rw [if_pos hin, blit_in (by omega) (by omega)]
      exact congrArg src (by omega)
    · rw [if_neg hin, blit_out (by omega), contentOf, hlp]
      cases v lp <;> rfl
  · rw [contentOf, Function.update_of_ne hlp, blit_out]
    · rfl
    · simp only [pageSize] at hlp ⊢
      omega

/-! ### One logical page -/

theorem heat_same (c : FTJController) (lp : ℕ) :
    SameTables c (c.heat lp) ∧ (c.heat lp).memoryBuffer = c.memoryBuffer := by
  unfold heat
  split_ifs <;> exact ⟨⟨rfl, rfl, rfl, rfl, rfl, rfl⟩, rfl⟩

/-- The page that logical page `lp` had before, or `-1`. -/
def oldPage (c : FTJController) (lp : ℕ) : ℤ := if lp < c.pageCount then c.l2pMap lp else -1

/-- What a store does to the tables. -/
def remap (c : FTJController) (lp q : ℕ) : FTJController :=
  if 0 ≤ c.oldPage lp then (c.mapPage lp q (int32 lp)).invalidatePage (c.oldPage lp).toNat
  else c.mapPage lp q (int32 lp)

/-- Storing a page is a change of the tables and one of the data and the disturb counters. -/
theorem storePage_eq (c : FTJController) (lp q d : ℕ) (src : ℕ → Byte) (s n : ℕ) :
    ∃ memory ecc disturbs halfSelect, c.storePage lp q d src s n = { c.remap lp q with
      memoryBuffer := memory
      eccBuffer := ecc
      pageDisturbs := disturbs
      totalHalfSelectDisturbs := halfSelect } := by
  have hprog : ∀ c₁ : FTJController, ∃ e, c₁.programBytes q d src s n =
      { c₁ with
        memoryBuffer := blit c₁.memoryBuffer (q * pageSize + d) src s n, eccBuffer := e } :=
    fun c₁ => recomputeEcc_eq _ _ _
  have hold : (if lp < c.pageCount then c.l2pMap lp else -1) = c.oldPage lp := rfl
  unfold storePage remap
  simp only [hold]
  by_cases h0 : 0 ≤ c.oldPage lp
  · rw [if_pos h0, if_pos h0, if_pos h0]
    obtain ⟨e, he⟩ := hprog (c.copyPage q (c.oldPage lp).toNat)
    rw [he]
    obtain ⟨dd, t, hdt⟩ := disturbNeighbor_eq (FTJController.mapPage _ lp q (int32 lp)) q
    rw [hdt]
    exact ⟨_, _, _, _, rfl⟩
  · rw [if_neg h0, if_neg h0, if_neg h0]
    obtain ⟨e, he⟩ := hprog (c.zeroPage q)
    rw [he]
    obtain ⟨dd, t, hdt⟩ := disturbNeighbor_eq (FTJController.mapPage _ lp q (int32 lp)) q
    rw [hdt]
    exact ⟨_, _, _, _, rfl⟩

/-- What storing a page leaves alone: the free lists, the hot counters and all that the constructor
sets once. -/
theorem storePage_frame (c : FTJController) (lp q d : ℕ) (src : ℕ → Byte) (s n : ℕ) :
    ∃ memory ecc l2p valid owner counts writes disturbs halfSelect physical,
      c.storePage lp q d src s n = { c with
        memoryBuffer := memory
        eccBuffer := ecc
        l2pMap := l2p
        physValid := valid
        physOwnerLba := owner
        blockValidCount := counts
        pageWrites := writes
        pageDisturbs := disturbs
        totalHalfSelectDisturbs := halfSelect
        totalPhysicalBytesWritten := physical } := by
  obtain ⟨_, _, _, _, heq⟩ := storePage_eq c lp q d src s n
  rw [heq, remap]
  split_ifs <;> exact ⟨_, _, _, _, _, _, _, _, _, _, rfl⟩

theorem heat_represents (h : c.Represents v) (lp : ℕ) : (c.heat lp).Represents v :=
  h.of_same (heat_same c lp).1 (heat_same c lp).2

/-- The erase loops that `claimPage` runs. -/
def claimErases (c : FTJController) (preferHot : Bool) : List (FTJController × ℕ) :=
  let (newPhys, c) := c.allocatePhysicalPage preferHot
  if newPhys < 0 then c.gcErases c.gcTargetFree else []

/-- **Claiming a page** either fails or hands out a fresh page. -/
theorem claimPage_represents (h : c.Represents v) (preferHot : Bool)
    (hclean : ∀ e ∈ c.claimErases preferHot, EraseClean e) :
    ∃ (q : ℤ) (c' : FTJController), c.claimPage preferHot = (q, c') ∧ c'.Represents v ∧
      c'.pageCount = c.pageCount ∧ (q < 0 ∨ ∃ p : ℕ, q = p ∧ c'.Fresh p) := by
  rcases h.allocate preferHot with ⟨hnone, -⟩ | ⟨q, hot, cold, heq, hrep, hfresh⟩
  · rw [claimErases, hnone] at hclean
    obtain ⟨hgc, hcount⟩ := runGC_represents h c.gcTargetFree hclean
    have hclaim : c.claimPage preferHot =
        (c.runGC c.gcTargetFree).allocatePhysicalPage preferHot := by
      simp [claimPage, hnone]
    rw [hclaim]
    rcases hgc.allocate preferHot with ⟨hnone', -⟩ | ⟨q, hot, cold, heq, hrep, hfresh⟩
    · exact ⟨_, _, hnone', hgc, hcount, .inl (by decide)⟩
    · exact ⟨_, _, heq, hrep, hcount, .inr ⟨q, rfl, hfresh⟩⟩
  · refine ⟨q, c.withFree hot cold, ?_, hrep, rfl, .inr ⟨q, rfl, hfresh⟩⟩
    simp only [claimPage, heq]
    exact if_neg (by omega)

/-- **Storing into a fresh page** moves the logical page there, with the new bytes in place. -/
theorem storePage_remapped (h : c.Represents v) {lp q d n : ℕ} (s : ℕ) (src : ℕ → Byte)
    (hlp : lp < c.pageCount) (hq : c.Fresh q) (hd : d + n ≤ pageSize) :
    Remapped c (c.storePage lp q d src s n) lp q (patchPage (v lp) d src s n) := by
  have hint : int32 lp = lp := int32_natCast (hlp.trans h.consistent.small)
  have hprog : ∀ c₁ : FTJController, ∃ e, c₁.programBytes q d src s n =
      { c₁ with
        memoryBuffer := blit c₁.memoryBuffer (q * pageSize + d) src s n, eccBuffer := e } :=
    fun c₁ => recomputeEcc_eq _ _ _
  rcases h.consistent.range lp hlp with hold | ⟨p, hp, hold⟩
  · -- the logical page is new: the fresh page starts out zeroed
    have hv : v lp = none := by
      rw [← h.view, PageMap.view]
      simp [pageMap, hold]
    obtain ⟨e, he⟩ := hprog (c.zeroPage q)
    obtain ⟨dd, t, hdt⟩ := disturbNeighbor_eq (((c.zeroPage q).programBytes q d src s n).mapPage lp
      q lp) q
    have heq : c.storePage lp q d src s n =
        (((c.zeroPage q).programBytes q d src s n).mapPage lp q lp).disturbNeighbor q := by
      simp [storePage, hlp, hold, hint]
    have hnot : ∀ r : ℕ, (r : ℤ) ≠ c.l2pMap lp := fun r => by rw [hold]; omega
    rw [heq, hdt, he]
    refine ⟨rfl, rfl, rfl, Function.update_self .., fun r _ hr => absurd hr (hnot r),
      fun r hr _ => Function.update_of_ne hr .., Function.update_self ..,
      fun r hr _ => Function.update_of_ne hr .., rfl, ?_, ?_⟩
    · funext r
      refine (pageBytes_blit_self r).trans ?_
      rw [patchPage, hv]
      exact if_congr Iff.rfl rfl (pageBytes_blit_page (f := fun _ => 0) (s := 0) r)
    · exact fun r hr => (pageBytes_blit_ne hr hd).trans
        (pageBytes_blit_page_ne (f := fun _ => 0) (s := 0) hr)
  · -- the logical page moves: the fresh page starts out as a copy
    have hne : p ≠ q := h.consistent.coherent.tables.mapped_ne_fresh hlp hold hq
    have hv : v lp = some (pageBytes c.memoryBuffer p) := by
      rw [← h.view, PageMap.view, h.consistent.coherent.tables.map_eq_some.mpr ⟨hlp, hp, hold⟩]
      rfl
    obtain ⟨e, he⟩ := hprog (c.copyPage q p)
    obtain ⟨dd, t, hdt⟩ := disturbNeighbor_eq (((c.copyPage q p).programBytes q d src s n).mapPage
      lp q lp) q
    have heq : c.storePage lp q d src s n =
        ((((c.copyPage q p).programBytes q d src s n).mapPage lp q lp).disturbNeighbor
          q).invalidatePage p := by
      simp [storePage, hlp, hold, hint]
    have hiff : ∀ r : ℕ, (r : ℤ) = c.l2pMap lp ↔ r = p := fun r => by rw [hold]; omega
    rw [heq, hdt, he]
    refine ⟨rfl, rfl, rfl, ?_, ?_, ?_, ?_, ?_, rfl, ?_, ?_⟩
    · exact (Function.update_of_ne hne.symm ..).trans (Function.update_self ..)
    · intro r _ hr
      obtain rfl := (hiff r).mp hr
      exact Function.update_self ..
    · intro r hrq hr
      have hrp : r ≠ p := fun h => hr ((hiff r).mpr h)
      exact (Function.update_of_ne hrp ..).trans (Function.update_of_ne hrq ..)
    · exact (Function.update_of_ne hne.symm ..).trans (Function.update_self ..)
    · intro r hrq hr
      have hrp : r ≠ p := fun h => hr ((hiff r).mpr h)
      exact (Function.update_of_ne hrp ..).trans (Function.update_of_ne hrq ..)
    · funext r
      refine (pageBytes_blit_self r).trans ?_
      rw [patchPage, hv]
      exact if_congr Iff.rfl rfl (pageBytes_blit_page r)
    · exact fun r hr => (pageBytes_blit_ne hr hd).trans (pageBytes_blit_page_ne hr)

/-! ### The page loop -/

/-- The erase loops that the page loop of `Write` runs. -/
def loopErases (c : FTJController) (src : ℕ → Byte) (startByte endByte written : ℕ) :
    List (FTJController × ℕ) :=
  if startByte < endByte then
    let lp := startByte / pageSize
    let pageOffset := startByte % pageSize
    let toWrite := min (endByte - startByte) (pageSize - pageOffset)
    let c := c.heat lp
    let (newPhys, c') := c.claimPage (c.prefersHot lp)
    c.claimErases (c.prefersHot lp) ++
      if newPhys < 0 then []
      else
        loopErases (c'.storePage lp newPhys.toNat pageOffset src written toWrite) src
          (startByte + toWrite) endByte (written + toWrite)
  else []
termination_by endByte - startByte
decreasing_by
  have := Nat.mod_lt startByte (show 0 < 4096 by decide)
  simp only [pageSize]
  omega

/-- The erase loops that `Write` runs. -/
def writeErases (c : FTJController) (offset : ℕ) (src : Option (ℕ → Byte)) (size : ℕ) :
    List (FTJController × ℕ) :=
  match src with
  | none => []
  | some src =>
    if size > c.capacity ∨ offset > c.capacity - size then []
    else
      c.loopErases src offset (offset + size) 0 ++
        match c.writeLoop src offset (offset + size) 0 with
        | (false, _) => []
        | (true, c) =>
          let c := { c with totalWrites := c.totalWrites + 1 }
          if c.freeCount < c.gcLowWatermark then c.gcErases c.gcTargetFree else []

section

variable {src : ℕ → Byte} {startByte endByte written : ℕ} {q : ℤ} {c' : FTJController}

/-- One round of the page loop, by what `claimPage` answers. -/
theorem writeLoop_round (hlt : startByte < endByte)
    (hclaim : (c.heat (startByte / pageSize)).claimPage
      ((c.heat (startByte / pageSize)).prefersHot (startByte / pageSize)) = (q, c')) :
    c.writeLoop src startByte endByte written =
      if q < 0 then (false, c')
      else
        (c'.storePage (startByte / pageSize) q.toNat (startByte % pageSize) src written
          (min (endByte - startByte) (pageSize - startByte % pageSize))).writeLoop src
          (startByte + min (endByte - startByte) (pageSize - startByte % pageSize)) endByte
          (written + min (endByte - startByte) (pageSize - startByte % pageSize)) := by
  rw [writeLoop, if_pos hlt]
  simp only [hclaim]

theorem loopErases_round (hlt : startByte < endByte)
    (hclaim : (c.heat (startByte / pageSize)).claimPage
      ((c.heat (startByte / pageSize)).prefersHot (startByte / pageSize)) = (q, c')) :
    c.loopErases src startByte endByte written =
      (c.heat (startByte / pageSize)).claimErases
        ((c.heat (startByte / pageSize)).prefersHot (startByte / pageSize)) ++
      if q < 0 then []
      else
        (c'.storePage (startByte / pageSize) q.toNat (startByte % pageSize) src written
          (min (endByte - startByte) (pageSize - startByte % pageSize))).loopErases src
          (startByte + min (endByte - startByte) (pageSize - startByte % pageSize)) endByte
          (written + min (endByte - startByte) (pageSize - startByte % pageSize)) := by
  rw [loopErases, if_pos hlt]
  simp only [hclaim]

end

/-- **The page loop** writes a prefix of the bytes: all of them when it returns `true`, and whole
pages of them when it returns `false`. -/
theorem writeLoop_represents (h : c.Represents v) (src : ℕ → Byte) (startByte endByte written : ℕ)
    (hend : endByte ≤ c.pageCount * pageSize)
    (hclean : ∀ e ∈ c.loopErases src startByte endByte written, EraseClean e) :
    ∃ v' k, (c.writeLoop src startByte endByte written).2.Represents v' ∧
      (c.writeLoop src startByte endByte written).2.pageCount = c.pageCount ∧
      contentOf v' = blit (contentOf v) startByte src written k ∧ k ≤ endByte - startByte ∧
      ((c.writeLoop src startByte endByte written).1 = true → k = endByte - startByte) ∧
      ((c.writeLoop src startByte endByte written).1 = false →
        k < endByte - startByte ∧ (k = 0 ∨ pageSize ∣ startByte + k)) := by
  induction c, startByte, written using writeLoop.induct src endByte generalizing v with
  | case1 c startByte written hlt lp c₁ q c₂ hclaim =>
    rename_i hneg
    rw [loopErases_round hlt hclaim] at hclean
    obtain ⟨q', c', hclaim', hrep, hcount, -⟩ := claimPage_represents (heat_represents h lp)
      (c₁.prefersHot lp) fun e he => hclean e (List.mem_append_left _ he)
    obtain ⟨rfl, rfl⟩ : q' = q ∧ c' = c₂ := by simpa using hclaim'.symm.trans hclaim
    rw [writeLoop_round hlt hclaim, if_pos hneg]
    exact ⟨v, 0, hrep, hcount.trans (heat_same c lp).1.pageCount, (blit_zero ..).symm,
      Nat.zero_le _, (fun hf => by cases hf), fun _ => ⟨Nat.sub_pos_of_lt hlt, .inl rfl⟩⟩
  | case2 c startByte written hlt lp pageOffset toWrite c₁ q c₂ hclaim hneg =>
    rename_i ih
    rw [loopErases_round hlt hclaim, if_neg hneg] at hclean
    obtain ⟨q', c', hclaim', hrep, hcount, hfresh⟩ := claimPage_represents (heat_represents h lp)
      (c₁.prefersHot lp) fun e he => hclean e (List.mem_append_left _ he)
    obtain ⟨rfl, rfl⟩ : q' = q ∧ c' = c₂ := by simpa using hclaim'.symm.trans hclaim
    obtain ⟨p, rfl, hfr⟩ := hfresh.resolve_left hneg
    simp only [Int.toNat_natCast] at ih hclean
    have hcount' : c'.pageCount = c.pageCount := hcount.trans (heat_same c lp).1.pageCount
    have hmod := Nat.mod_lt startByte (show 0 < pageSize by decide)
    have hlp : lp < c'.pageCount := by
      rw [hcount']
      simp only [lp, pageSize] at hend ⊢
      omega
    have hd : pageOffset + toWrite ≤ pageSize := by
      simp only [pageOffset, toWrite, pageSize] at hmod ⊢
      omega
    have hrem := storePage_remapped hrep written src hlp hfr hd
    obtain ⟨v', k, hrep', hcount'', hcontent, hle, hall, hpart⟩ := ih
      (hrem.represents hrep hfr hlp) (by rw [hrem.pageCount, hcount']; exact hend)
      fun e he => hclean e (List.mem_append_right _ he)
    have hto : toWrite ≤ endByte - startByte := min_le_left ..
    have hstart : lp * pageSize + pageOffset = startByte := by
      simp only [lp, pageOffset, pageSize]
      omega
    rw [writeLoop_round hlt hclaim, if_neg hneg, Int.toNat_natCast]
    refine ⟨v', toWrite + k, hrep', hcount''.trans (hrem.pageCount.trans hcount'), ?_, by omega,
      fun ht => by have := hall ht; omega, fun hf => ?_⟩
    · rw [hcontent, contentOf_patchPage _ _ _ _ _ hd, hstart, blit_blit]
    · -- the loop went on, so this round ended at the end of its page
      obtain ⟨hlt', hpage⟩ := hpart hf
      refine ⟨by omega, .inr ?_⟩
      have hround : startByte + toWrite = (lp + 1) * pageSize := by
        simp only [lp, pageOffset, toWrite, pageSize] at *
        omega
      rw [← Nat.add_assoc]
      rcases hpage with rfl | hpage
      · exact ⟨lp + 1, by rw [Nat.add_zero, hround, Nat.mul_comm]⟩
      · exact hpage
  | case3 c startByte written hge =>
    rw [writeLoop, if_neg hge]
    exact ⟨v, 0, h, rfl, (blit_zero ..).symm, Nat.zero_le _, fun _ => by omega,
      fun hf => by cases hf⟩

/-- A write in range, by what its page loop answers. -/
theorem write_inRange {offset size : ℕ} {src : ℕ → Byte}
    (hrange : ¬ (size > c.capacity ∨ offset > c.capacity - size)) :
    c.write offset (some src) size =
      match c.writeLoop src offset (offset + size) 0 with
      | (false, c) => (false, c)
      | (true, c) =>
        let c := { c with totalWrites := c.totalWrites + 1 }
        if c.freeCount < c.gcLowWatermark then (true, c.runGC c.gcTargetFree) else (true, c) :=
  if_neg hrange

/-- **A write** whose erase loops are clean writes a prefix of its bytes: all of them when it returns
`true`, and whole pages of them when it returns `false`.  Nothing else changes in the address
space. -/
theorem write_represents (h : c.Represents v) (offset : ℕ) (src : ℕ → Byte) (size : ℕ)
    (hclean : ∀ e ∈ c.writeErases offset (some src) size, EraseClean e) :
    ∃ v' k, (c.write offset (some src) size).2.Represents v' ∧
      (c.write offset (some src) size).2.pageCount = c.pageCount ∧
      contentOf v' = blit (contentOf v) offset src 0 k ∧
      ((c.write offset (some src) size).1 = true → k = size) ∧
      ((c.write offset (some src) size).1 = false →
        k = 0 ∨ (k < size ∧ offset + size ≤ c.capacity ∧ pageSize ∣ offset + k)) := by
  by_cases hrange : size > c.capacity ∨ offset > c.capacity - size
  · have hwrite : c.write offset (some src) size = (false, c) := if_pos hrange
    rw [hwrite]
    exact ⟨v, 0, h, rfl, (blit_zero ..).symm, (fun hf => by cases hf), fun _ => .inl rfl⟩
  · have hend : offset + size ≤ c.pageCount * pageSize := by
      rw [← h.consistent.capacity_eq]
      omega
    rw [writeErases, if_neg hrange] at hclean
    obtain ⟨v', k, hrep, hcount, hcontent, -, hall, hpart⟩ := writeLoop_represents h src offset
      (offset + size) 0 hend fun e he => hclean e (List.mem_append_left _ he)
    have hwrite : c.write offset (some src) size = _ := write_inRange hrange
    cases hloop : c.writeLoop src offset (offset + size) 0 with
    | mk ok c' =>
      rw [hloop] at hrep hcount hall hpart hclean hwrite
      cases ok with
      | false =>
        rw [hwrite]
        obtain ⟨hlt, hpage⟩ := hpart rfl
        exact ⟨v', k, hrep, hcount, hcontent, (fun hf => by cases hf),
          fun _ => hpage.imp_right fun hdvd => ⟨by omega, by omega, hdvd⟩⟩
      | true =>
        have hk : k = size := by have := hall rfl; omega
        have hrep' : ({ c' with totalWrites := c'.totalWrites + 1 } : FTJController).Represents v' :=
          hrep.of_same ⟨rfl, rfl, rfl, rfl, rfl, rfl⟩ rfl
        rw [hwrite]
        simp only at hclean ⊢
        split_ifs at hclean ⊢ with hlow
        · obtain ⟨hgc, hcount'⟩ := runGC_represents hrep' _
            fun e he => hclean e (List.mem_append_right _ he)
          exact ⟨v', k, hgc, hcount'.trans hcount, hcontent, fun _ => hk, fun hf => by cases hf⟩
        · exact ⟨v', k, hrep', hcount, hcontent, fun _ => hk, fun hf => by cases hf⟩

end FTJController

end FtjSsdSim.Engine
