import Mathlib
import FtjSsdSim.Library.Loop
import FtjSsdSim.Engine.FreePages
import FtjSsdSim.Engine.WriteRuns

/-!
# Writes do not look at the data

What `Write` and `RunGC` decide is read off the tables, the free lists and the hot counters.  With
another content of the buffers and other statistics (`withData`) a write returns the same, and
leaves the same tables (`SameBut.write`).

So a write of whole pages whose rounds are known up to the data can be followed state by state
(`pages_write`), and so can its erase loops (`pages_writeErases`).
-/

namespace FtjSsdSim.Engine

open FtjSsdSim.Library

namespace FTJController

/-- The stored data and what is only counted. -/
structure Data where
  memoryBuffer : ℕ → Byte
  eccBuffer : ℕ → Byte
  pageWrites : ℕ → BitVec 32
  pageDisturbs : ℕ → BitVec 32
  totalHalfSelectDisturbs : BitVec 64
  totalWrites : BitVec 64
  totalPhysicalBytesWritten : BitVec 64

/-- The controller with other data. -/
def withData (c : FTJController) (d : Data) : FTJController :=
  { c with
    memoryBuffer := d.memoryBuffer
    eccBuffer := d.eccBuffer
    pageWrites := d.pageWrites
    pageDisturbs := d.pageDisturbs
    totalHalfSelectDisturbs := d.totalHalfSelectDisturbs
    totalWrites := d.totalWrites
    totalPhysicalBytesWritten := d.totalPhysicalBytesWritten }

/-- The two controllers differ in their data only. -/
def SameBut (c c' : FTJController) : Prop := ∃ d, c' = c.withData d

theorem SameBut.refl (c : FTJController) : SameBut c c :=
  ⟨⟨c.memoryBuffer, c.eccBuffer, c.pageWrites, c.pageDisturbs, c.totalHalfSelectDisturbs,
    c.totalWrites, c.totalPhysicalBytesWritten⟩, rfl⟩

theorem SameBut.trans {c c' c'' : FTJController} (h : SameBut c c') (h' : SameBut c' c'') :
    SameBut c c'' := by
  obtain ⟨d, rfl⟩ := h
  obtain ⟨d', rfl⟩ := h'
  exact ⟨d', rfl⟩

variable {c c' : FTJController}

/-! ### The steps -/

theorem SameBut.heat (h : SameBut c c') (lp : ℕ) : SameBut (c.heat lp) (c'.heat lp) := by
  obtain ⟨d, rfl⟩ := h
  have hcount : (c.withData d).pageCount = c.pageCount := rfl
  rw [FTJController.heat, FTJController.heat, hcount]
  split_ifs <;> exact ⟨d, rfl⟩

theorem SameBut.allocate (h : SameBut c c') (preferHot : Bool) :
    (c'.allocatePhysicalPage preferHot).1 = (c.allocatePhysicalPage preferHot).1 ∧
      SameBut (c.allocatePhysicalPage preferHot).2 (c'.allocatePhysicalPage preferHot).2 := by
  obtain ⟨d, rfl⟩ := h
  have hhot : (c.withData d).popHot = c.popHot.map fun x => (x.1, x.2.withData d) := by
    simp only [popHot, Option.map_map]
    rfl
  have hcold : (c.withData d).popCold = c.popCold.map fun x => (x.1, x.2.withData d) := by
    simp only [popCold, Option.map_map]
    rfl
  simp only [allocatePhysicalPage, hhot, hcold]
  cases preferHot <;> cases c.popHot <;> cases c.popCold <;> exact ⟨rfl, d, rfl⟩

theorem SameBut.relocatePage (h : SameBut c c') (p : ℕ) :
    SameBut (c.relocatePage p) (c'.relocatePage p) := by
  obtain ⟨hq, halloc⟩ := h.allocate false
  obtain ⟨d, rfl⟩ := h
  unfold FTJController.relocatePage
  generalize c.allocatePhysicalPage false = r at hq halloc ⊢
  generalize (c.withData d).allocatePhysicalPage false = r' at hq halloc ⊢
  obtain ⟨q, e⟩ := r
  obtain ⟨q', e'⟩ := r'
  obtain rfl : q' = q := hq
  obtain ⟨d', rfl⟩ : ∃ d', e' = e.withData d' := halloc
  have hvalid : (c.withData d).physValid p = c.physValid p := rfl
  have howner : (c.withData d).physOwnerLba p = c.physOwnerLba p := rfl
  have hcount : ((e.withData d').copyPage q'.toNat p).pageCount =
      (e.copyPage q'.toNat p).pageCount := rfl
  simp only [hvalid, howner, hcount]
  split_ifs
  · exact ⟨d', rfl⟩
  · exact ⟨⟨_, _, _, _, _, _, _⟩, rfl⟩
  · exact ⟨⟨_, _, _, _, _, _, _⟩, rfl⟩
  · exact ⟨d, rfl⟩

theorem SameBut.erasePage (h : SameBut c c') (p : ℕ) :
    SameBut (c.erasePage p) (c'.erasePage p) := by
  obtain ⟨d, rfl⟩ := h
  have hvalid : (c.withData d).physValid = c.physValid := rfl
  have hblock : (c.withData d).physBlock = c.physBlock := rfl
  have hblocks : (c.withData d).numBlocks = c.numBlocks := rfl
  unfold FTJController.erasePage
  simp only [hvalid, hblock, hblocks]
  split_ifs <;> exact ⟨d, rfl⟩

theorem SameBut.storePage (h : SameBut c c') (lp q o : ℕ) (src : ℕ → Byte) (s n : ℕ) :
    SameBut (c.storePage lp q o src s n) (c'.storePage lp q o src s n) := by
  obtain ⟨d, rfl⟩ := h
  obtain ⟨m, e, ds, t, heq⟩ := storePage_eq c lp q o src s n
  obtain ⟨m', e', ds', t', heq'⟩ := storePage_eq (c.withData d) lp q o src s n
  have hold : (c.withData d).oldPage lp = c.oldPage lp := rfl
  rw [heq, heq', remap, remap, hold]
  split_ifs <;> exact ⟨⟨m', e', _, ds', t', _, _⟩, rfl⟩

theorem SameBut.physValid (h : SameBut c c') : c'.physValid = c.physValid := by
  obtain ⟨d, rfl⟩ := h
  rfl

theorem SameBut.freePhysicalPagesCold (h : SameBut c c') :
    c'.freePhysicalPagesCold = c.freePhysicalPagesCold := by
  obtain ⟨d, rfl⟩ := h
  rfl

/-! ### Collections -/

theorem SameBut.freeCount (h : SameBut c c') : c'.freeCount = c.freeCount := by
  obtain ⟨d, rfl⟩ := h
  rfl

theorem SameBut.selectVictim (h : SameBut c c') : c'.selectVictim = c.selectVictim := by
  obtain ⟨d, rfl⟩ := h
  rfl

theorem SameBut.blockEnd (h : SameBut c c') (b : ℕ) : c'.blockEnd b = c.blockEnd b := by
  obtain ⟨d, rfl⟩ := h
  rfl

theorem SameBut.moveValidPages (h : SameBut c c') (b : ℕ) :
    SameBut (c.moveValidPages b) (c'.moveValidPages b) := by
  rw [FTJController.moveValidPages, FTJController.moveValidPages, h.blockEnd]
  exact forLoop_rel h fun p _ _ _ _ ht => ht.relocatePage p

theorem SameBut.collectBlock (h : SameBut c c') (b : ℕ) :
    SameBut (c.collectBlock b) (c'.collectBlock b) := by
  have hmove := h.moveValidPages b
  have herase : SameBut ((c.moveValidPages b).eraseBlock b)
      ((c'.moveValidPages b).eraseBlock b) := by
    rw [eraseBlock, eraseBlock, hmove.blockEnd]
    exact forLoop_rel hmove fun p _ _ _ _ ht => ht.erasePage p
  obtain ⟨d, hd⟩ := herase
  rw [FTJController.collectBlock, FTJController.collectBlock]
  simp only [hd]
  exact ⟨d, rfl⟩

/-- **Garbage collection does not look at the data.** -/
theorem SameBut.runGC (h : SameBut c c') (targetFree : ℕ) :
    SameBut (c.runGC targetFree) (c'.runGC targetFree) := by
  induction c using runGC.induct targetFree generalizing c' with
  | case1 c hlow hnone =>
    rw [FTJController.runGC, if_pos hlow, hnone, FTJController.runGC,
      if_pos (h.freeCount.symm ▸ hlow), h.selectVictim, hnone]
    exact h
  | case2 c hlow b hb e =>
    rename_i hstop
    have hblock := h.collectBlock b
    rw [FTJController.runGC, if_pos hlow, hb, FTJController.runGC,
      if_pos (h.freeCount.symm ▸ hlow), h.selectVictim, hb]
    simp only [h.freeCount, hblock.freeCount]
    rw [if_pos hstop, if_pos hstop]
    exact hblock
  | case3 c hlow b hb e hgo =>
    rename_i hdone
    have hblock := h.collectBlock b
    rw [FTJController.runGC, if_pos hlow, hb, FTJController.runGC,
      if_pos (h.freeCount.symm ▸ hlow), h.selectVictim, hb]
    simp only [h.freeCount, hblock.freeCount]
    rw [if_neg hgo, if_pos hdone, if_neg hgo, if_pos hdone]
    exact hblock
  | case4 c hlow b hb e hgo hmore =>
    rename_i ih
    have hblock := h.collectBlock b
    rw [FTJController.runGC, if_pos hlow, hb, FTJController.runGC,
      if_pos (h.freeCount.symm ▸ hlow), h.selectVictim, hb]
    simp only [h.freeCount, hblock.freeCount]
    rw [if_neg hgo, if_neg hmore, if_neg hgo, if_neg hmore]
    exact ih hblock
  | case5 c hfull =>
    rw [FTJController.runGC, if_neg hfull, FTJController.runGC, if_neg (h.freeCount.symm ▸ hfull)]
    exact h

/-- What does not look at the data either holds of the erase loops of both. -/
theorem SameBut.gcErases {E : FTJController × ℕ → Prop}
    (hblind : ∀ e e' b, SameBut e e' → E (e, b) → E (e', b)) (h : SameBut c c') (targetFree : ℕ)
    (herases : ∀ e ∈ c.gcErases targetFree, E e) : ∀ e ∈ c'.gcErases targetFree, E e := by
  induction c using runGC.induct targetFree generalizing c' with
  | case1 c hlow hnone =>
    rw [FTJController.gcErases, if_pos (h.freeCount.symm ▸ hlow), h.selectVictim, hnone]
    exact fun e he => absurd he List.not_mem_nil
  | case2 c hlow b hb d =>
    rename_i hstop
    rw [FTJController.gcErases, if_pos hlow, hb] at herases
    rw [FTJController.gcErases, if_pos (h.freeCount.symm ▸ hlow), h.selectVictim, hb]
    simp only [h.freeCount, (h.collectBlock b).freeCount] at herases ⊢
    rw [if_pos hstop] at herases ⊢
    rw [List.forall_mem_singleton] at herases ⊢
    exact hblind _ _ b (h.moveValidPages b) herases
  | case3 c hlow b hb d hgo =>
    rename_i hdone
    rw [FTJController.gcErases, if_pos hlow, hb] at herases
    rw [FTJController.gcErases, if_pos (h.freeCount.symm ▸ hlow), h.selectVictim, hb]
    simp only [h.freeCount, (h.collectBlock b).freeCount] at herases ⊢
    rw [if_neg hgo, if_pos hdone] at herases ⊢
    rw [List.forall_mem_singleton] at herases ⊢
    exact hblind _ _ b (h.moveValidPages b) herases
  | case4 c hlow b hb d hgo hmore =>
    rename_i ih
    rw [FTJController.gcErases, if_pos hlow, hb] at herases
    rw [FTJController.gcErases, if_pos (h.freeCount.symm ▸ hlow), h.selectVictim, hb]
    simp only [h.freeCount, (h.collectBlock b).freeCount] at herases ⊢
    rw [if_neg hgo, if_neg hmore, List.forall_mem_cons] at herases ⊢
    exact ⟨hblind _ _ b (h.moveValidPages b) herases.1, ih (h.collectBlock b) herases.2⟩
  | case5 c hfull =>
    rw [FTJController.gcErases, if_neg (h.freeCount.symm ▸ hfull)]
    exact fun e he => absurd he List.not_mem_nil

/-! ### Writes -/

theorem SameBut.claimPage (h : SameBut c c') (preferHot : Bool) :
    (c'.claimPage preferHot).1 = (c.claimPage preferHot).1 ∧
      SameBut (c.claimPage preferHot).2 (c'.claimPage preferHot).2 := by
  obtain ⟨hq, halloc⟩ := h.allocate preferHot
  rw [FTJController.claimPage, FTJController.claimPage]
  generalize c.allocatePhysicalPage preferHot = r at hq halloc ⊢
  generalize c'.allocatePhysicalPage preferHot = r' at hq halloc ⊢
  obtain ⟨q, e⟩ := r
  obtain ⟨q', e'⟩ := r'
  obtain rfl : q' = q := hq
  have htarget : e'.gcTargetFree = e.gcTargetFree := by
    obtain ⟨d, hd⟩ : SameBut e e' := halloc
    rw [hd]
    rfl
  simp only [htarget]
  split_ifs
  · exact (SameBut.runGC halloc e.gcTargetFree).allocate preferHot
  · exact ⟨rfl, halloc⟩

theorem SameBut.prefersHot (h : SameBut c c') (lp : ℕ) : c'.prefersHot lp = c.prefersHot lp := by
  obtain ⟨d, rfl⟩ := h
  rfl

/-- The claim of a round. -/
theorem SameBut.round (h : SameBut c c') {lp : ℕ} {q : ℤ} {e : FTJController}
    (hclaim : (c.heat lp).claimPage ((c.heat lp).prefersHot lp) = (q, e)) :
    ∃ e', (c'.heat lp).claimPage ((c'.heat lp).prefersHot lp) = (q, e') ∧ SameBut e e' := by
  have hheat := h.heat lp
  obtain ⟨hq, hsame⟩ := hheat.claimPage ((c.heat lp).prefersHot lp)
  rw [hclaim] at hq hsame
  rw [hheat.prefersHot]
  exact ⟨((c'.heat lp).claimPage ((c.heat lp).prefersHot lp)).2, Prod.ext hq rfl, hsame⟩

/-- **The page loop does not look at the data.** -/
theorem SameBut.writeLoop (h : SameBut c c') (src : ℕ → Byte) (startByte endByte written : ℕ) :
    (c'.writeLoop src startByte endByte written).1 = (c.writeLoop src startByte endByte written).1 ∧
      SameBut (c.writeLoop src startByte endByte written).2
        (c'.writeLoop src startByte endByte written).2 := by
  induction c, startByte, written using writeLoop.induct src endByte generalizing c' with
  | case1 c startByte written hlt lp c₁ q e hclaim =>
    rename_i hneg
    obtain ⟨e', hclaim', hsame⟩ := h.round hclaim
    rw [writeLoop_round hlt hclaim, if_pos hneg, writeLoop_round hlt hclaim', if_pos hneg]
    exact ⟨rfl, hsame⟩
  | case2 c startByte written hlt lp pageOffset toWrite c₁ q e hclaim hneg =>
    rename_i ih
    obtain ⟨e', hclaim', hsame⟩ := h.round hclaim
    rw [writeLoop_round hlt hclaim, if_neg hneg, writeLoop_round hlt hclaim', if_neg hneg]
    exact ih (hsame.storePage lp q.toNat pageOffset src written toWrite)
  | case3 c startByte written hge =>
    rw [FTJController.writeLoop, if_neg hge, FTJController.writeLoop, if_neg hge]
    exact ⟨rfl, h⟩

/-- **A write does not look at the data.** -/
theorem SameBut.write (h : SameBut c c') (w : WriteCall) :
    writeResult (c', w) = writeResult (c, w) ∧ SameBut (c.writeNext w) (c'.writeNext w) := by
  obtain ⟨offset, src, size⟩ := w
  cases src with
  | none => exact ⟨rfl, h⟩
  | some src =>
    have hcap : c'.capacity = c.capacity := by
      obtain ⟨d, rfl⟩ := h
      rfl
    simp only [writeResult, writeNext]
    by_cases hrange : size > c.capacity ∨ offset > c.capacity - size
    · have hsame : c.write offset (some src) size = (false, c) := if_pos hrange
      have hsame' : c'.write offset (some src) size = (false, c') := if_pos (hcap.symm ▸ hrange)
      rw [hsame, hsame']
      exact ⟨rfl, h⟩
    · obtain ⟨hok, hloop⟩ := h.writeLoop src offset (offset + size) 0
      rw [write_inRange hrange, write_inRange (hcap.symm ▸ hrange)]
      generalize c.writeLoop src offset (offset + size) 0 = r at hok hloop ⊢
      generalize c'.writeLoop src offset (offset + size) 0 = r' at hok hloop ⊢
      obtain ⟨ok, e⟩ := r
      obtain ⟨ok', e'⟩ := r'
      obtain rfl : ok' = ok := hok
      cases ok' with
      | false => exact ⟨rfl, hloop⟩
      | true =>
        obtain ⟨d, rfl⟩ : ∃ d, e' = e.withData d := hloop
        have hcounted : SameBut { e with totalWrites := e.totalWrites + 1 }
            { e.withData d with totalWrites := (e.withData d).totalWrites + 1 } :=
          ⟨⟨_, _, _, _, _, _, _⟩, rfl⟩
        have hgc := hcounted.runGC e.gcTargetFree
        simp only
        split_ifs with hlow hlow' hlow'
        · exact ⟨rfl, hgc⟩
        · exact absurd hlow hlow'
        · exact absurd hlow' hlow
        · exact ⟨rfl, hcounted⟩

/-! ### Whole pages -/

/-- A round that finds a free page collects nothing, whatever the data. -/
theorem SameBut.round_of_allocate (h : SameBut c c') {lp q : ℕ} {e : FTJController}
    (halloc : (c.heat lp).allocatePhysicalPage ((c.heat lp).prefersHot lp) = ((q : ℤ), e)) :
    ∃ e', (c'.heat lp).claimPage ((c'.heat lp).prefersHot lp) = ((q : ℤ), e') ∧
      (c'.heat lp).claimErases ((c'.heat lp).prefersHot lp) = [] ∧ SameBut e e' := by
  have hheat := h.heat lp
  obtain ⟨hq, hsame⟩ := hheat.allocate ((c.heat lp).prefersHot lp)
  rw [halloc] at hq hsame
  rw [hheat.prefersHot, FTJController.claimPage, claimErases]
  generalize (c'.heat lp).allocatePhysicalPage ((c.heat lp).prefersHot lp) = r at hq hsame ⊢
  obtain ⟨q', e'⟩ := r
  obtain rfl : q' = q := hq
  have hpage : ¬ (q : ℤ) < 0 := by omega
  exact ⟨e', if_neg hpage, if_neg hpage, hsame⟩

section

variable {s t : ℕ → FTJController} {q : ℕ → ℕ} {f : FTJController} {m : ℕ}

/-- **The page loop over whole pages**, where page `k` of the loop takes `s k` to `s (k + 1)`, claiming
`q k` on the way. -/
theorem pages_loop
    (halloc : ∀ k < m, ((s k).heat k).allocatePhysicalPage (((s k).heat k).prefersHot k) =
      ((q k : ℤ), t k))
    (hstore : ∀ k < m, ∀ src d w n, SameBut (s (k + 1)) ((t k).storePage k (q k) d src w n))
    (src : ℕ → Byte) {k : ℕ} (hk : k ≤ m) (hf : SameBut (s k) f) :
    (∃ e, f.writeLoop src (k * pageSize) (m * pageSize) (k * pageSize) = (true, e) ∧
      SameBut (s m) e) ∧
      f.loopErases src (k * pageSize) (m * pageSize) (k * pageSize) = [] := by
  induction hrest : m - k generalizing k f with
  | zero =>
    obtain rfl : k = m := by omega
    rw [writeLoop, if_neg (Nat.lt_irrefl _), loopErases, if_neg (Nat.lt_irrefl _)]
    exact ⟨⟨f, rfl, hf⟩, rfl⟩
  | succ n ih =>
    have hlt : k * pageSize < m * pageSize := Nat.mul_lt_mul_of_pos_right (by omega) (by decide)
    have hdiv : k * pageSize / pageSize = k := Nat.mul_div_cancel k (by decide)
    obtain ⟨e, hclaim, hnone, he⟩ := hf.round_of_allocate (halloc k (by omega))
    rw [← hdiv] at hclaim hnone
    rw [writeLoop_round hlt hclaim, if_neg (by omega), loopErases_round hlt hclaim,
      if_neg (by omega), hnone, List.nil_append, hdiv, Int.toNat_natCast]
    have hsize : min (m * pageSize - k * pageSize) (pageSize - k * pageSize % pageSize) =
        pageSize := by
      rw [Nat.mul_mod_left, ← Nat.sub_mul]
      simp only [pageSize]
      omega
    have hstep : k * pageSize + pageSize = (k + 1) * pageSize := (Nat.succ_mul ..).symm
    rw [hsize, hstep]
    exact ih (by omega) ((hstore k (by omega) ..).trans (he.storePage ..)) (by omega)

/-- **A write of the first `m` pages** ends in `s m`, but for the data, or in the collection of it. -/
theorem pages_write
    (halloc : ∀ k < m, ((s k).heat k).allocatePhysicalPage (((s k).heat k).prefersHot k) =
      ((q k : ℤ), t k))
    (hstore : ∀ k < m, ∀ src d w n, SameBut (s (k + 1)) ((t k).storePage k (q k) d src w n))
    (src : ℕ → Byte) (hf : SameBut (s 0) f) (hcap : m * pageSize ≤ f.capacity) :
    SameBut (if (s m).freeCount < (s m).gcLowWatermark then (s m).runGC (s m).gcTargetFree
      else s m) (f.writeNext ⟨0, some src, m * pageSize⟩) := by
  obtain ⟨⟨e, hloop, d, rfl⟩, -⟩ := pages_loop halloc hstore src (Nat.zero_le m) hf
  have hwrite : f.write 0 (some src) (m * pageSize) = _ := write_inRange (by omega)
  rw [Nat.zero_mul] at hloop
  rw [Nat.zero_add, hloop] at hwrite
  have hcounted : SameBut (s m) { (s m).withData d with
      totalWrites := ((s m).withData d).totalWrites + 1 } := ⟨⟨_, _, _, _, _, _, _⟩, rfl⟩
  have hgc := hcounted.runGC (s m).gcTargetFree
  have hnext : f.writeNext ⟨0, some src, m * pageSize⟩ =
      (f.write 0 (some src) (m * pageSize)).2 := rfl
  rw [hnext, hwrite]
  generalize s m = a at hcounted hgc ⊢
  simp only
  split_ifs with hlow hlow' hlow'
  · exact hgc
  · exact absurd hlow hlow'
  · exact absurd hlow' hlow
  · exact hcounted

/-- Its erase loops are those of the collection at its end. -/
theorem pages_writeErases {E : FTJController × ℕ → Prop}
    (hblind : ∀ e e' b, SameBut e e' → E (e, b) → E (e', b))
    (halloc : ∀ k < m, ((s k).heat k).allocatePhysicalPage (((s k).heat k).prefersHot k) =
      ((q k : ℤ), t k))
    (hstore : ∀ k < m, ∀ src d w n, SameBut (s (k + 1)) ((t k).storePage k (q k) d src w n))
    (src : ℕ → Byte) (hf : SameBut (s 0) f)
    (herases : (s m).freeCount < (s m).gcLowWatermark →
      ∀ e ∈ (s m).gcErases (s m).gcTargetFree, E e) :
    ∀ e ∈ f.writeErases 0 (some src) (m * pageSize), E e := by
  obtain ⟨⟨e, hloop, d, rfl⟩, hnone⟩ := pages_loop halloc hstore src (Nat.zero_le m) hf
  rw [Nat.zero_mul] at hloop hnone
  have hcounted : SameBut (s m) { (s m).withData d with
      totalWrites := ((s m).withData d).totalWrites + 1 } := ⟨⟨_, _, _, _, _, _, _⟩, rfl⟩
  have hgc := hcounted.gcErases hblind (s m).gcTargetFree
  rw [writeErases]
  simp only [Nat.zero_add, hnone, hloop, List.nil_append]
  generalize s m = a at herases hgc ⊢
  split_ifs with hrange hlow
  · exact fun e he => absurd he List.not_mem_nil
  · exact hgc (herases hlow)
  · exact fun e he => absurd he List.not_mem_nil

end

end FTJController

end FtjSsdSim.Engine
