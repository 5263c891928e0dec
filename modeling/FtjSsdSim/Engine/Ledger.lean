import Mathlib
import FtjSsdSim.Library.Loop
import FtjSsdSim.Library.Machine
import FtjSsdSim.Engine.Bounds
import FtjSsdSim.Engine.ValidCounts

/-!
# The ledger of page writes and page programs

What the counters of the controller are to count, written down as it happens: `Write` begins the write
of a logical page, `Write` programs a physical page, `RunGC` programs one.

* `Books` — a step that does the work `ws` moves every counter by the number of its entries in `ws`;
* `runGC_books`, `writeNext_books` — collections and writes keep their books;
* `run_ledger` — so do runs, from the construction on.

The counters are machine integers and the entries are natural numbers: what is counted wraps around at
the width of its counter.
-/

namespace FtjSsdSim.Engine

open FtjSsdSim.Library

namespace FTJController

/-! ### The work -/

/-- An entry of the ledger. -/
inductive Work where
  | pageWrite (lp : ℕ)
  | hostProgram (q : ℕ)
  | gcProgram (q : ℕ)
  deriving DecidableEq

namespace Work

/-- A write of logical page `lp` is begun. -/
def writes (lp : ℕ) : Work → Bool
  | pageWrite k => k == lp
  | _ => false

/-- Physical page `q` is programmed. -/
def programs (q : ℕ) : Work → Bool
  | pageWrite _ => false
  | hostProgram r => r == q
  | gcProgram r => r == q

def isHostProgram : Work → Bool
  | hostProgram _ => true
  | _ => false

def isGcProgram : Work → Bool
  | gcProgram _ => true
  | _ => false

/-- Some page is programmed, on whichever path. -/
def isProgram (w : Work) : Bool := w.isHostProgram || w.isGcProgram

end Work

/-- What one iteration of the move loop does. -/
def relocateWork (c : FTJController) (p : ℕ) : List Work :=
  if c.physValid p then
    let owner := c.physOwnerLba p
    let (newP, c) := c.allocatePhysicalPage false
    if newP < 0 then []
    else if 0 ≤ owner ∧ owner.toNat < c.pageCount then [.gcProgram newP.toNat]
    else []
  else []

/-- What the move loop does. -/
def moveWork (c : FTJController) (b : ℕ) : List Work :=
  (forLoop (blockStart b) (c.blockEnd b) (fun p (s : FTJController × List Work) =>
    (s.1.relocatePage p, s.2 ++ s.1.relocateWork p)) (c, [])).2

/-- What `RunGC` does. -/
def gcWork (c : FTJController) (targetFree : ℕ) : List Work :=
  if c.freeCount < targetFree then
    match c.selectVictim with
    | none => []
    | some b =>
      let c' := c.collectBlock b
      c.moveWork b ++
        if c'.freeCount ≤ c.freeCount then []
        else if targetFree ≤ c'.freeCount then []
        else gcWork c' targetFree
  else []
termination_by targetFree - c.freeCount
decreasing_by
  rename_i hlow hprogress _
  have h : ¬ (c.collectBlock b).freeCount ≤ c.freeCount := hprogress
  omega

/-- What the allocation for a write does. -/
def claimWork (c : FTJController) (preferHot : Bool) : List Work :=
  let (newPhys, c) := c.allocatePhysicalPage preferHot
  if newPhys < 0 then c.gcWork c.gcTargetFree else []

/-- What the page loop of `Write` does.  A write of a page is begun, and its hot counter raised, before
a page is allocated for it. -/
def loopWork (c : FTJController) (src : ℕ → Byte) (startByte endByte written : ℕ) : List Work :=
  if startByte < endByte then
    let lp := startByte / pageSize
    let pageOffset := startByte % pageSize
    let toWrite := min (endByte - startByte) (pageSize - pageOffset)
    let c := c.heat lp
    let (newPhys, c') := c.claimPage (c.prefersHot lp)
    .pageWrite lp :: (c.claimWork (c.prefersHot lp) ++
      if newPhys < 0 then []
      else
        .hostProgram newPhys.toNat ::
          loopWork (c'.storePage lp newPhys.toNat pageOffset src written toWrite) src
            (startByte + toWrite) endByte (written + toWrite))
  else []
termination_by endByte - startByte
decreasing_by
  have := Nat.mod_lt startByte (show 0 < 4096 by decide)
  simp only [pageSize]
  omega

/-- What `Write` does. -/
def writeWork (c : FTJController) (offset : ℕ) (src : Option (ℕ → Byte)) (size : ℕ) : List Work :=
  match src with
  | none => []
  | some src =>
    if size > c.capacity ∨ offset > c.capacity - size then []
    else
      c.loopWork src offset (offset + size) 0 ++
        match c.writeLoop src offset (offset + size) 0 with
        | (false, _) => []
        | (true, c) =>
          let c := { c with totalWrites := c.totalWrites + 1 }
          if c.freeCount < c.gcLowWatermark then c.gcWork c.gcTargetFree else []

section

variable {c : FTJController} {src : ℕ → Byte} {startByte endByte written : ℕ} {q : ℤ}
  {c' : FTJController}

theorem loopWork_round (hlt : startByte < endByte)
    (hclaim : (c.heat (startByte / pageSize)).claimPage
      ((c.heat (startByte / pageSize)).prefersHot (startByte / pageSize)) = (q, c')) :
    c.loopWork src startByte endByte written =
      .pageWrite (startByte / pageSize) :: ((c.heat (startByte / pageSize)).claimWork
        ((c.heat (startByte / pageSize)).prefersHot (startByte / pageSize)) ++
      if q < 0 then []
      else
        .hostProgram q.toNat ::
          (c'.storePage (startByte / pageSize) q.toNat (startByte % pageSize) src written
            (min (endByte - startByte) (pageSize - startByte % pageSize))).loopWork src
            (startByte + min (endByte - startByte) (pageSize - startByte % pageSize)) endByte
            (written + min (endByte - startByte) (pageSize - startByte % pageSize))) := by
  rw [loopWork, if_pos hlt]
  simp only [hclaim]

end

/-! ### Collections only relocate -/

theorem relocateWork_gc (c : FTJController) (p : ℕ) :
    ∀ w ∈ c.relocateWork p, w.isGcProgram = true := by
  intro w hw
  rw [relocateWork] at hw
  simp only at hw
  split_ifs at hw
  · cases hw
  · obtain rfl := List.mem_singleton.mp hw
    rfl
  · cases hw
  · cases hw

theorem moveWork_gc (c : FTJController) (b : ℕ) : ∀ w ∈ c.moveWork b, w.isGcProgram = true := by
  refine forLoop_preserves (P := fun s : FTJController × List Work =>
    ∀ w ∈ s.2, w.isGcProgram = true) (fun w hw => by cases hw) ?_
  intro p s _ _ hs w hw
  exact (List.mem_append.mp hw).elim (hs w) (relocateWork_gc s.1 p w)

/-- **The rule for the work of a collection.**  What holds of each pass over a block and adds up holds of
`RunGC`. -/
theorem gcWork_rule {R : FTJController → List Work → FTJController → Prop} (refl : ∀ c, R c [] c)
    (collect : ∀ c b, R c (c.moveWork b) (c.collectBlock b))
    (trans : ∀ c ws c' ws' c'', R c ws c' → R c' ws' c'' → R c (ws ++ ws') c'')
    (c : FTJController) (targetFree : ℕ) : R c (c.gcWork targetFree) (c.runGC targetFree) := by
  induction c using runGC.induct targetFree with
  | case1 c hlow hnone =>
    rw [runGC, gcWork, if_pos hlow, if_pos hlow, hnone]
    exact refl c
  | case2 c hlow b hb c' hstop =>
    rw [runGC, gcWork, if_pos hlow, if_pos hlow, hb]
    simp only
    rw [if_pos hstop, if_pos hstop, List.append_nil]
    exact collect c b
  | case3 c hlow b hb c' hgo hdone =>
    rw [runGC, gcWork, if_pos hlow, if_pos hlow, hb]
    simp only
    rw [if_neg hgo, if_pos hdone, if_neg hgo, if_pos hdone, List.append_nil]
    exact collect c b
  | case4 c hlow b hb c' hgo hmore ih =>
    rw [runGC, gcWork, if_pos hlow, if_pos hlow, hb]
    simp only
    rw [if_neg hgo, if_neg hmore, if_neg hgo, if_neg hmore]
    exact trans _ _ _ _ _ (collect c b) ih
  | case5 c hfull =>
    rw [runGC, gcWork, if_neg hfull, if_neg hfull]
    exact refl c

theorem gcWork_gc (c : FTJController) (targetFree : ℕ) :
    ∀ w ∈ c.gcWork targetFree, w.isGcProgram = true := by
  refine gcWork_rule (R := fun _ ws _ => ∀ w ∈ ws, w.isGcProgram = true) ?_ ?_ ?_ c targetFree
  · exact fun _ w hw => absurd hw List.not_mem_nil
  · exact fun c b => moveWork_gc c b
  · intro c ws c' ws' c'' h h' w hw
    exact (List.mem_append.mp hw).elim (h w) (h' w)

theorem claimWork_gc (c : FTJController) (preferHot : Bool) :
    ∀ w ∈ c.claimWork preferHot, w.isGcProgram = true := by
  intro w hw
  rw [claimWork] at hw
  simp only at hw
  split_ifs at hw
  · exact gcWork_gc _ _ w hw
  · cases hw

/-! ### The books -/

/-- Every free page is a page of the drive. -/
def FreeBelow (c : FTJController) : Prop := ∀ x ∈ c.freePages, x < c.pageCount

/-- The program of a page disturbs its neighbour. -/
def Disturbs (c : FTJController) : Prop := c.physicsCfg.enableDisturbTracking ∧ c.pageCount > 1

instance (c : FTJController) : Decidable c.Disturbs := inferInstanceAs (Decidable (_ ∧ _))

/-- From `c` to `c'` the work `ws` is done, and each counter has counted what it is to count of it. -/
structure Books (c : FTJController) (ws : List Work) (c' : FTJController) : Prop where
  pageCount : c'.pageCount = c.pageCount
  physicsCfg : c'.physicsCfg = c.physicsCfg
  free : c'.FreeBelow
  below : ∀ w ∈ ws, ∀ q, w.programs q = true → q < c.pageCount
  counters : ∀ lp < c.pageCount,
    c'.lbaHotCounters lp = c.lbaHotCounters lp + BitVec.ofNat 32 (ws.countP (Work.writes lp))
  writes : ∀ q, c'.pageWrites q = c.pageWrites q + BitVec.ofNat 32 (ws.countP (Work.programs q))
  bytes : c'.totalPhysicalBytesWritten =
    c.totalPhysicalBytesWritten + BitVec.ofNat 64 (pageSize * ws.countP Work.isProgram)
  disturbs : c'.totalHalfSelectDisturbs = c.totalHalfSelectDisturbs +
    if c.Disturbs then BitVec.ofNat 64 (ws.countP Work.isHostProgram) else 0

variable {c c' c'' : FTJController} {ws ws' : List Work}

theorem Books.disturbs_iff (h : Books c ws c') : c'.Disturbs ↔ c.Disturbs := by
  rw [Disturbs, Disturbs, h.pageCount, h.physicsCfg]

/-- A step that no counter sees, and that puts no page on the free lists. -/
theorem Books.silent (hcount : c'.pageCount = c.pageCount)
    (hcfg : c'.physicsCfg = c.physicsCfg) (hfree : ∀ x ∈ c'.freePages, x < c.pageCount)
    (hhot : c'.lbaHotCounters = c.lbaHotCounters) (hwrites : c'.pageWrites = c.pageWrites)
    (hbytes : c'.totalPhysicalBytesWritten = c.totalPhysicalBytesWritten)
    (hdisturbs : c'.totalHalfSelectDisturbs = c.totalHalfSelectDisturbs) : Books c [] c' where
  pageCount := hcount
  physicsCfg := hcfg
  free x hx := hcount.symm ▸ hfree x hx
  below w hw := absurd hw List.not_mem_nil
  counters lp _ := by rw [hhot]; exact (BitVec.add_zero _).symm
  writes q := by rw [hwrites]; exact (BitVec.add_zero _).symm
  bytes := by rw [hbytes]; exact (BitVec.add_zero _).symm
  disturbs := by
    rw [hdisturbs]
    split_ifs <;> exact (BitVec.add_zero _).symm

theorem Books.refl (h : c.FreeBelow) : Books c [] c := .silent rfl rfl h rfl rfl rfl rfl

/-- **Books add up.** -/
theorem Books.trans (h : Books c ws c') (h' : Books c' ws' c'') : Books c (ws ++ ws') c'' where
  pageCount := h'.pageCount.trans h.pageCount
  physicsCfg := h'.physicsCfg.trans h.physicsCfg
  free := h'.free
  below w hw q hq := by
    rcases List.mem_append.mp hw with hw | hw
    · exact h.below w hw q hq
    · rw [← h.pageCount]
      exact h'.below w hw q hq
  counters lp hlp := by
    rw [h'.counters lp (h.pageCount.symm ▸ hlp), h.counters lp hlp, List.countP_append,
      BitVec.ofNat_add, BitVec.add_assoc]
  writes q := by
    rw [h'.writes, h.writes, List.countP_append, BitVec.ofNat_add, BitVec.add_assoc]
  bytes := by
    rw [h'.bytes, h.bytes, List.countP_append, Nat.mul_add, BitVec.ofNat_add, BitVec.add_assoc]
  disturbs := by
    rw [h'.disturbs, h.disturbs, List.countP_append, BitVec.ofNat_add, BitVec.add_assoc]
    simp only [h.disturbs_iff]
    split_ifs
    · rfl
    · exact congrArg _ (BitVec.add_zero _)

/-! ### Collections -/

theorem Books.allocate (h : c.FreeBelow) (preferHot : Bool) :
    Books c [] (c.allocatePhysicalPage preferHot).2 ∧
      (c.allocatePhysicalPage preferHot).1 < c.pageCount := by
  rcases allocate_cases c preferHot with ⟨heq, -⟩ | ⟨q, hot, cold, heq, hperm⟩
  · rw [heq]
    exact ⟨.refl h, by omega⟩
  · rw [heq]
    exact ⟨.silent rfl rfl (fun x hx => h x (hperm.mem_iff.mpr (List.mem_cons_of_mem _ hx)))
      rfl rfl rfl rfl, h q (hperm.mem_iff.mpr (List.mem_cons_self ..))⟩

/-- Mapping a page is the program of it that both paths share. -/
theorem mapPage_writes (c : FTJController) (lp q r : ℕ) (owner : ℤ) (w : Work)
    (hw : ∀ r, w.programs r = (q == r)) :
    (c.mapPage lp q owner).pageWrites r =
      c.pageWrites r + BitVec.ofNat 32 ([w].countP (Work.programs r)) := by
  rw [List.countP_singleton, hw]
  show Function.update c.pageWrites q (c.pageWrites q + 1) r = _
  by_cases hr : q = r
  · rw [hr, Function.update_self, beq_self_eq_true, if_pos rfl]
    rfl
  · rw [Function.update_of_ne (Ne.symm hr), beq_false_of_ne hr, if_neg Bool.false_ne_true]
    exact (BitVec.add_zero _).symm

/-- **The move loop's step.** -/
theorem Books.relocatePage (h : c.FreeBelow) (p : ℕ) :
    Books c (c.relocateWork p) (c.relocatePage p) := by
  rw [FTJController.relocatePage, relocateWork]
  split_ifs with hvalid
  · obtain ⟨halloc, hq⟩ := Books.allocate h false
    generalize c.allocatePhysicalPage false = r at halloc hq
    obtain ⟨q, c'⟩ := r
    simp only at halloc hq ⊢
    by_cases hneg : q < 0
    · rw [if_pos hneg, if_pos hneg]
      exact halloc
    · rw [if_neg hneg, if_neg hneg]
      by_cases howner : 0 ≤ c.physOwnerLba p ∧ (c.physOwnerLba p).toNat < c'.pageCount
      · have howner' : 0 ≤ c.physOwnerLba p ∧
            (c.physOwnerLba p).toNat < (c'.copyPage q.toNat p).pageCount := howner
        rw [if_pos howner, if_pos howner']
        refine halloc.trans (?_ : Books c' [.gcProgram q.toNat] _)
        refine ⟨rfl, rfl, halloc.free, ?_, ?_, ?_, rfl, ?_⟩
        · intro w hw r hr
          obtain rfl := List.mem_singleton.mp hw
          have hqr : q.toNat = r := beq_iff_eq.mp hr
          rw [halloc.pageCount]
          omega
        · intro lp _
          exact (BitVec.add_zero _).symm
        · intro r
          exact mapPage_writes c' (c.physOwnerLba p).toNat q.toNat r (c.physOwnerLba p)
            (.gcProgram q.toNat) fun _ => rfl
        · show c'.totalHalfSelectDisturbs = c'.totalHalfSelectDisturbs + _
          split_ifs <;> exact (BitVec.add_zero _).symm
      · have howner' : ¬ (0 ≤ c.physOwnerLba p ∧
            (c.physOwnerLba p).toNat < (c'.copyPage q.toNat p).pageCount) := howner
        rw [if_neg howner, if_neg howner']
        exact halloc.trans (.silent rfl rfl halloc.free rfl rfl rfl rfl)
  · exact .refl h

theorem Books.erasePage (h : c.FreeBelow) {p : ℕ} (hp : p < c.pageCount) :
    Books c [] (c.erasePage p) := by
  rcases erasePage_cases c p with ⟨-, heq⟩ | ⟨-, hot, cold, heq, hperm⟩
  · rw [heq]
    exact .refl h
  · have hle := (int32_le p).1
    generalize int32 p = y at hle hperm
    rw [heq]
    refine .silent rfl rfl (fun x hx => ?_) rfl rfl rfl rfl
    rcases List.mem_cons.mp (hperm.mem_iff.mp hx) with rfl | hx
    · omega
    · exact h x hx

theorem Books.moveValidPages (h : c.FreeBelow) (b : ℕ) :
    Books c (c.moveWork b) (c.moveValidPages b) := by
  let R : FTJController → FTJController × List Work → Prop := fun t s => s.1 = t ∧ Books c s.2 t
  have hinv : R (c.moveValidPages b) (forLoop (blockStart b) (c.blockEnd b)
      (fun p s => (s.1.relocatePage p, s.2 ++ s.1.relocateWork p)) (c, [])) := by
    refine forLoop_rel (R := R) ⟨rfl, .refl h⟩ ?_
    intro p t s _ _ hts
    obtain ⟨rfl, hs⟩ := hts
    exact ⟨rfl, hs.trans (.relocatePage hs.free p)⟩
  exact hinv.2

theorem Books.eraseBlock (h : c.FreeBelow) (b : ℕ) : Books c [] (c.eraseBlock b) := by
  refine forLoop_preserves (P := fun t => Books c [] t) (.refl h) ?_
  intro p t _ hp ht
  have hlt : p < t.pageCount := ht.pageCount.symm ▸ hp.trans_le (min_le_left ..)
  exact ht.trans (.erasePage ht.free hlt)

theorem Books.collectBlock (h : c.FreeBelow) (b : ℕ) :
    Books c (c.moveWork b) (c.collectBlock b) := by
  have hmoved := Books.moveValidPages h b
  have herased := hmoved.trans (.eraseBlock hmoved.free b)
  have hreset : Books ((c.moveValidPages b).eraseBlock b) [] (c.collectBlock b) :=
    .silent rfl rfl herased.free rfl rfl rfl rfl
  simpa only [List.append_nil] using herased.trans hreset

/-- **`RunGC` keeps its books.** -/
theorem runGC_books (h : c.FreeBelow) (targetFree : ℕ) :
    Books c (c.gcWork targetFree) (c.runGC targetFree) := by
  refine gcWork_rule (R := fun c ws c' => c.FreeBelow → Books c ws c') ?_ ?_ ?_ c targetFree h
  · exact fun c h => .refl h
  · exact fun c b h => .collectBlock h b
  · intro c ws c' ws' c'' hfirst hrest h
    have hbooks := hfirst h
    exact hbooks.trans (hrest hbooks.free)

/-! ### Writes -/

/-- The cap at `UINT32_MAX` caps nothing: the sum has wrapped around already. -/
theorem capCounter_eq (x : BitVec 32) : capCounter x = x := by
  rw [capCounter]
  split_ifs with hlt
  · rfl
  · have hle := x.isLt
    apply BitVec.eq_of_toNat_eq
    rw [BitVec.lt_def, BitVec.toNat_allOnes] at hlt
    rw [BitVec.toNat_allOnes]
    omega

theorem heat_counters (c : FTJController) (lp k : ℕ) (hk : k < c.pageCount) :
    (c.heat lp).lbaHotCounters k =
      c.lbaHotCounters k + BitVec.ofNat 32 ([Work.pageWrite lp].countP (Work.writes k)) := by
  have hwrites : (Work.pageWrite lp).writes k = (lp == k) := rfl
  rw [List.countP_singleton, hwrites, FTJController.heat]
  by_cases hlk : lp = k
  · obtain rfl := hlk
    rw [if_pos hk, beq_self_eq_true, if_pos rfl, capCounter_eq]
    exact Function.update_self ..
  · rw [beq_false_of_ne hlk, if_neg Bool.false_ne_true]
    split_ifs
    · exact (Function.update_of_ne (Ne.symm hlk) ..).trans (BitVec.add_zero _).symm
    · exact (BitVec.add_zero _).symm

theorem Books.heat (h : c.FreeBelow) (lp : ℕ) : Books c [.pageWrite lp] (c.heat lp) := by
  have hsame := (heat_same c lp).1
  have hrest : (c.heat lp).physicsCfg = c.physicsCfg ∧ (c.heat lp).pageWrites = c.pageWrites ∧
      (c.heat lp).totalPhysicalBytesWritten = c.totalPhysicalBytesWritten ∧
      (c.heat lp).totalHalfSelectDisturbs = c.totalHalfSelectDisturbs := by
    rw [FTJController.heat]
    split_ifs <;> exact ⟨rfl, rfl, rfl, rfl⟩
  obtain ⟨hcfg, hwrites, hbytes, hdisturbs⟩ := hrest
  refine ⟨hsame.pageCount, hcfg, ?_, ?_, heat_counters c lp, ?_, ?_, ?_⟩
  · intro x hx
    rw [hsame.freePages] at hx
    exact hsame.pageCount.symm ▸ h x hx
  · intro w hw q hq
    obtain rfl := List.mem_singleton.mp hw
    cases hq
  · intro q
    rw [hwrites]
    exact (BitVec.add_zero _).symm
  · rw [hbytes]
    exact (BitVec.add_zero _).symm
  · rw [hdisturbs]
    split_ifs <;> exact (BitVec.add_zero _).symm

theorem Books.claimPage (h : c.FreeBelow) (preferHot : Bool) :
    Books c (c.claimWork preferHot) (c.claimPage preferHot).2 ∧
      (c.claimPage preferHot).1 < c.pageCount := by
  obtain ⟨halloc, hq⟩ := Books.allocate h preferHot
  rw [FTJController.claimPage, claimWork]
  generalize c.allocatePhysicalPage preferHot = r at halloc hq
  obtain ⟨q, c'⟩ := r
  simp only at halloc hq ⊢
  split_ifs
  · have hgc := halloc.trans (runGC_books halloc.free c'.gcTargetFree)
    obtain ⟨hagain, hq'⟩ := Books.allocate hgc.free preferHot
    rw [hgc.pageCount] at hq'
    refine ⟨?_, hq'⟩
    simpa only [List.append_nil, List.nil_append] using hgc.trans hagain
  · exact ⟨halloc, hq⟩

theorem disturbNeighbor_disturbs (c : FTJController) (q : ℕ) :
    (c.disturbNeighbor q).totalHalfSelectDisturbs =
      c.totalHalfSelectDisturbs + if c.Disturbs then 1 else 0 := by
  by_cases hd : c.physicsCfg.enableDisturbTracking ∧ c.pageCount > 1
  · have hd' : c.Disturbs := hd
    rw [disturbNeighbor, if_pos hd, if_pos hd']
  · have hd' : ¬ c.Disturbs := hd
    rw [disturbNeighbor, if_neg hd, if_neg hd']
    exact (BitVec.add_zero _).symm

/-- A program of `Write` counts one disturb, where disturbs are counted. -/
theorem storePage_disturbs (c : FTJController) (lp q d : ℕ) (src : ℕ → Byte) (s n : ℕ) :
    (c.storePage lp q d src s n).totalHalfSelectDisturbs =
      c.totalHalfSelectDisturbs + if c.Disturbs then 1 else 0 := by
  have hprog : ∀ c₁ : FTJController, ∃ e, c₁.programBytes q d src s n = { c₁ with
      memoryBuffer := blit c₁.memoryBuffer (q * pageSize + d) src s n, eccBuffer := e } :=
    fun c₁ => recomputeEcc_eq _ _ _
  have hold : (if lp < c.pageCount then c.l2pMap lp else -1) = c.oldPage lp := rfl
  unfold storePage
  simp only [hold]
  by_cases h0 : 0 ≤ c.oldPage lp
  · rw [if_pos h0, if_pos h0]
    obtain ⟨e, he⟩ := hprog (c.copyPage q (c.oldPage lp).toNat)
    rw [he]
    exact disturbNeighbor_disturbs ..
  · rw [if_neg h0, if_neg h0]
    obtain ⟨e, he⟩ := hprog (c.zeroPage q)
    rw [he]
    exact disturbNeighbor_disturbs ..

/-- **A program by `Write`.** -/
theorem Books.storePage (h : c.FreeBelow) {q : ℕ} (hq : q < c.pageCount) (lp d : ℕ)
    (src : ℕ → Byte) (s n : ℕ) : Books c [.hostProgram q] (c.storePage lp q d src s n) := by
  have hdisturbs := storePage_disturbs c lp q d src s n
  have hmap := fun r => mapPage_writes c lp q r (int32 lp) (.hostProgram q) fun _ => rfl
  obtain ⟨_, _, _, _, heq⟩ := storePage_eq c lp q d src s n
  have hremap : Books c [.hostProgram q] { c.remap lp q with
      totalHalfSelectDisturbs := c.totalHalfSelectDisturbs + if c.Disturbs then 1 else 0 } := by
    have hbelow : ∀ w ∈ [Work.hostProgram q], ∀ r, w.programs r = true → r < c.pageCount := by
      intro w hw r hr
      obtain rfl := List.mem_singleton.mp hw
      exact (beq_iff_eq.mp hr : q = r) ▸ hq
    rw [remap]
    by_cases h0 : 0 ≤ c.oldPage lp
    · rw [if_pos h0]
      exact ⟨rfl, rfl, h, hbelow, fun lp _ => (BitVec.add_zero _).symm, hmap, rfl, rfl⟩
    · rw [if_neg h0]
      exact ⟨rfl, rfl, h, hbelow, fun lp _ => (BitVec.add_zero _).symm, hmap, rfl, rfl⟩
  rw [heq] at hdisturbs ⊢
  exact ⟨hremap.pageCount, hremap.physicsCfg, hremap.free, hremap.below, hremap.counters,
    hremap.writes, hremap.bytes, hdisturbs.trans hremap.disturbs⟩

/-- **The page loop keeps its books.** -/
theorem writeLoop_books (h : c.FreeBelow) (src : ℕ → Byte) (startByte endByte written : ℕ) :
    Books c (c.loopWork src startByte endByte written)
      (c.writeLoop src startByte endByte written).2 := by
  induction c, startByte, written using writeLoop.induct src endByte with
  | case1 c startByte written hlt lp c₁ q c₂ hclaim =>
    rename_i hneg
    have hheat := Books.heat h lp
    have hclaimed := (Books.claimPage hheat.free (c₁.prefersHot lp)).1
    rw [hclaim] at hclaimed
    rw [writeLoop_round hlt hclaim, loopWork_round hlt hclaim, if_pos hneg, if_pos hneg,
      List.append_nil]
    exact hheat.trans hclaimed
  | case2 c startByte written hlt lp pageOffset toWrite c₁ q c₂ hclaim hneg =>
    rename_i ih
    have hheat := Books.heat h lp
    obtain ⟨hclaimed, hq⟩ := Books.claimPage hheat.free (c₁.prefersHot lp)
    rw [hclaim] at hclaimed hq
    have hlt' : q.toNat < c₂.pageCount := by
      have hcount := hclaimed.pageCount
      simp only at hcount hq
      omega
    have hstored := Books.storePage hclaimed.free hlt' lp pageOffset src written toWrite
    rw [writeLoop_round hlt hclaim, loopWork_round hlt hclaim, if_neg hneg, if_neg hneg]
    exact hheat.trans (hclaimed.trans (hstored.trans (ih hstored.free)))
  | case3 c startByte written hge =>
    rw [writeLoop, loopWork, if_neg hge, if_neg hge]
    exact .refl h

/-- **`Write` keeps its books.** -/
theorem writeNext_books (h : c.FreeBelow) (w : WriteCall) :
    Books c (c.writeWork w.offset w.src w.size) (c.writeNext w) := by
  obtain ⟨offset, src, size⟩ := w
  cases src with
  | none => exact .refl h
  | some src =>
    by_cases hrange : size > c.capacity ∨ offset > c.capacity - size
    · have hsame : c.write offset (some src) size = (false, c) := if_pos hrange
      have hnone : c.writeWork offset (some src) size = [] := if_pos hrange
      rw [writeNext, hsame, hnone]
      exact .refl h
    · have hloop := writeLoop_books h src offset (offset + size) 0
      rw [writeNext, write_inRange hrange]
      simp only [writeWork, if_neg hrange]
      cases hres : c.writeLoop src offset (offset + size) 0 with
      | mk ok c' =>
        rw [hres] at hloop
        cases ok with
        | false =>
          simp only [List.append_nil]
          exact hloop
        | true =>
          have hcount : Books c' [] { c' with totalWrites := c'.totalWrites + 1 } :=
            .silent rfl rfl hloop.free rfl rfl rfl rfl
          have hcounted := hloop.trans hcount
          rw [List.append_nil] at hcounted
          simp only
          split_ifs
          · exact hcounted.trans (runGC_books hcounted.free _)
          · rw [List.append_nil]
            exact hcounted

/-! ### Runs -/

/-- The work of an event: only a write does any. -/
def eventWork (c : FTJController) : Event → List Work
  | .call (.write w) => c.writeWork w.offset w.src w.size
  | _ => []

/-- The work of a run of events, from the construction on. -/
def runWork (capacity : ℕ) (events : List Event) : List Work :=
  (cycles eventNext (construct capacity) events).flatMap fun x => x.1.eventWork x.2

theorem runWork_snoc (capacity : ℕ) (events : List Event) (event : Event) :
    runWork capacity (events ++ [event]) =
      runWork capacity events ++
        (run eventNext (construct capacity) events).eventWork event := by
  rw [runWork, runWork, cycles_append, List.flatMap_append]
  exact congrArg _ (List.append_nil _)

/-- An event that sets a wear counter. -/
def Event.wears : Event → Bool
  | .call (.injectHeavyWear _ _) => true
  | _ => false

/-- An event that leaves disturb tracking switched on. -/
def Event.tracks : Event → Bool
  | .setPhysicsConfig config => config.enableDisturbTracking
  | _ => true

/-- The counters after a run of events are the counts of its work. -/
structure Ledger (capacity : ℕ) (events : List Event) (c : FTJController) : Prop where
  pageCount : c.pageCount = numPages capacity
  free : c.FreeBelow
  below : ∀ w ∈ runWork capacity events, ∀ q, w.programs q = true → q < numPages capacity
  counters : ∀ lp < numPages capacity,
    c.lbaHotCounters lp = BitVec.ofNat 32 ((runWork capacity events).countP (Work.writes lp))
  bytes : c.totalPhysicalBytesWritten =
    BitVec.ofNat 64 (pageSize * (runWork capacity events).countP Work.isProgram)
  writes : (∀ event ∈ events, event.wears = false) → ∀ q,
    c.pageWrites q = BitVec.ofNat 32 ((runWork capacity events).countP (Work.programs q))
  tracking : (∀ event ∈ events, event.tracks = true) → c.physicsCfg.enableDisturbTracking = true
  disturbs : 1 < numPages capacity → (∀ event ∈ events, event.tracks = true) →
    c.totalHalfSelectDisturbs =
      BitVec.ofNat 64 ((runWork capacity events).countP Work.isHostProgram)

theorem initialFreeList_below (n hotBlocks : ℕ) (hot : Bool) :
    ∀ x ∈ initialFreeList n hotBlocks hot, x < n := by
  have hle := (int32_le n).1
  refine forLoop_preserves (P := fun free : List ℤ => ∀ x ∈ free, x < n)
    (fun x hx => absurd hx List.not_mem_nil) ?_
  intro i free _ _ hfree
  simp only
  split_ifs
  · intro x hx
    rcases List.mem_append.mp hx with hx | hx
    · exact hfree x hx
    · rw [List.mem_singleton.mp hx]
      omega
  · exact hfree

theorem construct_freeBelow (capacity : ℕ) : (construct capacity).FreeBelow := by
  have hcount : (construct capacity).pageCount = numPages capacity := by rw [construct]
  have hhot : (construct capacity).freePhysicalPagesHot = initialFreeList (numPages capacity)
      (max 1 (blocksOf (numPages capacity) / 5)) true := by rw [construct]
  have hcold : (construct capacity).freePhysicalPagesCold = initialFreeList (numPages capacity)
      (max 1 (blocksOf (numPages capacity) / 5)) false := by rw [construct]
  intro x hx
  rw [freePages, hhot, hcold] at hx
  rw [hcount]
  rcases List.mem_append.mp hx with hx | hx
  · exact initialFreeList_below _ _ _ x hx
  · exact initialFreeList_below _ _ _ x hx

theorem construct_ledger (capacity : ℕ) : Ledger capacity [] (construct capacity) where
  pageCount := by rw [construct]
  free := construct_freeBelow capacity
  below w hw := absurd hw List.not_mem_nil
  counters lp _ := by
    rw [construct]
    rfl
  bytes := by
    rw [construct]
    rfl
  writes _ q := by
    rw [construct]
    rfl
  tracking _ := by
    rw [construct]
  disturbs _ _ := by
    rw [construct]
    rfl

/-- What an event other than a write leaves alone. -/
structure Quiet (c : FTJController) (event : Event) (c' : FTJController) : Prop where
  pageCount : c'.pageCount = c.pageCount
  freePages : c'.freePages = c.freePages
  counters : c'.lbaHotCounters = c.lbaHotCounters
  bytes : c'.totalPhysicalBytesWritten = c.totalPhysicalBytesWritten
  disturbs : c'.totalHalfSelectDisturbs = c.totalHalfSelectDisturbs
  writes : event.wears = false → c'.pageWrites = c.pageWrites
  tracking : event.tracks = true → c.physicsCfg.enableDisturbTracking = true →
    c'.physicsCfg.enableDisturbTracking = true

theorem eventNext_quiet (c : FTJController) (event : Event) :
    (∃ w, event = .call (.write w)) ∨
      (c.eventWork event = [] ∧ c.Quiet event (c.eventNext event)) := by
  cases event with
  | call call =>
    cases call with
    | write w => exact .inl ⟨w, rfl⟩
    | read hits seed offset dest size =>
      obtain ⟨_, _, _, _, heq⟩ := read_controller hits c seed offset dest size
      rw [FTJController.eventNext, callNext, heq]
      exact .inr ⟨rfl, rfl, rfl, rfl, rfl, rfl, fun _ => rfl, fun _ ht => ht⟩
    | injectHeavyWear offset writeCount =>
      obtain ⟨_, heq⟩ := injectHeavyWear_eq c offset writeCount
      rw [FTJController.eventNext, callNext, heq]
      exact .inr ⟨rfl, rfl, rfl, rfl, rfl, rfl, fun hw => (by cases hw), fun _ ht => ht⟩
    | triggerAutonomousRefresh =>
      obtain ⟨_, heq⟩ := triggerAutonomousRefresh_eq c
      rw [FTJController.eventNext, callNext, heq]
      exact .inr ⟨rfl, rfl, rfl, rfl, rfl, rfl, fun _ => rfl, fun _ ht => ht⟩
  | simulateRetentionDrift drifts seed =>
    obtain ⟨_, _, heq⟩ := simulateRetentionDrift_eq drifts c seed
    rw [FTJController.eventNext, heq]
    exact .inr ⟨rfl, rfl, rfl, rfl, rfl, rfl, fun _ => rfl, fun _ ht => ht⟩
  | setPhysicsConfig config =>
    exact .inr ⟨rfl, rfl, rfl, rfl, rfl, rfl, fun _ => rfl, fun ht _ => ht⟩

/-- **One event.** -/
theorem Ledger.snoc {capacity : ℕ} {events : List Event}
    (h : Ledger capacity events (run eventNext (construct capacity) events)) (event : Event) :
    Ledger capacity (events ++ [event])
      ((run eventNext (construct capacity) events).eventNext event) := by
  have hwork := runWork_snoc capacity events event
  generalize run eventNext (construct capacity) events = c at h hwork ⊢
  have hall : ∀ {P : Event → Prop}, (∀ e ∈ events ++ [event], P e) → ∀ e ∈ events, P e :=
    fun hP e he => hP e (List.mem_append_left _ he)
  have hlast : ∀ {P : Event → Prop}, (∀ e ∈ events ++ [event], P e) → P event :=
    fun hP => hP event (List.mem_append_right _ (List.mem_singleton_self event))
  rcases c.eventNext_quiet event with ⟨w, rfl⟩ | ⟨hnone, hquiet⟩
  · have hbooks := writeNext_books h.free w
    have hwritten : c.eventWork (.call (.write w)) = c.writeWork w.offset w.src w.size := rfl
    rw [hwritten] at hwork
    show Ledger capacity _ (c.writeNext w)
    generalize c.writeNext w = c' at hbooks ⊢
    generalize c.writeWork w.offset w.src w.size = ws at hbooks hwork
    exact {
      pageCount := hbooks.pageCount.trans h.pageCount
      free := hbooks.free
      below := fun v hv q hq => by
        rw [hwork] at hv
        rcases List.mem_append.mp hv with hv | hv
        · exact h.below v hv q hq
        · exact h.pageCount ▸ hbooks.below v hv q hq
      counters := fun lp hlp => by
        rw [hbooks.counters lp (h.pageCount.symm ▸ hlp), h.counters lp hlp, hwork,
          List.countP_append, BitVec.ofNat_add]
      bytes := by
        rw [hbooks.bytes, h.bytes, hwork, List.countP_append, Nat.mul_add, BitVec.ofNat_add]
      writes := fun hwear q => by
        rw [hbooks.writes, h.writes (hall hwear), hwork, List.countP_append, BitVec.ofNat_add]
      tracking := fun ht => by
        rw [hbooks.physicsCfg]
        exact h.tracking (hall ht)
      disturbs := fun hmany ht => by
        have hdisturbs : c.Disturbs := ⟨h.tracking (hall ht), h.pageCount.symm ▸ hmany⟩
        rw [hbooks.disturbs, h.disturbs hmany (hall ht), if_pos hdisturbs, hwork,
          List.countP_append, BitVec.ofNat_add] }
  · rw [hnone, List.append_nil] at hwork
    exact {
      pageCount := hquiet.pageCount.trans h.pageCount
      free := by
        rw [FreeBelow, hquiet.freePages, hquiet.pageCount]
        exact h.free
      below := hwork.symm ▸ h.below
      counters := hquiet.counters.symm ▸ hwork.symm ▸ h.counters
      bytes := hquiet.bytes.symm ▸ hwork.symm ▸ h.bytes
      writes := fun hwear => by
        rw [hquiet.writes (hlast hwear), hwork]
        exact h.writes (hall hwear)
      tracking := fun ht => hquiet.tracking (hlast ht) (h.tracking (hall ht))
      disturbs := fun hmany ht => by
        rw [hquiet.disturbs, hwork]
        exact h.disturbs hmany (hall ht) }

/-- **The ledger of a run.** -/
theorem run_ledger (capacity : ℕ) (events : List Event) :
    Ledger capacity events (run eventNext (construct capacity) events) := by
  induction events using List.reverseRecOn with
  | nil => exact construct_ledger capacity
  | append_singleton events event ih =>
    rw [run_snoc]
    exact ih.snoc event

end FTJController

end FtjSsdSim.Engine
