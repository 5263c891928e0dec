import Mathlib
import FtjSsdSim.Library.Bits
import FtjSsdSim.Library.ByteStore
import FtjSsdSim.Library.Loop
import FtjSsdSim.Library.Machine

/-!
# The burst coalescer

`BurstCoalescer` merges small host writes into a direct-mapped array of staging pages, and hands
dirty pages to the storage controller as whole-page writes.

The staged values are of any type with a zero, and the controller behind the coalescer is any state
with a `Write`.  So one model serves the bytes of the host, bytes that carry a mark, and a controller
that records what it is handed; `Host.step_map` says that a map between two such instances commutes
with every call.  The estimate of collections, which is in floating point, is left out.
-/

namespace FtjSsdSim.Engine

open FtjSsdSim.Library

/-- A page of the staging buffer. -/
structure CoalescePage (β : Type*) where
  data : ℕ → β
  bytesCommitted : ℕ
  dirty : Bool
  baseLba : ℕ

/-- A page as the constructor and a flush leave it. -/
def CoalescePage.empty (β : Type*) [Zero β] : CoalescePage β where
  data _ := 0
  bytesCommitted := 0
  dirty := false
  baseLba := 0

/-- The page with `f` applied to its data. -/
def CoalescePage.map {β γ : Type*} (f : β → γ) (pg : CoalescePage β) : CoalescePage γ where
  data := f ∘ pg.data
  bytesCommitted := pg.bytesCommitted
  dirty := pg.dirty
  baseLba := pg.baseLba

theorem CoalescePage.map_empty {β γ : Type*} [Zero β] [Zero γ] {f : β → γ} (hf : f 0 = 0) :
    (CoalescePage.empty β).map f = CoalescePage.empty γ := by
  simp only [map, empty, Function.comp_def, hf]

structure BurstCoalescer (β : Type*) where
  staging : ℕ → CoalescePage β
  depth : ℕ
  hostBytes : BitVec 64
  flashBytes : BitVec 64
  pagesProg : BitVec 64
  queueDepth : BitVec 64

namespace BurstCoalescer

/-- `PAGE_SZ`. -/
def pageSz : ℕ := 4096

/-- `DEPTH`, as it is without an override. -/
def defaultDepth : ℕ := 256

variable {β γ φ ψ : Type*}

/-- The constructor, for a staging buffer of `depth` pages. -/
def construct (β : Type*) [Zero β] (depth : ℕ) : BurstCoalescer β where
  staging _ := CoalescePage.empty β
  depth := depth
  hostBytes := 0
  flashBytes := 0
  pagesProg := 0
  queueDepth := 0

/-- `page_idx`: the staging page of an address. -/
def pageIdx (c : BurstCoalescer β) (lbaOffset : ℕ) : ℕ := lbaOffset / pageSz % c.depth

/-- The address of the page that `lbaOffset` is in. -/
def pageBase (lbaOffset : ℕ) : ℕ := lbaOffset / pageSz * pageSz

/-- `pg`, claimed for the page of `lbaOffset` if it is not in use. -/
def claimSlot (pg : CoalescePage β) (lbaOffset : ℕ) : CoalescePage β :=
  if pg.dirty then pg else { pg with baseLba := pageBase lbaOffset, dirty := true }

@[simp] theorem claimSlot_dirty (pg : CoalescePage β) (lbaOffset : ℕ) :
    (claimSlot pg lbaOffset).dirty = true := by
  rw [claimSlot]
  split_ifs with hd
  · exact hd
  · rfl

theorem claimSlot_data (pg : CoalescePage β) (lbaOffset : ℕ) :
    (claimSlot pg lbaOffset).data = pg.data := by
  rw [claimSlot]
  split_ifs <;> rfl

/-- The copy of `toCopy` bytes into a page. -/
def stage (pg : CoalescePage β) (pageOff : ℕ) (src : ℕ → β) (toCopy : ℕ) : CoalescePage β :=
  { pg with
    data := blit pg.data pageOff src 0 toCopy
    bytesCommitted := min (pg.bytesCommitted + toCopy) pageSz }

/-- `PushWrite`; `none` is the null source pointer. -/
def pushWrite (c : BurstCoalescer β) (lbaOffset : ℕ) (src : Option (ℕ → β)) (size : ℕ) :
    Bool × BurstCoalescer β :=
  match src with
  | none => (false, c)
  | some src =>
    if size = 0 ∨ size > pageSz then (false, c)
    else
      let pageIdx := c.pageIdx lbaOffset
      let pageOff := lbaOffset % pageSz
      let toCopy := min size (pageSz - pageOff)
      let pg := c.staging pageIdx
      (true, { c with
        staging := Function.update c.staging pageIdx (stage (claimSlot pg lbaOffset) pageOff src toCopy)
        queueDepth := if pg.dirty then c.queueDepth else c.queueDepth + 1
        hostBytes := c.hostBytes + toCopy })

theorem pushWrite_rejected (c : BurstCoalescer β) (lbaOffset : ℕ) (src : ℕ → β) {size : ℕ}
    (h : size = 0 ∨ size > pageSz) : c.pushWrite lbaOffset (some src) size = (false, c) :=
  if_pos h

/-- A push of an admitted size is taken and changes one staging page. -/
theorem pushWrite_taken (c : BurstCoalescer β) (lbaOffset : ℕ) (src : ℕ → β) {size : ℕ}
    (h : ¬ (size = 0 ∨ size > pageSz)) :
    (c.pushWrite lbaOffset (some src) size).1 = true ∧
      (c.pushWrite lbaOffset (some src) size).2.staging = Function.update c.staging
        (c.pageIdx lbaOffset) (stage (claimSlot (c.staging (c.pageIdx lbaOffset)) lbaOffset)
          (lbaOffset % pageSz) src (min size (pageSz - lbaOffset % pageSz))) := by
  simp only [pushWrite, if_neg h, and_self]

@[simp] theorem pushWrite_depth (c : BurstCoalescer β) (lbaOffset : ℕ) (src : Option (ℕ → β))
    (size : ℕ) : (c.pushWrite lbaOffset src size).2.depth = c.depth := by
  cases src with
  | none => rfl
  | some src =>
    simp only [pushWrite]
    split_ifs <;> rfl

/-- A flush in progress. -/
structure FlushState (β φ : Type*) where
  coalescer : BurstCoalescer β
  ftl : φ
  flushed : ℕ

/-- The count of a page write that the controller took. -/
def countWrite (ok : Bool) (c : BurstCoalescer β) : BurstCoalescer β :=
  if ok then { c with flashBytes := c.flashBytes + 4096, pagesProg := c.pagesProg + 1 } else c

@[simp] theorem countWrite_staging (ok : Bool) (c : BurstCoalescer β) :
    (countWrite ok c).staging = c.staging := by
  rw [countWrite]
  split_ifs <;> rfl

@[simp] theorem countWrite_depth (ok : Bool) (c : BurstCoalescer β) :
    (countWrite ok c).depth = c.depth := by
  rw [countWrite]
  split_ifs <;> rfl

@[simp] theorem countWrite_queueDepth (ok : Bool) (c : BurstCoalescer β) :
    (countWrite ok c).queueDepth = c.queueDepth := by
  rw [countWrite]
  split_ifs <;> rfl

section

variable [Zero β] (write : φ → ℕ → (ℕ → β) → ℕ → Bool × φ)

/-- The reset of a staging page. -/
def resetSlot (c : BurstCoalescer β) (i : ℕ) : BurstCoalescer β :=
  { c with
    staging := Function.update c.staging i (CoalescePage.empty β)
    queueDepth := c.queueDepth - 1 }

/-- One iteration of the flush loop, whose second condition is `flushed < max_pages`.  The page is
reset whatever `Write` returns. -/
def flushSlot (maxPages i : ℕ) (st : FlushState β φ) : FlushState β φ :=
  let pg := st.coalescer.staging i
  if st.flushed < maxPages ∧ pg.dirty = true then
    let r := write st.ftl pg.baseLba pg.data pageSz
    ⟨(countWrite r.1 st.coalescer).resetSlot i, r.2, st.flushed + 1⟩
  else st

/-- `FlushToFTL`; the number of pages it returns is `flushed`. -/
def flushToFTL (c : BurstCoalescer β) (ftl : φ) (maxPages : ℕ) : FlushState β φ :=
  forLoop 0 c.depth (flushSlot write maxPages) ⟨c, ftl, 0⟩

/-- `Reset`. -/
def reset (c : BurstCoalescer β) : BurstCoalescer β where
  staging := forLoop 0 c.depth
    (fun i staging => Function.update staging i (CoalescePage.empty β)) c.staging
  depth := c.depth
  hostBytes := 0
  flashBytes := 0
  pagesProg := 0
  queueDepth := 0

end

/-- `GetPendingPages`. -/
def getPendingPages (c : BurstCoalescer β) : ℕ :=
  forLoop 0 c.depth (fun i count => if (c.staging i).dirty then count + 1 else count) 0

/-- `GetQueueDepth`. -/
def getQueueDepth (c : BurstCoalescer β) : ℕ := c.queueDepth.toNat

/-! ### The coalescer and its controller -/

/-- A call on the coalescer. -/
inductive HostOp (β : Type*) where
  | push (lbaOffset : ℕ) (src : Option (ℕ → β)) (size : ℕ)
  | flush (maxPages : ℕ)

/-- The coalescer with the controller it flushes to. -/
structure Host (β φ : Type*) where
  coalescer : BurstCoalescer β
  ftl : φ

/-- The state after a call. -/
def Host.step [Zero β] (write : φ → ℕ → (ℕ → β) → ℕ → Bool × φ) (h : Host β φ) :
    HostOp β → Host β φ
  | .push lbaOffset src size => { h with coalescer := (h.coalescer.pushWrite lbaOffset src size).2 }
  | .flush maxPages =>
    let r := flushToFTL write h.coalescer h.ftl maxPages
    ⟨r.coalescer, r.ftl⟩

/-! ### Maps of the staged values and of the controller -/

/-- The coalescer with `f` applied to all it stages. -/
def map (f : β → γ) (c : BurstCoalescer β) : BurstCoalescer γ where
  staging i := (c.staging i).map f
  depth := c.depth
  hostBytes := c.hostBytes
  flashBytes := c.flashBytes
  pagesProg := c.pagesProg
  queueDepth := c.queueDepth

def FlushState.map (f : β → γ) (g : φ → ψ) (st : FlushState β φ) : FlushState γ ψ :=
  ⟨st.coalescer.map f, g st.ftl, st.flushed⟩

def Host.map (f : β → γ) (g : φ → ψ) (h : Host β φ) : Host γ ψ := ⟨h.coalescer.map f, g h.ftl⟩

def HostOp.map (f : β → γ) : HostOp β → HostOp γ
  | .push lbaOffset src size => .push lbaOffset (src.map fun src => f ∘ src) size
  | .flush maxPages => .flush maxPages

variable {f : β → γ} {g : φ → ψ}

theorem map_staging_update (c : BurstCoalescer β) (i : ℕ) (pg : CoalescePage β) :
    Function.update (c.map f).staging i (pg.map f) =
      fun j => (Function.update c.staging i pg j).map f := by
  funext j
  by_cases hj : j = i
  · rw [hj, Function.update_self, Function.update_self]
  · rw [Function.update_of_ne hj, Function.update_of_ne hj]
    rfl

theorem claimSlot_map (pg : CoalescePage β) (lbaOffset : ℕ) :
    claimSlot (pg.map f) lbaOffset = (claimSlot pg lbaOffset).map f := by
  rw [claimSlot, claimSlot, apply_ite (CoalescePage.map f)]
  rfl

theorem stage_map (pg : CoalescePage β) (pageOff : ℕ) (src : ℕ → β) (toCopy : ℕ) :
    stage (pg.map f) pageOff (f ∘ src) toCopy = (stage pg pageOff src toCopy).map f := by
  simp only [stage, CoalescePage.map, blit_map]

theorem pushWrite_map (c : BurstCoalescer β) (lbaOffset : ℕ) (src : Option (ℕ → β)) (size : ℕ) :
    (c.map f).pushWrite lbaOffset (src.map fun src => f ∘ src) size =
      Prod.map id (map f) (c.pushWrite lbaOffset src size) := by
  cases src with
  | none => rfl
  | some src =>
    simp only [pushWrite, Option.map_some]
    by_cases hsize : size = 0 ∨ size > pageSz
    · rw [if_pos hsize, if_pos hsize]
      rfl
    · have hslot : stage (claimSlot ((c.map f).staging ((c.map f).pageIdx lbaOffset)) lbaOffset)
            (lbaOffset % pageSz) (f ∘ src) (min size (pageSz - lbaOffset % pageSz)) =
          (stage (claimSlot (c.staging (c.pageIdx lbaOffset)) lbaOffset) (lbaOffset % pageSz) src
            (min size (pageSz - lbaOffset % pageSz))).map f := by
        rw [← stage_map, ← claimSlot_map]
        rfl
      rw [if_neg hsize, if_neg hsize, hslot, map_staging_update]
      rfl

theorem countWrite_map (ok : Bool) (c : BurstCoalescer β) :
    countWrite ok (c.map f) = (countWrite ok c).map f := by
  cases ok <;> rfl

section

variable [Zero β] [Zero γ] {write : φ → ℕ → (ℕ → β) → ℕ → Bool × φ}
  {write' : ψ → ℕ → (ℕ → γ) → ℕ → Bool × ψ}

theorem resetSlot_map (hf : f 0 = 0) (c : BurstCoalescer β) (i : ℕ) :
    (c.map f).resetSlot i = (c.resetSlot i).map f := by
  rw [resetSlot, ← CoalescePage.map_empty hf, map_staging_update]
  rfl

theorem flushSlot_map (hf : f 0 = 0)
    (hw : ∀ s off src size, write' (g s) off (f ∘ src) size = Prod.map id g (write s off src size))
    (maxPages i : ℕ) (st : FlushState β φ) :
    flushSlot write' maxPages i (st.map f g) = (flushSlot write maxPages i st).map f g := by
  by_cases hgo : st.flushed < maxPages ∧ (st.coalescer.staging i).dirty = true
  · rw [flushSlot, flushSlot, if_pos hgo,
      if_pos (show (st.map f g).flushed < maxPages ∧
        ((st.map f g).coalescer.staging i).dirty = true from hgo)]
    have hcall : write' (g st.ftl) (st.coalescer.staging i).baseLba
        (f ∘ (st.coalescer.staging i).data) pageSz = Prod.map id g _ := hw ..
    have hreset := resetSlot_map hf (countWrite (write st.ftl (st.coalescer.staging i).baseLba
      (st.coalescer.staging i).data pageSz).1 st.coalescer) i
    rw [← countWrite_map] at hreset
    simp only [FlushState.map, map, CoalescePage.map, hcall, Prod.map, id_eq]
    exact congrArg (fun c => FlushState.mk c _ _) hreset
  · rw [flushSlot, flushSlot, if_neg hgo,
      if_neg (show ¬ ((st.map f g).flushed < maxPages ∧
        ((st.map f g).coalescer.staging i).dirty = true) from hgo)]

/-- **Every call commutes with a map** of the staged values and of the controller. -/
theorem Host.step_map (hf : f 0 = 0)
    (hw : ∀ s off src size, write' (g s) off (f ∘ src) size = Prod.map id g (write s off src size))
    (h : Host β φ) (op : HostOp β) :
    Host.step write' (h.map f g) (op.map f) = (Host.step write h op).map f g := by
  cases op with
  | push lbaOffset src size =>
    exact congrArg (fun r : Bool × BurstCoalescer γ => Host.mk r.2 (g h.ftl))
      (pushWrite_map h.coalescer lbaOffset src size)
  | flush maxPages =>
    have hloop : flushToFTL write' (h.coalescer.map f) (g h.ftl) maxPages =
        (flushToFTL write h.coalescer h.ftl maxPages).map f g := by
      rw [flushToFTL, flushToFTL, ← forLoop_map (flushSlot_map hf hw maxPages)]
      rfl
    exact congrArg (fun r : FlushState γ ψ => Host.mk r.coalescer r.ftl) hloop

end

end BurstCoalescer

end FtjSsdSim.Engine
