import Mathlib
import FtjSsdSim.Library.ByteStore
import FtjSsdSim.Library.Machine
import FtjSsdSim.Engine.BurstCoalescer
import FtjSsdSim.Engine.FlushLoop

/-!
# What a push stages

`PushWrite` clamps a write to the end of its page.  The bytes up to there are staged, and stay so
until a flush hands them to the controller or a later push puts others in their place; the bytes
beyond are dropped, and the call returns `true` all the same.

* `flushPatches_eq` — the writes a flush makes;
* `Holds.until_handed` — a staged byte through any later calls;
* `push_write_clamped` — what a push that is taken promises;
* `push_write_drops_tail` — a push that returns `true` and stages half of its bytes.
-/

namespace FtjSsdSim.Engine

open FtjSsdSim.Library

namespace BurstCoalescer

variable {β φ : Type*}

/-! ### The writes of a flush -/

/-- `write` with a record of its calls. -/
def recorded (write : φ → ℕ → (ℕ → β) → ℕ → Bool × φ) (s : φ × List (Patch β)) (offset : ℕ)
    (src : ℕ → β) (size : ℕ) : Bool × φ × List (Patch β) :=
  let r := write s.1 offset src size
  (r.1, r.2, s.2 ++ [⟨offset, src, size⟩])

section

variable [Zero β] (write : φ → ℕ → (ℕ → β) → ℕ → Bool × φ)

/-- The writes that a flush makes, in order. -/
def flushPatches (c : BurstCoalescer β) (ftl : φ) (maxPages : ℕ) : List (Patch β) :=
  (flushToFTL (recorded write) c (ftl, []) maxPages).ftl.2

/-- **The writes of a flush**: the pages it hands over, whole, in the order of the scan. -/
theorem flushPatches_eq (c : BurstCoalescer β) (ftl : φ) (maxPages : ℕ) :
    flushPatches write c ftl maxPages = (c.flushSlots maxPages).map fun i =>
      ⟨(c.staging i).baseLba, (c.staging i).data, pageSz⟩ := by
  have hrun : ∀ (slots : List ℕ) (s : φ × List (Patch β)),
      (run (fun s k => (handOver (recorded write) c s k).2) s slots).2 =
        s.2 ++ slots.map fun i => ⟨(c.staging i).baseLba, (c.staging i).data, pageSz⟩ := by
    intro slots
    induction slots with
    | nil => exact fun s => (List.append_nil _).symm
    | cons i slots ih =>
      intro s
      rw [run_cons, ih, List.map_cons, ← List.singleton_append, ← List.append_assoc]
      rfl
  rw [flushPatches, (flushToFTL_scanned c (ftl, []) maxPages).ftl, hrun, List.nil_append]

end

/-! ### A staged byte -/

/-- Staging page `i` is in use, is to be written at `base` and has `b` at place `r`. -/
structure Holds (c : BurstCoalescer β) (i r base : ℕ) (b : β) : Prop where
  pending : c.Pending i
  base : (c.staging i).baseLba = base
  byte : (c.staging i).data r = b

theorem Holds.of_slot {c : BurstCoalescer β} {i r base : ℕ} {b : β} {pg : CoalescePage β}
    (hslot : c.staging i = pg) (hdirty : pg.dirty = true) (hbase : pg.baseLba = base)
    (hbyte : pg.data r = b) : c.Holds i r base b := by
  subst hslot
  exact ⟨hdirty, hbase, hbyte⟩

theorem Holds.congr {c c' : BurstCoalescer β} {i r base : ℕ} {b : β} (h : c.Holds i r base b)
    (hslot : c'.staging i = c.staging i) : c'.Holds i r base b :=
  .of_slot hslot h.pending h.base h.byte

/-- The call is a reset, or a push that is taken and covers place `r` of staging page `i`. -/
def Disturbs (depth i r : ℕ) : Call β φ → Prop
  | .push lbaOffset src size =>
    src.isSome ∧ 0 < size ∧ size ≤ pageSz ∧ lbaOffset / pageSz % depth = i ∧
      lbaOffset % pageSz ≤ r ∧ r < lbaOffset % pageSz + size
  | .flush .. => False
  | .reset => True

/-- A push to another place leaves a staged byte alone. -/
theorem Holds.push {c : BurstCoalescer β} {i r base : ℕ} {b : β} (h : c.Holds i r base b)
    {lbaOffset : ℕ} {src : Option (ℕ → β)} {size : ℕ}
    (hkeep : ¬ Disturbs c.depth i r (.push lbaOffset src size : Call β φ)) :
    (c.pushWrite lbaOffset src size).2.Holds i r base b := by
  cases src with
  | none => exact h
  | some src =>
    by_cases hsize : size = 0 ∨ size > pageSz
    · rwa [pushWrite_rejected c lbaOffset src hsize]
    · have hstaging := (pushWrite_taken c lbaOffset src hsize).2
      by_cases hi : i = c.pageIdx lbaOffset
      · subst hi
        -- the page is in use, so the push does not claim it
        have hclaim : claimSlot (c.staging (c.pageIdx lbaOffset)) lbaOffset =
            c.staging (c.pageIdx lbaOffset) := if_pos h.pending
        have hout : ¬ (lbaOffset % pageSz ≤ r ∧
            r < lbaOffset % pageSz + min size (pageSz - lbaOffset % pageSz)) := by
          intro hin
          exact hkeep ⟨rfl, by omega, by omega, rfl, hin.1, by omega⟩
        rw [hclaim] at hstaging
        refine .of_slot ((congrFun hstaging _).trans (Function.update_self ..)) h.pending h.base ?_
        exact (blit_out hout).trans h.byte
      · exact h.congr ((congrFun hstaging i).trans (Function.update_of_ne hi ..))

section

variable [Zero β] (write : φ → ℕ → (ℕ → β) → ℕ → Bool × φ)

/-- The call is a flush, and one of its writes puts `b` at `base + r`. -/
def HandsOver (base r : ℕ) (b : β) (x : BurstCoalescer β × Call β φ) : Prop :=
  match x.2 with
  | .flush ftl maxPages =>
    ∃ w ∈ flushPatches write x.1 ftl maxPages, w.offset = base ∧ r < w.size ∧ w.src r = b
  | _ => False

variable {write} {c : BurstCoalescer β} {i r base : ℕ} {b : β}

/-- What a flush takes up is handed over. -/
theorem Holds.handsOver (h : c.Holds i r base b) (hr : r < pageSz) {ftl : φ} {maxPages : ℕ}
    (hi : i ∈ c.flushSlots maxPages) : HandsOver write base r b (c, .flush ftl maxPages) := by
  refine ⟨⟨(c.staging i).baseLba, (c.staging i).data, pageSz⟩, ?_, h.base, hr, h.byte⟩
  rw [flushPatches_eq]
  exact List.mem_map_of_mem hi

/-- A flush with room for all the pages in use takes up every one of them. -/
theorem Holds.handsOver_of_room (h : c.Holds i r base b) (hr : r < pageSz) (hi : i < c.depth)
    {ftl : φ} {maxPages : ℕ} (hroom : c.pendingCount ≤ maxPages) :
    HandsOver write base r b (c, .flush ftl maxPages) := by
  refine h.handsOver hr ?_
  rw [flushSlots, List.take_of_length_le (by rwa [pendingSlots_length])]
  exact mem_pendingSlots.mpr ⟨hi, h.pending⟩

/-- A flush that does not take a page up leaves it alone. -/
theorem Holds.flush (h : c.Holds i r base b) {ftl : φ} {maxPages : ℕ}
    (hi : i ∉ c.flushSlots maxPages) :
    (flushToFTL write c ftl maxPages).coalescer.Holds i r base b := by
  have hslot : (flushToFTL write c ftl maxPages).coalescer.staging i = c.staging i := by
    rw [(flushToFTL_scanned c ftl maxPages).staging, if_neg hi]
  exact h.congr hslot

theorem callNext_depth (c : BurstCoalescer β) (call : Call β φ) :
    (callNext write c call).depth = c.depth := by
  cases call with
  | push lbaOffset src size => exact pushWrite_depth c lbaOffset src size
  | flush ftl maxPages => exact (flushToFTL_scanned c ftl maxPages).depth
  | reset => rfl

theorem run_depth (c : BurstCoalescer β) (calls : List (Call β φ)) :
    (run (callNext write) c calls).depth = c.depth :=
  run_invariant (P := fun _ => True) (I := fun c' : BurstCoalescer β => c'.depth = c.depth) rfl
    (fun c' call h _ => (callNext_depth c' call).trans h) calls fun _ _ => trivial

/-- **A staged byte through later calls.**  As long as the buffer is not reset and no push covers its
place, the byte is staged until a flush hands it over. -/
theorem Holds.until_handed (h : c.Holds i r base b) (hr : r < pageSz) (calls : List (Call β φ))
    (hkeep : ∀ call ∈ calls, ¬ Disturbs c.depth i r call) :
    (∃ x ∈ cycles (callNext write) c calls, HandsOver write base r b x) ∨
      (run (callNext write) c calls).Holds i r base b := by
  induction calls generalizing c with
  | nil => exact .inr h
  | cons call calls ih =>
    have hrest : (callNext write c call).Holds i r base b →
        (∃ x ∈ cycles (callNext write) c (call :: calls), HandsOver write base r b x) ∨
          (run (callNext write) c (call :: calls)).Holds i r base b := by
      intro hnext
      rcases ih hnext fun call' hmem => by
          rw [callNext_depth]
          exact hkeep call' (List.mem_cons_of_mem _ hmem) with ⟨x, hx, hx'⟩ | hrun
      · exact .inl ⟨x, List.mem_cons_of_mem _ hx, hx'⟩
      · exact .inr hrun
    have hfirst := hkeep call (List.mem_cons_self ..)
    cases call with
    | push lbaOffset src size => exact hrest (h.push hfirst)
    | flush ftl maxPages =>
      by_cases hi : i ∈ c.flushSlots maxPages
      · exact .inl ⟨_, List.mem_cons_self .., h.handsOver hr hi⟩
      · exact hrest (h.flush hi)
    | reset => exact absurd trivial hfirst

/-- **What a push promises.**  A push that returns `false` changes nothing.  A push that returns
`true` stages the bytes up to the end of the page and no others: each of them is in its staging page,
which is in use, for the page of the offset unless it was in use before, and later calls hand it over
unless they reset the buffer or push something else to its place: it is staged until a flush writes
it, and a flush with room for all the pages in use does write it. -/
theorem push_write_clamped (c : BurstCoalescer β) (hdepth : 0 < c.depth) (lbaOffset : ℕ)
    (src : Option (ℕ → β)) (size : ℕ) :
    let c' := (c.pushWrite lbaOffset src size).2
    let i := c.pageIdx lbaOffset
    let base := (c'.staging i).baseLba
    ((c.pushWrite lbaOffset src size).1 = false → c' = c) ∧
      ((c.pushWrite lbaOffset src size).1 = true →
        (¬ c.Pending i → base = pageBase lbaOffset) ∧
        (∀ j k, ¬ (j = i ∧ lbaOffset % pageSz ≤ k ∧
            k < lbaOffset % pageSz + min size (pageSz - lbaOffset % pageSz)) →
          (c'.staging j).data k = (c.staging j).data k) ∧
        ∃ bytes, src = some bytes ∧ ∀ k < min size (pageSz - lbaOffset % pageSz),
          c'.Holds i (lbaOffset % pageSz + k) base (bytes k) ∧
          ∀ calls : List (Call β φ),
            (∀ call ∈ calls, ¬ Disturbs c.depth i (lbaOffset % pageSz + k) call) →
            (∃ x ∈ cycles (callNext write) c' calls,
              HandsOver write base (lbaOffset % pageSz + k) (bytes k) x) ∨
            (run (callNext write) c' calls).Holds i (lbaOffset % pageSz + k) base (bytes k) ∧
              ∀ (ftl : φ) (maxPages : ℕ),
                (run (callNext write) c' calls).pendingCount ≤ maxPages →
                HandsOver write base (lbaOffset % pageSz + k) (bytes k)
                  (run (callNext write) c' calls, .flush ftl maxPages)) := by
  intro c' i base
  cases src with
  | none => exact ⟨fun _ => rfl, fun h => by cases h⟩
  | some src =>
    by_cases hsize : size = 0 ∨ size > pageSz
    · have hsame := pushWrite_rejected c lbaOffset src hsize
      refine ⟨fun _ => congrArg Prod.snd hsame, fun h => ?_⟩
      rw [hsame] at h
      exact Bool.noConfusion h
    · obtain ⟨htrue, hstaging⟩ := pushWrite_taken c lbaOffset src hsize
      have hslot : c'.staging i = _ := (congrFun hstaging i).trans (Function.update_self ..)
      refine ⟨fun h => ?_, fun _ => ⟨fun hp => ?_, fun j k hjk => ?_, src, rfl, fun k hk => ?_⟩⟩
      · rw [htrue] at h
        exact Bool.noConfusion h
      · have hclaim : claimSlot (c.staging i) lbaOffset =
            { c.staging i with baseLba := pageBase lbaOffset, dirty := true } := if_neg hp
        show (c'.staging i).baseLba = _
        rw [hslot, hclaim]
        rfl
      · by_cases hj : j = i
        · rw [hj, hslot]
          exact (blit_out fun hin => hjk ⟨hj, hin⟩).trans (congrFun (claimSlot_data ..) k)
        · rw [show c'.staging j = c.staging j from
            (congrFun hstaging j).trans (Function.update_of_ne hj ..)]
      · have hholds : c'.Holds i (lbaOffset % pageSz + k) base (src k) := by
          refine ⟨?_, rfl, ?_⟩
          · rw [Pending, hslot]
            exact claimSlot_dirty ..
          · rw [hslot]
            refine (blit_in (Nat.le_add_right ..) (Nat.add_lt_add_left hk _)).trans ?_
            rw [Nat.zero_add, Nat.add_sub_cancel_left]
        have hplace : lbaOffset % pageSz + k < pageSz := by omega
        have hdepth' : c'.depth = c.depth := pushWrite_depth c lbaOffset (some src) size
        refine ⟨hholds, fun calls hkeep => ?_⟩
        rw [← hdepth'] at hkeep
        refine (hholds.until_handed hplace calls hkeep).imp_right fun hrun => ⟨hrun, ?_⟩
        intro ftl maxPages hroom
        refine hrun.handsOver_of_room hplace ?_ hroom
        rw [run_depth, hdepth']
        exact Nat.mod_lt _ hdepth

end

/-- Twelve bytes pushed at 4090 of a new coalescer: the first six are staged for page 0. -/
theorem push_write_clamped_new :
    let c := construct Byte defaultDepth
    let src : ℕ → Byte := fun k => BitVec.ofNat 8 k
    let c' := (c.pushWrite 4090 (some src) 12).2
    ∀ k < 6, c'.Holds 0 (4090 + k) 0 (src k) ∧
      ∀ (ftl : FTJController) (maxPages : ℕ), c'.pendingCount ≤ maxPages →
        HandsOver controllerWrite 0 (4090 + k) (src k) (c', .flush ftl maxPages) := by
  intro c src c' k hk
  have hpush := @push_write_clamped _ _ _ controllerWrite c (by decide) 4090 (some src) 12
  obtain ⟨-, -, bytes, hbytes, hall⟩ := hpush.2 rfl
  obtain rfl := Option.some.inj hbytes
  obtain ⟨hholds, hlater⟩ := hall k hk
  refine ⟨hholds, fun ftl maxPages hroom => ?_⟩
  rcases hlater [] (fun _ h => by cases h) with ⟨x, hx, -⟩ | ⟨-, hflush⟩
  · cases hx
  · exact hflush ftl maxPages hroom

/-- **A push that is half dropped.**  Two bytes pushed at 4095 return `true`; the second one, 9, is in
no staging page, and no flush hands it over. -/
theorem push_write_drops_tail :
    let src : ℕ → Byte := fun k => if k = 0 then 7 else 9
    let r := (construct Byte defaultDepth).pushWrite 4095 (some src) 2
    r.1 = true ∧ src 1 = 9 ∧ (∀ i k, (r.2.staging i).data k ≠ 9) ∧
      ∀ (ftl : FTJController) (maxPages : ℕ), ∀ w ∈ flushPatches controllerWrite r.2 ftl maxPages,
        ∀ k < w.size, w.src k ≠ 9 := by
  intro src r
  have hnone : ∀ i k, (r.2.staging i).data k ≠ 9 := by
    intro i k
    have hsize : ¬ (2 = 0 ∨ 2 > pageSz) := by decide
    have hstaging : r.2.staging = Function.update (construct Byte defaultDepth).staging 0 _ :=
      (pushWrite_taken (construct Byte defaultDepth) 4095 src hsize).2
    rw [hstaging]
    by_cases hi : i = 0
    · rw [hi, Function.update_self]
      by_cases hk : 4095 ≤ k ∧ k < 4095 + 1
      · obtain rfl : k = 4095 := by omega
        decide
      · have hout : blit (fun _ => (0 : Byte)) 4095 src 0 1 k = 0 := blit_out hk
        exact fun h => absurd (hout.symm.trans h) (by decide)
    · rw [Function.update_of_ne hi]
      exact fun h => absurd h (by decide : (0 : Byte) ≠ 9)
  refine ⟨rfl, rfl, hnone, fun ftl maxPages w hw k _ => ?_⟩
  rw [flushPatches_eq] at hw
  obtain ⟨i, -, rfl⟩ := List.mem_map.mp hw
  exact hnone i k

end BurstCoalescer

end FtjSsdSim.Engine
