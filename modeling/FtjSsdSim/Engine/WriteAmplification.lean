import Mathlib
import FtjSsdSim.Library.Machine
import FtjSsdSim.Engine.Ledger

/-!
# Write amplification and half-select disturbs

What the statistics say about the programs of a run.

* `programs_account_for_bytes` — the bytes written are the programs of the pages, and no fewer than the
  bytes that the writes accepted: the write amplification is at least one;
* `disturbs_eq_programs_iff` — `RunGC` programs a page without the disturb of its neighbour, so the
  disturbs are the programs exactly until a collection relocates a page.
-/

namespace FtjSsdSim.Engine

open FtjSsdSim.Library

namespace FTJController

/-! ### Counting programs -/

/-- Every program is a program of one page. -/
theorem sum_programs {n : ℕ} {ws : List Work}
    (hbelow : ∀ w ∈ ws, ∀ q, w.programs q = true → q < n) :
    ∑ q ∈ Finset.range n, ws.countP (Work.programs q) = ws.countP Work.isProgram := by
  induction ws with
  | nil => exact Finset.sum_const_zero
  | cons w ws ih =>
    have hrest := ih fun v hv => hbelow v (List.mem_cons_of_mem _ hv)
    have hone : ∑ q ∈ Finset.range n, (if w.programs q = true then 1 else 0) =
        if w.isProgram = true then 1 else 0 := by
      have hw := hbelow w (List.mem_cons_self ..)
      have hsingle : ∀ r < n, ∑ q ∈ Finset.range n, (if (r == q) = true then 1 else 0) = 1 := by
        intro r hr
        simp only [beq_iff_eq]
        rw [Finset.sum_ite_eq, if_pos (Finset.mem_range.mpr hr)]
      cases w with
      | pageWrite lp => exact Finset.sum_const_zero
      | hostProgram r => exact hsingle r (hw r (beq_self_eq_true r))
      | gcProgram r => exact hsingle r (hw r (beq_self_eq_true r))
    simp only [List.countP_cons, Finset.sum_add_distrib, hrest, hone]

/-- A program is one of the two paths'. -/
theorem countP_isProgram (ws : List Work) :
    ws.countP Work.isProgram = ws.countP Work.isHostProgram + ws.countP Work.isGcProgram := by
  induction ws with
  | nil => rfl
  | cons w ws ih =>
    rw [List.countP_cons, List.countP_cons, List.countP_cons, ih]
    cases w <;> simp [Work.isProgram, Work.isHostProgram, Work.isGcProgram] <;> omega

/-! ### The bytes of a write -/

/-- The page loop programs enough pages for all the bytes it writes. -/
theorem writeLoop_programs (c : FTJController) (src : ℕ → Byte) (startByte endByte written : ℕ)
    (hok : (c.writeLoop src startByte endByte written).1 = true) :
    endByte - startByte ≤
      pageSize * (c.loopWork src startByte endByte written).countP Work.isHostProgram := by
  induction c, startByte, written using writeLoop.induct src endByte with
  | case1 c startByte written hlt lp c₁ q c₂ hclaim =>
    rename_i hneg
    rw [writeLoop_round hlt hclaim, if_pos hneg] at hok
    cases hok
  | case2 c startByte written hlt lp pageOffset toWrite c₁ q c₂ hclaim hneg =>
    rename_i ih
    rw [writeLoop_round hlt hclaim, if_neg hneg] at hok
    have hrest := ih hok
    have hround : toWrite ≤ pageSize := (min_le_right ..).trans (Nat.sub_le ..)
    rw [loopWork_round hlt hclaim, if_neg hneg, List.countP_cons_of_neg Bool.false_ne_true,
      List.countP_append, List.countP_cons_of_pos rfl, Nat.mul_add, Nat.mul_add, Nat.mul_one]
    calc endByte - startByte ≤ toWrite + (endByte - (startByte + toWrite)) := by omega
      _ ≤ pageSize + pageSize * _ := Nat.add_le_add hround hrest
      _ ≤ _ := by rw [Nat.add_comm pageSize]; exact Nat.le_add_left ..
  | case3 c startByte written hge => omega

/-- A write that returns `true` has programmed enough pages for its bytes. -/
theorem write_programs (c : FTJController) (offset : ℕ) (src : Option (ℕ → Byte)) (size : ℕ)
    (hok : (c.write offset src size).1 = true) :
    size ≤ pageSize * (c.writeWork offset src size).countP Work.isProgram := by
  cases src with
  | none => cases hok
  | some src =>
    by_cases hrange : size > c.capacity ∨ offset > c.capacity - size
    · have hfalse : c.write offset (some src) size = (false, c) := if_pos hrange
      rw [hfalse] at hok
      cases hok
    · have hloop := writeLoop_programs c src offset (offset + size) 0
      have hall : (c.loopWork src offset (offset + size) 0).countP Work.isHostProgram ≤
          (c.writeWork offset (some src) size).countP Work.isProgram := by
        rw [countP_isProgram]
        simp only [writeWork, if_neg hrange]
        rw [List.countP_append, Nat.add_assoc]
        exact Nat.le_add_right ..
      rw [write_inRange hrange] at hok
      cases hres : c.writeLoop src offset (offset + size) 0 with
      | mk ok c' =>
        rw [hres] at hok hloop
        cases ok with
        | false => cases hok
        | true =>
          have hbytes := hloop rfl
          calc size = offset + size - offset := by omega
            _ ≤ _ := hbytes
            _ ≤ _ := Nat.mul_le_mul_left _ hall

/-- The bytes that an event's write accepts. -/
def acceptedBytes (c : FTJController) : Event → ℕ
  | .call (.write w) => if writeResult (c, w) then w.size else 0
  | _ => 0

theorem acceptedBytes_le (c : FTJController) (event : Event) :
    c.acceptedBytes event ≤ pageSize * (c.eventWork event).countP Work.isProgram := by
  cases event with
  | call call =>
    cases call with
    | write w =>
      rw [acceptedBytes]
      split_ifs with hok
      · exact write_programs c w.offset w.src w.size hok
      · exact Nat.zero_le _
    | _ => exact Nat.zero_le _
  | _ => exact Nat.zero_le _

/-- The bytes that the writes of a run accept. -/
def logicalBytes (capacity : ℕ) (events : List Event) : ℕ :=
  ((cycles eventNext (construct capacity) events).map fun x => x.1.acceptedBytes x.2).sum

theorem logicalBytes_le (capacity : ℕ) (events : List Event) :
    logicalBytes capacity events ≤
      pageSize * (runWork capacity events).countP Work.isProgram := by
  rw [logicalBytes, runWork]
  generalize cycles eventNext (construct capacity) events = xs
  induction xs with
  | nil => exact Nat.zero_le _
  | cons x xs ih =>
    have hx := acceptedBytes_le x.1 x.2
    rw [List.map_cons, List.sum_cons, List.flatMap_cons, List.countP_append, Nat.mul_add]
    omega

/-! ### The statistics -/

/-- **Write amplification.**  For every capacity and every run of events without injected wear that wraps
no counter around: the physical bytes written are 4096 times the sum of the pages' write counters, and at
least the bytes of all the writes that returned `true`, so their ratio is at least one. -/
theorem programs_account_for_bytes (capacity : ℕ) (events : List Event)
    (hwear : ∀ event ∈ events, event.wears = false)
    (hpages : ∀ q < numPages capacity,
      (runWork capacity events).countP (Work.programs q) < 2 ^ 32)
    (hbytes : pageSize * (runWork capacity events).countP Work.isProgram < 2 ^ 64) :
    let c := run eventNext (construct capacity) events
    c.totalPhysicalBytesWritten.toNat =
        4096 * ∑ q ∈ Finset.range c.pageCount, (c.pageWrites q).toNat ∧
      logicalBytes capacity events ≤ c.totalPhysicalBytesWritten.toNat ∧
      (0 < logicalBytes capacity events →
        (1 : ℚ) ≤ c.totalPhysicalBytesWritten.toNat / logicalBytes capacity events) := by
  intro c
  have hledger : Ledger capacity events c := run_ledger capacity events
  have htotal : c.totalPhysicalBytesWritten.toNat =
      pageSize * (runWork capacity events).countP Work.isProgram := by
    rw [hledger.bytes, BitVec.toNat_ofNat, Nat.mod_eq_of_lt hbytes]
  have hsum : ∑ q ∈ Finset.range c.pageCount, (c.pageWrites q).toNat =
      (runWork capacity events).countP Work.isProgram := by
    rw [hledger.pageCount, ← sum_programs hledger.below]
    refine Finset.sum_congr rfl fun q hq => ?_
    rw [hledger.writes hwear, BitVec.toNat_ofNat,
      Nat.mod_eq_of_lt (hpages q (Finset.mem_range.mp hq))]
  have hlogical : logicalBytes capacity events ≤ c.totalPhysicalBytesWritten.toNat := by
    rw [htotal]
    exact logicalBytes_le capacity events
  refine ⟨by rw [htotal, hsum], hlogical, fun hpos => ?_⟩
  rw [le_div_iff₀ (Nat.cast_pos.mpr hpos), one_mul]
  exact Nat.cast_le.mpr hlogical

/-- Fifty-eight writes of one byte: the last of them collects, and moves the one page that is mapped
twice, as it meets it again at its new place. -/
theorem programs_account_for_bytes_collection :
    let events := List.replicate 58 (Event.call (.write writeFirst))
    let c := run eventNext (construct sixtyPages) events
    c.totalPhysicalBytesWritten.toNat =
        4096 * ∑ q ∈ Finset.range c.pageCount, (c.pageWrites q).toNat ∧
      logicalBytes sixtyPages events ≤ c.totalPhysicalBytesWritten.toNat ∧
      (0 < logicalBytes sixtyPages events →
        (1 : ℚ) ≤ c.totalPhysicalBytesWritten.toNat / logicalBytes sixtyPages events) :=
  programs_account_for_bytes sixtyPages _ (by decide) (by decide +kernel) (by decide +kernel)

/-- **Disturbs and programs.**  For every capacity of more than one page and every run of events that
leaves disturb tracking on, the disturbs counted are the pages programmed exactly when that holds of the
two counts as they wrap around; below `2^52` programs, exactly when no collection relocated a page. -/
theorem disturbs_eq_programs_iff {capacity : ℕ} (hmany : 1 < numPages capacity)
    (events : List Event) (htrack : ∀ event ∈ events, event.tracks = true) :
    let c := run eventNext (construct capacity) events
    let host := (runWork capacity events).countP Work.isHostProgram
    let gc := (runWork capacity events).countP Work.isGcProgram
    (c.totalHalfSelectDisturbs.toNat = c.totalPhysicalBytesWritten.toNat / 4096 ↔
        host % 2 ^ 64 = (host + gc) % 2 ^ 52) ∧
      (host + gc < 2 ^ 52 →
        (c.totalHalfSelectDisturbs.toNat = c.totalPhysicalBytesWritten.toNat / 4096 ↔ gc = 0)) := by
  intro c host gc
  have hledger : Ledger capacity events c := run_ledger capacity events
  have hdisturbs : c.totalHalfSelectDisturbs.toNat = host % 2 ^ 64 := by
    rw [hledger.disturbs hmany htrack, BitVec.toNat_ofNat]
  have hprograms : c.totalPhysicalBytesWritten.toNat / 4096 = (host + gc) % 2 ^ 52 := by
    rw [hledger.bytes, BitVec.toNat_ofNat, countP_isProgram]
    simp only [pageSize]
    omega
  rw [hdisturbs, hprograms]
  refine ⟨Iff.rfl, fun hfew => ?_⟩
  omega

/-- Fifty-eight writes with the disturb threshold lowered: the collection at the end relocates two pages,
so the counts part. -/
theorem disturbs_eq_programs_iff_collection :
    let events := .setPhysicsConfig { halfSelectDisturbThreshold := 1 } ::
      List.replicate 58 (Event.call (.write writeFirst))
    let c := run eventNext (construct sixtyPages) events
    let host := (runWork sixtyPages events).countP Work.isHostProgram
    let gc := (runWork sixtyPages events).countP Work.isGcProgram
    (host = 58 ∧ gc = 2) ∧
      (c.totalHalfSelectDisturbs.toNat = c.totalPhysicalBytesWritten.toNat / 4096 ↔
        host % 2 ^ 64 = (host + gc) % 2 ^ 52) ∧
      (host + gc < 2 ^ 52 →
        (c.totalHalfSelectDisturbs.toNat = c.totalPhysicalBytesWritten.toNat / 4096 ↔ gc = 0)) :=
  ⟨by decide +kernel, disturbs_eq_programs_iff (by decide) _ (by decide)⟩

/-- **A relocation disturbs nothing.**  The collection at the end of fifty-eight writes programs two
pages more, and 58 disturbs are counted. -/
theorem disturbs_miss_relocation :
    let c := run eventNext (construct sixtyPages) (List.replicate 58 (.call (.write writeFirst)))
    c.pageCount > 1 ∧ c.physicsCfg.enableDisturbTracking = true ∧
      c.totalHalfSelectDisturbs = 58 ∧ c.totalPhysicalBytesWritten.toNat / 4096 = 60 := by
  decide +kernel

end FTJController

end FtjSsdSim.Engine
