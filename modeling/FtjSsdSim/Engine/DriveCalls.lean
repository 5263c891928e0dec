import Mathlib
import FtjSsdSim.Library.Machine
import FtjSsdSim.Engine.WriteInvariant
import FtjSsdSim.Engine.StoredEcc
import FtjSsdSim.Engine.Reading

/-!
# Runs of a drive

The states a controller reaches by any sequence of writes, reads, injected wear and autonomous
refreshes.  None of the calls other than a write touches the two buffers, so the stored check bytes
match all along (`stored_ecc_matches`), and only an injected bit error can make a read report one.
-/

namespace FtjSsdSim.Engine

open FtjSsdSim.Library FtjSsdSim.Engine.Ecc

namespace FTJController

/-- A call on the drive; a read comes with the random numbers it draws. -/
inductive Call where
  | write (w : WriteCall)
  | read (hits : Hits) (seed : Word) (offset : ℕ) (dest : Option (ℕ → Byte)) (size : ℕ)
  | injectHeavyWear (offset : ℕ) (writeCount : BitVec 32)
  | triggerAutonomousRefresh

/-- The controller after a call. -/
def callNext (c : FTJController) : Call → FTJController
  | .write w => c.writeNext w
  | .read hits seed offset dest size => (c.read hits seed offset dest size).controller
  | .injectHeavyWear offset writeCount => c.injectHeavyWear offset writeCount
  | .triggerAutonomousRefresh => c.triggerAutonomousRefresh.2

variable {c : FTJController}

theorem injectHeavyWear_eq (c : FTJController) (offset : ℕ) (writeCount : BitVec 32) :
    ∃ writes, c.injectHeavyWear offset writeCount = { c with pageWrites := writes } := by
  unfold injectHeavyWear
  simp only
  split_ifs
  · exact ⟨_, rfl⟩
  · exact ⟨c.pageWrites, rfl⟩

theorem triggerAutonomousRefresh_eq (c : FTJController) :
    ∃ disturbs, c.triggerAutonomousRefresh.2 = { c with pageDisturbs := disturbs } := by
  refine forLoop_preserves (P := fun r : BitVec 64 × FTJController =>
    ∃ disturbs, r.2 = { c with pageDisturbs := disturbs }) ⟨c.pageDisturbs, rfl⟩ ?_
  rintro p ⟨n, -⟩ - - ⟨disturbs, rfl⟩
  simp only
  split_ifs
  · exact ⟨_, rfl⟩
  · exact ⟨disturbs, rfl⟩

/-- What every call keeps: the capacity, and the match of the check bytes. -/
structure Matched (capacity : ℕ) (c : FTJController) : Prop where
  capacity_eq : c.capacity = capacity
  ecc : c.EccMatches

theorem Matched.congr {capacity : ℕ} {c' : FTJController} (h : Matched capacity c)
    (hc : c'.capacity = c.capacity) (hm : c'.memoryBuffer = c.memoryBuffer)
    (he : c'.eccBuffer = c.eccBuffer) : Matched capacity c' :=
  ⟨hc.trans h.capacity_eq, h.ecc.congr hm he⟩

/-- A call other than a write touches no table, no buffer and no hot counter. -/
theorem callNext_cases (c : FTJController) (call : Call) :
    (∃ w, call = .write w) ∨
      ∃ writes disturbs reads corrected uncorrectable flips, c.callNext call = { c with
        pageWrites := writes
        pageDisturbs := disturbs
        totalReads := reads
        correctedErrors := corrected
        uncorrectableErrors := uncorrectable
        totalBitFlips := flips } := by
  cases call with
  | write w => exact .inl ⟨w, rfl⟩
  | read hits seed offset dest size =>
    obtain ⟨_, _, _, _, heq⟩ := read_controller hits c seed offset dest size
    exact .inr ⟨_, _, _, _, _, _, heq⟩
  | injectHeavyWear offset writeCount =>
    obtain ⟨_, heq⟩ := injectHeavyWear_eq c offset writeCount
    exact .inr ⟨_, _, _, _, _, _, heq⟩
  | triggerAutonomousRefresh =>
    obtain ⟨_, heq⟩ := triggerAutonomousRefresh_eq c
    exact .inr ⟨_, _, _, _, _, _, heq⟩

/-- **One call.** -/
theorem Matched.callNext {capacity : ℕ} (h : Matched capacity c) (call : Call) :
    Matched capacity (c.callNext call) := by
  rcases c.callNext_cases call with ⟨w, rfl⟩ | ⟨_, _, _, _, _, _, heq⟩
  · exact ⟨(congrArg Prod.fst (writeNext_geometry c w)).trans h.capacity_eq,
      write_eccMatches h.ecc w.offset w.src w.size⟩
  · rw [heq]
    exact h.congr rfl rfl rfl

/-- A read that injects no bit error reports none. -/
theorem read_reports_none (h : c.EccMatches) (hsize : c.capacity < 2 ^ 64) (hits : Hits) (seed : Word)
    (offset : ℕ) (dest : Option (ℕ → Byte)) (size : ℕ)
    (hflips : (c.read hits seed offset dest size).controller.totalBitFlips = c.totalBitFlips) :
    (c.read hits seed offset dest size).controller.correctedErrors = c.correctedErrors ∧
      (c.read hits seed offset dest size).controller.uncorrectableErrors = c.uncorrectableErrors ∧
      (dest.isSome → offset + size ≤ c.capacity →
        (c.read hits seed offset dest size).ok = true) := by
  cases dest with
  | none => exact ⟨rfl, rfl, fun hn => by cases hn⟩
  | some dest =>
    by_cases hin : offset + size ≤ c.capacity
    · rw [read_of_no_flip hits (fun _ _ p _ => h.pageEcc p) hsize seed dest hin hflips]
      exact ⟨rfl, rfl, fun _ _ => rfl⟩
    · have hguard : size > c.capacity ∨ offset > c.capacity - size := by omega
      have hread : c.read hits seed offset (some dest) size = ⟨false, some dest, seed, c⟩ :=
        if_pos hguard
      rw [hread]
      exact ⟨rfl, rfl, fun _ hin' => absurd hin' hin⟩

/-- **Stored check bytes match stored data.**  For every capacity and every sequence of writes, reads,
injected wear and refreshes: the check byte of every word of every physical page is the one of the
word, and a read that injects no bit error counts no corrected or uncorrectable error. -/
theorem stored_ecc_matches {capacity : ℕ} (hsize : capacity < 2 ^ 64) (calls : List Call) :
    let c := run callNext (construct capacity) calls
    (∀ p < c.pageCount, ∀ m < pageSize / 8,
      c.eccBuffer (p * pageSize / 8 + m) = calculateECC (c.word (p * pageSize / 8 + m))) ∧
    ∀ (hits : Hits) (seed : Word) (offset : ℕ) (dest : Option (ℕ → Byte)) (size : ℕ),
      (c.read hits seed offset dest size).controller.totalBitFlips = c.totalBitFlips →
      (c.read hits seed offset dest size).controller.correctedErrors = c.correctedErrors ∧
        (c.read hits seed offset dest size).controller.uncorrectableErrors =
          c.uncorrectableErrors ∧
        (dest.isSome → offset + size ≤ capacity →
          (c.read hits seed offset dest size).ok = true) := by
  intro c
  have h : Matched capacity c := run_invariant (P := fun _ => True) (I := Matched capacity)
    ⟨rfl, construct_eccMatches capacity⟩ (fun _ call hc _ => hc.callNext call) calls
    fun _ _ => trivial
  refine ⟨fun p _ m _ => h.ecc _, fun hits seed offset dest size hflips => ?_⟩
  rw [← h.capacity_eq] at hsize ⊢
  exact read_reports_none h.ecc hsize hits seed offset dest size hflips

/-- Two writes, injected wear, a read and a refresh of a drive of two pages. -/
theorem stored_ecc_matches_two_pages :
    let c := run callNext (construct (2 * pageSize))
      [.write ⟨4090, some fun _ => 7, 12⟩, .injectHeavyWear 0 60000, .write writeFirst,
        .read (fun _ _ _ _ => true) 1 0 (some fun _ => 0) 8, .triggerAutonomousRefresh]
    (∀ p < c.pageCount, ∀ m < pageSize / 8,
      c.eccBuffer (p * pageSize / 8 + m) = calculateECC (c.word (p * pageSize / 8 + m))) ∧
    ∀ (hits : Hits) (seed : Word) (offset : ℕ) (dest : Option (ℕ → Byte)) (size : ℕ),
      (c.read hits seed offset dest size).controller.totalBitFlips = c.totalBitFlips →
      (c.read hits seed offset dest size).controller.correctedErrors = c.correctedErrors ∧
        (c.read hits seed offset dest size).controller.uncorrectableErrors =
          c.uncorrectableErrors ∧
        (dest.isSome → offset + size ≤ 2 * pageSize →
          (c.read hits seed offset dest size).ok = true) :=
  stored_ecc_matches (by decide) _

end FTJController

end FtjSsdSim.Engine
