import Mathlib
import FtjSsdSim.Library.Machine
import FtjSsdSim.Engine.WriteRuns
import FtjSsdSim.Engine.Reading

/-!
# Reading back what was written

A run of writes followed by a read, checked against the store that remembers the last write to
every byte.

* `read_your_writes_of_clean` — after a clean run a read delivers the last write to every byte;
* `read_your_writes_shared_page` — a run in which two logical pages end up on one physical page,
  which a collection has freed twice.
-/

namespace FtjSsdSim.Engine

open FtjSsdSim.Library

namespace FTJController

/-- After the calls `ws`, every in-range read returns `true` and delivers the last write to every byte
of its range, or zero where there is none. -/
def ReadsBack (capacity : ℕ) (ws : List WriteCall) : Prop :=
  ∀ (hits : Hits) (seed : Word) (offset : ℕ) (dest : ℕ → Byte) (size : ℕ),
    offset + size ≤ capacity →
    let result := (run writeNext (construct capacity) ws).read hits seed offset (some dest) size
    result.ok = true ∧ ∃ dest', result.dest = some dest' ∧
      ∀ i < size, dest' i = lastWrite 0 (ws.map WriteCall.patch) (offset + i)

/-- **Read your writes.**  For every admitted capacity below `2^31` pages: after `Write` calls that
all returned `true` and whose erase loops never met a page that was on a free list already, and
with no page worn or disturbed beyond its threshold, every in-range read delivers the last write
to every byte. -/
theorem read_your_writes_of_clean {capacity : ℕ} (hcap : Admitted capacity)
    (hsmall : capacity / pageSize < 2 ^ 31) (ws : List WriteCall)
    (htrue : ∀ x ∈ cycles writeNext (construct capacity) ws, writeResult x = true)
    (hclean : ∀ x ∈ cycles writeNext (construct capacity) ws, CleanWrite x)
    (hhealthy : (run writeNext (construct capacity) ws).Healthy) : ReadsBack capacity ws := by
  intro hits seed offset dest size hin
  obtain ⟨v, hrep, hcount, hcontent⟩ := run_represents hcap hsmall ws hclean
  have hcapacity : (run writeNext (construct capacity) ws).capacity = capacity := by
    rw [hrep.consistent.capacity_eq, hcount]
    exact Nat.div_mul_cancel hcap.2.1
  have hread := (hrep.readsAs (run_eccMatches capacity ws)).delivered hhealthy hits seed offset dest
    size (hin.trans_eq hcapacity.symm)
  simp only [hread]
  refine ⟨trivial, _, rfl, fun i hi => ?_⟩
  rw [blit_in (Nat.zero_le i) (by omega), Nat.sub_zero, hcontent htrue]

/-- The condition holds through a collection: fifty-eight writes of one page and a write across two. -/
theorem read_your_writes_of_clean_collection :
    ReadsBack sixtyPages (List.replicate 58 writeFirst ++ [⟨4000, some fun _ => 5, 200⟩]) := by
  have hrun : let ws := List.replicate 58 writeFirst ++ [⟨4000, some fun _ => 5, 200⟩]
      (∀ x ∈ cycles writeNext (construct sixtyPages) ws, writeResult x = true ∧ CleanWrite x) ∧
        (run writeNext (construct sixtyPages) ws).Healthy := by decide +kernel
  exact read_your_writes_of_clean sixtyPages_admitted (by decide) _ (fun x hx => (hrun.1 x hx).1)
    (fun x hx => (hrun.1 x hx).2) hrun.2

/-- Writes of one page until page 0 is on the free list twice and only pages 0 and 2 are left, then
one write of three pages: twos on its last page and ones before it. -/
def sharedPage : List WriteCall :=
  List.replicate 172 writeFirst ++ [⟨4096, some fun i => if i < 8192 then 1 else 2, 12288⟩]

/-- **A read delivers another page's bytes.**  Every call of `sharedPage` returns `true` and no page
is worn or disturbed, but the second and the third page of the last write share physical page 0, and
the byte at 8192 reads 2, where 1 was written. -/
theorem read_your_writes_shared_page :
    Admitted sixtyPages ∧
      (∀ x ∈ cycles writeNext (construct sixtyPages) sharedPage, writeResult x = true) ∧
      (run writeNext (construct sixtyPages) sharedPage).Healthy ∧
      ¬ ReadsBack sixtyPages sharedPage := by
  have hrun : (∀ x ∈ cycles writeNext (construct sixtyPages) sharedPage, writeResult x = true) ∧
      (run writeNext (construct sixtyPages) sharedPage).Healthy ∧
      ((run writeNext (construct sixtyPages) sharedPage).read (fun _ _ _ _ => false) 0 8192
        (some fun _ => 0) 1).dest.map (fun dest' => dest' 0) = some 2 := by decide +kernel
  have hwritten : lastWrite 0 (sharedPage.map WriteCall.patch) (8192 + 0) = 1 := by decide +kernel
  obtain ⟨htrue, hhealthy, hread⟩ := hrun
  refine ⟨sixtyPages_admitted, htrue, hhealthy, fun h => ?_⟩
  obtain ⟨-, dest', hdest, hbyte⟩ :=
    h (fun _ _ _ _ => false) 0 8192 (fun _ => 0) 1 (by decide)
  rw [hdest, Option.map_some, Option.some_inj, hbyte 0 (by decide), hwritten] at hread
  exact absurd hread (by decide)

end FTJController

end FtjSsdSim.Engine
