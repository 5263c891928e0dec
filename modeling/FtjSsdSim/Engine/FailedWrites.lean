import Mathlib
import FtjSsdSim.Library.Machine
import FtjSsdSim.Engine.FreePages
import FtjSsdSim.Engine.Reading
import FtjSsdSim.Engine.WriteRuns

/-!
# Writes that run out of space

`Write` commits page by page and takes nothing back.  A drive has as many physical pages as logical
ones, so a page that is overwritten needs a free page that only other overwritten pages can give
back.

* `write_false_prefix` — a write that returns `false` leaves whole leading pages of its bytes behind,
  and nothing when it was rejected or lies in one page;
* `write_when_full` — a drive with every logical page mapped takes no write at all, while a write
  with a free page for each page it touches succeeds, whatever its own collections do.
-/

namespace FtjSsdSim.Engine

open FtjSsdSim.Library

namespace FTJController

/-- What a controller reached by clean calls has, and has again after one more. -/
theorem run_snoc_readsAs {capacity : ℕ} (ws : List WriteCall) (w : WriteCall) {v : ℕ → Option Page}
    (h : ((run writeNext (construct capacity) ws).writeNext w).Represents v) :
    ((run writeNext (construct capacity) ws).writeNext w).ReadsAs (contentOf v) := by
  refine h.readsAs ?_
  have hecc := run_eccMatches capacity (ws ++ [w])
  rwa [run_snoc] at hecc

theorem Represents.capacity_eq {c : FTJController} {v : ℕ → Option Page} (h : c.Represents v)
    {capacity : ℕ} (hcap : Admitted capacity) (hcount : c.pageCount = capacity / pageSize) :
    c.capacity = capacity := by
  rw [h.consistent.capacity_eq, hcount]
  exact Nat.div_mul_cancel hcap.2.1

/-- **A write that returns `false`.**  For every admitted capacity below `2^31` pages, in every state
reached by calls of `Write` whose erase loops never meet a page that is on a free list already: the
address space reads as before with the first `k` bytes of the write put in.  Either `k = 0`, or the
write was in range and stopped short of its end at a page boundary. -/
theorem write_false_prefix {capacity : ℕ} (hcap : Admitted capacity)
    (hsmall : capacity / pageSize < 2 ^ 31) (ws : List WriteCall)
    (hclean : ∀ x ∈ cycles writeNext (construct capacity) ws, CleanWrite x) (w : WriteCall)
    (hw : CleanWrite (run writeNext (construct capacity) ws, w))
    (hfalse : writeResult (run writeNext (construct capacity) ws, w) = false) :
    ∃ f k, (run writeNext (construct capacity) ws).ReadsAs f ∧
      ((run writeNext (construct capacity) ws).writeNext w).ReadsAs
        (blit f w.offset (w.src.getD fun _ => 0) 0 k) ∧
      (k = 0 ∨ (w.src.isSome ∧ w.offset + w.size ≤ capacity ∧ k < w.size ∧
        pageSize ∣ w.offset + k)) := by
  obtain ⟨v, hrep, hcount, -⟩ := run_represents hcap hsmall ws hclean
  have hbefore := hrep.readsAs (run_eccMatches capacity ws)
  obtain ⟨offset, src, size⟩ := w
  cases src with
  | none =>
    have hafter := run_snoc_readsAs ws ⟨offset, none, size⟩ (v := v) hrep
    exact ⟨contentOf v, 0, hbefore, by rwa [blit_zero], .inl rfl⟩
  | some src =>
    obtain ⟨v', k, hrep', -, hcontent, -, hpart⟩ := write_represents hrep offset src size hw
    have hafter := run_snoc_readsAs ws ⟨offset, some src, size⟩ hrep'
    refine ⟨contentOf v, k, hbefore, hcontent ▸ hafter, (hpart hfalse).imp_right ?_⟩
    rintro ⟨hlt, hin, hpage⟩
    exact ⟨rfl, hrep.capacity_eq hcap hcount ▸ hin, hlt, hpage⟩

/-- A drive of two pages. -/
def twoPages : ℕ := 2 * pageSize

theorem twoPages_admitted : Admitted twoPages := ⟨by decide, ⟨2, rfl⟩, .inl (by decide)⟩

/-- Logical page 1 is mapped; then a write of both pages. -/
def bothPages : WriteCall := ⟨0, some fun _ => 1, 2 * pageSize⟩

/-- **A failed write leaves its first page behind.**  With one of two pages mapped, a write of both
returns `false` and byte 0 reads 1, where it read 0 before. -/
theorem write_false_changes_byte :
    let c := run writeNext (construct twoPages) [⟨4096, some fun _ => 0, 1⟩]
    writeResult (c, bothPages) = false ∧ c.Healthy ∧ (c.writeNext bothPages).Healthy ∧
      ((c.read (fun _ _ _ _ => false) 0 0 (some fun _ => 0) 1).dest.map fun dest => dest 0) = some 0 ∧
      (((c.writeNext bothPages).read (fun _ _ _ _ => false) 0 0 (some fun _ => 0) 1).dest.map
        fun dest => dest 0) = some 1 := by
  decide +kernel

/-- The condition holds for that write. -/
theorem write_false_prefix_bothPages :
    ∃ f k, (run writeNext (construct twoPages) [⟨4096, some fun _ => 0, 1⟩]).ReadsAs f ∧
      ((run writeNext (construct twoPages) [⟨4096, some fun _ => 0, 1⟩]).writeNext
        bothPages).ReadsAs (blit f 0 (fun _ => 1) 0 k) ∧
      (k = 0 ∨ (true ∧ 0 + 2 * pageSize ≤ twoPages ∧ k < 2 * pageSize ∧ pageSize ∣ 0 + k)) :=
  write_false_prefix twoPages_admitted (by decide) [⟨4096, some fun _ => 0, 1⟩] (by decide +kernel)
    bothPages (by decide +kernel) (by decide +kernel)

/-- **Space.**  For every admitted capacity below `2^31` pages, in every state reached by calls of
`Write` whose erase loops never meet a page that is on a free list already, and for every write in
range:
* with a free page for every logical page it touches, it returns `true`, and its bytes are what is
  read from then on if its own erase loops meet no page on a free list either;
* with every logical page mapped, it returns `true` only if it is empty, and what is read does not
  change. -/
theorem write_when_full {capacity : ℕ} (hcap : Admitted capacity)
    (hsmall : capacity / pageSize < 2 ^ 31) (ws : List WriteCall)
    (hclean : ∀ x ∈ cycles writeNext (construct capacity) ws, CleanWrite x) (offset : ℕ)
    (src : ℕ → Byte) (size : ℕ) (hin : offset + size ≤ capacity) :
    let c := run writeNext (construct capacity) ws
    let w : WriteCall := ⟨offset, some src, size⟩
    ∃ f, c.ReadsAs f ∧
      (pagesTouched offset (offset + size) ≤ c.freeCount →
        writeResult (c, w) = true ∧
          (CleanWrite (c, w) → (c.writeNext w).ReadsAs (blit f offset src 0 size))) ∧
      ((∀ lp < capacity / pageSize, 0 ≤ c.l2pMap lp) →
        writeResult (c, w) = decide (size = 0) ∧ (c.writeNext w).ReadsAs f) := by
  intro c w
  obtain ⟨v, hrep, hcount, -⟩ := run_represents hcap hsmall ws hclean
  have hinc : offset + size ≤ c.capacity := by rwa [hrep.capacity_eq hcap hcount]
  refine ⟨contentOf v, hrep.readsAs (run_eccMatches capacity ws), fun henough => ?_,
    fun hmapped => ?_⟩
  · have hneg : ∀ x ∈ c.freePages, 0 ≤ x := fun x hx => by
      obtain ⟨p, -, rfl⟩ := hrep.consistent.free_range x hx
      exact Int.natCast_nonneg p
    rw [freeCount_eq] at henough
    have htrue : writeResult (c, w) = true := write_true_of_free src hinc hneg henough
    refine ⟨htrue, fun hw => ?_⟩
    obtain ⟨v', k, hrep', -, hcontent, hall, -⟩ := write_represents hrep offset src size hw
    have hafter := run_snoc_readsAs ws w hrep'
    rwa [hcontent, hall htrue] at hafter
  · obtain ⟨hresult, hsame, hmemory⟩ :=
      write_full (hrep.full (by rw [hcount]; exact hmapped)) src hinc
    exact ⟨hresult, run_snoc_readsAs ws w (hrep.of_same hsame hmemory)⟩

theorem onePage_admitted : Admitted pageSize := ⟨by decide, dvd_refl _, .inl (by decide)⟩

/-- **A full drive is not writable.**  On a drive of one page the second write returns `false`. -/
theorem write_when_full_fails :
    Admitted pageSize ∧
      (∀ lp < pageSize / pageSize, 0 ≤ (run writeNext (construct pageSize) [writeFirst]).l2pMap lp) ∧
      writeResult (run writeNext (construct pageSize) [writeFirst], writeFirst) = false :=
  ⟨onePage_admitted, by decide +kernel⟩

/-- A drive of four pages. -/
def fourPages : ℕ := 4 * pageSize

theorem fourPages_admitted : Admitted fourPages := ⟨by decide, ⟨4, rfl⟩, .inl (by decide)⟩

/-- The first two pages. -/
def frontHalf : WriteCall := ⟨0, some fun _ => 1, 2 * pageSize⟩

/-- Logical pages 1 and 2: one of them is mapped, the other is new. -/
def middle : WriteCall := ⟨pageSize, some fun _ => 2, 2 * pageSize⟩

/-- The last page. -/
def backPage : WriteCall := ⟨3 * pageSize, some fun _ => 3, pageSize⟩

/-- Both cases on four pages: two free pages take `middle`, whose collection gives the stale page 1
back; that page takes `backPage`, and then the drive is full. -/
theorem write_when_full_four_pages :
    writeResult (run writeNext (construct fourPages) [frontHalf], middle) = true ∧
      (∃ f, (run writeNext (construct fourPages) [frontHalf]).ReadsAs f ∧
        ((run writeNext (construct fourPages) [frontHalf]).writeNext middle).ReadsAs
          (blit f pageSize (fun _ => 2) 0 (2 * pageSize))) ∧
      writeResult (run writeNext (construct fourPages) [frontHalf, middle, backPage], middle) =
        false ∧
      ∃ f, (run writeNext (construct fourPages) [frontHalf, middle, backPage]).ReadsAs f ∧
        ((run writeNext (construct fourPages) [frontHalf, middle, backPage]).writeNext
          middle).ReadsAs f := by
  have hmapped : ∀ lp < fourPages / pageSize,
      0 ≤ (run writeNext (construct fourPages) [frontHalf, middle, backPage]).l2pMap lp := by
    decide +kernel
  obtain ⟨f, hf, hspace, -⟩ := write_when_full fourPages_admitted (by decide) [frontHalf]
    (by decide +kernel) pageSize (fun _ => 2) (2 * pageSize) (by decide)
  obtain ⟨htrue, hread⟩ := hspace (by decide +kernel)
  obtain ⟨g, hg, -, hfull⟩ := write_when_full fourPages_admitted (by decide)
    [frontHalf, middle, backPage] (by decide +kernel) pageSize (fun _ => 2) (2 * pageSize)
    (by decide)
  obtain ⟨hfalse, hsame⟩ := hfull hmapped
  exact ⟨htrue, ⟨f, hf, hread (by decide +kernel)⟩, hfalse, g, hg, hsame⟩

end FTJController

end FtjSsdSim.Engine
