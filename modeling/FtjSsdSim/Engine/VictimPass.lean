import Mathlib
import FtjSsdSim.Library.Loop
import FtjSsdSim.Library.Machine
import FtjSsdSim.Engine.WriteRuns

/-!
# One pass over a victim block

A collection of a block keeps what every logical page shows, whatever its erase loop meets: the move
loop only sees coherent tables, where each move is a remapping of the page map, and the erase loop
only changes what no logical page uses.  It may leave the free lists with a page twice, but not the
tables in disagreement.
-/

namespace FtjSsdSim.Engine

open FtjSsdSim.Library

namespace FTJController

variable {c : FTJController}

/-- **The move loop** may meet a page again that it has moved to a higher place in the block, and may
run out of free pages: every round starts from a coherent state all the same. -/
theorem Coherent.moveValidPages (h : c.Coherent) (b : ℕ) :
    (c.moveValidPages b).Coherent ∧ (c.moveValidPages b).pageMap.view = c.pageMap.view := by
  have hinv : (c.moveValidPages b).pageCount = c.pageCount ∧ (c.moveValidPages b).Coherent ∧
      (c.moveValidPages b).pageMap.view = c.pageMap.view := by
    refine forLoop_preserves (P := fun c' : FTJController => c'.pageCount = c.pageCount ∧
      c'.Coherent ∧ c'.pageMap.view = c.pageMap.view) ⟨rfl, h, rfl⟩ ?_
    intro p t _ hp ht
    obtain ⟨hcount, hcoherent, hview⟩ := ht
    have hlt : p < t.pageCount := hcount ▸ hp.trans_le (min_le_left ..)
    obtain ⟨hcoherent', hview'⟩ := hcoherent.relocatePage hlt
    exact ⟨(relocatePage_pageCount t p).trans hcount, hcoherent', hview'.trans hview⟩
  exact hinv.2

/-- **The erase loop** touches no page in use. -/
theorem TablesAgree.eraseBlock (h : c.TablesAgree) (b : ℕ) :
    (c.eraseBlock b).TablesAgree ∧ (c.eraseBlock b).pageMap = c.pageMap := by
  refine forLoop_preserves (P := fun c' : FTJController => c'.TablesAgree ∧
    c'.pageMap = c.pageMap) ⟨h, rfl⟩ ?_
  intro p t _ _ ht
  exact ⟨ht.1.erasePage p, (erasePage_pageMap t p).trans ht.2⟩

/-- **A victim pass preserves content.**  For every coherent state and every block, also where the free
pages run out midway or lie in the block itself: each logical page is mapped after the pass if it was
before and shows the same bytes, and the three tables agree. -/
theorem collectBlock_keeps_pages (h : c.Coherent) (b : ℕ) :
    (∀ lp, (c.collectBlock b).pageMap.view lp = c.pageMap.view lp) ∧
      (c.collectBlock b).TablesAgree := by
  obtain ⟨hmoved, hview⟩ := h.moveValidPages b
  obtain ⟨herased, hmap⟩ := hmoved.tables.eraseBlock b
  refine ⟨fun lp => ?_, herased.range, herased.owned, herased.agree⟩
  have hsame : (c.collectBlock b).pageMap = ((c.moveValidPages b).eraseBlock b).pageMap := rfl
  rw [hsame, hmap, hview]

/-- A drive of sixty pages, all in one block, with four logical pages written: each of the four moves up
in the victim block, is met again there, and moves on until no page is free. -/
theorem collectBlock_keeps_pages_one_block :
    let c := run writeNext (construct sixtyPages) [⟨0, some fun _ => 7, 4 * pageSize⟩]
    (∀ lp, (c.collectBlock 0).pageMap.view lp = c.pageMap.view lp) ∧
      (c.collectBlock 0).TablesAgree := by
  obtain ⟨v, hrep, -, -⟩ := run_represents sixtyPages_admitted (by decide)
    [⟨0, some fun _ => 7, 4 * pageSize⟩] (by decide +kernel)
  exact collectBlock_keeps_pages hrep.consistent.coherent 0

end FTJController

end FtjSsdSim.Engine
