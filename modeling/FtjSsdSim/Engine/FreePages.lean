import Mathlib
import FtjSsdSim.Library.Loop
import FtjSsdSim.Engine.Writing

/-!
# Writing with and without free pages

What becomes of a write is decided by the free lists.

* `writeLoop_free_induct` — induction on the page loop while free pages last;
* `writeLoop_of_free` — with a free page for every logical page it touches, the page loop runs to its
  end and uses up that many free pages;
* `Represents.full` — when every logical page is mapped, every physical page is valid and the free
  lists are empty;
* `write_full` — there a write that is not empty returns `false`: a collection finds no stale page,
  and the tables and the bytes stay as they are.
-/

namespace FtjSsdSim.Engine

open FtjSsdSim.Library

namespace FTJController

variable {c : FTJController} {v : ℕ → Option Page}

theorem freeCount_eq (c : FTJController) : c.freeCount = c.freePages.length :=
  List.length_append.symm

/-! ### With free pages -/

/-- The number of logical pages that the bytes from `startByte` up to `endByte` lie in. -/
def pagesTouched (startByte endByte : ℕ) : ℕ :=
  if startByte < endByte then (endByte - 1) / pageSize - startByte / pageSize + 1 else 0

/-- One round of the page loop deals with one of the pages. -/
theorem pagesTouched_round {startByte endByte : ℕ} (hlt : startByte < endByte) :
    pagesTouched startByte endByte = pagesTouched
      (startByte + min (endByte - startByte) (pageSize - startByte % pageSize)) endByte + 1 := by
  simp only [pagesTouched, if_pos hlt, pageSize]
  split_ifs with hmore <;> omega

theorem heat_freePages (c : FTJController) (lp : ℕ) : (c.heat lp).freePages = c.freePages :=
  (heat_same c lp).1.freePages

/-- While there is a free page, claiming one takes it off the lists and collects nothing. -/
theorem claimPage_of_free (hneg : ∀ x ∈ c.freePages, 0 ≤ x) (hne : c.freePages ≠ [])
    (preferHot : Bool) : ∃ (q : ℕ) (hot cold : List ℤ),
      c.claimPage preferHot = ((q : ℤ), c.withFree hot cold) ∧
        c.freePages.Perm ((q : ℤ) :: (hot ++ cold)) := by
  rcases allocate_cases c preferHot with ⟨-, hnil⟩ | ⟨q, hot, cold, heq, hperm⟩
  · exact absurd hnil hne
  · obtain ⟨p, rfl⟩ := Int.eq_ofNat_of_zero_le (hneg q (hperm.mem_iff.mpr (List.mem_cons_self ..)))
    refine ⟨p, hot, cold, ?_, hperm⟩
    simp only [claimPage, heq]
    exact if_neg (by omega)

theorem storePage_freePages (c : FTJController) (lp q d : ℕ) (src : ℕ → Byte) (s n : ℕ) :
    (c.storePage lp q d src s n).freePages = c.freePages := by
  obtain ⟨_, _, _, _, _, _, _, _, _, _, heq⟩ := storePage_frame c lp q d src s n
  rw [heq]
  rfl

/-- **Induction on the page loop while free pages last**: every round claims a page `p` of the free
lists, and none of them collects. -/
theorem writeLoop_free_induct (src : ℕ → Byte) (endByte : ℕ)
    {motive : FTJController → ℕ → ℕ → Prop}
    (round : ∀ (c c' : FTJController) (startByte written p : ℕ), startByte < endByte →
      (c.heat (startByte / pageSize)).claimPage
        ((c.heat (startByte / pageSize)).prefersHot (startByte / pageSize)) = ((p : ℤ), c') →
      let toWrite := min (endByte - startByte) (pageSize - startByte % pageSize)
      let next := c'.storePage (startByte / pageSize) p (startByte % pageSize) src written toWrite
      c.freePages.Perm ((p : ℤ) :: next.freePages) →
      motive next (startByte + toWrite) (written + toWrite) → motive c startByte written)
    (done : ∀ (c : FTJController) (startByte written : ℕ), ¬ startByte < endByte →
      motive c startByte written)
    (c : FTJController) (startByte written : ℕ) (hneg : ∀ x ∈ c.freePages, 0 ≤ x)
    (henough : pagesTouched startByte endByte ≤ c.freePages.length) : motive c startByte written := by
  induction c, startByte, written using writeLoop.induct src endByte with
  | case1 c startByte written hlt lp c₁ q c₂ hclaim =>
    rename_i hq
    rw [pagesTouched_round hlt] at henough
    rw [← heat_freePages c lp] at hneg henough
    obtain ⟨p, hot, cold, heq, -⟩ := claimPage_of_free hneg
      (List.ne_nil_of_length_pos (by omega)) (c₁.prefersHot lp)
    obtain ⟨rfl, -⟩ : q = p ∧ c₂ = _ := by simpa using hclaim.symm.trans heq
    omega
  | case2 c startByte written hlt lp pageOffset toWrite c₁ q c₂ hclaim hq =>
    rename_i ih
    rw [pagesTouched_round hlt] at henough
    have hheat := heat_freePages c lp
    obtain ⟨p, hot, cold, heq, hperm⟩ := claimPage_of_free (hheat.symm ▸ hneg)
      (List.ne_nil_of_length_pos (by rw [hheat]; omega)) (c₁.prefersHot lp)
    obtain ⟨rfl, rfl⟩ : q = p ∧ c₂ = c₁.withFree hot cold := by
      simpa using hclaim.symm.trans heq
    have hfree : ((c₁.withFree hot cold).storePage lp (p : ℤ).toNat pageOffset src written
        toWrite).freePages = hot ++ cold := storePage_freePages ..
    rw [hheat] at hperm
    refine round c _ startByte written p hlt hclaim (hperm.trans (hfree ▸ List.Perm.refl _))
      (ih ?_ ?_)
    · rw [hfree]
      exact fun x hx => hneg x (hperm.mem_iff.mpr (List.mem_cons_of_mem _ hx))
    · have hlen := hperm.length_eq
      rw [hfree]
      rw [List.length_cons] at hlen
      exact Nat.le_of_succ_le_succ (henough.trans hlen.le)
  | case3 c startByte written hge => exact done c startByte written hge

/-- **The page loop with enough free pages** writes to the end, and takes one page off the lists for
every logical page it touches. -/
theorem writeLoop_of_free (src : ℕ → Byte) (startByte endByte written : ℕ)
    (hneg : ∀ x ∈ c.freePages, 0 ≤ x) (henough : pagesTouched startByte endByte ≤ c.freePages.length) :
    (c.writeLoop src startByte endByte written).1 = true ∧
      ∃ used, c.freePages.Perm
          (used ++ (c.writeLoop src startByte endByte written).2.freePages) ∧
        used.length = pagesTouched startByte endByte := by
  refine writeLoop_free_induct src endByte (motive := fun c startByte written =>
    (c.writeLoop src startByte endByte written).1 = true ∧ ∃ used, c.freePages.Perm
      (used ++ (c.writeLoop src startByte endByte written).2.freePages) ∧
      used.length = pagesTouched startByte endByte) ?_ ?_ c startByte written hneg henough
  · intro c c' startByte written p hlt hclaim toWrite next hperm ih
    obtain ⟨htrue, used, hused, hcount⟩ := ih
    rw [writeLoop_round hlt hclaim, if_neg (by omega)]
    refine ⟨htrue, (p : ℤ) :: used, hperm.trans (hused.cons _), ?_⟩
    rw [List.length_cons, hcount, pagesTouched_round hlt]
  · intro c startByte written hge
    rw [writeLoop, if_neg hge]
    exact ⟨rfl, [], List.Perm.refl _, (if_neg hge).symm⟩

/-- **A write with enough free pages** returns `true`, whatever its collection at the end does. -/
theorem write_true_of_free (src : ℕ → Byte) {offset size : ℕ} (hin : offset + size ≤ c.capacity)
    (hneg : ∀ x ∈ c.freePages, 0 ≤ x)
    (henough : pagesTouched offset (offset + size) ≤ c.freePages.length) :
    (c.write offset (some src) size).1 = true := by
  obtain ⟨hloop, -⟩ := writeLoop_of_free src offset (offset + size) 0 hneg henough
  rw [write_inRange (by omega)]
  generalize c.writeLoop src offset (offset + size) 0 = r at hloop
  obtain ⟨ok, c'⟩ := r
  obtain rfl : ok = true := hloop
  simp only
  split_ifs <;> rfl

/-! ### Without free pages -/

/-- Every physical page is valid and both free lists are empty. -/
structure Full (c : FTJController) : Prop where
  valid : ∀ p < c.pageCount, c.physValid p = true
  no_free : c.freePages = []

/-- **Every logical page mapped** leaves no physical page over. -/
theorem Represents.full (h : c.Represents v) (hmapped : ∀ lp < c.pageCount, 0 ≤ c.l2pMap lp) :
    c.Full := by
  have hc := h.consistent
  have hpage : ∀ lp : Fin c.pageCount, ∃ p : Fin c.pageCount, c.l2pMap lp = (p : ℕ) := by
    intro lp
    have h0 := hmapped lp lp.isLt
    rcases hc.range lp lp.isLt with hn | ⟨p, hp, hl⟩
    · omega
    · exact ⟨⟨p, hp⟩, hl⟩
  choose page hpage using hpage
  have hinj : Function.Injective page := by
    intro a b hab
    have ha := ((hc.agree a a.isLt _ (page a).isLt).mp (hpage a)).2
    have hb := ((hc.agree b b.isLt _ (page b).isLt).mp (hpage b)).2
    rw [hab] at ha
    exact Fin.ext (by omega)
  have hvalid : ∀ p < c.pageCount, c.physValid p = true := by
    intro p hp
    obtain ⟨lp, hlp⟩ := Finite.injective_iff_surjective.mp hinj ⟨p, hp⟩
    refine ((hc.agree lp lp.isLt p hp).mp ?_).1
    rw [hpage, hlp]
  refine ⟨hvalid, List.eq_nil_iff_forall_not_mem.mpr fun x hx => ?_⟩
  obtain ⟨p, hp, rfl⟩ := hc.free_range x hx
  have := hc.free_invalid p hx
  rw [hvalid p hp] at this
  cases this

theorem allocate_of_no_free (h : c.freePages = []) (preferHot : Bool) :
    c.allocatePhysicalPage preferHot = (-1, c) := by
  rcases allocate_cases c preferHot with ⟨heq, -⟩ | ⟨q, hot, cold, -, hperm⟩
  · exact heq
  · rw [h] at hperm
    exact absurd hperm.symm (List.cons_ne_nil _ _ ∘ List.Perm.eq_nil)

/-- Block `b` has a page that is not valid. -/
def HasInvalid (c : FTJController) (b : ℕ) : Prop :=
  ∃ p, blockStart b ≤ p ∧ p < c.blockEnd b ∧ c.physValid p = false

theorem Full.not_hasInvalid (h : c.Full) (b : ℕ) : ¬ c.HasInvalid b := by
  rintro ⟨p, -, hp, hv⟩
  exact absurd ((h.valid p (hp.trans_le (min_le_left ..))).symm.trans hv) (by decide)

/-- **A fruitless collection** only resets the count of its block. -/
theorem collectBlock_fruitless (hfree : c.freePages = []) {b : ℕ} (hb : ¬ c.HasInvalid b) :
    ∃ counts, c.collectBlock b = { c with blockValidCount := counts } := by
  have hmove : c.moveValidPages b = c := by
    refine forLoop_preserves (P := fun c' => c' = c) rfl ?_
    rintro p _ - - rfl
    rw [relocatePage, allocate_of_no_free hfree]
    simp
  have herase : c.eraseBlock b = c := by
    refine forLoop_preserves (P := fun c' => c' = c) rfl ?_
    intro p t hlo hhi ht
    have hv : t.physValid p = true := by
      by_contra hv
      exact hb ⟨p, hlo, hhi, ht ▸ Bool.eq_false_iff.mpr hv⟩
    exact (if_pos hv).trans ht
  refine ⟨Function.update c.blockValidCount b 0, ?_⟩
  simp only [FTJController.collectBlock, hmove, herase]

/-- Without a free page `RunGC` gives up after a fruitless collection. -/
theorem runGC_fruitless (hfree : c.freePages = [])
    (hvictim : ∀ b, c.selectVictim = some b → ¬ c.HasInvalid b) (targetFree : ℕ) :
    ∃ counts, c.runGC targetFree = { c with blockValidCount := counts } := by
  rw [FTJController.runGC]
  split_ifs
  · cases hb : c.selectVictim with
    | none => exact ⟨c.blockValidCount, rfl⟩
    | some b =>
      obtain ⟨counts, hcounts⟩ := collectBlock_fruitless hfree (hvictim b hb)
      have hstop : (c.collectBlock b).freeCount ≤ c.freeCount := by rw [hcounts]; exact le_rfl
      exact ⟨counts, (if_pos hstop).trans hcounts⟩
  · exact ⟨c.blockValidCount, rfl⟩

/-- On a full controller a collection only resets a counter. -/
theorem Full.runGC (h : c.Full) (targetFree : ℕ) :
    ∃ counts, c.runGC targetFree = { c with blockValidCount := counts } :=
  runGC_fruitless h.no_free (fun b _ => h.not_hasInvalid b) targetFree

theorem Full.claimPage (h : c.Full) (preferHot : Bool) :
    ∃ counts, c.claimPage preferHot = (-1, { c with blockValidCount := counts }) := by
  obtain ⟨counts, hcounts⟩ := h.runGC c.gcTargetFree
  refine ⟨counts, ?_⟩
  have hnone := allocate_of_no_free (c := { c with blockValidCount := counts }) h.no_free preferHot
  simp [FTJController.claimPage, allocate_of_no_free h.no_free, hcounts, hnone]

/-- **A write on a full controller** returns `true` only if it is empty, and moves no page. -/
theorem write_full (h : c.Full) {offset size : ℕ} (src : ℕ → Byte)
    (hin : offset + size ≤ c.capacity) :
    (c.write offset (some src) size).1 = decide (size = 0) ∧
      SameTables c (c.write offset (some src) size).2 ∧
      (c.write offset (some src) size).2.memoryBuffer = c.memoryBuffer := by
  have hwrite : c.write offset (some src) size = _ := write_inRange (by omega)
  rw [hwrite]
  by_cases hsize : size = 0
  · have hloop : c.writeLoop src offset (offset + size) 0 = (true, c) := by
      rw [writeLoop, if_neg (by omega)]
    rw [hloop]
    simp only [hsize, decide_true]
    split_ifs
    · obtain ⟨counts, hcounts⟩ := Full.runGC (c := { c with totalWrites := c.totalWrites + 1 })
        ⟨h.valid, h.no_free⟩ c.gcTargetFree
      rw [hcounts]
      exact ⟨rfl, ⟨rfl, rfl, rfl, rfl, rfl, rfl⟩, rfl⟩
    · exact ⟨rfl, ⟨rfl, rfl, rfl, rfl, rfl, rfl⟩, rfl⟩
  · have hsame := heat_same c (offset / pageSize)
    have hfull : (c.heat (offset / pageSize)).Full :=
      ⟨by rw [hsame.1.pageCount, hsame.1.physValid]; exact h.valid,
        hsame.1.freePages.trans h.no_free⟩
    obtain ⟨counts, hcounts⟩ := hfull.claimPage
      ((c.heat (offset / pageSize)).prefersHot (offset / pageSize))
    rw [writeLoop_round (by omega) hcounts, if_pos (by decide)]
    obtain ⟨⟨h1, h2, h3, h4, h5, h6⟩, hm⟩ := hsame
    exact ⟨(decide_eq_false hsize).symm, ⟨h1, h2, h3, h4, h5, h6⟩, hm⟩

end FTJController

end FtjSsdSim.Engine
