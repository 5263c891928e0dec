import Mathlib
import FtjSsdSim.Library.ByteStore
import FtjSsdSim.Library.Loop
import FtjSsdSim.Engine.FreePages
import FtjSsdSim.Engine.WriteInvariant

/-!
# Writing with pages to spare

A write that finds a free page for every logical page it touches, and leaves the low watermark of them
over, collects nothing.  On a consistent controller it succeeds, and the address space holds its bytes
and else what it held before (`write_of_spare`).

`phys_owner_lba_` is a table of `int32_t`, so on a drive of more than `2^31` pages the owner of a page
beyond them is lost (`far_write_disagrees`).
-/

namespace FtjSsdSim.Engine

open FtjSsdSim.Library

namespace FTJController

variable {c : FTJController} {offset size : ℕ}

/-! ### No collection -/

theorem claimErases_of_free (hneg : ∀ x ∈ c.freePages, 0 ≤ x) (hne : c.freePages ≠ [])
    (preferHot : Bool) : c.claimErases preferHot = [] := by
  rcases allocate_cases c preferHot with ⟨-, hnil⟩ | ⟨q, hot, cold, heq, hperm⟩
  · exact absurd hnil hne
  · have hq : 0 ≤ q := hneg q (hperm.mem_iff.mpr (List.mem_cons_self ..))
    rw [claimErases, heq]
    exact if_neg (not_lt.mpr hq)

theorem loopErases_of_free (src : ℕ → Byte) (startByte endByte written : ℕ)
    (hneg : ∀ x ∈ c.freePages, 0 ≤ x)
    (henough : pagesTouched startByte endByte ≤ c.freePages.length) :
    c.loopErases src startByte endByte written = [] := by
  refine writeLoop_free_induct src endByte (motive := fun c startByte written =>
    (∀ x ∈ c.freePages, 0 ≤ x) → c.loopErases src startByte endByte written = []) ?_ ?_
    c startByte written hneg henough hneg
  · intro c c' startByte written p hlt hclaim toWrite next hperm ih hneg
    have hheat := heat_freePages c (startByte / pageSize)
    have hne : c.freePages ≠ [] := fun hnil => by
      rw [hnil] at hperm
      exact List.cons_ne_nil _ _ hperm.symm.eq_nil
    have hrest : next.loopErases src (startByte + toWrite) endByte (written + toWrite) = [] :=
      ih fun x hx => hneg x (hperm.mem_iff.mpr (List.mem_cons_of_mem _ hx))
    rw [loopErases_round hlt hclaim, if_neg (by omega),
      claimErases_of_free (hheat.symm ▸ hneg) (hheat.symm ▸ hne)]
    exact hrest
  · intro c startByte written hge _
    rw [loopErases, if_neg hge]

/-- **With pages to spare** a write runs to its end and collects nothing. -/
theorem write_spare_eq (hneg : ∀ x ∈ c.freePages, 0 ≤ x) (hin : offset + size ≤ c.capacity)
    (hspare : pagesTouched offset (offset + size) + c.gcLowWatermark ≤ c.freeCount)
    (src : ℕ → Byte) :
    c.writeErases offset (some src) size = [] ∧
      c.write offset (some src) size =
        (true, { (c.writeLoop src offset (offset + size) 0).2 with
          totalWrites := (c.writeLoop src offset (offset + size) 0).2.totalWrites + 1 }) := by
  have hrange : ¬ (size > c.capacity ∨ offset > c.capacity - size) := by omega
  rw [freeCount_eq] at hspare
  have hloop := loopErases_of_free (c := c) src offset (offset + size) 0 hneg (by omega)
  obtain ⟨htrue, used, hused, hcount⟩ := writeLoop_of_free (c := c) src offset (offset + size) 0 hneg
    (by omega)
  have hmark : (c.writeLoop src offset (offset + size) 0).2.gcLowWatermark = c.gcLowWatermark := by
    have hgeom := (geometry_stable (offset + size) c.geometry).writeLoop rfl src offset 0
    exact congrArg (fun g => g.2.2.2.1) hgeom
  rw [writeErases, if_neg hrange, write_inRange hrange, hloop]
  generalize c.writeLoop src offset (offset + size) 0 = r at htrue hused hmark
  obtain ⟨ok, c'⟩ := r
  obtain rfl : ok = true := htrue
  -- what is left of the free pages is the watermark at least
  have hlen := hused.length_eq
  rw [List.length_append, hcount] at hlen
  have hleft : ¬ ({ c' with totalWrites := c'.totalWrites + 1 } : FTJController).freeCount <
      ({ c' with totalWrites := c'.totalWrites + 1 } : FTJController).gcLowWatermark := by
    rw [freeCount_eq]
    show ¬ c'.freePages.length < c'.gcLowWatermark
    simp only at hmark hlen
    omega
  simp only [if_neg hleft, List.nil_append, and_self]

/-! ### The write -/

/-- **A write without a collection.**  In every consistent state, a write in range that finds a free
page for each logical page it touches and leaves `gc_low_watermark_` of them over returns `true`, the
state after it is consistent, and the address space holds the source in `[offset, offset + size)` and
else what it held before. -/
theorem write_of_spare (h : c.Consistent) (hin : offset + size ≤ c.capacity)
    (hspare : pagesTouched offset (offset + size) + c.gcLowWatermark ≤ c.freeCount)
    (src : ℕ → Byte) :
    (c.write offset (some src) size).1 = true ∧
      (c.write offset (some src) size).2.Consistent ∧
      ∀ a, contentOf (c.write offset (some src) size).2.pageMap.view a =
        if offset ≤ a ∧ a < offset + size then src (a - offset)
        else contentOf c.pageMap.view a := by
  have hneg : ∀ x ∈ c.freePages, 0 ≤ x := by
    intro x hx
    obtain ⟨p, -, rfl⟩ := h.free_range x hx
    exact Int.natCast_nonneg p
  obtain ⟨hnone, heq⟩ := write_spare_eq hneg hin hspare src
  have htrue : (c.write offset (some src) size).1 = true := by rw [heq]
  obtain ⟨v, k, hrep, -, hcontent, hall, -⟩ := write_represents (v := c.pageMap.view) ⟨h, rfl⟩
    offset src size (fun e he => by rw [hnone] at he; cases he)
  refine ⟨htrue, hrep.consistent, fun a => ?_⟩
  rw [hrep.view, hcontent, hall htrue, blit, Nat.zero_add]

/-- Bytes 4000 to 9999 of a new drive of sixty pages: three pages, none of them whole. -/
theorem write_of_spare_three_pages :
    let c := construct sixtyPages
    (c.write 4000 (some fun i => BitVec.ofNat 8 i) 6000).1 = true ∧
      (c.write 4000 (some fun i => BitVec.ofNat 8 i) 6000).2.Consistent ∧
      ∀ a, contentOf (c.write 4000 (some fun i => BitVec.ofNat 8 i) 6000).2.pageMap.view a =
        if 4000 ≤ a ∧ a < 4000 + 6000 then BitVec.ofNat 8 (a - 4000)
        else contentOf c.pageMap.view a :=
  write_of_spare (construct_represents sixtyPages_admitted (by decide)).consistent (by decide)
    (by decide) _

/-! ### Beyond the tables -/

/-- Where a new logical page is stored, the page is valid and has the cast of its number as owner. -/
theorem storePage_owner {lp : ℕ} (hnew : c.l2pMap lp = -1) (q d : ℕ) (src : ℕ → Byte) (s n : ℕ) :
    (c.storePage lp q d src s n).physValid q = true ∧
      (c.storePage lp q d src s n).physOwnerLba q = int32 lp := by
  have hold : ¬ 0 ≤ c.oldPage lp := by
    rw [oldPage, hnew]
    split_ifs <;> decide
  obtain ⟨_, _, _, _, heq⟩ := storePage_eq c lp q d src s n
  rw [heq, remap, if_neg hold]
  exact ⟨Function.update_self .., Function.update_self ..⟩

theorem pagesTouched_one (lp : ℕ) : pagesTouched (lp * pageSize) (lp * pageSize + 1) = 1 := by
  rw [pagesTouched, if_pos (Nat.lt_succ_self _), Nat.add_sub_cancel, Nat.sub_self]

/-- A write of the first byte of a new logical page, with pages to spare: some page is valid then and
has the cast of the page's number as owner. -/
theorem write_first_byte_owner (hfree : ∀ x ∈ c.freePages, ∃ p < c.pageCount, x = (p : ℤ)) {lp : ℕ}
    (hnew : c.l2pMap lp = -1) (hin : lp * pageSize + 1 ≤ c.capacity)
    (hspare : 1 + c.gcLowWatermark ≤ c.freeCount) (src : ℕ → Byte) :
    ∃ p < c.pageCount, (c.write (lp * pageSize) (some src) 1).2.pageCount = c.pageCount ∧
      (c.write (lp * pageSize) (some src) 1).2.physValid p = true ∧
      (c.write (lp * pageSize) (some src) 1).2.physOwnerLba p = int32 lp := by
  have hneg : ∀ x ∈ c.freePages, 0 ≤ x := by
    intro x hx
    obtain ⟨p, -, rfl⟩ := hfree x hx
    exact Int.natCast_nonneg p
  have hne : c.freePages ≠ [] := by
    rw [freeCount_eq] at hspare
    exact List.ne_nil_of_length_pos (by omega)
  have hheat := (heat_same c lp).1
  have hlp : lp * pageSize / pageSize = lp := Nat.mul_div_cancel lp (by decide)
  have hmod : lp * pageSize % pageSize = 0 := Nat.mul_mod_left ..
  obtain ⟨p, hot, cold, hclaim, hperm⟩ := claimPage_of_free (c := c.heat lp)
    (by rwa [hheat.freePages]) (by rwa [hheat.freePages]) ((c.heat lp).prefersHot lp)
  rw [hheat.freePages] at hperm
  obtain ⟨r, hr, hpr⟩ := hfree p (hperm.mem_iff.mpr (List.mem_cons_self ..))
  obtain rfl : p = r := by omega
  have hround : c.writeLoop src (lp * pageSize) (lp * pageSize + 1) 0 =
      (true, ((c.heat lp).withFree hot cold).storePage lp p 0 src 0 1) := by
    have hmin : min (lp * pageSize + 1 - lp * pageSize) (pageSize - 0) = 1 := by
      rw [Nat.add_sub_cancel_left]
      rfl
    rw [← hlp] at hclaim
    rw [writeLoop_round (Nat.lt_succ_self _) hclaim, if_neg (by omega), hlp, hmod, hmin,
      Int.toNat_natCast, writeLoop, if_neg (Nat.lt_irrefl _)]
  have hwrite := (write_spare_eq hneg hin (by rwa [pagesTouched_one]) src).2
  rw [hround] at hwrite
  have hnew' : ((c.heat lp).withFree hot cold).l2pMap lp = -1 := by
    show (c.heat lp).l2pMap lp = -1
    rw [hheat.l2pMap, hnew]
  have hcount : (c.write (lp * pageSize) (some src) 1).2.pageCount = c.pageCount :=
    congrArg (fun g => g.2.1) (writeNext_geometry c ⟨lp * pageSize, some src, 1⟩)
  refine ⟨p, hr, hcount, ?_⟩
  rw [hwrite]
  exact storePage_owner hnew' p 0 src 0 _

/-- More pages than an `int32_t` can number. -/
def farPages : ℕ := 2 ^ 31 + 256

theorem farPages_admitted : Admitted (farPages * pageSize) := by
  have hdiv : farPages * pageSize / pageSize = farPages := Nat.mul_div_cancel _ (by decide)
  refine ⟨by decide, Nat.dvd_mul_left .., .inr ?_⟩
  rw [hdiv]
  exact ⟨2 ^ 23 + 1, by decide⟩

/-- A drive of that size with its first `2^30` pages free. -/
def farDrive : FTJController :=
  (construct (farPages * pageSize)).withFree [] (pagesDown (2 ^ 30))

theorem farDrive_pageCount : farDrive.pageCount = farPages := by
  have hdiv : farPages * pageSize / pageSize = farPages := Nat.mul_div_cancel _ (by decide)
  exact (construct_pageCount farPages_admitted).trans hdiv

theorem farDrive_freePages : farDrive.freePages = pagesDown (2 ^ 30) := by
  rw [farDrive, withFree_freePages, List.nil_append]

theorem farDrive_free_lt {x : ℤ} (hx : x ∈ farDrive.freePages) : ∃ p < farDrive.pageCount, x = p := by
  rw [farDrive_freePages] at hx
  obtain ⟨p, hp, rfl⟩ := mem_pagesDown.mp hx
  refine ⟨p, ?_, rfl⟩
  rw [farDrive_pageCount, farPages]
  omega

theorem farDrive_coherent : farDrive.Coherent where
  tables :=
    { range := fun lp _ => .inl rfl
      owned := fun p _ hv => by cases hv
      agree := fun lp _ p _ => by
        refine iff_of_false ?_ fun hv => by cases hv.1
        show (-1 : ℤ) ≠ p
        omega }
  free :=
    { nodup := by
        rw [farDrive_freePages]
        exact pagesDown_nodup _
      range := fun x hx => farDrive_free_lt hx
      invalid := fun p _ => rfl }

theorem farDrive_spare :
    pagesTouched (2 ^ 31 * pageSize) (2 ^ 31 * pageSize + 1) + farDrive.gcLowWatermark ≤
      farDrive.freeCount := by
  have hmark : farDrive.gcLowWatermark = max 1 (farPages / 20) := by
    have hcount := farDrive_pageCount
    show max 1 (farDrive.pageCount / 20) = _
    rw [hcount]
  rw [pagesTouched_one, hmark, freeCount_eq, farDrive_freePages, pagesDown, List.length_map,
    List.length_range]
  decide

/-- **The owner of a far page is lost.**  On a drive of more than `2^31` pages, a write to logical page
`2^31` stores the cast of that number to `int32_t` as the owner of its page. -/
theorem far_write_disagrees :
    Admitted (farPages * pageSize) ∧ farDrive.Coherent ∧
      2 ^ 31 * pageSize + 1 ≤ farDrive.capacity ∧
      pagesTouched (2 ^ 31 * pageSize) (2 ^ 31 * pageSize + 1) + farDrive.gcLowWatermark ≤
        farDrive.freeCount ∧
      ¬ (farDrive.write (2 ^ 31 * pageSize) (some fun _ => 7) 1).2.TablesAgree := by
  have hin : 2 ^ 31 * pageSize + 1 ≤ farDrive.capacity := by
    show 2 ^ 31 * pageSize + 1 ≤ farPages * pageSize
    decide
  refine ⟨farPages_admitted, farDrive_coherent, hin, farDrive_spare, fun hagree => ?_⟩
  have hspare := farDrive_spare
  rw [pagesTouched_one] at hspare
  obtain ⟨p, hp, hcount, hvalid, howner⟩ := write_first_byte_owner (c := farDrive)
    (fun x hx => farDrive_free_lt hx) rfl hin hspare fun _ => 7
  obtain ⟨lp, -, hlp⟩ := hagree.owned p (hcount.symm ▸ hp) hvalid
  have hcast : int32 ((2 ^ 31 : ℕ) : ℤ) = -2 ^ 31 := by decide
  have hneg : (lp : ℤ) = -2 ^ 31 := hlp.symm.trans (howner.trans hcast)
  omega

end FTJController

end FtjSsdSim.Engine
