import Mathlib
import FtjSsdSim.Library.PageMap
import FtjSsdSim.Engine.Controller

/-!
# The mapping tables

What allocation, mapping and moving a page do to `l2p_map_`, `phys_valid_`, `phys_owner_lba_` and the
two free lists.
`Coherent` says that the three tables describe one partial injection of logical pages into physical
pages and that the free lists hold distinct unused pages; a `Consistent` controller also has a whole
number of pages that fit the `int32_t` tables.  A coherent controller is a page map (`pageMap`), and
each of its steps is a step of the page map:

* `Coherent.allocate` — allocation hands out a page that is neither used nor free any more;
* `Remapped.represents` — putting a logical page on such a page is a remapping of the page map;
* `Coherent.relocatePage` — moving a page keeps the view of every logical page.
-/

namespace FtjSsdSim.Engine

open FtjSsdSim.Library

namespace FTJController

/-! ### Consistent tables -/

/-- The entries of both free lists. -/
def freePages (c : FTJController) : List ℤ := c.freePhysicalPagesHot ++ c.freePhysicalPagesCold

/-- The tables agree, and the free lists hold distinct pages that no logical page uses. -/
structure Consistent (c : FTJController) : Prop where
  capacity_eq : c.capacity = c.pageCount * pageSize
  small : c.pageCount < 2 ^ 31
  range : ∀ lp < c.pageCount, c.l2pMap lp = -1 ∨ ∃ p < c.pageCount, c.l2pMap lp = p
  owned : ∀ p < c.pageCount, c.physValid p = true → ∃ lp < c.pageCount, c.physOwnerLba p = lp
  agree : ∀ lp < c.pageCount, ∀ p < c.pageCount,
    c.l2pMap lp = p ↔ c.physValid p = true ∧ c.physOwnerLba p = lp
  free_nodup : c.freePages.Nodup
  free_range : ∀ x ∈ c.freePages, ∃ p < c.pageCount, x = p
  free_invalid : ∀ p : ℕ, (p : ℤ) ∈ c.freePages → c.physValid p = false

/-- `l2p_map_`, `phys_valid_` and `phys_owner_lba_` agree: the pages in use are those of the mapped
logical pages, one each. -/
structure TablesAgree (c : FTJController) : Prop where
  range : ∀ lp < c.pageCount, c.l2pMap lp = -1 ∨ ∃ p < c.pageCount, c.l2pMap lp = p
  owned : ∀ p < c.pageCount, c.physValid p = true → ∃ lp < c.pageCount, c.physOwnerLba p = lp
  agree : ∀ lp < c.pageCount, ∀ p < c.pageCount,
    c.l2pMap lp = p ↔ c.physValid p = true ∧ c.physOwnerLba p = lp

/-- The free lists have no duplicate, no page in common and no page that is in use. -/
structure FreeDistinct (c : FTJController) : Prop where
  nodup : c.freePages.Nodup
  range : ∀ x ∈ c.freePages, ∃ p < c.pageCount, x = p
  invalid : ∀ p : ℕ, (p : ℤ) ∈ c.freePages → c.physValid p = false

/-- The tables agree, and so do the free lists with them. -/
structure Coherent (c : FTJController) : Prop where
  tables : c.TablesAgree
  free : c.FreeDistinct

/-- The bytes of a page. -/
abbrev Page := Fin pageSize → Byte

/-- The bytes of physical page `p`. -/
def pageBytes (memory : ℕ → Byte) (p : ℕ) : Page := fun r => memory (p * pageSize + r)

/-- The page map that the tables and the buffer describe. -/
def pageMap (c : FTJController) : PageMap Page where
  map lp := if lp < c.pageCount ∧ 0 ≤ c.l2pMap lp then some (c.l2pMap lp).toNat else none
  store := pageBytes c.memoryBuffer

/-- The controller is consistent and shows the logical pages `v`. -/
structure Represents (c : FTJController) (v : ℕ → Option Page) : Prop where
  consistent : c.Consistent
  view : c.pageMap.view = v

/-- Page `q` is in range and neither used nor on a free list. -/
structure Fresh (c : FTJController) (q : ℕ) : Prop where
  lt : q < c.pageCount
  invalid : c.physValid q = false
  not_free : (q : ℤ) ∉ c.freePages

variable {c : FTJController} {v : ℕ → Option Page}

theorem Consistent.coherent (h : c.Consistent) : c.Coherent :=
  ⟨⟨h.range, h.owned, h.agree⟩, h.free_nodup, h.free_range, h.free_invalid⟩

theorem Coherent.consistent (h : c.Coherent) (hcap : c.capacity = c.pageCount * pageSize)
    (hsmall : c.pageCount < 2 ^ 31) : c.Consistent :=
  ⟨hcap, hsmall, h.tables.range, h.tables.owned, h.tables.agree, h.free.nodup, h.free.range,
    h.free.invalid⟩

theorem TablesAgree.map_eq_some (h : c.TablesAgree) {lp p : ℕ} :
    c.pageMap.map lp = some p ↔ lp < c.pageCount ∧ p < c.pageCount ∧ c.l2pMap lp = p := by
  simp only [pageMap]
  split_ifs with hc
  · rcases h.range lp hc.1 with hn | ⟨r, hr, hl⟩
    · omega
    · rw [hl, Int.toNat_natCast, Option.some_inj]
      constructor
      · rintro rfl
        exact ⟨hc.1, hr, rfl⟩
      · rintro ⟨-, -, hrp⟩
        omega
  · refine iff_of_false (by simp) ?_
    rintro ⟨hlp, -, hl⟩
    exact hc ⟨hlp, by omega⟩

/-- **No two logical pages share a physical page.** -/
theorem TablesAgree.injective (h : c.TablesAgree) : c.pageMap.Injective := by
  intro a b p ha hb
  obtain ⟨hal, hp, ha⟩ := h.map_eq_some.mp ha
  obtain ⟨hbl, -, hb⟩ := h.map_eq_some.mp hb
  have h1 := ((h.agree a hal p hp).mp ha).2
  have h2 := ((h.agree b hbl p hp).mp hb).2
  exact_mod_cast h1.symm.trans h2

theorem TablesAgree.unused (h : c.TablesAgree) {q : ℕ} (hq : c.physValid q = false) :
    c.pageMap.Unused q := by
  intro lp hm
  obtain ⟨hlp, hqn, hl⟩ := h.map_eq_some.mp hm
  rw [((h.agree lp hlp q hqn).mp hl).1] at hq
  cases hq

/-- The page of a mapped logical page is not fresh. -/
theorem TablesAgree.mapped_ne_fresh (h : c.TablesAgree) {lp p q : ℕ} (hlp : lp < c.pageCount)
    (hp : c.l2pMap lp = p) (hq : c.Fresh q) : p ≠ q := by
  rintro rfl
  have := ((h.agree lp hlp p hq.lt).mp hp).1
  rw [hq.invalid] at this
  cases this

/-! ### Allocation -/

/-- What allocation returns: nothing when both lists are empty, else an entry taken off them. -/
theorem allocate_cases (c : FTJController) (preferHot : Bool) :
    (c.allocatePhysicalPage preferHot = (-1, c) ∧ c.freePages = []) ∨
      ∃ q hot cold, c.allocatePhysicalPage preferHot =
        (q, { c with freePhysicalPagesHot := hot, freePhysicalPagesCold := cold }) ∧
        c.freePages.Perm (q :: (hot ++ cold)) := by
  have hhot : c.freePhysicalPagesHot = [] ∧ c.popHot = none ∨
      ∃ l q, c.freePhysicalPagesHot = l ++ [q] ∧
        c.popHot = some (q, { c with freePhysicalPagesHot := l }) := by
    rcases List.eq_nil_or_concat c.freePhysicalPagesHot with h | ⟨l, q, h⟩
    · exact .inl ⟨h, by simp [popHot, h]⟩
    · exact .inr ⟨l, q, by simpa using h, by simp [popHot, h]⟩
  have hcold : c.freePhysicalPagesCold = [] ∧ c.popCold = none ∨
      ∃ l q, c.freePhysicalPagesCold = l ++ [q] ∧
        c.popCold = some (q, { c with freePhysicalPagesCold := l }) := by
    rcases List.eq_nil_or_concat c.freePhysicalPagesCold with h | ⟨l, q, h⟩
    · exact .inl ⟨h, by simp [popCold, h]⟩
    · exact .inr ⟨l, q, by simpa using h, by simp [popCold, h]⟩
  have takeHot : ∀ l q, c.freePhysicalPagesHot = l ++ [q] →
      c.freePages.Perm (q :: (l ++ c.freePhysicalPagesCold)) := by
    intro l q h
    rw [freePages, h, List.append_assoc]
    exact List.perm_middle
  have takeCold : ∀ l q, c.freePhysicalPagesCold = l ++ [q] →
      c.freePages.Perm (q :: (c.freePhysicalPagesHot ++ l)) := by
    intro l q h
    rw [freePages, h, ← List.append_assoc]
    exact List.perm_append_singleton q _
  rcases hhot with ⟨hh, hph⟩ | ⟨lh, qh, hh, hph⟩ <;>
    rcases hcold with ⟨hc, hpc⟩ | ⟨lc, qc, hc, hpc⟩
  · left
    cases preferHot <;> simp [allocatePhysicalPage, hph, hpc, freePages, hh, hc]
  · right
    refine ⟨qc, c.freePhysicalPagesHot, lc, ?_, takeCold lc qc hc⟩
    cases preferHot <;> simp [allocatePhysicalPage, hph, hpc]
  · right
    refine ⟨qh, lh, c.freePhysicalPagesCold, ?_, takeHot lh qh hh⟩
    cases preferHot <;> simp [allocatePhysicalPage, hph, hpc]
  · right
    cases preferHot with
    | true =>
      exact ⟨qh, lh, c.freePhysicalPagesCold, by simp [allocatePhysicalPage, hph],
        takeHot lh qh hh⟩
    | false =>
      exact ⟨qc, c.freePhysicalPagesHot, lc, by simp [allocatePhysicalPage, hpc],
        takeCold lc qc hc⟩

/-- The controller with other free lists. -/
def withFree (c : FTJController) (hot cold : List ℤ) : FTJController :=
  { c with freePhysicalPagesHot := hot, freePhysicalPagesCold := cold }

@[simp] theorem withFree_freePages (c : FTJController) (hot cold : List ℤ) :
    (c.withFree hot cold).freePages = hot ++ cold := rfl

/-- **Allocation in a coherent controller** hands out a fresh page. -/
theorem Coherent.allocate (h : c.Coherent) (preferHot : Bool) :
    (c.allocatePhysicalPage preferHot = (-1, c) ∧ c.freePages = []) ∨
      ∃ (q : ℕ) (hot cold : List ℤ),
        c.allocatePhysicalPage preferHot = ((q : ℤ), c.withFree hot cold) ∧
          (c.withFree hot cold).Coherent ∧ (c.withFree hot cold).Fresh q := by
  obtain ⟨htables, hfree⟩ := h
  rcases allocate_cases c preferHot with hnone | ⟨q, hot, cold, heq, hperm⟩
  · exact .inl hnone
  · right
    have hmem : ∀ x, x ∈ c.freePages ↔ x = q ∨ x ∈ hot ++ cold := fun x => by
      rw [hperm.mem_iff, List.mem_cons]
    obtain ⟨p, hp, rfl⟩ := hfree.range q ((hmem q).mpr (.inl rfl))
    have hnodup := hperm.nodup_iff.mp hfree.nodup
    rw [List.nodup_cons] at hnodup
    refine ⟨p, hot, cold, heq, ⟨⟨htables.range, htables.owned, htables.agree⟩, ?_⟩, hp,
      hfree.invalid p ((hmem p).mpr (.inl rfl)), hnodup.1⟩
    exact ⟨hnodup.2, fun x hx => hfree.range x ((hmem x).mpr (.inr hx)),
      fun r hr => hfree.invalid r ((hmem r).mpr (.inr hr))⟩

theorem Represents.allocate (h : c.Represents v) (preferHot : Bool) :
    (c.allocatePhysicalPage preferHot = (-1, c) ∧ c.freePages = []) ∨
      ∃ (q : ℕ) (hot cold : List ℤ),
        c.allocatePhysicalPage preferHot = ((q : ℤ), c.withFree hot cold) ∧
          (c.withFree hot cold).Represents v ∧ (c.withFree hot cold).Fresh q := by
  obtain ⟨hc, hv⟩ := h
  refine (hc.coherent.allocate preferHot).imp_right ?_
  rintro ⟨q, hot, cold, heq, hcoherent, hfresh⟩
  exact ⟨q, hot, cold, heq, ⟨hcoherent.consistent hc.capacity_eq hc.small, hv⟩, hfresh⟩

/-! ### Programming a page -/

/-- The two controllers have the same tables and free lists. -/
structure SameTables (c c' : FTJController) : Prop where
  capacity : c'.capacity = c.capacity
  pageCount : c'.pageCount = c.pageCount
  l2pMap : c'.l2pMap = c.l2pMap
  physValid : c'.physValid = c.physValid
  physOwnerLba : c'.physOwnerLba = c.physOwnerLba
  freePages : c'.freePages = c.freePages

theorem Consistent.of_same {c' : FTJController} (h : c.Consistent) (s : SameTables c c') :
    c'.Consistent := by
  obtain ⟨h1, h2, h3, h4, h5, h6⟩ := s
  constructor
  · rw [h1, h2]; exact h.capacity_eq
  · rw [h2]; exact h.small
  · rw [h2, h3]; exact h.range
  · rw [h2, h4, h5]; exact h.owned
  · rw [h2, h3, h4, h5]; exact h.agree
  · rw [h6]; exact h.free_nodup
  · rw [h6, h2]; exact h.free_range
  · rw [h6, h4]; exact h.free_invalid

theorem Represents.of_same {c' : FTJController} (h : c.Represents v) (s : SameTables c c')
    (hm : c'.memoryBuffer = c.memoryBuffer) : c'.Represents v := by
  refine ⟨h.consistent.of_same s, ?_⟩
  have : c'.pageMap = c.pageMap := by rw [pageMap, pageMap, s.pageCount, s.l2pMap, hm]
  rw [this]
  exact h.view

theorem pageBytes_blit_ne {m f : ℕ → Byte} {p q d s n : ℕ} (hp : p ≠ q)
    (hd : d + n ≤ pageSize) :
    pageBytes (blit m (q * pageSize + d) f s n) p = pageBytes m p := by
  funext r
  have hr := r.isLt
  simp only [pageSize] at hd hr
  refine blit_out ?_
  rcases Nat.lt_or_gt_of_ne hp with h | h <;> simp only [pageSize] <;> omega

theorem pageBytes_blit_self {m f : ℕ → Byte} {q d s n : ℕ} (r : Fin pageSize) :
    pageBytes (blit m (q * pageSize + d) f s n) q r =
      if d ≤ r.val ∧ r.val < d + n then f (s + (r.val - d)) else pageBytes m q r := by
  simp only [pageBytes, blit, Nat.add_le_add_iff_left, Nat.add_assoc, Nat.add_lt_add_iff_left,
    Nat.add_sub_add_left]

/-- A page filled as a whole. -/
theorem pageBytes_blit_page {m f : ℕ → Byte} {q s : ℕ} (r : Fin pageSize) :
    pageBytes (blit m (q * pageSize) f s pageSize) q r = f (s + r) := by
  rw [pageBytes, blit_in (Nat.le_add_right ..) (Nat.add_lt_add_left r.isLt _),
    Nat.add_sub_cancel_left]

theorem pageBytes_blit_page_ne {m f : ℕ → Byte} {p q s : ℕ} (hp : p ≠ q) :
    pageBytes (blit m (q * pageSize) f s pageSize) p = pageBytes m p := by
  have h := pageBytes_blit_ne (m := m) (f := f) (s := s) (d := 0) (n := pageSize) hp
    (Nat.zero_add _).le
  rwa [Nat.add_zero] at h

theorem recomputeEcc_eq (c : FTJController) (first last : ℕ) :
    ∃ e, c.recomputeEcc first last = { c with eccBuffer := e } := by
  refine forLoop_preserves (P := fun c' => ∃ e, c' = { c with eccBuffer := e })
    ⟨c.eccBuffer, rfl⟩ ?_
  rintro i _ _ _ ⟨e, rfl⟩
  exact ⟨_, rfl⟩

/-- `c'` is `c` with logical page `lp` moved to page `q`, which now holds `x`. -/
structure Remapped (c c' : FTJController) (lp q : ℕ) (x : Page) : Prop where
  capacity : c'.capacity = c.capacity
  pageCount : c'.pageCount = c.pageCount
  l2pMap : c'.l2pMap = Function.update c.l2pMap lp q
  valid_new : c'.physValid q = true
  valid_old : ∀ p : ℕ, p ≠ q → (p : ℤ) = c.l2pMap lp → c'.physValid p = false
  valid_rest : ∀ p : ℕ, p ≠ q → (p : ℤ) ≠ c.l2pMap lp → c'.physValid p = c.physValid p
  owner_new : c'.physOwnerLba q = lp
  owner_rest : ∀ p : ℕ, p ≠ q → (p : ℤ) ≠ c.l2pMap lp → c'.physOwnerLba p = c.physOwnerLba p
  freePages : c'.freePages = c.freePages
  store_new : pageBytes c'.memoryBuffer q = x
  store_rest : ∀ p, p ≠ q → pageBytes c'.memoryBuffer p = pageBytes c.memoryBuffer p

section

variable {c' : FTJController} {lp q : ℕ} {x : Page}

theorem Remapped.self (r : Remapped c c' lp q x) : c'.l2pMap lp = q := by
  rw [r.l2pMap, Function.update_self]

theorem Remapped.of_ne (r : Remapped c c' lp q x) {k : ℕ} (hk : k ≠ lp) :
    c'.l2pMap k = c.l2pMap k := by
  rw [r.l2pMap, Function.update_of_ne hk]

/-- The view changes at the page that moves. -/
theorem Remapped.view (r : Remapped c c' lp q x) (h : c.TablesAgree) (hq : c.physValid q = false)
    (hlp : lp < c.pageCount) : c'.pageMap.view = Function.update c.pageMap.view lp (some x) := by
  have hmap : c'.pageMap = c.pageMap.remap lp q x := by
    refine congrArg₂ PageMap.mk ?_ ?_
    · funext k
      by_cases hk : k = lp
      · subst hk
        rw [Function.update_self, if_pos ⟨r.pageCount ▸ hlp, by rw [r.self]; omega⟩, r.self]
        rfl
      · rw [Function.update_of_ne hk, r.pageCount, r.of_ne hk]
        rfl
    · funext p
      by_cases hp : p = q
      · subst hp
        rw [Function.update_self]
        exact r.store_new
      · rw [Function.update_of_ne hp]
        exact r.store_rest p hp
  rw [hmap, PageMap.view_remap (h.unused hq)]

theorem Remapped.tables (r : Remapped c c' lp q x) (h : c.TablesAgree) (hq : c.Fresh q)
    (hlp : lp < c.pageCount) : c'.TablesAgree := by
  constructor
  case range =>
    rw [r.pageCount]
    intro k hk
    by_cases hkl : k = lp
    · exact .inr ⟨q, hq.lt, by rw [hkl, r.self]⟩
    · rw [r.of_ne hkl]
      exact h.range k hk
  case owned =>
    rw [r.pageCount]
    intro p hp hv
    by_cases hpq : p = q
    · exact ⟨lp, hlp, by rw [hpq]; exact r.owner_new⟩
    · by_cases hpo : (p : ℤ) = c.l2pMap lp
      · rw [r.valid_old p hpq hpo] at hv
        cases hv
      · rw [r.valid_rest p hpq hpo] at hv
        rw [r.owner_rest p hpq hpo]
        exact h.owned p hp hv
  case agree =>
    rw [r.pageCount]
    intro k hk p hp
    have hself := r.self
    by_cases hpq : p = q
    · -- the new page belongs to `lp` alone
      subst hpq
      rw [r.valid_new, r.owner_new]
      by_cases hkl : k = lp
      · subst hkl
        simp [hself]
      · rw [r.of_ne hkl, h.agree k hk p hp, hq.invalid]
        simpa using fun h : lp = k => hkl h.symm
    · by_cases hpo : (p : ℤ) = c.l2pMap lp
      · -- the old page belongs to nobody
        rw [r.valid_old p hpq hpo]
        refine iff_of_false ?_ (by simp)
        by_cases hkl : k = lp
        · subst hkl
          rw [hself]
          omega
        · rw [r.of_ne hkl]
          intro hkp
          have h1 := ((h.agree k hk p hp).mp hkp).2
          have h2 := ((h.agree lp hlp p hp).mp hpo.symm).2
          omega
      · rw [r.valid_rest p hpq hpo, r.owner_rest p hpq hpo, ← h.agree k hk p hp]
        by_cases hkl : k = lp
        · subst hkl
          rw [hself]
          omega
        · rw [r.of_ne hkl]

theorem Remapped.free (r : Remapped c c' lp q x) (h : c.FreeDistinct)
    (hq : (q : ℤ) ∉ c.freePages) : c'.FreeDistinct := by
  constructor
  case nodup => rw [r.freePages]; exact h.nodup
  case range => rw [r.freePages, r.pageCount]; exact h.range
  case invalid =>
    rw [r.freePages]
    intro p hp
    have hpq : p ≠ q := fun h => hq (h ▸ hp)
    by_cases hpo : (p : ℤ) = c.l2pMap lp
    · exact r.valid_old p hpq hpo
    · rw [r.valid_rest p hpq hpo]
      exact h.invalid p hp

theorem Remapped.coherent (r : Remapped c c' lp q x) (h : c.Coherent) (hq : c.Fresh q)
    (hlp : lp < c.pageCount) : c'.Coherent :=
  ⟨r.tables h.tables hq hlp, r.free h.free hq.not_free⟩

/-- **Remapping to a fresh page** is a remapping of the page map. -/
theorem Remapped.represents (r : Remapped c c' lp q x) (h : c.Represents v) (hq : c.Fresh q)
    (hlp : lp < c.pageCount) : c'.Represents (Function.update v lp (some x)) := by
  obtain ⟨hc, hv⟩ := h
  constructor
  · refine (r.coherent hc.coherent hq hlp).consistent ?_ ?_
    · rw [r.capacity, r.pageCount]; exact hc.capacity_eq
    · rw [r.pageCount]; exact hc.small
  · rw [r.view hc.coherent.tables hq.invalid hlp, hv]

end

/-! ### Moving a page -/

theorem disturbNeighbor_eq (c : FTJController) (q : ℕ) :
    ∃ d t, c.disturbNeighbor q = { c with pageDisturbs := d, totalHalfSelectDisturbs := t } := by
  unfold disturbNeighbor
  split_ifs
  · exact ⟨_, _, rfl⟩
  · exact ⟨c.pageDisturbs, c.totalHalfSelectDisturbs, rfl⟩

/-- The move of page `p`, which holds logical page `lp`, to a fresh page. -/
theorem relocate_remapped (hot cold : List ℤ) {lp p q : ℕ} (hmapped : c.l2pMap lp = p) (hne : p ≠ q) :
    Remapped (c.withFree hot cold)
      ((((c.withFree hot cold).copyPage q p).mapPage lp q lp).invalidatePage p) lp q
      (pageBytes c.memoryBuffer p) := by
  have hold : ∀ r : ℕ, (r : ℤ) = c.l2pMap lp ↔ r = p := fun r => by rw [hmapped]; omega
  refine ⟨rfl, rfl, rfl, ?_, ?_, ?_, ?_, ?_, rfl, ?_, ?_⟩
  · simp [mapPage, invalidatePage, copyPage, withFree, hne.symm]
  · intro r _ hr
    obtain rfl := (hold r).mp hr
    simp [mapPage, invalidatePage, copyPage, withFree]
  · intro r hrq hr
    have hrp : r ≠ p := fun h => hr ((hold r).mpr h)
    simp [mapPage, invalidatePage, copyPage, withFree, hrq, hrp]
  · simp [mapPage, invalidatePage, copyPage, withFree, hne.symm]
  · intro r hrq hr
    have hrp : r ≠ p := fun h => hr ((hold r).mpr h)
    simp [mapPage, invalidatePage, copyPage, withFree, hrq, hrp]
  · funext r
    exact pageBytes_blit_page r
  · intro r hrq
    exact pageBytes_blit_page_ne hrq

/-- What moving a page leaves alone: the hot counters and all that the constructor sets once. -/
theorem relocatePage_frame (c : FTJController) (p : ℕ) :
    ∃ hot cold memory ecc l2p valid owner counts writes physical, c.relocatePage p = { c with
      freePhysicalPagesHot := hot
      freePhysicalPagesCold := cold
      memoryBuffer := memory
      eccBuffer := ecc
      l2pMap := l2p
      physValid := valid
      physOwnerLba := owner
      blockValidCount := counts
      pageWrites := writes
      totalPhysicalBytesWritten := physical } := by
  unfold relocatePage
  rcases allocate_cases c false with ⟨heq, -⟩ | ⟨q, hot, cold, heq, -⟩ <;> rw [heq] <;> simp only
  all_goals
    split_ifs <;> exact ⟨_, _, _, _, _, _, _, _, _, _, rfl⟩

@[simp] theorem relocatePage_pageCount (c : FTJController) (p : ℕ) :
    (c.relocatePage p).pageCount = c.pageCount := by
  obtain ⟨_, _, _, _, _, _, _, _, _, _, heq⟩ := relocatePage_frame c p
  rw [heq]

/-- What moving a page does in a coherent controller: nothing, if the page is not valid or no page is
free, and else its logical page goes to a fresh page. -/
theorem Coherent.relocatePage_cases (h : c.Coherent) {p : ℕ} (hp : p < c.pageCount) :
    c.relocatePage p = c ∨
      ∃ (lp q : ℕ) (hot cold : List ℤ), lp < c.pageCount ∧ c.physValid p = true ∧
        c.l2pMap lp = p ∧ p ≠ q ∧ (c.withFree hot cold).Coherent ∧
        (c.withFree hot cold).Fresh q ∧ c.relocatePage p =
          (((c.withFree hot cold).copyPage q p).mapPage lp q lp).invalidatePage p := by
  unfold relocatePage
  split_ifs with hvalid
  · obtain ⟨lp, hlp, howner⟩ := h.tables.owned p hp hvalid
    have hmapped : c.l2pMap lp = p := (h.tables.agree lp hlp p hp).mpr ⟨hvalid, howner⟩
    rcases h.allocate false with ⟨hnone, -⟩ | ⟨q, hot, cold, heq, hcoherent, hfresh⟩
    · exact .inl (by simp [hnone])
    · refine .inr ⟨lp, q, hot, cold, hlp, hvalid, hmapped,
        hcoherent.tables.mapped_ne_fresh hlp hmapped hfresh, hcoherent, hfresh, ?_⟩
      simp only [heq, howner]
      rw [if_neg (by omega), if_pos ⟨by omega, hlp⟩]
      rfl
  · exact .inl rfl

/-- **The move loop's step keeps the view.** -/
theorem Coherent.relocatePage (h : c.Coherent) {p : ℕ} (hp : p < c.pageCount) :
    (c.relocatePage p).Coherent ∧ (c.relocatePage p).pageMap.view = c.pageMap.view := by
  rcases h.relocatePage_cases hp with
    heq | ⟨lp, q, hot, cold, hlp, -, hmapped, hne, hcoherent, hfresh, heq⟩
  · rw [heq]
    exact ⟨h, rfl⟩
  · have hremapped := relocate_remapped hot cold hmapped hne
    have hmap : (c.withFree hot cold).pageMap.map lp = some p :=
      hcoherent.tables.map_eq_some.mpr ⟨hlp, hp, hmapped⟩
    have hunused := hcoherent.tables.unused hfresh.invalid
    rw [heq]
    refine ⟨hremapped.coherent hcoherent hfresh hlp, ?_⟩
    -- moving a page with its old content is no change of the view
    calc _ = Function.update (c.withFree hot cold).pageMap.view lp
          (some ((c.withFree hot cold).pageMap.store p)) :=
          hremapped.view hcoherent.tables hfresh.invalid hlp
      _ = (c.withFree hot cold).pageMap.view :=
          (PageMap.view_remap hunused _).symm.trans (PageMap.view_relocate hunused hmap)
      _ = c.pageMap.view := rfl

theorem relocatePage_represents (h : c.Represents v) {p : ℕ} (hp : p < c.pageCount) :
    (c.relocatePage p).Represents v := by
  obtain ⟨hc, hv⟩ := h
  obtain ⟨hcoherent, hview⟩ := hc.coherent.relocatePage hp
  obtain ⟨_, _, _, _, _, _, _, _, _, _, heq⟩ := relocatePage_frame c p
  refine ⟨hcoherent.consistent ?_ ?_, hview.trans hv⟩
  · rw [heq]; exact hc.capacity_eq
  · rw [heq]; exact hc.small

end FTJController

end FtjSsdSim.Engine
