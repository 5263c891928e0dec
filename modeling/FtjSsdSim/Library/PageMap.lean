import Mathlib

/-!
# Out-of-place page maps

A page map stores the pages a client sees under logical numbers at physical places of its own
choosing.  A page is never written in place: new content goes to a place that no logical page uses,
and the logical page is then pointed there.

* `view_remap` — remapping to an unused place changes exactly one page of what the client sees;
* `view_relocate` — remapping a page with its old content changes nothing.
-/

namespace FtjSsdSim.Library

/-- Where each logical page is, and what each place holds. -/
structure PageMap (β : Type*) where
  map : ℕ → Option ℕ
  store : ℕ → β

namespace PageMap

variable {β : Type*} (m : PageMap β)

/-- What the client sees: the content of each mapped page. -/
def view (lp : ℕ) : Option β := (m.map lp).map m.store

/-- No two logical pages share a place. -/
def Injective : Prop := ∀ a b p, m.map a = some p → m.map b = some p → a = b

/-- No logical page is at `q`. -/
def Unused (q : ℕ) : Prop := ∀ lp, m.map lp ≠ some q

/-- Content `x` for logical page `lp`, put at `q`. -/
def remap (lp q : ℕ) (x : β) : PageMap β where
  map := Function.update m.map lp (some q)
  store := Function.update m.store q x

variable {m} {lp q p : ℕ}

/-- **Remapping changes one page.** -/
theorem view_remap (hq : m.Unused q) (x : β) :
    (m.remap lp q x).view = Function.update m.view lp (some x) := by
  funext k
  by_cases hk : k = lp
  · subst hk
    simp [view, remap]
  · have hne : (m.map k).map (Function.update m.store q x) = (m.map k).map m.store := by
      cases hm : m.map k with
      | none => rfl
      | some r =>
        have hr : r ≠ q := fun h => hq k (h ▸ hm)
        simp [Function.update_of_ne hr]
    simpa [view, remap, Function.update_of_ne hk] using hne

/-- **Moving a page changes nothing.** -/
theorem view_relocate (hq : m.Unused q) (hp : m.map lp = some p) :
    (m.remap lp q (m.store p)).view = m.view := by
  rw [view_remap hq]
  refine Function.update_eq_self_iff.mpr ?_
  rw [view, hp]
  rfl

end PageMap

end FtjSsdSim.Library
