import Mathlib

/-!
# Counted loops over an explicit state

`forLoop lo hi body s` is the C loop `for (i = lo; i < hi; ++i) s = body(i, s)`: the indices run
through `lo, …, hi - 1` in order, and nothing runs when `hi ≤ lo`.

* `forLoop_succ` unrolls the last iteration, which is the recurrence the inductions use;
* `forLoop_induct` is the invariant rule: what holds at `lo` and is carried by one iteration
  holds at `hi`;
* `forLoop_preserves` is its form for an invariant that does not mention the index;
* `forLoop_map` carries a loop through a map that commutes with its body;
* `forLoop_rel` runs two loops side by side;
* `forLoop_firstLeast` is the search for a least value that keeps the first one found;
* `forLoop_scanStep` is the same search where the first value needs no bound to be compared with.
-/

namespace FtjSsdSim.Library

/-- `for (i = lo; i < hi; ++i) s = body(i, s)`. -/
def forLoop {σ : Type*} (lo hi : ℕ) (body : ℕ → σ → σ) (s : σ) : σ :=
  (List.range' lo (hi - lo)).foldl (fun s i => body i s) s

section

variable {σ : Type*} {lo hi : ℕ} {f : ℕ → σ → σ} {s : σ}

theorem forLoop_empty (h : hi ≤ lo) : forLoop lo hi f s = s := by
  rw [forLoop, Nat.sub_eq_zero_of_le h]
  rfl

/-- The last iteration of the loop. -/
theorem forLoop_succ (h : lo ≤ hi) :
    forLoop lo (hi + 1) f s = f hi (forLoop lo hi f s) := by
  rw [forLoop, forLoop, show hi + 1 - lo = (hi - lo) + 1 by omega, List.range'_concat,
    List.foldl_append, Nat.one_mul, show lo + (hi - lo) = hi by omega]
  rfl

/-- **The loop invariant rule.** -/
theorem forLoop_induct {motive : ℕ → σ → Prop} (hle : lo ≤ hi) (base : motive lo s)
    (step : ∀ i t, lo ≤ i → i < hi → motive i t → motive (i + 1) (f i t)) :
    motive hi (forLoop lo hi f s) := by
  induction hi, hle using Nat.le_induction with
  | base => rw [forLoop_empty (Nat.le_refl _)]; exact base
  | succ hi hle ih =>
    rw [forLoop_succ hle]
    exact step hi _ hle (Nat.lt_succ_self hi)
      (ih fun i t hl hh => step i t hl (Nat.lt_succ_of_lt hh))

/-- An invariant that does not mention the index needs no bound on the range. -/
theorem forLoop_preserves {P : σ → Prop} (base : P s)
    (step : ∀ i t, lo ≤ i → i < hi → P t → P (f i t)) : P (forLoop lo hi f s) := by
  rcases Nat.le_total hi lo with h | h
  · rw [forLoop_empty h]; exact base
  · exact forLoop_induct (motive := fun _ t => P t) h base step

/-- A map that commutes with the bodies of two loops commutes with the loops. -/
theorem forLoop_map {τ : Type*} {f' : ℕ → τ → τ} {g : σ → τ}
    (h : ∀ i t, f' i (g t) = g (f i t)) :
    forLoop lo hi f' (g s) = g (forLoop lo hi f s) := by
  rcases Nat.le_total hi lo with hl | hl
  · rw [forLoop_empty hl, forLoop_empty hl]
  · induction hi, hl using Nat.le_induction with
    | base => rw [forLoop_empty (Nat.le_refl _), forLoop_empty (Nat.le_refl _)]
    | succ hi hle ih => rw [forLoop_succ hle, forLoop_succ hle, ih, h]

end

/-- Two loops over the same indices keep related states related. -/
theorem forLoop_rel {σ τ : Type*} {R : σ → τ → Prop} {lo hi : ℕ} {f : ℕ → σ → σ} {g : ℕ → τ → τ}
    {s : σ} {t : τ} (base : R s t)
    (step : ∀ i a b, lo ≤ i → i < hi → R a b → R (f i a) (g i b)) :
    R (forLoop lo hi f s) (forLoop lo hi g t) := by
  rcases Nat.le_total hi lo with h | h
  · rwa [forLoop_empty h, forLoop_empty h]
  · induction hi, h using Nat.le_induction with
    | base => rwa [forLoop_empty (Nat.le_refl _), forLoop_empty (Nat.le_refl _)]
    | succ hi hle ih =>
      rw [forLoop_succ hle, forLoop_succ hle]
      exact step hi _ _ hle (Nat.lt_succ_self hi)
        (ih fun i a b hl hh => step i a b hl (Nat.lt_succ_of_lt hh))

/-! ### Searches -/

section

variable {α : Type*} [LinearOrder α] {f : ℕ → α} {n b : ℕ} {bound : α}

/-- `b` is the first of the indices below `n` whose value is least, and that value is below
`bound`. -/
structure FirstLeast (f : ℕ → α) (n : ℕ) (bound : α) (b : ℕ) : Prop where
  lt : b < n
  below : f b < bound
  first : ∀ i < b, f b < f i
  least : ∀ i < n, f b ≤ f i

/-- Another value moves the search on only if it is smaller. -/
theorem FirstLeast.succ (h : FirstLeast f n bound b) (hn : f b ≤ f n) :
    FirstLeast f (n + 1) bound b where
  lt := Nat.lt_succ_of_lt h.lt
  below := h.below
  first := h.first
  least i hi := (Nat.lt_succ_iff_lt_or_eq.mp hi).elim (h.least i) fun he => he ▸ hn

/-- A smaller value takes the place of the one found. -/
theorem FirstLeast.smaller (h : FirstLeast f n bound b) (hn : f n < f b) :
    FirstLeast f (n + 1) bound n where
  lt := Nat.lt_succ_self n
  below := hn.trans h.below
  first i hi := hn.trans_le (h.least i hi)
  least i hi := (Nat.lt_succ_iff_lt_or_eq.mp hi).elim (fun hi => (hn.trans_le (h.least i hi)).le)
    fun he => he ▸ le_rfl

/-- What is found is still found after one more value exactly when that value is not smaller. -/
theorem FirstLeast.succ_iff (h : FirstLeast f n bound b) :
    FirstLeast f (n + 1) bound b ↔ f b ≤ f n :=
  ⟨fun h' => h'.least n (Nat.lt_succ_self n), h.succ⟩

/-- One comparison of a search that keeps the index and the value found so far and starts over at
index 0. -/
def scanStep (f : ℕ → α) (i : ℕ) (r : ℕ × α) : ℕ × α :=
  if i = 0 then (0, f 0) else if f i < r.2 then (i, f i) else r

/-- **The scan** of the first `n` values finds the first least one, whatever it was started with. -/
theorem forLoop_scanStep (hbound : ∀ i, f i < bound) (hn : 0 < n) (r : ℕ × α) :
    FirstLeast f n bound (forLoop 0 n (scanStep f) r).1 ∧
      (forLoop 0 n (scanStep f) r).2 = f (forLoop 0 n (scanStep f) r).1 := by
  induction n, hn using Nat.le_induction with
  | base =>
    show FirstLeast f 1 bound 0 ∧ f 0 = f 0
    refine ⟨⟨Nat.one_pos, hbound 0, fun i hi => absurd hi (Nat.not_lt_zero i), fun i hi => ?_⟩, rfl⟩
    rw [Nat.lt_one_iff.mp hi]
  | succ n hn ih =>
    obtain ⟨hfound, hbest⟩ := ih
    rw [forLoop_succ (Nat.zero_le n), scanStep, if_neg (Nat.ne_of_gt hn), hbest]
    split_ifs with hlt
    · exact ⟨hfound.smaller hlt, rfl⟩
    · exact ⟨hfound.succ (not_lt.mp hlt), hbest⟩

/-- Two searches that find something find the same. -/
theorem FirstLeast.unique {b' : ℕ} (h : FirstLeast f n bound b) (h' : FirstLeast f n bound b') :
    b = b' := by
  rcases Nat.lt_trichotomy b b' with hlt | rfl | hlt
  · exact absurd (h'.first b hlt) (h.least b' h'.lt).not_gt
  · rfl
  · exact absurd (h.first b' hlt) (h'.least b h.lt).not_gt

/-- **The search** `if (f(i) < best) { best = f(i); arg = i; }` from `best = bound`. -/
theorem forLoop_firstLeast :
    (forLoop 0 n (fun i (best : Option ℕ × α) => if f i < best.2 then (some i, f i) else best)
      (none, bound)).1 = some b ↔ FirstLeast f n bound b := by
  have hinv := forLoop_induct (s := ((none, bound) : Option ℕ × α))
    (f := fun i best => if f i < best.2 then (some i, f i) else best)
    (motive := fun i best => (best = (none, bound) ∧ ∀ j < i, bound ≤ f j) ∨
      ∃ b, best = (some b, f b) ∧ FirstLeast f i bound b)
    (Nat.zero_le n) (.inl ⟨rfl, fun j hj => absurd hj (Nat.not_lt_zero j)⟩) ?_
  · rcases hinv with ⟨heq, hnone⟩ | ⟨b', heq, hb'⟩
    · rw [heq]
      exact iff_of_false (fun h => by cases h) fun h => (hnone b h.lt).not_gt h.below
    · rw [heq]
      constructor
      · intro h
        exact Option.some.inj h ▸ hb'
      · intro h
        rw [hb'.unique h]
  · intro i best _ _ ih
    rcases ih with ⟨rfl, hnone⟩ | ⟨b', rfl, hb'⟩
    · split_ifs with hlt
      · exact .inr ⟨i, rfl, Nat.lt_succ_self i, hlt, fun j hj => hlt.trans_le (hnone j hj),
          fun j hj => (Nat.lt_succ_iff_lt_or_eq.mp hj).elim
            (fun hj => (hlt.trans_le (hnone j hj)).le) fun he => he ▸ le_rfl⟩
      · refine .inl ⟨rfl, fun j hj => ?_⟩
        rcases Nat.lt_succ_iff_lt_or_eq.mp hj with hj | rfl
        · exact hnone j hj
        · exact not_lt.mp hlt
    · split_ifs with hlt
      · exact .inr ⟨i, rfl, Nat.lt_succ_self i, hlt.trans hb'.below,
          fun j hj => hlt.trans_le (hb'.least j hj),
          fun j hj => (Nat.lt_succ_iff_lt_or_eq.mp hj).elim
            (fun hj => hlt.le.trans (hb'.least j hj)) fun he => he ▸ le_rfl⟩
      · exact .inr ⟨b', rfl, hb'.succ (not_lt.mp hlt)⟩

end

end FtjSsdSim.Library
