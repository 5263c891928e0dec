import Mathlib

/-!
# Trees of names

A hierarchical name space files objects under paths; the empty path is the root.  It is closed if every
other name is filed in a directory.  Filing a name in a directory, taking a name without children away,
and moving a subtree to a free name outside of it keep it closed.

`moveEach` moves the names of a list one after another, as a program does.  On a list of a whole subtree
that is the move of the subtree (`moveEach_eq_move`).
-/

namespace FtjSsdSim.Library

/-- What is filed under each path. -/
abbrev NameTree (α ι : Type*) := List α → Option ι

namespace NameTree

variable {α ι : Type*} {t : NameTree α ι} {dir : ι → Prop} {ps qs : List α} {id : ι}

/-- Every name but the root's is filed in a directory. -/
def Closed (dir : ι → Prop) (t : NameTree α ι) : Prop :=
  ∀ ps c id, t (ps ++ [c]) = some id → ∃ p, t ps = some p ∧ dir p

/-- A name right below `ps`. -/
def HasChild (t : NameTree α ι) (ps : List α) : Prop := ∃ c, t (ps ++ [c]) ≠ none

/-- What is strictly above a name is a directory. -/
theorem Closed.above (h : t.Closed dir) {rs : List α} (hne : rs ≠ []) (hid : t (ps ++ rs) = some id) :
    ∃ p, t ps = some p ∧ dir p := by
  induction rs using List.reverseRecOn generalizing id with
  | nil => exact absurd rfl hne
  | append_singleton rs c ih =>
    rw [← List.append_assoc] at hid
    obtain ⟨p, hp, hdir⟩ := h (ps ++ rs) c id hid
    by_cases hrs : rs = []
    · rw [hrs, List.append_nil] at hp
      exact ⟨p, hp, hdir⟩
    · exact ih hrs hp

/-- Below a name that is not that of a directory nothing is filed. -/
theorem Closed.eq_nil_of_not_dir (h : t.Closed dir) (hnot : ∀ p, t ps = some p → ¬ dir p)
    {rs : List α} (hid : t (ps ++ rs) = some id) : rs = [] := by
  by_contra hne
  obtain ⟨p, hp, hdir⟩ := h.above hne hid
  exact hnot p hp hdir

theorem Closed.mono {dir' : ι → Prop} (h : t.Closed dir)
    (hmono : ∀ ps id, t ps = some id → dir id → dir' id) : t.Closed dir' := by
  intro ps c id hid
  obtain ⟨p, hp, hdir⟩ := h ps c id hid
  exact ⟨p, hp, hmono ps p hp hdir⟩

variable [DecidableEq α]

/-- The tree with a name filed. -/
def file (t : NameTree α ι) (ps : List α) (id : ι) : NameTree α ι := Function.update t ps (some id)

/-- The tree without a name. -/
def unfile (t : NameTree α ι) (ps : List α) : NameTree α ι := Function.update t ps none

theorem file_apply (qs : List α) : t.file ps id qs = if qs = ps then some id else t qs :=
  Function.update_apply ..

theorem unfile_apply (qs : List α) : t.unfile ps qs = if qs = ps then none else t qs :=
  Function.update_apply ..

theorem unfile_of_none (h : t ps = none) : t.unfile ps = t := by
  rw [unfile, ← h]
  exact Function.update_eq_self ps t

theorem Closed.file (h : t.Closed dir) {c : α} {p : ι} (hp : t ps = some p) (hdir : dir p)
    (hfree : t (ps ++ [c]) = none) : (t.file (ps ++ [c]) id).Closed dir := by
  -- an old name keeps its parent, which is not the new name
  have hkeep : ∀ {qs q}, t qs = some q → t.file (ps ++ [c]) id qs = some q := by
    intro qs q hq
    rw [file_apply, if_neg, hq]
    rintro rfl
    rw [hfree] at hq
    cases hq
  intro qs d j hj
  rw [file_apply] at hj
  split_ifs at hj with heq
  · rw [(List.append_inj' heq rfl).1]
    exact ⟨p, hkeep hp, hdir⟩
  · obtain ⟨q, hq, hq'⟩ := h qs d j hj
    exact ⟨q, hkeep hq, hq'⟩

theorem Closed.unfile (h : t.Closed dir) (hleaf : ¬ t.HasChild ps) : (t.unfile ps).Closed dir := by
  intro qs c id hid
  rw [unfile_apply] at hid
  split_ifs at hid
  obtain ⟨p, hp, hdir⟩ := h qs c id hid
  refine ⟨p, ?_, hdir⟩
  rw [unfile_apply, if_neg, hp]
  rintro rfl
  exact hleaf ⟨c, by rw [hid]; simp⟩

/-! ### Moving a subtree -/

/-- The subtree at `ps` is found at `qs` instead. -/
def move (t : NameTree α ι) (ps qs : List α) : NameTree α ι := fun rs =>
  if qs <+: rs then t (ps ++ rs.drop qs.length) else if ps <+: rs then none else t rs

/-- One object is filed at its place below `qs` instead of below `ps`. -/
def moveOne (ps qs : List α) (t : NameTree α ι) (x : List α × ι) : NameTree α ι :=
  (t.unfile (ps ++ x.1)).file (qs ++ x.1) x.2

/-- A list of them, one after another. -/
def moveEach (ps qs : List α) (t : NameTree α ι) (l : List (List α × ι)) : NameTree α ι :=
  l.foldl (moveOne ps qs) t

/-- Two places of which neither is below the other. -/
def Apart (ps qs : List α) : Prop := ¬ ps <+: qs ∧ ¬ qs <+: ps

omit [DecidableEq α] in
theorem Apart.append_ne (h : Apart ps qs) (rs rs' : List α) : ps ++ rs ≠ qs ++ rs' := by
  intro heq
  rcases List.prefix_or_prefix_of_prefix (List.prefix_append ps rs)
    (heq ▸ List.prefix_append qs rs') with hpre | hpre
  · exact h.1 hpre
  · exact h.2 hpre

theorem moveEach_snoc (l : List (List α × ι)) (x : List α × ι) :
    moveEach ps qs t (l ++ [x]) = moveOne ps qs (moveEach ps qs t l) x := by
  rw [moveEach, List.foldl_append]
  rfl

/-- A place that no name of the list comes from or goes to keeps what it has. -/
theorem moveEach_other {l : List (List α × ι)} {rs : List α}
    (h : ∀ x ∈ l, rs ≠ ps ++ x.1 ∧ rs ≠ qs ++ x.1) : moveEach ps qs t l rs = t rs := by
  induction l using List.reverseRecOn with
  | nil => rfl
  | append_singleton l x ih =>
    have hx := h x (by simp)
    rw [moveEach_snoc, moveOne, file_apply, if_neg hx.2, unfile_apply, if_neg hx.1]
    exact ih fun y hy => h y (List.mem_append_left _ hy)

/-- Where the names of the list are moved to. -/
theorem moveEach_new (hplace : ps = qs ∨ Apart ps qs) {l : List (List α × ι)}
    (hfun : ∀ x ∈ l, ∀ y ∈ l, x.1 = y.1 → x.2 = y.2) {x : List α × ι} (hx : x ∈ l) :
    moveEach ps qs t l (qs ++ x.1) = some x.2 := by
  induction l using List.reverseRecOn with
  | nil => cases hx
  | append_singleton l y ih =>
    rw [moveEach_snoc, moveOne, file_apply]
    by_cases hxy : x.1 = y.1
    · rw [if_pos (by rw [hxy]), hfun x hx y (by simp) hxy]
    · rw [if_neg (fun h => hxy (List.append_cancel_left h)), unfile_apply, if_neg]
      · have hl : x ∈ l := by
          rcases List.mem_append.mp hx with hl | hl
          · exact hl
          · rw [List.mem_singleton.mp hl] at hxy
            exact absurd rfl hxy
        exact ih (fun a ha b hb => hfun a (List.mem_append_left _ ha) b (List.mem_append_left _ hb)) hl
      · rcases hplace with rfl | hapart
        · exact fun h => hxy (List.append_cancel_left h)
        · exact fun h => hapart.append_ne _ _ h.symm

/-- Where they come from. -/
theorem moveEach_old (hapart : Apart ps qs) {l : List (List α × ι)} {x : List α × ι} (hx : x ∈ l) :
    moveEach ps qs t l (ps ++ x.1) = none := by
  induction l using List.reverseRecOn with
  | nil => cases hx
  | append_singleton l y ih =>
    rw [moveEach_snoc, moveOne, file_apply, if_neg (hapart.append_ne _ _), unfile_apply]
    split_ifs with heq
    · rfl
    · refine ih ?_
      rcases List.mem_append.mp hx with hl | hl
      · exact hl
      · rw [List.mem_singleton.mp hl] at heq
        exact absurd rfl heq

/-- **Moving name by name.**  After the name at `qs` is taken away, moving the objects of the subtree at
`ps` one by one moves the subtree, if nothing else is filed below `qs`. -/
theorem moveEach_eq_move (hplace : ps = qs ∨ Apart ps qs)
    (hfree : ps ≠ qs → ∀ rs id, t (qs ++ rs) = some id → rs = [])
    {l : List (List α × ι)} (hl : ∀ rs id, (rs, id) ∈ l ↔ t (ps ++ rs) = some id) :
    moveEach ps qs (t.unfile qs) l = t.move ps qs := by
  have hfun : ∀ x ∈ l, ∀ y ∈ l, x.1 = y.1 → x.2 = y.2 := by
    intro x hx y hy hxy
    have hx' := (hl x.1 x.2).mp hx
    rw [hxy, (hl y.1 y.2).mp hy] at hx'
    exact (Option.some.inj hx').symm
  funext rs
  rw [move]
  by_cases hqs : qs <+: rs
  · rw [if_pos hqs]
    obtain ⟨xs, rfl⟩ := hqs
    rw [List.drop_left]
    cases hid : t (ps ++ xs) with
    | some id => exact moveEach_new hplace hfun ((hl xs id).mpr hid)
    | none =>
      -- nothing is moved here, and what was here is gone
      rw [moveEach_other, unfile_apply]
      · split_ifs with hnil
        · rfl
        · by_cases hpq : ps = qs
          · rw [← hpq, hid]
          · cases hold : t (qs ++ xs) with
            | none => rfl
            | some id =>
              rw [hfree hpq xs id hold, List.append_nil] at hnil
              exact absurd rfl hnil
      · intro x hx
        have hx' := (hl x.1 x.2).mp hx
        have hne : xs ≠ x.1 := by
          rintro rfl
          rw [hid] at hx'
          cases hx'
        refine ⟨?_, fun h => hne (List.append_cancel_left h)⟩
        rcases hplace with rfl | hapart
        · exact fun h => hne (List.append_cancel_left h)
        · exact fun h => hapart.append_ne _ _ h.symm
  · rw [if_neg hqs]
    have hnew : ∀ xs, rs ≠ qs ++ xs := fun xs h => hqs ⟨xs, h.symm⟩
    by_cases hps : ps <+: rs
    · rw [if_pos hps]
      obtain ⟨xs, rfl⟩ := hps
      have hapart : Apart ps qs := by
        rcases hplace with rfl | hapart
        · exact absurd (List.prefix_append ps xs) hqs
        · exact hapart
      cases hid : t (ps ++ xs) with
      | some id => exact moveEach_old hapart ((hl xs id).mpr hid)
      | none =>
        rw [moveEach_other, unfile_apply, if_neg (hapart.append_ne xs [] ∘ by simp), hid]
        intro x hx
        have hx' := (hl x.1 x.2).mp hx
        refine ⟨fun h => ?_, hnew _⟩
        rw [← List.append_cancel_left h, hid] at hx'
        cases hx'
    · rw [if_neg hps, moveEach_other, unfile_apply, if_neg]
      · exact fun h => hnew [] (by rw [h, List.append_nil])
      · intro x _
        exact ⟨fun h => hps ⟨x.1, h.symm⟩, hnew _⟩

/-- A subtree may be moved to a name in a directory outside of it. -/
theorem Closed.move (h : t.Closed dir) (hplace : ps = qs ∨ Apart ps qs)
    (hleaf : ps ≠ qs → ∀ rs id, t (qs ++ rs) = some id → rs = [])
    (hparent : ∀ rs c, qs = rs ++ [c] → ∃ p, t rs = some p ∧ dir p) :
    (t.move ps qs).Closed dir := by
  rcases hplace with rfl | hapart
  · have hself : t.move ps ps = t := by
      funext rs
      rw [NameTree.move]
      by_cases hps : ps <+: rs
      · rw [if_pos hps, List.prefix_append_drop hps |>.symm]
      · rw [if_neg hps, if_neg hps]
    rw [hself]
    exact h
  intro rs c id hid
  have hpq : ps ≠ qs := by
    rintro rfl
    exact hapart.1 List.prefix_rfl
  rw [NameTree.move] at hid
  split_ifs at hid with hqs hps
  · -- the name is in the moved subtree: at its top, or below
    obtain ⟨xs, hxs⟩ := hqs
    rcases List.eq_nil_or_concat xs with rfl | ⟨ys, d, rfl⟩
    · rw [List.append_nil] at hxs
      obtain ⟨p, hp, hdir⟩ := hparent rs c hxs
      refine ⟨p, ?_, hdir⟩
      rw [NameTree.move, if_neg, if_neg, hp]
      · intro hpre
        exact hapart.1 (hpre.trans ⟨[c], hxs.symm⟩)
      · intro hpre
        have hlen := hpre.length_le
        have := congrArg List.length hxs
        rw [List.length_append, List.length_singleton] at this
        omega
    · rw [List.concat_eq_append, ← List.append_assoc] at hxs
      obtain ⟨hrs, hd⟩ := List.append_inj' hxs rfl
      rw [← hxs, List.append_assoc, List.drop_left, ← List.append_assoc] at hid
      obtain ⟨p, hp, hdir⟩ := h (ps ++ ys) d id hid
      refine ⟨p, ?_, hdir⟩
      rw [NameTree.move, ← hrs, if_pos (List.prefix_append qs ys), List.drop_left, hp]
  · obtain ⟨p, hp, hdir⟩ := h rs c id hid
    refine ⟨p, ?_, hdir⟩
    rw [NameTree.move, if_neg (fun hpre => hqs (hpre.trans (List.prefix_append rs [c]))),
      if_neg (fun hpre => hps (hpre.trans (List.prefix_append rs [c]))), hp]

end NameTree

end FtjSsdSim.Library
