import Mathlib
import FtjSsdSim.Library.Machine

/-!
# Streams with a ready wire

A machine with an output port shows an item until its reader takes it.  Every edge may load a new item
into the port's register (`put`), and the reader takes the item that is shown at an edge with `ready`
high (`taken`).

* `conserved` — what goes in is what comes out and what is still held;
* `Register` — how an edge may treat the port: clear it, load it, or leave an item that waits;
* `Register.accounts` — as long as no waiting item is touched, what is put is what is taken and what is
  still shown;
* `Register.intact_iff` — and this, with a shown item that stays until it is taken, is exactly to say
  that no waiting item is touched.
-/

namespace FtjSsdSim.Library

variable {σ ι β : Type*} {step : σ → ι → σ}

/-! ### Conservation -/

/-- **Conservation.**  If at every edge what is held and comes in is what goes out and is held after it,
then so it is over a run. -/
theorem conserved {held : σ → List β} {f g : σ × ι → List β} {s : σ} {is : List ι}
    (h : ∀ c ∈ cycles step s is, held c.1 ++ f c = g c ++ held (step c.1 c.2)) :
    held s ++ (cycles step s is).flatMap f =
      (cycles step s is).flatMap g ++ held (run step s is) := by
  induction is generalizing s with
  | nil =>
    show held s ++ [] = [] ++ held s
    rw [List.append_nil, List.nil_append]
  | cons i is ih =>
    have hstep := h (s, i) (List.mem_cons_self ..)
    have hrest := ih fun c hc => h c (List.mem_cons_of_mem _ hc)
    show held s ++ (f (s, i) ++ (cycles step (step s i) is).flatMap f) =
      g (s, i) ++ (cycles step (step s i) is).flatMap g ++ held (run step (step s i) is)
    rw [← List.append_assoc, hstep, List.append_assoc, hrest, List.append_assoc]

theorem observed_eq_flatMap (obs : σ × ι → Option β) (s : σ) (is : List ι) :
    observed step obs s is = (cycles step s is).flatMap fun c => (obs c).toList :=
  List.filterMap_eq_flatMap_toList ..

theorem flatMap_observed {γ : Type*} (obs : σ × ι → Option β) (g : β → List γ) (s : σ)
    (is : List ι) :
    (observed step obs s is).flatMap g =
      (cycles step s is).flatMap fun c => (obs c).elim [] g := by
  rw [observed_eq_flatMap, List.flatMap_assoc]
  refine List.flatMap_congr fun c _ => ?_
  cases obs c with
  | none => rfl
  | some x => exact List.append_nil _

/-- Where some lists of a sequence may be left out, nothing is lost exactly when none is. -/
theorem flatMap_eq_iff {α : Type*} {f g : α → List β} {l : List α}
    (h : ∀ c ∈ l, f c = g c ∨ (f c = [] ∧ g c ≠ [])) :
    l.flatMap f = l.flatMap g ↔ ∀ c ∈ l, f c = g c := by
  refine ⟨fun heq => ?_, List.flatMap_congr⟩
  have hle : ∀ l' : List α, (∀ c ∈ l', f c = g c ∨ (f c = [] ∧ g c ≠ [])) →
      (l'.flatMap f).length ≤ (l'.flatMap g).length := by
    intro l' h'
    rw [List.length_flatMap, List.length_flatMap]
    refine List.sum_le_sum fun c hc => ?_
    rcases h' c hc with hsame | ⟨hnil, -⟩
    · rw [hsame]
    · rw [hnil]
      exact Nat.zero_le _
  induction l with
  | nil => exact fun c hc => by cases hc
  | cons c l ih =>
    rw [List.forall_mem_cons] at h ⊢
    rw [List.flatMap_cons, List.flatMap_cons] at heq
    rcases h.1 with hsame | ⟨hnil, hne⟩
    · rw [hsame] at heq
      exact ⟨hsame, ih h.2 (List.append_cancel_left heq)⟩
    · have hlen := congrArg List.length heq
      have hrest := hle l h.2
      have hpos := List.length_pos_iff.mpr hne
      rw [hnil, List.nil_append, List.length_append] at hlen
      omega

/-! ### Ports -/

/-- An output port: the item that a state shows, if any, and the reader's `ready`. -/
structure Port (σ ι β : Type*) where
  out : σ → Option β
  ready : ι → Bool

namespace Port

variable (P : Port σ ι β)

/-- An item is shown and not taken. -/
def Stalled (c : σ × ι) : Prop := P.out c.1 ≠ none ∧ P.ready c.2 = false

/-- The item taken at an edge. -/
def taken (c : σ × ι) : Option β := if P.ready c.2 then P.out c.1 else none

/-- What the port shows that is not taken yet. -/
def pending (s : σ) : List β := (P.out s).toList

theorem taken_of_stalled {c : σ × ι} (h : P.Stalled c) : P.taken c = none := by
  rw [taken, h.2]
  rfl

theorem taken_of_not_stalled {c : σ × ι} (h : ¬ P.Stalled c) : P.taken c = P.out c.1 := by
  rw [taken]
  split_ifs with hready
  · rfl
  · by_contra hne
    exact h ⟨fun hout => hne hout.symm, Bool.eq_false_iff.mpr hready⟩

theorem not_stalled_of_ready {c : σ × ι} (h : P.ready c.2 = true) : ¬ P.Stalled c := by
  intro hstall
  exact absurd (h.symm.trans hstall.2) (by decide)

/-- A port that shows its registers behind a valid bit. -/
theorem stalled_iff_valid {valid : σ → Bool} {item : σ → β}
    (h : ∀ s, P.out s = if valid s then some (item s) else none) (c : σ × ι) :
    P.Stalled c ↔ valid c.1 = true ∧ P.ready c.2 = false := by
  rw [Stalled, h]
  cases valid c.1 with
  | true => exact and_congr_left fun _ => iff_of_true (Option.some_ne_none _) rfl
  | false => exact and_congr_left fun _ => iff_of_false (fun hne => hne rfl) Bool.false_ne_true

/-- It shows the same item as a valid one exactly when it is valid and has the same registers. -/
theorem out_eq_iff_valid {valid : σ → Bool} {item : σ → β}
    (h : ∀ s, P.out s = if valid s then some (item s) else none) {s s' : σ} (hs : valid s = true) :
    P.out s' = P.out s ↔ valid s' = true ∧ item s' = item s := by
  rw [h, h, hs, if_pos rfl]
  cases valid s' with
  | true => exact (Option.some_inj).trans (and_iff_right rfl).symm
  | false => exact iff_of_false (fun hnone => by cases hnone) fun hboth => by cases hboth.1

end Port

/-- How the edges of a machine treat the port `P`: an edge that `clears` it leaves nothing there, and any
other one leaves the item that it `put`s, or else the one that was not taken. -/
structure Register (step : σ → ι → σ) (P : Port σ ι β) (put : σ × ι → Option β)
    (clears : σ × ι → Bool) : Prop where
  out : ∀ c, P.out (step c.1 c.2) =
    if clears c then none else (put c).or (if P.ready c.2 then none else P.out c.1)
  put_of_clears : ∀ c, clears c = true → put c = none

namespace Register

variable {P : Port σ ι β} {put : σ × ι → Option β} {clears : σ × ι → Bool}

/-- A port that is free takes over what is put. -/
theorem out_free (h : Register step P put clears) {c : σ × ι} (hc : ¬ P.Stalled c) :
    P.out (step c.1 c.2) = put c := by
  have hnone : (if P.ready c.2 then none else P.out c.1) = none := by
    split_ifs with hready
    · rfl
    · by_contra hout
      exact hc ⟨hout, Bool.eq_false_iff.mpr hready⟩
  rw [h.out, hnone, Option.or_none]
  split_ifs with hclear
  · exact (h.put_of_clears c hclear).symm
  · rfl

/-- A waiting item stays if nothing is done to the port. -/
theorem out_stalled (h : Register step P put clears) {c : σ × ι} (hc : P.Stalled c)
    (hclear : clears c = false) (hput : put c = none) : P.out (step c.1 c.2) = P.out c.1 := by
  rw [h.out, hclear, hput, hc.2]
  rfl

/-- One edge that touches no waiting item. -/
theorem accounts_step (h : Register step P put clears) {c : σ × ι}
    (hc : P.Stalled c → clears c = false ∧ put c = none) :
    P.pending c.1 ++ (put c).toList = (P.taken c).toList ++ P.pending (step c.1 c.2) := by
  by_cases hstall : P.Stalled c
  · obtain ⟨hclear, hput⟩ := hc hstall
    rw [Port.pending, Port.pending, h.out_stalled hstall hclear hput, hput,
      P.taken_of_stalled hstall]
    exact List.append_nil _
  · rw [Port.pending, Port.pending, h.out_free hstall, P.taken_of_not_stalled hstall]

/-- **What is put is what is taken and what is still shown**, if no waiting item is touched. -/
theorem accounts (h : Register step P put clears) {s : σ} {is : List ι}
    (hc : ∀ c ∈ cycles step s is, P.Stalled c → clears c = false ∧ put c = none) :
    P.pending s ++ observed step put s is =
      observed step P.taken s is ++ P.pending (run step s is) := by
  rw [observed_eq_flatMap, observed_eq_flatMap]
  exact conserved fun c hmem => h.accounts_step (hc c hmem)

/-- **No waiting item is touched** exactly when every item stays until it is taken and none gets
lost. -/
theorem intact_iff (h : Register step P put clears) (s : σ) (is : List ι) :
    ((∀ c ∈ cycles step s is, P.Stalled c → P.out (step c.1 c.2) = P.out c.1) ∧
        ∀ js, js <+: is → P.pending s ++ observed step put s js =
          observed step P.taken s js ++ P.pending (run step s js)) ↔
      ∀ c ∈ cycles step s is, P.Stalled c → clears c = false ∧ put c = none := by
  constructor
  · intro hok
    induction is using List.reverseRecOn with
    | nil => exact fun c hc => by cases hc
    | append_singleton is i ih =>
      obtain ⟨hstay, hall⟩ := hok
      have hlast : cycles step s (is ++ [i]) = cycles step s is ++ [(run step s is, i)] :=
        cycles_append step s is [i]
      rw [hlast, List.forall_mem_append, List.forall_mem_singleton] at hstay ⊢
      refine ⟨ih ⟨hstay.1, fun js hjs => hall js (hjs.trans (List.prefix_append ..))⟩, ?_⟩
      intro hstall
      constructor
      · -- a cleared port shows nothing
        refine Bool.eq_false_iff.mpr fun hclear => hstall.1 ?_
        rw [← hstay.2 hstall, h.out, if_pos hclear]
      · -- an item that is put on top of the waiting one is neither taken nor shown
        have hbefore := congrArg List.length (hall is (List.prefix_append ..))
        have hafter := congrArg List.length (hall (is ++ [i]) List.prefix_rfl)
        rw [observed_snoc, observed_snoc, run_snoc, P.taken_of_stalled hstall, Port.pending,
          Port.pending, hstay.2 hstall] at hafter
        cases hput : put (run step s is, i) with
        | none => rfl
        | some x =>
          simp only [Port.pending, List.length_append, hput, Option.toList_some,
            Option.toList_none, List.length_singleton, List.length_nil] at hbefore hafter
          omega
  · intro hok
    refine ⟨fun c hc hstall =>
      h.out_stalled hstall (hok c hc hstall).1 (hok c hc hstall).2, ?_⟩
    rintro js ⟨rest, rfl⟩
    rw [cycles_append] at hok
    exact h.accounts fun c hc => hok c (List.mem_append_left _ hc)

end Register

end FtjSsdSim.Library
