import Mathlib
import FtjSsdSim.Library.Machine

/-!
# Ticket rings

A bounded queue over `M` cells in which the threads take *tickets*.  The pushes share one counter of
tickets and the pops another; ticket `p` of either side works on cell `p % M`, and each cell carries
a sequence number that says whose turn it is: `p` for the push with ticket `p`, `p + 1` for the pop
with ticket `p`, and `p + M` for the push one lap later.

Tickets are natural numbers here, and a thread that finds a wrong sequence number may give up or
start over as it likes: only *finding the right one* matters for what is proved.

* `want_inj` — with two or more cells, a cell's sequence number names one side and one ticket;
* `Inv`, `inv_step` — the invariant and its preservation by every step;
* `trace_inv` — it holds after every trace, of any number of threads in any interleaving;
* `cell_exclusive` — two threads never work on the same cell;
* `wins_le_calls` — no more tickets are taken than operations were called.
-/

namespace FtjSsdSim.Library.TicketRing

/-! ### The specification -/

/-- The two ends of the queue. -/
inductive Side where
  | push
  | pop
  deriving DecidableEq, Repr

/-- A call on the queue. -/
inductive Op (T : Type*) where
  | push (v : T)
  | pop
  deriving DecidableEq, Repr

/-- The end an operation works at. -/
def Op.side {T : Type*} : Op T → Side
  | .push _ => .push
  | .pop => .pop

/-- Where a thread stands, by the atomic action it takes next: load the ticket counter, check the
cell's sequence number against its ticket, try to take the ticket, access the cell's data, store
the cell's next sequence number. -/
inductive Phase (P T : Type*) where
  | idle
  | load (op : Op T)
  | check (op : Op T) (p : P)
  | cas (op : Op T) (p : P)
  | access (op : Op T) (p : P)
  | store (side : Side) (p : P) (v : T)
  deriving DecidableEq, Repr

/-- What a step shows. -/
inductive Event (P T : Type*) where
  | call (op : Op T)
  | refused (op : Op T)
  | won (op : Op T) (p : P)
  | done (side : Side) (p : P) (v : T)
  deriving DecidableEq, Repr

/-- The shared cells and counters, and every thread's phase. -/
structure State (Tid T : Type*) where
  pos : Side → ℕ
  seq : ℕ → ℕ
  data : ℕ → T
  phase : Tid → Phase ℕ T

/-- The sequence number that ticket `p` waits for. -/
def want : Side → ℕ → ℕ
  | .push, p => p
  | .pop, p => p + 1

/-- The sequence number that ticket `p` leaves behind. -/
def give (M : ℕ) : Side → ℕ → ℕ
  | .push, p => p + 1
  | .pop, p => p + M

section

variable {Tid T : Type*} [DecidableEq Tid]

/-- Thread `t` moves to phase `ph`. -/
def State.setPhase (s : State Tid T) (t : Tid) (ph : Phase ℕ T) : State Tid T :=
  { s with phase := Function.update s.phase t ph }

/-- One atomic action of one thread. -/
inductive Step (M : ℕ) : State Tid T → Option (Tid × Event ℕ T) → State Tid T → Prop where
  | call {s : State Tid T} {t : Tid} {op : Op T} :
      s.phase t = .idle → Step M s (some (t, .call op)) (s.setPhase t (.load op))
  | load {s : State Tid T} {t : Tid} {op : Op T} :
      s.phase t = .load op → Step M s none (s.setPhase t (.check op (s.pos op.side)))
  | ready {s : State Tid T} {t : Tid} {op : Op T} {p : ℕ} :
      s.phase t = .check op p → s.seq (p % M) = want op.side p →
        Step M s none (s.setPhase t (.cas op p))
  | giveUp {s : State Tid T} {t : Tid} {op : Op T} {p : ℕ} :
      s.phase t = .check op p → Step M s (some (t, .refused op)) (s.setPhase t .idle)
  | reload {s : State Tid T} {t : Tid} {op : Op T} {p : ℕ} :
      s.phase t = .check op p → Step M s none (s.setPhase t (.load op))
  | win {s : State Tid T} {t : Tid} {op : Op T} {p : ℕ} :
      s.phase t = .cas op p → s.pos op.side = p →
        Step M s (some (t, .won op p))
          ({ s with pos := Function.update s.pos op.side (p + 1) }.setPhase t (.access op p))
  | lose {s : State Tid T} {t : Tid} {op : Op T} {p : ℕ} :
      s.phase t = .cas op p → Step M s none (s.setPhase t (.check op (s.pos op.side)))
  | write {s : State Tid T} {t : Tid} {v : T} {p : ℕ} :
      s.phase t = .access (.push v) p →
        Step M s none
          ({ s with data := Function.update s.data (p % M) v }.setPhase t (.store .push p v))
  | read {s : State Tid T} {t : Tid} {p : ℕ} :
      s.phase t = .access .pop p →
        Step M s none (s.setPhase t (.store .pop p (s.data (p % M))))
  | store {s : State Tid T} {t : Tid} {side : Side} {p : ℕ} {v : T} :
      s.phase t = .store side p v →
        Step M s (some (t, .done side p v))
          ({ s with seq := Function.update s.seq (p % M) (give M side p) }.setPhase t .idle)

/-- The queue before the first operation: cell `c` waits for ticket `c` of the pushes. -/
def initial (data : ℕ → T) : State Tid T where
  pos := fun _ => 0
  seq := fun c => c
  data := data
  phase := fun _ => .idle

end

/-! ### What a history says -/

section

variable {P Tid T : Type*}

/-- The tickets taken by pushes, with the values they carry, in the order they were won. -/
def pushWins (es : List (Tid × Event P T)) : List (P × T) :=
  es.filterMap fun
    | (_, .won (.push v) p) => some (p, v)
    | _ => none

/-- The tickets taken by pops, in the order they were won. -/
def popWins (es : List (Tid × Event P T)) : List P :=
  es.filterMap fun
    | (_, .won .pop p) => some p
    | _ => none

/-- The completed operations of one side: ticket and value. -/
def completed (side : Side) (es : List (Tid × Event P T)) : List (P × T) :=
  es.filterMap fun
    | (_, .done side' p v) => if side' = side then some (p, v) else none
    | _ => none

/-- The threads of the operations called. -/
def callers (es : List (Tid × Event P T)) : List Tid :=
  es.filterMap fun
    | (t, .call _) => some t
    | _ => none

/-- The threads of the tickets taken. -/
def winners (es : List (Tid × Event P T)) : List Tid :=
  es.filterMap fun
    | (t, .won _ _) => some t
    | _ => none

/-- The tickets one side has taken, in the order they were won. -/
def wins (side : Side) (es : List (Tid × Event P T)) : List P :=
  match side with
  | .push => (pushWins es).map Prod.fst
  | .pop => popWins es

theorem pushWins_append (es fs : List (Tid × Event P T)) :
    pushWins (es ++ fs) = pushWins es ++ pushWins fs := List.filterMap_append ..

theorem callers_append (es fs : List (Tid × Event P T)) :
    callers (es ++ fs) = callers es ++ callers fs := List.filterMap_append ..

theorem winners_append (es fs : List (Tid × Event P T)) :
    winners (es ++ fs) = winners es ++ winners fs := List.filterMap_append ..

theorem wins_append (side : Side) (es fs : List (Tid × Event P T)) :
    wins side (es ++ fs) = wins side es ++ wins side fs := by
  cases side with
  | push => exact (congrArg _ (pushWins_append es fs)).trans (List.map_append ..)
  | pop => exact List.filterMap_append ..

/-- The phase is past the taking of ticket `p`. -/
def Phase.Holds (ph : Phase P T) (side : Side) (p : P) : Prop :=
  match ph with
  | .access op q => op.side = side ∧ q = p
  | .store side' q _ => side' = side ∧ q = p
  | _ => False

/-- The ticket and the value of a push that has won and not completed. -/
def Phase.pushing : Phase P T → Option (P × T)
  | .access (.push v) p => some (p, v)
  | .store .push p v => some (p, v)
  | _ => none

end

/-! ### Other ticket types -/

section

variable {P Q Tid T : Type*} (f : P → Q)

/-- The same phase, its ticket read through `f`. -/
def Phase.map : Phase P T → Phase Q T
  | .idle => .idle
  | .load op => .load op
  | .check op p => .check op (f p)
  | .cas op p => .cas op (f p)
  | .access op p => .access op (f p)
  | .store side p v => .store side (f p) v

/-- The same event, its ticket read through `f`. -/
def Event.map : Tid × Event P T → Tid × Event Q T
  | (t, .call op) => (t, .call op)
  | (t, .refused op) => (t, .refused op)
  | (t, .won op p) => (t, .won op (f p))
  | (t, .done side p v) => (t, .done side (f p) v)

theorem callers_map (es : List (Tid × Event P T)) :
    callers (es.map (Event.map f)) = callers es := by
  rw [callers, List.filterMap_map]
  exact List.filterMap_congr fun e _ => by rcases e with ⟨t, _ | _ | _ | _⟩ <;> rfl

theorem completed_map (side : Side) (es : List (Tid × Event P T)) :
    completed side (es.map (Event.map f)) =
      (completed side es).map fun x => (f x.1, x.2) := by
  rw [completed, completed, List.filterMap_map, List.map_filterMap]
  refine List.filterMap_congr fun e _ => ?_
  rcases e with ⟨t, _ | _ | _ | ⟨a, p, v⟩⟩ <;> try rfl
  by_cases h : a = side <;> simp [Event.map, h]

theorem pushWins_map (es : List (Tid × Event P T)) :
    pushWins (es.map (Event.map f)) = (pushWins es).map fun x => (f x.1, x.2) := by
  rw [pushWins, pushWins, List.filterMap_map, List.map_filterMap]
  refine List.filterMap_congr fun e _ => ?_
  rcases e with ⟨t, _ | _ | ⟨op, p⟩ | _⟩ <;> try rfl
  cases op <;> rfl

theorem popWins_map (es : List (Tid × Event P T)) :
    popWins (es.map (Event.map f)) = (popWins es).map f := by
  rw [popWins, popWins, List.filterMap_map, List.map_filterMap]
  refine List.filterMap_congr fun e _ => ?_
  rcases e with ⟨t, _ | _ | ⟨op, p⟩ | _⟩ <;> try rfl
  cases op <;> rfl

end

/-! ### Sequence numbers -/

/-- **A sequence number names one ticket.**  With two or more cells, `want` of a cell's tickets is
injective in the side and the ticket together. -/
theorem want_inj {M : ℕ} (hM : 2 ≤ M) {a b : Side} {p q : ℕ} (hc : p % M = q % M)
    (h : want a p = want b q) : a = b ∧ p = q := by
  -- two tickets of one cell are never neighbours
  have hne : ∀ x y : ℕ, x % M = y % M → x ≠ y + 1 := by
    rintro x y hxy rfl
    have h1 : (y + 1) % M = y % M := hxy
    rw [Nat.add_mod, Nat.mod_eq_of_lt (show 1 < M by omega)] at h1
    have hlt := Nat.mod_lt y (show 0 < M by omega)
    by_cases hy : y % M + 1 < M
    · rw [Nat.mod_eq_of_lt hy] at h1
      omega
    · have : y % M + 1 = M := by omega
      rw [this, Nat.mod_self] at h1
      omega
  cases a <;> cases b <;> simp only [want] at h
  · exact ⟨rfl, h⟩
  · exact absurd h (hne p q hc)
  · exact absurd h.symm (hne q p hc.symm)
  · exact ⟨rfl, by omega⟩

/-- What a ticket leaves behind is its pop's turn, or the push one lap later. -/
theorem give_eq_want {M : ℕ} (hM : 2 ≤ M) {a : Side} {p q : ℕ} (hc : p % M = q % M)
    (h : give M a p = want .pop q) : a = .push ∧ p = q := by
  cases a with
  | push => exact ⟨rfl, by simpa [give, want] using h⟩
  | pop =>
    have hc' : (p + M) % M = q % M := by rw [Nat.add_mod_right, hc]
    have := want_inj hM (a := .push) (b := .pop) hc' h
    exact absurd this.1 (by decide)

/-! ### The invariant -/

section

variable {Tid T : Type*} {M : ℕ}

/-- What holds of the state after the history `es`. -/
structure Inv (M : ℕ) (es : List (Tid × Event ℕ T)) (s : State Tid T) : Prop where
  order : s.pos .pop ≤ s.pos .push
  seq_lt : ∀ c < M, s.seq c < s.pos .push + M
  check_le : ∀ t op p, s.phase t = .check op p → p ≤ s.pos op.side
  cas_le : ∀ t op p, s.phase t = .cas op p →
    p ≤ s.pos op.side ∧ (p = s.pos op.side → s.seq (p % M) = want op.side p)
  holder : ∀ t side p, (s.phase t).Holds side p →
    p < s.pos side ∧ s.seq (p % M) = want side p
  unique : ∀ t u side p, (s.phase t).Holds side p → (s.phase u).Holds side p → t = u
  claim : ∀ t p v, (s.phase t).pushing = some (p, v) → (p, v) ∈ pushWins es
  stored : ∀ t side p v, s.phase t = .store side p v → s.data (p % M) = v
  won_order : ∀ side, wins side es = List.range (s.pos side)
  full : ∀ p, s.seq (p % M) = want .pop p →
    ∃ v, (p, v) ∈ completed .push es ∧ s.data (p % M) = v
  done_lt : ∀ side p v, (p, v) ∈ completed side es → p < s.pos side
  done_free : ∀ side p v t, (p, v) ∈ completed side es → ¬ (s.phase t).Holds side p
  done_nodup : ∀ side, ((completed side es).map Prod.fst).Nodup
  kept : ∀ p v, (p, v) ∈ completed .push es →
    (p, v) ∈ completed .pop es ∨ s.seq (p % M) = want .pop p
  popped : ∀ p v, (p, v) ∈ completed .pop es → (p, v) ∈ completed .push es
  pushed_won : ∀ p v, (p, v) ∈ completed .push es → (p, v) ∈ pushWins es

theorem inv_initial (data : ℕ → T) (hM : 2 ≤ M) :
    Inv M [] (initial data : State Tid T) where
  order := le_rfl
  seq_lt c hc := by simpa [initial] using hc
  check_le t op p h := by cases h
  cas_le t op p h := by cases h
  holder t side p h := h.elim
  unique t u side p h := h.elim
  claim t p v h := by cases h
  stored t side p v h := by cases h
  won_order side := by cases side <;> rfl
  full p h := by
    have hlt := Nat.mod_lt p (show 0 < M by omega)
    have hle := Nat.mod_le p M
    simp only [initial, want] at h
    omega
  done_lt side p v h := by cases h
  done_free side p v t h := by cases h
  done_nodup side := List.nodup_nil
  kept p v h := by cases h
  popped p v h := by cases h
  pushed_won p v h := by cases h

/-- Two threads never work on the same cell. -/
theorem Inv.exclusive {es : List (Tid × Event ℕ T)} {s : State Tid T} (h : Inv M es s)
    (hM : 2 ≤ M) {t u : Tid} {a b : Side} {p q : ℕ} (ht : (s.phase t).Holds a p)
    (hu : (s.phase u).Holds b q) (hc : p % M = q % M) : t = u ∧ a = b ∧ p = q := by
  have hp := (h.holder t a p ht).2
  have hq := (h.holder u b q hu).2
  obtain ⟨rfl, rfl⟩ := want_inj hM hc (by rw [← hp, ← hq, hc])
  exact ⟨h.unique t u a p ht hu, rfl, rfl⟩

/-- The value of a completed push is known by its ticket. -/
theorem Inv.value_unique {es : List (Tid × Event ℕ T)} {s : State Tid T} (h : Inv M es s)
    {side : Side} {p : ℕ} {v w : T} (hv : (p, v) ∈ completed side es)
    (hw : (p, w) ∈ completed side es) : v = w :=
  congrArg Prod.snd (List.inj_on_of_nodup_map (h.done_nodup side) hv hw rfl)

/-! ### What one step preserves -/

variable [DecidableEq Tid]

@[simp] theorem setPhase_pos (s : State Tid T) (t : Tid) (ph : Phase ℕ T) :
    (s.setPhase t ph).pos = s.pos := rfl

@[simp] theorem setPhase_seq (s : State Tid T) (t : Tid) (ph : Phase ℕ T) :
    (s.setPhase t ph).seq = s.seq := rfl

@[simp] theorem setPhase_data (s : State Tid T) (t : Tid) (ph : Phase ℕ T) :
    (s.setPhase t ph).data = s.data := rfl

theorem setPhase_self (s : State Tid T) (t : Tid) (ph : Phase ℕ T) :
    (s.setPhase t ph).phase t = ph := Function.update_self ..

theorem setPhase_ne (s : State Tid T) {t u : Tid} (ph : Phase ℕ T) (h : u ≠ t) :
    (s.setPhase t ph).phase u = s.phase u := Function.update_of_ne h ..

/-- A property of all phases after one thread has moved. -/
theorem forall_setPhase {s : State Tid T} {t : Tid} {ph : Phase ℕ T}
    {P : Tid → Phase ℕ T → Prop} (hself : P t ph) (hrest : ∀ u, u ≠ t → P u (s.phase u)) :
    ∀ u, P u ((s.setPhase t ph).phase u) := by
  intro u
  by_cases hu : u = t
  · subst hu
    rwa [setPhase_self]
  · rw [setPhase_ne s ph hu]
    exact hrest u hu

/-- A move to a phase that holds and claims nothing new, and whose own conditions hold. -/
theorem inv_phase {es : List (Tid × Event ℕ T)} {s : State Tid T} (h : Inv M es s) (t : Tid)
    (ph : Phase ℕ T)
    (hcheck : ∀ op p, ph = .check op p → p ≤ s.pos op.side)
    (hcas : ∀ op p, ph = .cas op p →
      p ≤ s.pos op.side ∧ (p = s.pos op.side → s.seq (p % M) = want op.side p))
    (hhold : ∀ side p, ph.Holds side p → (s.phase t).Holds side p)
    (hclaim : ∀ p v, ph.pushing = some (p, v) → (s.phase t).pushing = some (p, v))
    (hstore : ∀ side p v, ph = .store side p v → s.data (p % M) = v) :
    Inv M es (s.setPhase t ph) := by
  have holds : ∀ u side p, ((s.setPhase t ph).phase u).Holds side p →
      (s.phase u).Holds side p :=
    forall_setPhase (P := fun u φ => ∀ side p, φ.Holds side p → (s.phase u).Holds side p)
      hhold fun _ _ _ _ hu => hu
  exact {
    order := h.order
    seq_lt := h.seq_lt
    check_le := forall_setPhase (P := fun _ φ => ∀ op p, φ = .check op p → p ≤ s.pos op.side)
      hcheck fun u _ => h.check_le u
    cas_le := forall_setPhase (P := fun _ φ => ∀ op p, φ = .cas op p →
        p ≤ s.pos op.side ∧ (p = s.pos op.side → s.seq (p % M) = want op.side p))
      hcas fun u _ => h.cas_le u
    holder := fun u side p hu => h.holder u side p (holds u side p hu)
    unique := fun u w side p hu hw => h.unique u w side p (holds u side p hu) (holds w side p hw)
    claim := forall_setPhase (P := fun _ φ => ∀ p v, φ.pushing = some (p, v) →
        (p, v) ∈ pushWins es)
      (fun p v hp => h.claim t p v (hclaim p v hp)) fun u _ => h.claim u
    stored := forall_setPhase (P := fun _ φ => ∀ side p v, φ = .store side p v →
        s.data (p % M) = v)
      hstore fun u _ => h.stored u
    won_order := h.won_order
    full := h.full
    done_lt := h.done_lt
    done_free := fun side p v u hd hu => h.done_free side p v u hd (holds u side p hu)
    done_nodup := h.done_nodup
    kept := h.kept
    popped := h.popped
    pushed_won := h.pushed_won }

omit [DecidableEq Tid] in
/-- Writing the cell of the ticket one holds disturbs nobody else. -/
theorem inv_data {es : List (Tid × Event ℕ T)} {s : State Tid T} (h : Inv M es s) (hM : 2 ≤ M)
    {t : Tid} {v w : T} {p : ℕ} (ht : s.phase t = .access (.push w) p) :
    Inv M es { s with data := Function.update s.data (p % M) v } := by
  have hhold : (s.phase t).Holds .push p := by rw [ht]; exact ⟨rfl, rfl⟩
  exact { h with
    stored := by
      intro u side q x hu
      have hne : q % M ≠ p % M := by
        intro hc
        have hq : (s.phase u).Holds side q := by rw [hu]; exact ⟨rfl, rfl⟩
        obtain ⟨rfl, -, -⟩ := h.exclusive hM hq hhold hc
        rw [ht] at hu
        cases hu
      exact (Function.update_of_ne hne ..).trans (h.stored u side q x hu)
    full := by
      intro q hq
      have hne : q % M ≠ p % M := by
        intro hc
        have hp := (h.holder t .push p hhold).2
        have := want_inj hM hc (by rw [← hq, ← hp, hc])
        exact absurd this.1 (by decide)
      obtain ⟨x, hx, hdata⟩ := h.full q hq
      exact ⟨x, hx, (Function.update_of_ne hne ..).trans hdata⟩ }

omit [DecidableEq Tid] in
theorem completed_won (side : Side) (es : List (Tid × Event ℕ T)) (t : Tid) (op : Op T)
    (p : ℕ) : completed side (es ++ [(t, .won op p)]) = completed side es := by
  simp [completed]

omit [DecidableEq Tid] in
theorem completed_done (side side' : Side) (es : List (Tid × Event ℕ T)) (t : Tid) (p : ℕ)
    (v : T) : completed side (es ++ [(t, .done side' p v)]) =
      completed side es ++ if side' = side then [(p, v)] else [] := by
  by_cases h : side' = side <;> simp [completed, h]

omit [DecidableEq Tid] in
theorem mem_completed_done {side side' : Side} {es : List (Tid × Event ℕ T)} {t : Tid} {p q : ℕ}
    {v w : T} : (q, w) ∈ completed side (es ++ [(t, .done side' p v)]) ↔
      (q, w) ∈ completed side es ∨ (side' = side ∧ q = p ∧ w = v) := by
  by_cases h : side' = side <;> simp [completed_done, h]

omit [DecidableEq Tid] in
theorem wins_won (side : Side) (es : List (Tid × Event ℕ T)) (t : Tid) (op : Op T) (p : ℕ) :
    wins side (es ++ [(t, .won op p)]) =
      wins side es ++ if op.side = side then [p] else [] := by
  rw [wins_append]
  cases op <;> cases side <;> rfl

omit [DecidableEq Tid] in
theorem wins_done (side side' : Side) (es : List (Tid × Event ℕ T)) (t : Tid) (p : ℕ) (v : T) :
    wins side (es ++ [(t, .done side' p v)]) = wins side es := by
  rw [wins_append]
  cases side <;> exact List.append_nil _

omit [DecidableEq Tid] in
theorem pushWins_done (es : List (Tid × Event ℕ T)) (t : Tid) (side : Side) (p : ℕ) (v : T) :
    pushWins (es ++ [(t, .done side p v)]) = pushWins es :=
  (pushWins_append es _).trans (List.append_nil _)

/-- Taking the next ticket of a side whose cell shows that ticket's turn. -/
theorem inv_win {es : List (Tid × Event ℕ T)} {s : State Tid T} (h : Inv M es s)
    {t : Tid} {op : Op T} {p : ℕ} (ht : s.phase t = .cas op p) (hp : s.pos op.side = p) :
    Inv M (es ++ [(t, .won op p)])
      ({ s with pos := Function.update s.pos op.side (p + 1) }.setPhase t (.access op p)) := by
  have hseq : s.seq (p % M) = want op.side p := (h.cas_le t op p ht).2 hp.symm
  have hself : Function.update s.pos op.side (p + 1) op.side = p + 1 := Function.update_self ..
  have hmono : ∀ side, s.pos side ≤ Function.update s.pos op.side (p + 1) side := by
    intro side
    by_cases hs : side = op.side
    · subst hs
      omega
    · exact (Function.update_of_ne hs ..).ge
  have hnew : ∀ u, ¬ (s.phase u).Holds op.side p := fun u hu => by
    have := (h.holder u _ p hu).1
    omega
  constructor
  case order =>
    cases op with
    | push v => exact h.order.trans (hmono .push)
    | pop =>
      obtain ⟨v, hv, -⟩ := h.full p hseq
      exact h.done_lt .push p v hv
  case seq_lt => exact fun c hc => (h.seq_lt c hc).trans_le (Nat.add_le_add_right (hmono _) M)
  case check_le =>
    exact forall_setPhase (P := fun _ φ => ∀ o q, φ = .check o q →
        q ≤ Function.update s.pos op.side (p + 1) o.side)
      (fun o q ho => by cases ho) fun u _ o q ho => (h.check_le u o q ho).trans (hmono _)
  case cas_le =>
    refine forall_setPhase (P := fun _ φ => ∀ o q, φ = .cas o q →
        q ≤ Function.update s.pos op.side (p + 1) o.side ∧
          (q = Function.update s.pos op.side (p + 1) o.side → s.seq (q % M) = want o.side q))
      (fun o q ho => by cases ho) fun u _ o q ho => ?_
    obtain ⟨hle, hready⟩ := h.cas_le u o q ho
    refine ⟨hle.trans (hmono _), fun hq => hready ?_⟩
    by_cases hs : o.side = op.side
    · rw [hs, hself] at hq
      rw [hs, hp] at hle
      omega
    · rw [hq]
      exact Function.update_of_ne hs ..
  case holder =>
    refine forall_setPhase (P := fun _ φ => ∀ side q, φ.Holds side q →
        q < Function.update s.pos op.side (p + 1) side ∧ s.seq (q % M) = want side q)
      ?_ fun u _ side q hu => ?_
    · rintro side q ⟨rfl, rfl⟩
      exact ⟨by omega, hseq⟩
    · obtain ⟨hlt, hq⟩ := h.holder u side q hu
      exact ⟨hlt.trans_le (hmono _), hq⟩
  case unique =>
    intro u w side q hu hw
    by_cases hut : u = t
    · subst hut
      by_cases hwt : w = u
      · exact hwt.symm
      · rw [setPhase_self] at hu
        rw [setPhase_ne _ _ hwt] at hw
        obtain ⟨rfl, rfl⟩ := hu
        exact absurd hw (hnew w)
    · rw [setPhase_ne _ _ hut] at hu
      by_cases hwt : w = t
      · subst hwt
        rw [setPhase_self] at hw
        obtain ⟨rfl, rfl⟩ := hw
        exact absurd hu (hnew u)
      · rw [setPhase_ne _ _ hwt] at hw
        exact h.unique u w side q hu hw
  case claim =>
    have hsub : ∀ x ∈ pushWins es, x ∈ pushWins (es ++ [(t, .won op p)]) := fun x hx => by
      rw [pushWins_append]
      exact List.mem_append_left _ hx
    refine forall_setPhase (P := fun _ φ => ∀ q v, φ.pushing = some (q, v) →
        (q, v) ∈ pushWins (es ++ [(t, .won op p)]))
      (fun q v hq => ?_) fun u _ q v hq => hsub _ (h.claim u q v hq)
    cases op with
    | push w =>
      obtain ⟨rfl, rfl⟩ : p = q ∧ w = v := by simpa [Phase.pushing] using hq
      simp [pushWins]
    | pop => cases hq
  case stored =>
    exact forall_setPhase (P := fun _ φ => ∀ side q v, φ = .store side q v →
        s.data (q % M) = v)
      (fun _ _ _ hq => by cases hq) fun u _ => h.stored u
  case won_order =>
    intro side
    rw [wins_won, h.won_order side]
    by_cases hs : op.side = side
    · subst hs
      rw [if_pos rfl, hp]
      exact List.range_succ.symm.trans (congrArg List.range hself.symm)
    · rw [if_neg hs, List.append_nil]
      exact congrArg List.range (Function.update_of_ne (Ne.symm hs) ..).symm
  case full => simpa only [completed_won, setPhase_seq, setPhase_data] using h.full
  case done_lt =>
    intro side q v hq
    rw [completed_won] at hq
    exact (h.done_lt side q v hq).trans_le (hmono _)
  case done_free =>
    intro side q v u hq
    rw [completed_won] at hq
    refine forall_setPhase (P := fun _ φ => ¬ φ.Holds side q) ?_
      (fun w _ => h.done_free side q v w hq) u
    rintro ⟨rfl, rfl⟩
    have := h.done_lt _ _ v hq
    omega
  case done_nodup => simpa only [completed_won] using h.done_nodup
  case kept => simpa only [completed_won, setPhase_seq] using h.kept
  case popped => simpa only [completed_won] using h.popped
  case pushed_won =>
    intro q v hq
    rw [completed_won] at hq
    rw [pushWins_append]
    exact List.mem_append_left _ (h.pushed_won q v hq)

/-- Handing the cell on to the ticket whose turn is next. -/
theorem inv_store {es : List (Tid × Event ℕ T)} {s : State Tid T} (h : Inv M es s) (hM : 2 ≤ M)
    {t : Tid} {side : Side} {p : ℕ} {v : T} (ht : s.phase t = .store side p v) :
    Inv M (es ++ [(t, .done side p v)])
      ({ s with seq := Function.update s.seq (p % M) (give M side p) }.setPhase t .idle) := by
  have hhold : (s.phase t).Holds side p := by rw [ht]; exact ⟨rfl, rfl⟩
  obtain ⟨hlt, hseq⟩ := h.holder t side p hhold
  have hdata := h.stored t side p v ht
  have hidle : ∀ u a q, ((s.setPhase t .idle).phase u).Holds a q →
      u ≠ t ∧ (s.phase u).Holds a q :=
    forall_setPhase (P := fun u φ => ∀ a q, φ.Holds a q → u ≠ t ∧ (s.phase u).Holds a q)
      (fun _ _ hu => hu.elim) fun u hu a q ha => ⟨hu, ha⟩
  -- a turn that another ticket is waiting for is not the one being handed on
  have hturn : ∀ a q, s.seq (q % M) = want a q → ¬ (a = side ∧ q = p) →
      Function.update s.seq (p % M) (give M side p) (q % M) = s.seq (q % M) := by
    intro a q hq hne
    refine Function.update_of_ne (fun hc => hne ?_) ..
    exact want_inj hM hc (by rw [← hq, ← hseq, hc])
  constructor
  case order => exact h.order
  case seq_lt =>
    intro c hc
    by_cases hcp : c = p % M
    · have hle : s.pos side ≤ s.pos .push := by
        cases side
        · exact le_rfl
        · exact h.order
      rw [setPhase_seq, hcp]
      refine (Function.update_self (p % M) _ s.seq).trans_lt ?_
      cases side <;> simp only [give, setPhase_pos] <;> omega
    · rw [setPhase_seq]
      exact (Function.update_of_ne hcp _ s.seq).trans_lt (h.seq_lt c hc)
  case check_le =>
    exact forall_setPhase (P := fun _ φ => ∀ o q, φ = .check o q → q ≤ s.pos o.side)
      (fun _ _ ho => by cases ho) fun u _ => h.check_le u
  case cas_le =>
    refine forall_setPhase (P := fun _ φ => ∀ o q, φ = .cas o q → q ≤ s.pos o.side ∧
        (q = s.pos o.side →
          Function.update s.seq (p % M) (give M side p) (q % M) = want o.side q))
      (fun _ _ ho => by cases ho) fun u _ o q ho => ?_
    obtain ⟨hle, hready⟩ := h.cas_le u o q ho
    refine ⟨hle, fun hq => ?_⟩
    rw [hturn o.side q (hready hq)]
    · exact hready hq
    · rintro ⟨hs, rfl⟩
      rw [hs] at hq
      omega
  case holder =>
    intro u a q hu
    obtain ⟨hne, hu'⟩ := hidle u a q hu
    obtain ⟨hq, hw⟩ := h.holder u a q hu'
    refine ⟨hq, (hturn a q hw ?_).trans hw⟩
    rintro ⟨rfl, rfl⟩
    exact hne (h.unique u t _ _ hu' hhold)
  case unique =>
    exact fun u w a q hu hw => h.unique u w a q (hidle u a q hu).2 (hidle w a q hw).2
  case claim =>
    rw [pushWins_done]
    exact forall_setPhase (P := fun _ φ => ∀ q x, φ.pushing = some (q, x) →
        (q, x) ∈ pushWins es)
      (fun _ _ hq => by cases hq) fun u _ => h.claim u
  case stored =>
    exact forall_setPhase (P := fun _ φ => ∀ a q x, φ = .store a q x → s.data (q % M) = x)
      (fun _ _ _ hq => by cases hq) fun u _ => h.stored u
  case won_order => simpa only [wins_done, setPhase_pos] using h.won_order
  case full =>
    intro q hq
    by_cases hc : p % M = q % M
    · rw [setPhase_seq, ← hc] at hq
      obtain ⟨rfl, rfl⟩ := give_eq_want hM hc ((Function.update_self (p % M) _ s.seq).symm.trans hq)
      exact ⟨v, mem_completed_done.mpr (.inr ⟨rfl, rfl, rfl⟩), hdata⟩
    · rw [setPhase_seq] at hq
      obtain ⟨x, hx, hd⟩ := h.full q
        ((Function.update_of_ne (Ne.symm hc) (give M side p) s.seq).symm.trans hq)
      exact ⟨x, mem_completed_done.mpr (.inl hx), hd⟩
  case done_lt =>
    intro a q x hq
    rcases mem_completed_done.mp hq with hq | ⟨rfl, rfl, rfl⟩
    · exact h.done_lt a q x hq
    · exact hlt
  case done_free =>
    intro a q x u hq hu
    obtain ⟨hne, hu'⟩ := hidle u a q hu
    rcases mem_completed_done.mp hq with hq | ⟨rfl, rfl, rfl⟩
    · exact h.done_free a q x u hq hu'
    · exact hne (h.unique u t _ _ hu' hhold)
  case done_nodup =>
    intro a
    rw [completed_done]
    by_cases hs : side = a
    · subst hs
      rw [if_pos rfl, List.map_append, List.nodup_append]
      refine ⟨h.done_nodup side, List.nodup_singleton _, ?_⟩
      rintro q hq _ hq' rfl
      obtain ⟨⟨q', x⟩, hx, rfl⟩ := List.mem_map.mp hq
      obtain rfl : q' = p := by simpa using hq'
      exact h.done_free side q' x t hx hhold
    · rw [if_neg hs, List.append_nil]
      exact h.done_nodup a
  case kept =>
    intro q x hq
    rcases mem_completed_done.mp hq with hold | ⟨rfl, rfl, rfl⟩
    · rcases h.kept q x hold with hpop | hready
      · exact .inl (mem_completed_done.mpr (.inl hpop))
      · by_cases hs : Side.pop = side ∧ q = p
        · obtain ⟨rfl, rfl⟩ := hs
          obtain ⟨y, hy, hd⟩ := h.full q hready
          have hxv : x = v := (h.value_unique hold hy).trans (hd.symm.trans hdata)
          exact .inl (mem_completed_done.mpr (.inr ⟨rfl, rfl, hxv⟩))
        · exact .inr ((hturn .pop q hready hs).trans hready)
    · exact .inr (Function.update_self ..)
  case popped =>
    intro q x hq
    rcases mem_completed_done.mp hq with hq | ⟨rfl, rfl, rfl⟩
    · exact mem_completed_done.mpr (.inl (h.popped q x hq))
    · obtain ⟨y, hy, hd⟩ := h.full q hseq
      obtain rfl : y = x := hd.symm.trans hdata
      exact mem_completed_done.mpr (.inl hy)
  case pushed_won =>
    intro q x hq
    rw [pushWins_done]
    rcases mem_completed_done.mp hq with hq | ⟨rfl, rfl, rfl⟩
    · exact h.pushed_won q x hq
    · exact h.claim t q x (by rw [ht]; rfl)

/-- **Every step keeps the invariant.** -/
theorem inv_step {es : List (Tid × Event ℕ T)} {s s' : State Tid T}
    {e : Option (Tid × Event ℕ T)} (h : Inv M es s) (hM : 2 ≤ M) (hs : Step M s e s') :
    Inv M (es ++ e.toList) s' := by
  -- calls and refusals are not part of what the invariant reads off the history
  have hquiet : ∀ t ev, (∀ op p, ev ≠ .won op p) → (∀ side p v, ev ≠ .done side p v) →
      ∀ s' : State Tid T, Inv M es s' → Inv M (es ++ [(t, ev)]) s' := by
    intro t ev hwon hdone s' hs'
    have hc : ∀ side, completed side (es ++ [(t, ev)]) = completed side es := by
      intro side
      cases ev <;> simp_all [completed]
    have hp : pushWins (es ++ [(t, ev)]) = pushWins es := by cases ev <;> simp_all [pushWins]
    have hw : ∀ side, wins side (es ++ [(t, ev)]) = wins side es := by
      intro side
      cases ev <;> cases side <;> simp_all [wins, pushWins, popWins]
    exact {
      hs' with
      claim := hp ▸ hs'.claim
      won_order := fun side => (hw side).trans (hs'.won_order side)
      full := by simpa only [hc] using hs'.full
      done_lt := by simpa only [hc] using hs'.done_lt
      done_free := by simpa only [hc] using hs'.done_free
      done_nodup := by simpa only [hc] using hs'.done_nodup
      kept := by simpa only [hc] using hs'.kept
      popped := by simpa only [hc] using hs'.popped
      pushed_won := by simpa only [hc, hp] using hs'.pushed_won }
  have hnil : ∀ s' : State Tid T, Inv M es s' → Inv M (es ++ Option.toList none) s' := by
    intro s' hs'
    simpa using hs'
  cases hs with
  | call ht =>
    exact hquiet _ _ (by simp) (by simp) _
      (inv_phase h _ _ nofun nofun (fun _ _ hf => hf.elim) nofun nofun)
  | load ht =>
    refine hnil _ (inv_phase h _ _ ?_ nofun (fun _ _ hf => hf.elim) nofun nofun)
    intro op p he
    cases he
    exact le_rfl
  | ready ht hseq =>
    refine hnil _ (inv_phase h _ _ nofun ?_ (fun _ _ hf => hf.elim) nofun nofun)
    intro op p he
    cases he
    exact ⟨h.check_le _ _ _ ht, fun _ => hseq⟩
  | giveUp ht =>
    exact hquiet _ _ (by simp) (by simp) _
      (inv_phase h _ _ nofun nofun (fun _ _ hf => hf.elim) nofun nofun)
  | reload ht =>
    exact hnil _ (inv_phase h _ _ nofun nofun (fun _ _ hf => hf.elim) nofun nofun)
  | win ht hp => exact inv_win h ht hp
  | lose ht =>
    refine hnil _ (inv_phase h _ _ ?_ nofun (fun _ _ hf => hf.elim) nofun nofun)
    intro op p he
    cases he
    exact le_rfl
  | write ht =>
    refine hnil _ (inv_phase (inv_data h hM ht) _ _ ?_ ?_ ?_ ?_ ?_) <;>
      simp [ht, Phase.Holds, Phase.pushing, Op.side]
  | read ht =>
    refine hnil _ (inv_phase h _ _ ?_ ?_ ?_ ?_ ?_) <;>
      simp [ht, Phase.Holds, Phase.pushing, Op.side]
  | store ht => exact inv_store h hM ht

/-- **The invariant holds after every trace**: any threads, in any interleaving. -/
theorem trace_inv {data : ℕ → T} {es : List (Tid × Event ℕ T)} {s : State Tid T} (hM : 2 ≤ M)
    (h : Trace (Step M) (initial data) es s) : Inv M es s :=
  h.invariant (I := fun es s => Inv M es s) (inv_initial data hM)
    fun _ _ _ _ hi hs => inv_step hi hM hs

/-! ### Tickets are bounded by calls -/

/-- One while the thread has called and has not yet taken its ticket. -/
def Phase.bidding {P : Type*} : Phase P T → ℕ
  | .load _ => 1
  | .check _ _ => 1
  | .cas _ _ => 1
  | _ => 0

theorem bidding_setPhase_le {s : State Tid T} {t : Tid} {ph : Phase ℕ T}
    (h : ph.bidding ≤ (s.phase t).bidding) (u : Tid) :
    ((s.setPhase t ph).phase u).bidding ≤ (s.phase u).bidding := by
  by_cases hu : u = t
  · subst hu
    rwa [setPhase_self]
  · rw [setPhase_ne s ph hu]

/-- Only a call opens a bid, and a ticket taken closes one of the same thread. -/
theorem step_balance {s s' : State Tid T} {e : Option (Tid × Event ℕ T)} (hs : Step M s e s')
    (u : Tid) :
    (winners e.toList).count u + (s'.phase u).bidding ≤
      (callers e.toList).count u + (s.phase u).bidding := by
  -- the steps that move no bid: nothing is called and nothing is won
  have hquiet : ∀ {t : Tid} {ph : Phase ℕ T}, ph.bidding ≤ (s.phase t).bidding →
      0 + ((s.setPhase t ph).phase u).bidding ≤ 0 + (s.phase u).bidding := by
    intro t ph h
    rw [zero_add, zero_add]
    exact bidding_setPhase_le h u
  cases hs with
  | @call t op ht =>
    show 0 + _ ≤ [t].count u + _
    by_cases hu : u = t
    · subst hu
      rw [setPhase_self, ht, List.count_singleton_self]
      exact le_rfl
    · rw [setPhase_ne s _ hu]
      exact Nat.add_le_add_right (Nat.zero_le _) _
  | @win t op p ht _ =>
    show [t].count u + _ ≤ 0 + _
    by_cases hu : u = t
    · subst hu
      rw [setPhase_self, ht, List.count_singleton_self]
      exact le_rfl
    · rw [setPhase_ne _ _ hu, List.count_singleton, if_neg (by simpa using Ne.symm hu)]
  | load ht => exact hquiet (by rw [ht]; exact le_rfl)
  | ready ht _ => exact hquiet (by rw [ht]; exact le_rfl)
  | giveUp ht => exact hquiet (Nat.zero_le _)
  | reload ht => exact hquiet (by rw [ht]; exact le_rfl)
  | lose ht => exact hquiet (by rw [ht]; exact le_rfl)
  | write ht => exact hquiet (Nat.zero_le _)
  | read ht => exact hquiet (Nat.zero_le _)
  | store ht => exact hquiet (Nat.zero_le _)

/-- Each thread has taken at most one ticket for each of its calls. -/
theorem winners_count_step {es : List (Tid × Event ℕ T)} {s s' : State Tid T}
    {e : Option (Tid × Event ℕ T)} (hs : Step M s e s')
    (h : ∀ u, (winners es).count u + (s.phase u).bidding ≤ (callers es).count u) (u : Tid) :
    (winners (es ++ e.toList)).count u + (s'.phase u).bidding ≤
      (callers (es ++ e.toList)).count u := by
  have hold := h u
  have hnew := step_balance hs u
  rw [winners_append, callers_append, List.count_append, List.count_append]
  omega

omit [DecidableEq Tid] in
theorem wins_length_le (side : Side) (es : List (Tid × Event ℕ T)) :
    (wins side es).length ≤ (winners es).length := by
  induction es with
  | nil => cases side <;> exact le_rfl
  | cons e es ih =>
    obtain ⟨t, ev⟩ := e
    -- a won ticket is one winner, and at most one ticket of the side
    have hone : (wins side [(t, ev)]).length ≤ (winners [(t, ev)]).length := by
      rcases ev with _ | _ | ⟨_ | _, _⟩ | _ <;> cases side <;>
        first | exact Nat.zero_le _ | exact le_rfl
    rw [← List.singleton_append, wins_append, winners_append, List.length_append,
      List.length_append]
    exact Nat.add_le_add hone ih

/-- **No more tickets are taken than operations were called.** -/
theorem wins_le_calls {data : ℕ → T} {es : List (Tid × Event ℕ T)} {s : State Tid T}
    (h : Trace (Step M) (initial data) es s) (side : Side) :
    (wins side es).length ≤ (callers es).length := by
  have hcount : ∀ u, (winners es).count u + (s.phase u).bidding ≤ (callers es).count u :=
    h.invariant (I := fun es s => ∀ u, (winners es).count u + (s.phase u).bidding ≤
      (callers es).count u) (fun _ => le_rfl) fun _ _ _ _ hi hs => winners_count_step hs hi
  have hsub : (winners es).length ≤ (callers es).length :=
    (List.subperm_iff_count.mpr fun u => by have := hcount u; omega).length_le
  exact (wins_length_le side es).trans hsub

end

end FtjSsdSim.Library.TicketRing
