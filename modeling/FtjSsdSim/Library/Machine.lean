import Mathlib

/-!
# Machines and their runs

A machine is a next-state function `step : σ → ι → σ`: a circuit driven by its clock edges, a pool
of threads by its schedule, a device by the calls made on it.  `run` is the state after a list of
inputs, `cycles` pairs every input with the state it meets, and `observed` collects what an observer
reads off those pairs (a handshake, a transfer, a return).

* `run_induct` — induction on a run, which extends it at its *end*, where the last input is taken
  in the state the run has reached;
* `run_invariant`, `cycles_invariant` — an invariant kept by every admitted input holds throughout;
* `run_invariant_iff` — where every step tells when it keeps a property, so does every run;
* `exists_run_replicate`, `exists_run_range` — where a rank falls until a goal holds, the goal is
  reached, by repeating one input or by any inputs;
* `observed_eq_of_alike` — inputs that step alike and show alike make runs that show the same;
* `run_map` — a map that commutes with every step carries the runs of one machine to another's;
* `Trace`, `trace_of_run` — runs of a specification given as a labelled relation, and the simulation
  of such a specification by a machine.
-/

namespace FtjSsdSim.Library

variable {σ ι α : Type*}

/-- The state after the inputs `is`. -/
def run (step : σ → ι → σ) (s : σ) (is : List ι) : σ := is.foldl step s

/-- Every step of a run: the state before it and its input. -/
def cycles (step : σ → ι → σ) : σ → List ι → List (σ × ι)
  | _, [] => []
  | s, i :: is => (s, i) :: cycles step (step s i) is

/-- What an observer of single steps sees in a run. -/
def observed (step : σ → ι → σ) (obs : σ × ι → Option α) (s : σ) (is : List ι) : List α :=
  (cycles step s is).filterMap obs

section

variable (step : σ → ι → σ) (obs : σ × ι → Option α)

@[simp] theorem run_cons (s : σ) (i : ι) (is : List ι) :
    run step s (i :: is) = run step (step s i) is := rfl

theorem run_append (s : σ) (is js : List ι) :
    run step s (is ++ js) = run step (run step s is) js := List.foldl_append ..

theorem run_snoc (s : σ) (is : List ι) (i : ι) :
    run step s (is ++ [i]) = step (run step s is) i := by
  rw [run_append]; rfl

theorem cycles_append (s : σ) (is js : List ι) :
    cycles step s (is ++ js) = cycles step s is ++ cycles step (run step s is) js := by
  induction is generalizing s with
  | nil => rfl
  | cons i is ih => rw [List.cons_append, cycles, cycles, ih]; rfl

theorem cycles_length (s : σ) (is : List ι) : (cycles step s is).length = is.length := by
  induction is generalizing s with
  | nil => rfl
  | cons i is ih => rw [cycles, List.length_cons, ih, List.length_cons]

theorem observed_append (s : σ) (is js : List ι) :
    observed step obs s (is ++ js) =
      observed step obs s is ++ observed step obs (run step s is) js := by
  rw [observed, cycles_append, List.filterMap_append]; rfl

theorem observed_snoc (s : σ) (is : List ι) (i : ι) :
    observed step obs s (is ++ [i]) =
      observed step obs s is ++ (obs (run step s is, i)).toList := by
  rw [observed_append]
  refine congrArg _ ?_
  rw [observed, cycles, cycles, List.filterMap_cons]
  cases obs (run step s is, i) <;> rfl

theorem mem_cycles_snoc (s : σ) (is : List ι) (i : ι) :
    (run step s is, i) ∈ cycles step s (is ++ [i]) := by
  rw [cycles_append]
  exact List.mem_append_right _ (List.mem_cons_self ..)

variable {step}

/-- The input of a step of a run is one of the run's inputs. -/
theorem mem_of_mem_cycles {s : σ} {is : List ι} {c : σ × ι} (h : c ∈ cycles step s is) :
    c.2 ∈ is := by
  induction is generalizing s with
  | nil => cases h
  | cons i is ih =>
    rcases List.mem_cons.mp h with rfl | h
    · exact List.mem_cons_self ..
    · exact List.mem_cons_of_mem _ (ih h)

/-- The state of a step of a run is reached by some of the run's inputs. -/
theorem exists_run_of_mem_cycles {s : σ} {is : List ι} {c : σ × ι} (h : c ∈ cycles step s is) :
    ∃ js, run step s js = c.1 := by
  induction is generalizing s with
  | nil => cases h
  | cons i is ih =>
    rcases List.mem_cons.mp h with rfl | h
    · exact ⟨[], rfl⟩
    · obtain ⟨js, hjs⟩ := ih h
      exact ⟨i :: js, hjs⟩

/-- **Induction on a run**, one step at a time, under a condition `P` on every step. -/
theorem run_induct {P : σ × ι → Prop} {motive : List ι → σ → Prop} {s : σ}
    (base : motive [] s)
    (next : ∀ is i, motive is (run step s is) → P (run step s is, i) →
      motive (is ++ [i]) (step (run step s is) i))
    (is : List ι) (hok : ∀ c ∈ cycles step s is, P c) : motive is (run step s is) := by
  induction is using List.reverseRecOn with
  | nil => exact base
  | append_singleton is i ih =>
    rw [run_snoc]
    refine next is i (ih fun c hc => hok c ?_) (hok _ (mem_cycles_snoc step s is i))
    rw [cycles_append]
    exact List.mem_append_left _ hc

/-- An invariant kept by every admitted step holds throughout. -/
theorem run_invariant {P : σ × ι → Prop} {I : σ → Prop} {s : σ} (base : I s)
    (next : ∀ t i, I t → P (t, i) → I (step t i))
    (is : List ι) (hok : ∀ c ∈ cycles step s is, P c) : I (run step s is) :=
  run_induct (motive := fun _ t => I t) base (fun _ _ h ho => next _ _ h ho) is hok

/-- Such an invariant holds before every step of the run. -/
theorem cycles_invariant {P : σ × ι → Prop} {I : σ → Prop} {s : σ} (base : I s)
    (next : ∀ t i, I t → P (t, i) → I (step t i))
    (is : List ι) (hok : ∀ c ∈ cycles step s is, P c) : ∀ c ∈ cycles step s is, I c.1 := by
  induction is generalizing s with
  | nil => exact fun c hc => by cases hc
  | cons i is ih =>
    have hnext := next s i base (hok _ (List.mem_cons_self ..))
    intro c hc
    rcases List.mem_cons.mp hc with rfl | hc
    · exact base
    · exact ih hnext (fun c hc => hok c (List.mem_cons_of_mem _ hc)) c hc

/-- A property that a step from `I` to any state keeps exactly under `P` holds throughout a run
exactly when every step of the run meets `P`. -/
theorem run_invariant_iff {P : σ × ι → Prop} {I G : σ → Prop} {s : σ} (base : I s) (hG : G s)
    (next : ∀ t i, I t → I (step t i)) (keep : ∀ t i, I t → G t → (G (step t i) ↔ P (t, i)))
    (is : List ι) :
    (∀ js, js <+: is → G (run step s js)) ↔ ∀ c ∈ cycles step s is, P c := by
  induction is using List.reverseRecOn with
  | nil =>
    refine iff_of_true (fun js hjs => ?_) fun c hc => by cases hc
    rw [List.prefix_nil.mp hjs]
    exact hG
  | append_singleton is i ih =>
    have hI : I (run step s is) :=
      run_invariant (P := fun _ => True) base (fun t j ht _ => next t j ht) is fun _ _ => trivial
    have hlast : cycles step s (is ++ [i]) = cycles step s is ++ [(run step s is, i)] :=
      cycles_append step s is [i]
    simp only [List.prefix_concat_iff, or_imp, forall_and, forall_eq, run_snoc, hlast,
      List.forall_mem_append, List.forall_mem_singleton]
    constructor
    · rintro ⟨hnew, hold⟩
      exact ⟨ih.mp hold, (keep _ i hI (hold is List.prefix_rfl)).mp hnew⟩
    · rintro ⟨hold, hnew⟩
      have hold' := ih.mpr hold
      exact ⟨(keep _ i hI (hold' is List.prefix_rfl)).mpr hnew, hold'⟩

/-- **Progress.**  While one input keeps `I` and lowers a rank short of the goal, repeating it reaches
the goal. -/
theorem exists_run_replicate {I G : σ → Prop} (rank : σ → ℕ) {i : ι}
    (next : ∀ s, I s → ¬ G s → I (step s i) ∧ rank (step s i) < rank s) {s : σ} (h : I s) :
    ∃ n, I (run step s (List.replicate n i)) ∧ G (run step s (List.replicate n i)) ∧
      ∀ c ∈ cycles step s (List.replicate n i), I c.1 ∧ ¬ G c.1 ∧ c.2 = i := by
  induction hr : rank s using Nat.strong_induction_on generalizing s with
  | _ r ih =>
    by_cases hg : G s
    · exact ⟨0, h, hg, fun c hc => by cases hc⟩
    · obtain ⟨hI, hlt⟩ := next s h hg
      obtain ⟨n, hn, hG, hall⟩ := ih _ (hr ▸ hlt) hI rfl
      refine ⟨n + 1, hn, hG, fun c hc => ?_⟩
      rcases List.mem_cons.mp hc with rfl | hc
      · exact ⟨h, hg, rfl⟩
      · exact hall c hc

/-- **Progress under any inputs.**  While every input keeps `I` and lowers a rank short of the goal, the
goal is reached, whatever the inputs are. -/
theorem exists_run_range {I G : σ → Prop} (rank : σ → ℕ)
    (next : ∀ s i, I s → ¬ G s → I (step s i) ∧ rank (step s i) < rank s) {s : σ} (h : I s)
    (is : ℕ → ι) : ∃ n ≤ rank s, G (run step s ((List.range n).map is)) := by
  induction hr : rank s using Nat.strong_induction_on generalizing s is with
  | _ r ih =>
    by_cases hg : G s
    · exact ⟨0, Nat.zero_le _, hg⟩
    · obtain ⟨hI, hlt⟩ := next s (is 0) h hg
      obtain ⟨n, hn, hG⟩ := ih _ (hr ▸ hlt) hI (fun k => is (k + 1)) rfl
      refine ⟨n + 1, by omega, ?_⟩
      rw [List.range_succ_eq_map, List.map_cons, run_cons, List.map_map]
      exact hG

/-- **Two runs side by side.**  Where each input of one run takes the same step and shows the same as
the input of the other run at its place, both runs show the same. -/
theorem observed_eq_of_alike {R : σ × ι → ι → Prop} {obs : σ × ι → Option α}
    (hstep : ∀ s i j, R (s, i) j → step s i = step s j)
    (hobs : ∀ s i j, R (s, i) j → obs (s, i) = obs (s, j)) {s : σ} {is js : List ι}
    (h : List.Forall₂ R (cycles step s is) js) :
    observed step obs s is = observed step obs s js := by
  induction is generalizing s js with
  | nil =>
    cases h
    rfl
  | cons i is ih =>
    cases h with
    | cons hR h =>
      rename_i j js
      have htail : observed step obs (step s i) is = observed step obs (step s i) js := ih h
      rw [hstep s i j hR] at htail
      rw [observed, observed, cycles, cycles, List.filterMap_cons, List.filterMap_cons,
        hobs s i j hR, hstep s i j hR]
      cases obs (s, j) with
      | none => exact htail
      | some a => exact congrArg (a :: ·) htail

end

/-! ### Maps between machines -/

section

variable {τ κ : Type*} {step : σ → ι → σ} {step' : τ → κ → τ} {f : σ → τ} {g : ι → κ}

/-- A map that commutes with every step commutes with every run. -/
theorem run_map (h : ∀ s i, step' (f s) (g i) = f (step s i)) (s : σ) (is : List ι) :
    run step' (f s) (is.map g) = f (run step s is) := by
  induction is generalizing s with
  | nil => rfl
  | cons i is ih => rw [List.map_cons, run_cons, run_cons, h, ih]

theorem cycles_map (h : ∀ s i, step' (f s) (g i) = f (step s i)) (s : σ) (is : List ι) :
    cycles step' (f s) (is.map g) = (cycles step s is).map (Prod.map f g) := by
  induction is generalizing s with
  | nil => rfl
  | cons i is ih => rw [List.map_cons, cycles, cycles, h, ih]; rfl

end

/-! ### Specifications -/

section

variable {ε τ : Type*}

/-- A run of a labelled relation from `s`, with the events it shows. -/
inductive Trace (Step : τ → Option ε → τ → Prop) (s : τ) : List ε → τ → Prop where
  | nil : Trace Step s [] s
  | snoc {es : List ε} {t u : τ} {e : Option ε} :
      Trace Step s es t → Step t e u → Trace Step s (es ++ e.toList) u

/-- An invariant of states and past events that every step keeps holds throughout. -/
theorem Trace.invariant {Step : τ → Option ε → τ → Prop} {s : τ} {I : List ε → τ → Prop}
    (base : I [] s)
    (next : ∀ es t e u, I es t → Step t e u → I (es ++ e.toList) u)
    {es : List ε} {t : τ} (h : Trace Step s es t) : I es t := by
  induction h with
  | nil => exact base
  | snoc _ hs ih => exact next _ _ _ _ ih hs

/-- **Simulation.**  Where every step of a machine is matched by a step of the relation that shows
the same event, up to `f`, or shows nothing and stutters, every run is matched by a trace.  The match
of a step may use that `P` holds of the events so far, which the run is required to keep. -/
theorem trace_of_run {step : σ → ι → σ} {obs : σ × ι → Option α} {s : σ}
    {Step : τ → Option ε → τ → Prop} {t : τ} {rel : σ → τ → Prop} {f : ε → α}
    {P : List α → Prop} (hok : ∀ as bs, P (as ++ bs) → P as) (base : rel s t)
    (next : ∀ es c i a, Trace Step t es a → P (es.map f) → rel c a →
      (∃ e a', Step a e a' ∧ obs (c, i) = e.map f ∧ rel (step c i) a') ∨
        (obs (c, i) = none ∧ rel (step c i) a))
    (is : List ι) (h : P (observed step obs s is)) :
    ∃ es a, Trace Step t es a ∧ observed step obs s is = es.map f ∧ rel (run step s is) a := by
  induction is using List.reverseRecOn with
  | nil => exact ⟨[], t, .nil, rfl, base⟩
  | append_singleton is i ih =>
    rw [observed_snoc] at h
    obtain ⟨es, a, htrace, hes, hrel⟩ := ih (hok _ _ h)
    rw [run_snoc, observed_snoc]
    rcases next es _ i a htrace (hes ▸ hok _ _ h) hrel with
      ⟨e, a', hstep, he, hrel'⟩ | ⟨he, hrel'⟩
    · refine ⟨es ++ e.toList, a', htrace.snoc hstep, ?_, hrel'⟩
      rw [hes, he, List.map_append]
      cases e <;> rfl
    · exact ⟨es, a, htrace, by rw [hes, he]; exact List.append_nil _, hrel'⟩

end

end FtjSsdSim.Library
