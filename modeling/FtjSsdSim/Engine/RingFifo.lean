import Mathlib
import FtjSsdSim.Library.BoundedFifo
import FtjSsdSim.Engine.RingBuffer

/-!
# The ring buffer as a bounded queue

`LockFreeRingBuffer` with one caller: each call of `Push` or `Pop` runs to its end before the next
one starts.

* `construct_eq` — the constructor's size is the least power of two that is large enough;
* `returns_push`, `returns_pop` — a call on a buffer that holds a queue answers as the queue does;
* `serves_iff_safe` — it goes wrong in exactly three cases (`SafeCall`): a push into the full buffer
  of one cell, and the two calls whose signed difference overflows;
* `ring_buffer_fifo_iff` — the sizes and sequences of calls for which the buffer is a bounded queue.
-/

namespace FtjSsdSim.Engine.RingBuffer

open FtjSsdSim.Library FtjSsdSim.Library.TicketRing

variable {T : Type*}

/-! ### Calls one after the other -/

/-- What a call returns. -/
inductive Outcome (T : Type*) where
  | refused
  | pushed
  | popped (v : T)
  deriving DecidableEq, Repr

/-- The outcome that an event of the thread ends its call with. -/
def outcome : Event Size T → Option (Outcome T)
  | .refused _ => some .refused
  | .done .push _ _ => some .pushed
  | .done .pop _ v => some (.popped v)
  | _ => none

/-- The next action is a compare-exchange. -/
def isCas : Phase Size T → Bool
  | .cas _ _ => true
  | _ => false

/-- The actions of the one thread up to the end of its call, at most `fuel` of them; the first
`failures` compare-exchanges fail for no reason. -/
def perform : ℕ → ℕ → State Unit T → Option (Outcome T × State Unit T)
  | 0, _, _ => none
  | fuel + 1, failures, s =>
    let spurious := isCas (s.phase ()) && decide (0 < failures)
    let r := action s () spurious
    match r.2.bind fun e => outcome e.2 with
    | some o => some (o, r.1)
    | none => perform fuel (if spurious then failures - 1 else failures) r.1

/-- The call returns `o` and leaves `s'`, however often a compare-exchange fails for no reason. -/
def Returns (s : State Unit T) (op : Op T) (o : Outcome T) (s' : State Unit T) : Prop :=
  ∀ failures, ∃ fuel, perform fuel failures (next s (.call () op)) = some (o, s')

/-- The calls `ops`, one after the other, all return, with the outcomes `os`. -/
def Serves (s : State Unit T) : List (Op T) → List (Outcome T) → Prop
  | [], os => os = []
  | op :: ops, os => ∃ o s' os', os = o :: os' ∧ Returns s op o s' ∧ Serves s' ops os'

/-! ### The queue -/

/-- A call on the queue. -/
def fifoNext (C : ℕ) (f : Fifo T) : Op T → Outcome T × Fifo T
  | .push v =>
    match f.push C v with
    | none => (.refused, f)
    | some f' => (.pushed, f')
  | .pop =>
    match f.pop with
    | none => (.refused, f)
    | some (v, f') => (.popped v, f')

/-- The outcomes of calls on the queue. -/
def fifoOutcomes (C : ℕ) : Fifo T → List (Op T) → List (Outcome T)
  | _, [] => []
  | f, op :: ops => (fifoNext C f op).1 :: fifoOutcomes C (fifoNext C f op).2 ops

/-- The buffer is a bounded queue for these calls: its constructor ends, every call returns, and with
the outcome of the queue of `C` items, `C` the least power of two that is not below `bufferSize`. -/
def RefinesFifo (bufferSize : Size) (junk : Size → T) (ops : List (Op T)) : Prop :=
  ∃ s, construct bufferSize junk = some s ∧
    Serves s ops (fifoOutcomes (2 ^ Nat.clog 2 bufferSize.toNat) (Fifo.empty T) ops)

/-- The call is not one of those that go wrong:
* a push into a full buffer needs two cells, and the positions of the oldest item and of the push
  must not lie on both sides of `2^63`;
* a pop from an empty buffer must not be at position `2^63 - 1`. -/
def SafeCall (C : ℕ) (f : Fifo T) : Op T → Prop
  | .push _ => f.items.length = C →
      C ≠ 1 ∧ ¬ ((f.taken + 1) % 2 ^ 64 < 2 ^ 63 ∧ 2 ^ 63 ≤ (f.taken + C) % 2 ^ 64)
  | .pop => f.items.length = 0 → f.taken % 2 ^ 64 ≠ 2 ^ 63 - 1

instance (C : ℕ) (f : Fifo T) (op : Op T) : Decidable (SafeCall C f op) :=
  match op with
  | .push _ => inferInstanceAs (Decidable (_ → _ ∧ ¬ _))
  | .pop => inferInstanceAs (Decidable (_ → _))

/-- Every call is safe on the queue it meets. -/
def SafeCalls (C : ℕ) : Fifo T → List (Op T) → Prop
  | _, [] => True
  | f, op :: ops => SafeCall C f op ∧ SafeCalls C (fifoNext C f op).2 ops

def decideSafeCalls (C : ℕ) : (f : Fifo T) → (ops : List (Op T)) → Decidable (SafeCalls C f ops)
  | _, [] => inferInstanceAs (Decidable True)
  | f, op :: ops =>
    have := decideSafeCalls C (fifoNext C f op).2 ops
    inferInstanceAs (Decidable (_ ∧ _))

instance (C : ℕ) (f : Fifo T) (ops : List (Op T)) : Decidable (SafeCalls C f ops) :=
  decideSafeCalls C f ops

/-! ### The constructor -/

theorem twoPow_shift (j : ℕ) : BitVec.twoPow 64 j <<< 1 = BitVec.twoPow 64 (j + 1) := by
  rw [BitVec.twoPow_eq, BitVec.twoPow_eq, ← BitVec.shiftLeft_add]

/-- The loop of the constructor stops at the first power of two that is large enough. -/
theorem roundUp_eq {bufferSize : Size} {k : ℕ} (hk : k < 64) (hle : bufferSize.toNat ≤ 2 ^ k)
    (hlt : ∀ j < k, 2 ^ j < bufferSize.toNat) (n : ℕ) (j : ℕ) (hj : j ≤ k) (hn : k < j + n) :
    roundUp bufferSize n (BitVec.twoPow 64 j) = some (BitVec.twoPow 64 k) := by
  induction n generalizing j with
  | zero => omega
  | succ n ih =>
    have hval : (BitVec.twoPow 64 j).toNat = 2 ^ j := BitVec.toNat_twoPow_of_lt (by omega)
    rw [roundUp]
    by_cases hjk : j = k
    · rw [if_neg, hjk]
      rw [BitVec.lt_def, hval, hjk]
      omega
    · rw [if_pos, twoPow_shift]
      · exact ih (j + 1) (by omega) (by omega)
      · rw [BitVec.lt_def, hval]
        exact hlt j (by omega)

/-- Above `2^63` no power of two is large enough, and the loop does not end. -/
theorem roundUp_none {bufferSize : Size} (h : 2 ^ 63 < bufferSize.toNat) (n j : ℕ) :
    roundUp bufferSize n (BitVec.twoPow 64 j) = none := by
  induction n generalizing j with
  | zero => rfl
  | succ n ih =>
    rw [roundUp, if_pos, twoPow_shift]
    · exact ih (j + 1)
    · rw [BitVec.lt_def, BitVec.toNat_twoPow_eq_ite]
      split_ifs with hj
      · exact (Nat.pow_le_pow_right (by omega) (by omega : j ≤ 63)).trans_lt h
      · omega

/-- The test of the constructor is true of the powers of two. -/
theorem and_pred_eq_zero {bufferSize : Size} (h0 : bufferSize ≠ 0)
    (h : bufferSize &&& (bufferSize - 1) = 0) :
    bufferSize = BitVec.twoPow 64 (Nat.clog 2 bufferSize.toNat) := by
  have hpos : bufferSize.toNat ≠ 0 := fun hz => h0 (BitVec.eq_of_toNat_eq hz)
  have hpred : (bufferSize - 1).toNat = bufferSize.toNat - 1 := by
    have := bufferSize.isLt
    rw [BitVec.toNat_sub]
    show (2 ^ 64 - 1 + bufferSize.toNat) % 2 ^ 64 = _
    omega
  have hand : bufferSize.toNat &&& (bufferSize.toNat - 1) = 0 := by
    rw [← hpred, ← BitVec.toNat_and, h]
    rfl
  obtain ⟨j, hj⟩ := (Nat.and_sub_one_eq_zero_iff_isPowerOfTwo hpos).mp hand
  have hj64 : j < 64 := by
    have := bufferSize.isLt
    rw [hj] at this
    exact (Nat.pow_lt_pow_iff_right (by omega)).mp this
  refine BitVec.eq_of_toNat_eq ?_
  rw [hj, Nat.clog_pow 2 j (by omega), BitVec.toNat_twoPow_of_lt hj64]

/-- **The size of the buffer.** -/
theorem construct_eq {bufferSize : Size} (h0 : bufferSize ≠ 0) (h : bufferSize.toNat ≤ 2 ^ 63)
    (junk : Size → T) : construct bufferSize junk =
      some (fresh (BitVec.twoPow 64 (Nat.clog 2 bufferSize.toNat)) junk : State Unit T) := by
  rw [construct]
  split_ifs with hpow
  · have hk : Nat.clog 2 bufferSize.toNat ≤ 63 := (Nat.clog_le_iff_le_pow (by omega)).mpr h
    have hone : (1 : Size) = BitVec.twoPow 64 0 := rfl
    rw [hone, roundUp_eq (by omega) (Nat.le_pow_clog (by omega) _)
      (fun j hj => (Nat.lt_clog_iff_pow_lt (by omega)).mp hj) 66 0 (Nat.zero_le _) (by omega)]
    rfl
  · rw [← and_pred_eq_zero h0 (not_not.mp hpow)]

theorem construct_none {bufferSize : Size} (h : 2 ^ 63 < bufferSize.toNat) (junk : Size → T) :
    (construct bufferSize junk : Option (State Unit T)) = none := by
  have h0 : bufferSize ≠ 0 := fun hz => by rw [hz] at h; exact absurd h (by decide)
  rw [construct, if_pos]
  · have hone : (1 : Size) = BitVec.twoPow 64 0 := rfl
    rw [hone, roundUp_none h]
    rfl
  · intro hpow
    have hlt := bufferSize.isLt
    rw [and_pred_eq_zero h0 hpow, BitVec.toNat_twoPow_eq_ite] at h
    split_ifs at h with hk
    · exact absurd ((Nat.pow_lt_pow_iff_right (by omega)).mp h) (by omega)
    · omega

/-! ### How a call runs -/

@[simp] theorem State.setPhase_setPhase (s : State Unit T) (p q : Phase Size T) :
    (s.setPhase () p).setPhase () q = s.setPhase () q := by
  simp [State.setPhase]

@[simp] theorem State.setPhase_phase (s : State Unit T) (p : Phase Size T) :
    (s.setPhase () p).phase () = p := by
  simp [State.setPhase]

/-- The signed difference that a call compares with zero. -/
def dif (s : State Unit T) : Op T → ℤ
  | .push _ => (s.sequence (s.enqueuePos &&& s.bufferMask)).toInt - s.enqueuePos.toInt
  | .pop => (s.sequence (s.dequeuePos &&& s.bufferMask)).toInt - (s.dequeuePos + 1).toInt

/-- The position a call works at. -/
def position (s : State Unit T) : Op T → Size
  | .push _ => s.enqueuePos
  | .pop => s.dequeuePos

/-- The buffer after a push of `v`. -/
def pushed (s : State Unit T) (v : T) : State Unit T :=
  { s with
    enqueuePos := s.enqueuePos + 1
    data := Function.update s.data (s.enqueuePos &&& s.bufferMask) v
    sequence := Function.update s.sequence (s.enqueuePos &&& s.bufferMask) (s.enqueuePos + 1) }

/-- The buffer after a pop. -/
def popped (s : State Unit T) : State Unit T :=
  { s with
    dequeuePos := s.dequeuePos + 1
    sequence :=
      Function.update s.sequence (s.dequeuePos &&& s.bufferMask) (s.dequeuePos + s.size) }

theorem next_call {s : State Unit T} (h : s.phase () = .idle) (op : Op T) :
    next s (.call () op) = s.setPhase () (.load op) := by
  simp only [next, step, h]

theorem action_load (s : State Unit T) (op : Op T) (spurious : Bool) :
    action (s.setPhase () (.load op)) () spurious =
      (s.setPhase () (.check op (position s op)), none) := by
  cases op <;> simp [action, position] <;> rfl

theorem action_check (s : State Unit T) (op : Op T) (spurious : Bool) :
    action (s.setPhase () (.check op (position s op))) () spurious =
      if dif s op = 0 then (s.setPhase () (.cas op (position s op)), none)
      else if dif s op < 0 then (s.setPhase () .idle, some ((), .refused op))
      else (s.setPhase () (.load op), none) := by
  cases op <;> simp [action, position, dif] <;> rfl

/-- A compare-exchange that fails for no reason leads back to the check. -/
theorem action_cas_spurious (s : State Unit T) (op : Op T) :
    action (s.setPhase () (.cas op (position s op))) () true =
      (s.setPhase () (.check op (position s op)), none) := by
  cases op <;> simp [action, position] <;> rfl

/-- The actions after the check, with any number of compare-exchanges that fail for no reason. -/
theorem perform_ready {s : State Unit T} {op : Op T} {o : Outcome T} {s' : State Unit T}
    (h : dif s op = 0)
    (hwin : ∃ fuel, perform fuel 0 (s.setPhase () (.cas op (position s op))) = some (o, s'))
    (failures : ℕ) :
    ∃ fuel, perform fuel failures (s.setPhase () (.check op (position s op))) = some (o, s') := by
  obtain ⟨fuel, hfuel⟩ := hwin
  induction failures with
  | zero =>
    refine ⟨fuel + 1, ?_⟩
    rw [perform]
    simp only [action_check, if_pos h, State.setPhase_phase, isCas, Bool.false_and, Option.bind_none,
      Bool.false_eq_true, if_false]
    exact hfuel
  | succ failures ih =>
    obtain ⟨fuel', hfuel'⟩ := ih
    refine ⟨fuel' + 2, ?_⟩
    rw [perform]
    simp only [action_check, if_pos h, State.setPhase_phase, isCas, Bool.false_and, Option.bind_none,
      Bool.false_eq_true, if_false]
    rw [perform]
    simp only [State.setPhase_phase, isCas, Bool.true_and, Nat.zero_lt_succ, decide_true,
      action_cas_spurious, Option.bind_none, if_true]
    exact hfuel'

theorem perform_push_win (s : State Unit T) (v : T) :
    perform 3 0 (s.setPhase () (.cas (.push v) s.enqueuePos)) =
      some (.pushed, (pushed s v).setPhase () .idle) := by
  simp [perform, action, isCas, outcome, State.setPhase, pushed]

theorem perform_pop_win (s : State Unit T) :
    perform 3 0 (s.setPhase () (.cas .pop s.dequeuePos)) =
      some (.popped (s.data (s.dequeuePos &&& s.bufferMask)), (popped s).setPhase () .idle) := by
  simp [perform, action, isCas, outcome, State.setPhase, popped]

/-- The first action of a call. -/
theorem perform_load (s : State Unit T) (op : Op T) (fuel failures : ℕ) :
    perform (fuel + 1) failures (s.setPhase () (.load op)) =
      perform fuel failures (s.setPhase () (.check op (position s op))) := by
  rw [perform]
  simp only [action_load, State.setPhase_phase, isCas, Bool.false_and, Option.bind_none,
    Bool.false_eq_true, if_false]

/-- **A difference of zero**: the call takes the position it has read. -/
theorem returns_ready {s : State Unit T} (hidle : s.phase () = .idle) {op : Op T} {o : Outcome T}
    {s' : State Unit T} (h : dif s op = 0)
    (hwin : ∃ fuel, perform fuel 0 (s.setPhase () (.cas op (position s op))) = some (o, s')) :
    Returns s op o s' := by
  intro failures
  obtain ⟨fuel, hfuel⟩ := perform_ready h hwin failures
  exact ⟨fuel + 1, by rw [next_call hidle, perform_load, hfuel]⟩

/-- **A negative difference**: the call gives up. -/
theorem returns_refused {s : State Unit T} (hidle : s.phase () = .idle) {op : Op T}
    (h : dif s op < 0) : Returns s op .refused (s.setPhase () .idle) := by
  intro failures
  refine ⟨2, ?_⟩
  rw [next_call hidle, perform_load, perform]
  simp only [action_check, if_neg h.ne, if_pos h, Option.bind_some, outcome]

/-- **A positive difference**: the call reads the same position again and again. -/
theorem perform_stuck {s : State Unit T} {op : Op T} (h : 0 < dif s op) (fuel failures : ℕ) :
    perform fuel failures (s.setPhase () (.load op)) = none ∧
      perform fuel failures (s.setPhase () (.check op (position s op))) = none := by
  induction fuel generalizing failures with
  | zero => exact ⟨rfl, rfl⟩
  | succ fuel ih =>
    refine ⟨by rw [perform_load]; exact (ih failures).2, ?_⟩
    rw [perform]
    simp only [action_check, if_neg h.ne', if_neg h.not_gt, State.setPhase_phase, isCas,
      Bool.false_and, Option.bind_none, Bool.false_eq_true, if_false]
    exact (ih failures).1

theorem not_returns_stuck {s : State Unit T} (hidle : s.phase () = .idle) {op : Op T}
    (h : 0 < dif s op) (o : Outcome T) (s' : State Unit T) : ¬ Returns s op o s' := by
  intro hr
  obtain ⟨fuel, hfuel⟩ := hr 0
  rw [next_call hidle, (perform_stuck h fuel 0).1] at hfuel
  cases hfuel

/-- More fuel changes nothing. -/
theorem perform_mono {fuel failures : ℕ} {s : State Unit T} {r : Outcome T × State Unit T}
    (h : perform fuel failures s = some r) (n : ℕ) : perform (fuel + n) failures s = some r := by
  induction fuel generalizing failures s with
  | zero => cases h
  | succ fuel ih =>
    rw [show fuel + 1 + n = fuel + n + 1 by omega, perform]
    rw [perform] at h
    generalize (action s () (isCas (s.phase ()) && decide (0 < failures))).2.bind
      (fun e => outcome e.2) = o at h ⊢
    cases o with
    | some o => exact h
    | none => exact ih h

/-- A call returns one outcome and leaves one state. -/
theorem Returns.unique {s : State Unit T} {op : Op T} {o o' : Outcome T} {s₁ s₂ : State Unit T}
    (h : Returns s op o s₁) (h' : Returns s op o' s₂) : o = o' ∧ s₁ = s₂ := by
  obtain ⟨m, hm⟩ := h 0
  obtain ⟨n, hn⟩ := h' 0
  have heq := (perform_mono hm n).symm.trans (Nat.add_comm n m ▸ perform_mono hn m)
  exact Prod.mk.inj (Option.some.inj heq)

/-! ### The buffer holds a queue -/

/-- The cell of ticket `p` in a buffer of `2^k` cells. -/
def cell (k p : ℕ) : Size := BitVec.ofNat 64 p &&& (BitVec.twoPow 64 k - 1)

/-- Between calls: the positions count the pushes and the pops, the cell of every item is ready to be
popped, and the other cells are ready for the pushes to come. -/
structure Holds (k : ℕ) (s : State Unit T) (f : Fifo T) : Prop where
  size : s.size = BitVec.twoPow 64 k
  mask : s.bufferMask = BitVec.twoPow 64 k - 1
  idle : s.phase () = .idle
  enqueuePos : s.enqueuePos = BitVec.ofNat 64 f.pushed
  dequeuePos : s.dequeuePos = BitVec.ofNat 64 f.taken
  length_le : f.items.length ≤ 2 ^ k
  full : ∀ i v, f.items[i]? = some v →
    s.sequence (cell k (f.taken + i)) = BitVec.ofNat 64 (f.taken + i + 1) ∧
      s.data (cell k (f.taken + i)) = v
  free : ∀ i, f.items.length ≤ i → i < 2 ^ k →
    s.sequence (cell k (f.taken + i)) = BitVec.ofNat 64 (f.taken + i)

variable {k : ℕ} {s : State Unit T} {f : Fifo T}

theorem cell_inj (hk : k < 64) {p q : ℕ} : cell k p = cell k q ↔ p % 2 ^ k = q % 2 ^ k := by
  rw [cell, cell, ← BitVec.toNat_inj, toNat_and_mask hk, toNat_and_mask hk]

/-- Tickets less than a lap apart have different cells. -/
theorem cell_ne (hk : k < 64) {t i j : ℕ} (hi : i < 2 ^ k) (hj : j < 2 ^ k) (hne : i ≠ j) :
    cell k (t + i) ≠ cell k (t + j) := by
  rw [Ne, cell_inj hk]
  intro h
  have hij : i % 2 ^ k = j % 2 ^ k := Nat.ModEq.add_left_cancel' t h
  rw [Nat.mod_eq_of_lt hi, Nat.mod_eq_of_lt hj] at hij
  exact hne hij

theorem cell_lap (hk : k < 64) (p : ℕ) : cell k (p + 2 ^ k) = cell k p := by
  rw [cell_inj hk, Nat.add_mod_right]

theorem ofNat_succ (p : ℕ) : BitVec.ofNat 64 p + 1 = BitVec.ofNat 64 (p + 1) :=
  (BitVec.ofNat_add p 1).symm

theorem Holds.push_cell (h : Holds k s f) :
    s.enqueuePos &&& s.bufferMask = cell k (f.taken + f.items.length) := by
  rw [h.enqueuePos, h.mask, cell, Fifo.pushed]

theorem Holds.pop_cell (h : Holds k s f) :
    s.dequeuePos &&& s.bufferMask = cell k (f.taken + 0) := by
  rw [h.dequeuePos, h.mask, cell, Nat.add_zero]

/-- A push that is taken. -/
theorem Holds.pushed (h : Holds k s f) (hk : k < 64) (hroom : f.items.length ≠ 2 ^ k) (v : T) :
    Holds k ((pushed s v).setPhase () .idle) { f with items := f.items ++ [v] } where
  size := h.size
  mask := h.mask
  idle := State.setPhase_phase ..
  enqueuePos := by
    show s.enqueuePos + 1 = _
    rw [h.enqueuePos, ofNat_succ, Fifo.pushed, Fifo.pushed, List.length_append,
      List.length_singleton, Nat.add_assoc]
  dequeuePos := h.dequeuePos
  length_le := Fifo.push_length_le h.length_le (Fifo.push_room hroom v)
  full i w hi := by
    have hle := h.length_le
    show Function.update s.sequence _ _ _ = _ ∧ Function.update s.data _ _ _ = _
    rw [h.push_cell]
    by_cases hlast : i = f.items.length
    · subst hlast
      rw [Function.update_self, Function.update_self, h.enqueuePos, ofNat_succ]
      rw [List.getElem?_concat_length] at hi
      exact ⟨rfl, Option.some.inj hi⟩
    · have hlt : i < f.items.length := by
        have := (List.getElem?_eq_some_iff.mp hi).1
        rw [List.length_append, List.length_singleton] at this
        omega
      rw [List.getElem?_append_left hlt] at hi
      have hne := cell_ne hk (t := f.taken) (by omega) (by omega) hlast
      rw [Function.update_of_ne hne, Function.update_of_ne hne]
      exact h.full i w hi
  free i hlo hhi := by
    rw [List.length_append, List.length_singleton] at hlo
    show Function.update s.sequence _ _ _ = _
    rw [h.push_cell, Function.update_of_ne (cell_ne hk (by omega) (by omega) (by omega))]
    exact h.free i (by omega) hhi

/-- A pop that is taken. -/
theorem Holds.popped (h : Holds k s f) (hk : k < 64) {v : T} {items : List T}
    (hitems : f.items = v :: items) :
    Holds k ((popped s).setPhase () .idle) ⟨f.taken + 1, items⟩ where
  size := h.size
  mask := h.mask
  idle := State.setPhase_phase ..
  enqueuePos := by
    show s.enqueuePos = _
    rw [h.enqueuePos, Fifo.pushed, Fifo.pushed, hitems, List.length_cons, Nat.add_right_comm]
    rfl
  dequeuePos := by
    show s.dequeuePos + 1 = _
    rw [h.dequeuePos, ofNat_succ]
  length_le := Fifo.pop_length_le h.length_le (Fifo.pop_cons hitems)
  full i w hi := by
    have hlen := h.length_le
    rw [hitems, List.length_cons] at hlen
    have hlt : i < items.length := (List.getElem?_eq_some_iff.mp hi).1
    show Function.update s.sequence _ _ _ = _ ∧ s.data _ = _
    rw [h.pop_cell, Nat.add_right_comm, Nat.add_assoc,
      Function.update_of_ne (cell_ne hk (by omega) (by omega) (by omega))]
    exact h.full (i + 1) w (by rw [hitems]; exact hi)
  free i hlo hhi := by
    show Function.update s.sequence _ _ _ = _
    have hlen := h.length_le
    have hge : items.length ≤ i := hlo
    rw [hitems, List.length_cons] at hlen
    rw [h.pop_cell, Nat.add_right_comm, Nat.add_assoc]
    by_cases hlast : i + 1 = 2 ^ k
    · -- the cell of the item that left is ready one lap later
      rw [hlast, cell_lap hk, Nat.add_zero, Function.update_self, h.dequeuePos, h.size,
        BitVec.ofNat_add]
      refine congrArg _ (BitVec.eq_of_toNat_eq ?_)
      rw [BitVec.toNat_twoPow, BitVec.toNat_ofNat]
    · rw [Function.update_of_ne (cell_ne hk (by omega) (by omega) (by omega))]
      exact h.free (i + 1) (by rw [hitems, List.length_cons]; omega) (by omega)

theorem holds_fresh (hk : k < 64) (junk : Size → T) :
    Holds k (fresh (BitVec.twoPow 64 k) junk : State Unit T) (Fifo.empty T) where
  size := rfl
  mask := rfl
  idle := rfl
  enqueuePos := rfl
  dequeuePos := rfl
  length_le := Nat.zero_le _
  full i v hi := by cases hi
  free i _ hi := by
    refine BitVec.eq_of_toNat_eq ?_
    show (cell k (0 + i)).toNat = _
    rw [cell, toNat_and_mask hk, BitVec.toNat_ofNat]
    show (0 + i) % 2 ^ k = (0 + i) % 2 ^ 64
    rw [Nat.mod_eq_of_lt (by omega),
      Nat.mod_eq_of_lt (by have := Nat.pow_lt_pow_right (a := 2) (by omega) hk; omega)]

/-! ### The signed differences -/

theorem toInt_ofNat_eq (p : ℕ) : (BitVec.ofNat 64 p).toInt =
    if p % 2 ^ 64 < 2 ^ 63 then ((p % 2 ^ 64 : ℕ) : ℤ) else ((p % 2 ^ 64 : ℕ) : ℤ) - 2 ^ 64 := by
  rw [BitVec.toInt_eq_toNat_cond, BitVec.toNat_ofNat]
  exact if_congr (by omega) rfl rfl

theorem Holds.dif_push_room (h : Holds k s f) (hroom : f.items.length ≠ 2 ^ k) (v : T) :
    dif s (.push v) = 0 := by
  have hle := h.length_le
  rw [dif, h.push_cell, h.free _ le_rfl (by omega), h.enqueuePos, Fifo.pushed, sub_self]

theorem Holds.dif_push_full (h : Holds k s f) (hk : k < 64) (hfull : f.items.length = 2 ^ k)
    (v : T) : dif s (.push v) =
      (BitVec.ofNat 64 (f.taken + 1)).toInt - (BitVec.ofNat 64 (f.taken + 2 ^ k)).toInt := by
  have hpos := Nat.two_pow_pos k
  obtain ⟨w, hw⟩ : ∃ w, f.items[0]? = some w :=
    ⟨_, List.getElem?_eq_getElem (by omega)⟩
  rw [dif, h.push_cell, hfull, cell_lap hk, h.enqueuePos, Fifo.pushed, hfull]
  exact congrArg (fun x : Size => x.toInt - _) (h.full 0 w hw).1

theorem Holds.dif_pop_item (h : Holds k s f) {v : T} {items : List T}
    (hitems : f.items = v :: items) : dif s .pop = 0 := by
  have hseq := (h.full 0 v (by rw [hitems]; rfl)).1
  rw [dif, h.pop_cell, hseq, h.dequeuePos, ofNat_succ, Nat.add_zero, sub_self]

theorem Holds.dif_pop_empty (h : Holds k s f) (hempty : f.items.length = 0) :
    dif s .pop = (BitVec.ofNat 64 f.taken).toInt - (BitVec.ofNat 64 (f.taken + 1)).toInt := by
  rw [dif, h.pop_cell, h.free 0 hempty.le (Nat.two_pow_pos k), h.dequeuePos, ofNat_succ,
    Nat.add_zero]

/-- A full buffer of two cells or more refuses, unless the difference overflows. -/
theorem dif_full_neg_iff {t C : ℕ} (hC : 2 ≤ C) (hle : C ≤ 2 ^ 63) :
    ((BitVec.ofNat 64 (t + 1)).toInt - (BitVec.ofNat 64 (t + C)).toInt < 0 ↔
        ¬ ((t + 1) % 2 ^ 64 < 2 ^ 63 ∧ 2 ^ 63 ≤ (t + C) % 2 ^ 64)) ∧
      (BitVec.ofNat 64 (t + 1)).toInt - (BitVec.ofNat 64 (t + C)).toInt ≠ 0 := by
  rw [toInt_ofNat_eq, toInt_ofNat_eq]
  split_ifs <;> omega

theorem dif_empty_neg_iff (t : ℕ) :
    ((BitVec.ofNat 64 t).toInt - (BitVec.ofNat 64 (t + 1)).toInt < 0 ↔
        t % 2 ^ 64 ≠ 2 ^ 63 - 1) ∧
      (BitVec.ofNat 64 t).toInt - (BitVec.ofNat 64 (t + 1)).toInt ≠ 0 := by
  rw [toInt_ofNat_eq, toInt_ofNat_eq]
  split_ifs <;> omega

/-! ### Calls on a buffer that holds a queue -/

theorem fifoNext_push_room {C : ℕ} (h : f.items.length ≠ C) (v : T) :
    fifoNext C f (.push v) = (.pushed, { f with items := f.items ++ [v] }) := by
  rw [fifoNext, Fifo.push_room h]

theorem fifoNext_push_full {C : ℕ} (h : f.items.length = C) (v : T) :
    fifoNext C f (.push v) = (.refused, f) := by
  rw [fifoNext, Fifo.push_full h]

theorem fifoNext_pop_item (C : ℕ) {v : T} {items : List T} (h : f.items = v :: items) :
    fifoNext C f .pop = (.popped v, ⟨f.taken + 1, items⟩) := by
  rw [fifoNext, Fifo.pop_cons h]

theorem fifoNext_pop_empty (C : ℕ) (h : f.items.length = 0) :
    fifoNext C f .pop = (.refused, f) := by
  rw [fifoNext, Fifo.pop_empty (List.length_eq_zero_iff.mp h)]

theorem Holds.setIdle (h : Holds k s f) : Holds k (s.setPhase () .idle) f :=
  { h with idle := State.setPhase_phase .. }

theorem Holds.returns_pushed (h : Holds k s f) (v : T) (hdif : dif s (.push v) = 0) :
    Returns s (.push v) .pushed ((RingBuffer.pushed s v).setPhase () .idle) :=
  returns_ready h.idle hdif ⟨3, perform_push_win s v⟩

/-- **A safe push** answers as the queue does. -/
theorem returns_push (h : Holds k s f) (hk : k < 64) (v : T)
    (hsafe : SafeCall (2 ^ k) f (.push v)) :
    ∃ s', Returns s (.push v) (fifoNext (2 ^ k) f (.push v)).1 s' ∧
      Holds k s' (fifoNext (2 ^ k) f (.push v)).2 := by
  by_cases hfull : f.items.length = 2 ^ k
  · obtain ⟨hone, hcross⟩ := hsafe hfull
    have hle : 2 ^ k ≤ 2 ^ 63 := Nat.pow_le_pow_right (by omega) (by omega)
    have hpos := Nat.two_pow_pos k
    have hneg : dif s (.push v) < 0 := by
      rw [h.dif_push_full hk hfull]
      exact (dif_full_neg_iff (by omega) hle).1.mpr hcross
    rw [fifoNext_push_full hfull]
    exact ⟨_, returns_refused h.idle hneg, h.setIdle⟩
  · rw [fifoNext_push_room hfull]
    exact ⟨_, h.returns_pushed v (h.dif_push_room hfull v), h.pushed hk hfull v⟩

/-- **A safe pop** answers as the queue does. -/
theorem returns_pop (h : Holds k s f) (hk : k < 64) (hsafe : SafeCall (2 ^ k) f .pop) :
    ∃ s', Returns s .pop (fifoNext (2 ^ k) f .pop).1 s' ∧
      Holds k s' (fifoNext (2 ^ k) f .pop).2 := by
  cases hitems : f.items with
  | nil =>
    have hempty : f.items.length = 0 := by rw [hitems]; rfl
    have hneg : dif s .pop < 0 := by
      rw [h.dif_pop_empty hempty]
      exact (dif_empty_neg_iff _).1.mpr (hsafe hempty)
    rw [fifoNext_pop_empty _ hempty]
    exact ⟨_, returns_refused h.idle hneg, h.setIdle⟩
  | cons v items =>
    have hdata : s.data (s.dequeuePos &&& s.bufferMask) = v := by
      rw [h.pop_cell]
      exact (h.full 0 v (by rw [hitems]; rfl)).2
    rw [fifoNext_pop_item _ hitems]
    refine ⟨_, returns_ready h.idle (h.dif_pop_item hitems) ⟨3, ?_⟩, h.popped hk hitems⟩
    rw [← hdata]
    exact perform_pop_win s

/-- **An unsafe call** does not: the push into the one full cell is taken, and where the difference
overflows the call never returns. -/
theorem not_returns_of_not_safeCall (h : Holds k s f) (hk : k < 64) {op : Op T}
    (hbad : ¬ SafeCall (2 ^ k) f op) (s' : State Unit T) :
    ¬ Returns s op (fifoNext (2 ^ k) f op).1 s' := by
  cases op with
  | push v =>
    rw [SafeCall, Classical.not_imp] at hbad
    obtain ⟨hfull, hbad⟩ := hbad
    rw [fifoNext_push_full hfull]
    intro hr
    by_cases hone : 2 ^ k = 1
    · -- the one cell looks ready for the next push
      have hdif : dif s (.push v) = 0 := by rw [h.dif_push_full hk hfull, hone, sub_self]
      exact absurd (hr.unique (h.returns_pushed v hdif)).1 (by simp)
    · have hle : 2 ^ k ≤ 2 ^ 63 := Nat.pow_le_pow_right (by omega) (by omega)
      have hpos := Nat.two_pow_pos k
      obtain ⟨hneg, hne⟩ := dif_full_neg_iff (t := f.taken) (C := 2 ^ k) (by omega) hle
      rw [← h.dif_push_full hk hfull v] at hneg hne
      have hge : ¬ dif s (.push v) < 0 := fun hlt => hbad ⟨hone, hneg.mp hlt⟩
      exact not_returns_stuck h.idle (by omega) _ _ hr
  | pop =>
    rw [SafeCall, Classical.not_imp] at hbad
    obtain ⟨hempty, hbad⟩ := hbad
    obtain ⟨hneg, hne⟩ := dif_empty_neg_iff f.taken
    rw [← h.dif_pop_empty hempty] at hneg hne
    have hge : ¬ dif s .pop < 0 := fun hlt => hbad (hneg.mp hlt)
    exact not_returns_stuck h.idle (by omega) _ _

/-- **Calls on a buffer that holds a queue** are answered as by the queue exactly if all are safe. -/
theorem serves_iff_safe (hk : k < 64) (ops : List (Op T)) (h : Holds k s f) :
    Serves s ops (fifoOutcomes (2 ^ k) f ops) ↔ SafeCalls (2 ^ k) f ops := by
  induction ops generalizing s f with
  | nil => exact iff_of_true rfl trivial
  | cons op ops ih =>
    rw [Serves, fifoOutcomes, SafeCalls]
    by_cases hsafe : SafeCall (2 ^ k) f op
    · obtain ⟨s', hr, h'⟩ : ∃ s', Returns s op (fifoNext (2 ^ k) f op).1 s' ∧
          Holds k s' (fifoNext (2 ^ k) f op).2 := by
        cases op with
        | push v => exact returns_push h hk v hsafe
        | pop => exact returns_pop h hk hsafe
      constructor
      · rintro ⟨o, s₂, os, hos, hr₂, hserves⟩
        obtain ⟨rfl, rfl⟩ := List.cons.inj hos
        obtain ⟨-, rfl⟩ := hr₂.unique hr
        exact ⟨hsafe, (ih h').mp hserves⟩
      · rintro ⟨-, hrest⟩
        exact ⟨_, s', _, rfl, hr, (ih h').mpr hrest⟩
    · refine iff_of_false ?_ fun hall => hsafe hall.1
      rintro ⟨o, s₂, os, hos, hr₂, -⟩
      obtain ⟨rfl, rfl⟩ := List.cons.inj hos
      exact not_returns_of_not_safeCall h hk hsafe s₂ hr₂

/-- **When the ring buffer is a bounded queue.**  For every size from 1 up, every content of the fresh
cells and every sequence of calls: the buffer answers as the queue of `C` items does, `C` the least
power of two that is not below the size, exactly when the size is at most `2^63` and every call is
safe. -/
theorem ring_buffer_fifo_iff (bufferSize : Size) (hpos : bufferSize ≠ 0) (junk : Size → T)
    (ops : List (Op T)) :
    RefinesFifo bufferSize junk ops ↔ bufferSize.toNat ≤ 2 ^ 63 ∧
      SafeCalls (2 ^ Nat.clog 2 bufferSize.toNat) (Fifo.empty T) ops := by
  by_cases hle : bufferSize.toNat ≤ 2 ^ 63
  · have hk : Nat.clog 2 bufferSize.toNat < 64 := by
      have := (Nat.clog_le_iff_le_pow (by omega : 1 < 2)).mpr hle
      omega
    rw [RefinesFifo, construct_eq hpos hle, ← serves_iff_safe hk ops (holds_fresh hk junk)]
    constructor
    · rintro ⟨s, hs, hserves⟩
      obtain rfl := Option.some.inj hs
      exact ⟨hle, hserves⟩
    · rintro ⟨-, hserves⟩
      exact ⟨_, rfl, hserves⟩
  · refine iff_of_false ?_ fun h => hle h.1
    rintro ⟨s, hs, -⟩
    rw [construct_none (by omega)] at hs
    cases hs

/-- A size that is rounded up to four cells, filled, overfilled, emptied and asked once more. -/
theorem ring_buffer_fifo_iff_four_cells :
    RefinesFifo 3 (fun _ => 0) [.push 1, .push 2, .push 3, .push 4, .push 5, .pop, .pop, .pop, .pop,
      .pop] :=
  (ring_buffer_fifo_iff 3 (by decide) (fun _ => 0) _).mpr (by decide)

/-- **One cell.**  The second push into a buffer of size 1 is not refused. -/
theorem ring_buffer_fifo_one_cell : ¬ RefinesFifo 1 (fun _ => 0) [.push 1, .push 2] := by
  rintro ⟨s, hs, hserves⟩
  rw [construct_eq (by decide) (by decide)] at hs
  obtain rfl := Option.some.inj hs
  have hsafe := (serves_iff_safe (by decide) _ (holds_fresh (by decide) fun _ => (0 : ℕ))).mp hserves
  exact absurd hsafe (by decide)

end FtjSsdSim.Engine.RingBuffer
