import Mathlib
import FtjSsdSim.Library.Machine
import FtjSsdSim.Library.TicketRing

/-!
# The lock-free ring buffer

`LockFreeRingBuffer` as a pool of threads: every load, compare-exchange, data copy and sequence store
of `Push` and `Pop` is one atomic action, and a schedule is a list of `Move`s.  Positions and
sequence numbers are 64-bit words, as in the source.

* `simulates` — while fewer than `2^63` operations have been called, the buffer is a ticket ring:
  its words never wrap, so comparing them is comparing tickets;
* `ring_buffer_correct` — every schedule of every number of threads leaves a correct queue behind
  (`QueueCorrect`).
-/

namespace FtjSsdSim.Engine.RingBuffer

open FtjSsdSim.Library FtjSsdSim.Library.TicketRing

/-! ### The class of the source -/

/-- `size_t`. -/
abbrev Size := BitVec 64

/-- The members of the class, and where each thread stands in `Push` or `Pop`. -/
structure State (Tid T : Type*) where
  size : Size
  bufferMask : Size
  sequence : Size → Size
  data : Size → T
  enqueuePos : Size
  dequeuePos : Size
  phase : Tid → Phase Size T

/-- `while (size_ < buffer_size) size_ <<= 1`, for at most so many rounds. -/
def roundUp (bufferSize : Size) : ℕ → Size → Option Size
  | 0, _ => none
  | n + 1, size => if size < bufferSize then roundUp bufferSize n (size <<< 1) else some size

section

variable {Tid T : Type*}

/-- The cells and positions the constructor sets up for a given size; `junk` is what the cells'
default-initialised data holds. -/
def fresh (size : Size) (junk : Size → T) : State Tid T where
  size := size
  bufferMask := size - 1
  sequence := fun i => i
  data := junk
  enqueuePos := 0
  dequeuePos := 0
  phase := fun _ => .idle

/-- The constructor; `none` where its loop does not end (after 64 shifts `size_` stays 0). -/
def construct (bufferSize : Size) (junk : Size → T) : Option (State Tid T) :=
  if bufferSize &&& (bufferSize - 1) ≠ 0 then
    (roundUp bufferSize 66 1).map fun size => fresh size junk
  else some (fresh bufferSize junk)

variable [DecidableEq Tid]

/-- Thread `t` moves to phase `ph`. -/
def State.setPhase (s : State Tid T) (t : Tid) (ph : Phase Size T) : State Tid T :=
  { s with phase := Function.update s.phase t ph }

/-- The next atomic action of thread `t`; `spurious` is whether a weak compare-exchange fails for no
reason. -/
def action (s : State Tid T) (t : Tid) (spurious : Bool) :
    State Tid T × Option (Tid × Event Size T) :=
  match s.phase t with
  | .idle => (s, none)
  -- Push
  | .load (.push v) => (s.setPhase t (.check (.push v) s.enqueuePos), none)
  | .check (.push v) pos =>
    let seq := s.sequence (pos &&& s.bufferMask)
    let dif := seq.toInt - pos.toInt
    if dif = 0 then (s.setPhase t (.cas (.push v) pos), none)
    else if dif < 0 then (s.setPhase t .idle, some (t, .refused (.push v)))
    else (s.setPhase t (.load (.push v)), none)
  | .cas (.push v) pos =>
    if s.enqueuePos = pos ∧ spurious = false then
      ({ s with enqueuePos := pos + 1 }.setPhase t (.access (.push v) pos),
        some (t, .won (.push v) pos))
    else (s.setPhase t (.check (.push v) s.enqueuePos), none)
  | .access (.push v) pos =>
    ({ s with data := Function.update s.data (pos &&& s.bufferMask) v }.setPhase t
      (.store .push pos v), none)
  | .store .push pos v =>
    ({ s with sequence := Function.update s.sequence (pos &&& s.bufferMask) (pos + 1) }.setPhase t
      .idle, some (t, .done .push pos v))
  -- Pop
  | .load .pop => (s.setPhase t (.check .pop s.dequeuePos), none)
  | .check .pop pos =>
    let seq := s.sequence (pos &&& s.bufferMask)
    let dif := seq.toInt - (pos + 1).toInt
    if dif = 0 then (s.setPhase t (.cas .pop pos), none)
    else if dif < 0 then (s.setPhase t .idle, some (t, .refused .pop))
    else (s.setPhase t (.load .pop), none)
  | .cas .pop pos =>
    if s.dequeuePos = pos ∧ spurious = false then
      ({ s with dequeuePos := pos + 1 }.setPhase t (.access .pop pos), some (t, .won .pop pos))
    else (s.setPhase t (.check .pop s.dequeuePos), none)
  | .access .pop pos =>
    (s.setPhase t (.store .pop pos (s.data (pos &&& s.bufferMask))), none)
  | .store .pop pos v =>
    ({ s with sequence :=
        Function.update s.sequence (pos &&& s.bufferMask) (pos + s.size) }.setPhase t .idle,
      some (t, .done .pop pos v))

/-- One entry of a schedule: an idle thread calls an operation, or a thread inside one takes its
next action. -/
inductive Move (Tid T : Type*) where
  | call (t : Tid) (op : Op T)
  | act (t : Tid) (spurious : Bool)

/-- What a move does and shows; a call by a thread inside an operation is not a move. -/
def step (s : State Tid T) : Move Tid T → State Tid T × Option (Tid × Event Size T)
  | .call t op =>
    match s.phase t with
    | .idle => (s.setPhase t (.load op), some (t, .call op))
    | _ => (s, none)
  | .act t spurious => action s t spurious

/-- The state after a move. -/
def next (s : State Tid T) (m : Move Tid T) : State Tid T := (step s m).1

/-- The event of a move. -/
def event (c : State Tid T × Move Tid T) : Option (Tid × Event Size T) := (step c.1 c.2).2

/-- The events of a schedule. -/
def history (s : State Tid T) (ms : List (Move Tid T)) : List (Tid × Event Size T) :=
  observed next event s ms

end

/-! ### What a correct queue is -/

/-- After the history `es` and in the state `s`:
* no position is pushed or popped twice, and every popped value was pushed at that position by a
  push that had succeeded before;
* a pushed value stays in its cell until it is popped;
* both sides win the positions `0, 1, 2, …` in this order, and what the pop of position `p`
  delivers is the value of the `p`-th push to win;
* no two threads are about to touch the data of one cell. -/
structure QueueCorrect {Tid T : Type*} (es : List (Tid × Event Size T)) (s : State Tid T) :
    Prop where
  pushes_once : ((completed .push es).map Prod.fst).Nodup
  pops_once : ((completed .pop es).map Prod.fst).Nodup
  popped_pushed : ∀ x ∈ completed .pop es, x ∈ completed .push es
  not_overwritten : ∀ p v, (p, v) ∈ completed .push es →
    (p, v) ∈ completed .pop es ∨ s.data (p &&& s.bufferMask) = v
  pushes_in_order : (pushWins es).map Prod.fst =
    (List.range (pushWins es).length).map (BitVec.ofNat 64)
  pops_in_order : popWins es = (List.range (popWins es).length).map (BitVec.ofNat 64)
  delivered_in_order : ∀ x ∈ completed .pop es, (pushWins es)[x.1.toNat]? = some x
  no_race : ∀ t u a b p q, t ≠ u → s.phase t = .access a p → s.phase u = .access b q →
    p &&& s.bufferMask ≠ q &&& s.bufferMask

/-! ### Words as tickets -/

/-- The index mask takes the position modulo the size. -/
theorem toNat_and_mask {k : ℕ} (hk : k < 64) (p : ℕ) :
    (BitVec.ofNat 64 p &&& (BitVec.twoPow 64 k - 1)).toNat = p % 2 ^ k := by
  have hle : 2 ^ k ∣ 2 ^ 64 := Nat.pow_dvd_pow 2 hk.le
  have hlt : 2 ^ k < 2 ^ 64 := Nat.pow_lt_pow_right (by omega) hk
  have hpos : 0 < 2 ^ k := Nat.two_pow_pos k
  have hmask : (BitVec.twoPow 64 k - 1).toNat = 2 ^ k - 1 := by
    rw [BitVec.toNat_sub, BitVec.toNat_twoPow_of_lt hk]
    show (2 ^ 64 - 1 + 2 ^ k) % 2 ^ 64 = _
    rw [show 2 ^ 64 - 1 + 2 ^ k = 2 ^ k - 1 + 2 ^ 64 by omega, Nat.add_mod_right]
    exact Nat.mod_eq_of_lt (by omega)
  rw [BitVec.toNat_and, hmask, Nat.and_two_pow_sub_one_eq_mod, BitVec.toNat_ofNat,
    Nat.mod_mod_of_dvd _ hle]

/-- Small tickets are told apart by their words. -/
theorem ofNat_inj {a b : ℕ} (ha : a < 2 ^ 64) (hb : b < 2 ^ 64) :
    BitVec.ofNat 64 a = BitVec.ofNat 64 b ↔ a = b := by
  refine ⟨fun h => ?_, congrArg _⟩
  have := congrArg BitVec.toNat h
  rwa [BitVec.toNat_ofNat, BitVec.toNat_ofNat, Nat.mod_eq_of_lt ha, Nat.mod_eq_of_lt hb] at this

/-- The signed difference is zero exactly on equal words. -/
theorem dif_eq_zero {a b : ℕ} (ha : a < 2 ^ 64) (hb : b < 2 ^ 64) :
    (BitVec.ofNat 64 a).toInt - (BitVec.ofNat 64 b).toInt = 0 ↔ a = b := by
  rw [sub_eq_zero, BitVec.toInt_inj, ofNat_inj ha hb]

/-! ### The buffer is a ticket ring -/

section

variable {Tid T : Type*} {k : ℕ}

/-- The buffer of `2^k` cells holds the words of a ticket ring. -/
structure Represents (k : ℕ) (c : State Tid T) (a : TicketRing.State Tid T) : Prop where
  size : c.size = BitVec.twoPow 64 k
  mask : c.bufferMask = BitVec.twoPow 64 k - 1
  sequence : ∀ i, c.sequence i = BitVec.ofNat 64 (a.seq i.toNat)
  data : ∀ i, c.data i = a.data i.toNat
  enqueuePos : c.enqueuePos = BitVec.ofNat 64 (a.pos .push)
  dequeuePos : c.dequeuePos = BitVec.ofNat 64 (a.pos .pop)
  phase : ∀ t, c.phase t = (a.phase t).map (BitVec.ofNat 64)

/-- The ring's tickets and sequence numbers are all below `2^64`. -/
structure Bounded (a : TicketRing.State Tid T) : Prop where
  seq : ∀ p, a.seq (p % 2 ^ k) < 2 ^ 64
  pos : ∀ side, a.pos side < 2 ^ 63
  ticket : ∀ t op p, a.phase t = .check op p ∨ a.phase t = .cas op p → p < 2 ^ 63

theorem represents_fresh (junk : Size → T) :
    Represents k (fresh (BitVec.twoPow 64 k) junk : State Tid T)
      (TicketRing.initial fun n => junk (BitVec.ofNat 64 n)) where
  size := rfl
  mask := rfl
  sequence i := (BitVec.ofNat_toNat 64 i).trans (BitVec.setWidth_eq i) |>.symm
  data i := congrArg junk ((BitVec.ofNat_toNat 64 i).trans (BitVec.setWidth_eq i)).symm
  enqueuePos := rfl
  dequeuePos := rfl
  phase _ := rfl

/-- The cell of a ticket, on both levels. -/
theorem Represents.index {c : State Tid T} {a : TicketRing.State Tid T} (h : Represents k c a)
    (hk : k < 64) (p : ℕ) : (BitVec.ofNat 64 p &&& c.bufferMask).toNat = p % 2 ^ k := by
  rw [h.mask, toNat_and_mask hk]

variable [DecidableEq Tid]

/-- The two levels write the same cell. -/
theorem update_index {α β : Type*} {f : Size → α} {g : ℕ → β} {e : β → α} {i : Size} {n : ℕ}
    {x : α} {y : β} (hf : ∀ j, f j = e (g j.toNat)) (hi : i.toNat = n) (hx : x = e y)
    (j : Size) : Function.update f i x j = e (Function.update g n y j.toNat) := by
  by_cases hj : j = i
  · subst hj hi
    rw [Function.update_self, Function.update_self, hx]
  · have hne : j.toNat ≠ n := fun h => hj (BitVec.eq_of_toNat_eq (h.trans hi.symm))
    rw [Function.update_of_ne hj, Function.update_of_ne hne, hf]

theorem Represents.setPhase {c : State Tid T} {a : TicketRing.State Tid T}
    (h : Represents k c a) (t : Tid) (ph : Phase ℕ T) :
    Represents k (c.setPhase t (ph.map (BitVec.ofNat 64))) (a.setPhase t ph) where
  size := h.size
  mask := h.mask
  sequence := h.sequence
  data := h.data
  enqueuePos := h.enqueuePos
  dequeuePos := h.dequeuePos
  phase u := by
    by_cases hu : u = t
    · subst hu
      simp [State.setPhase, TicketRing.State.setPhase]
    · simp [State.setPhase, TicketRing.State.setPhase, hu, h.phase u]

/-- One move, matched by a step of the ring that shows the same event, or without effect. -/
def Matched (k : ℕ) (a : TicketRing.State Tid T)
    (r : State Tid T × Option (Tid × Event Size T)) : Prop :=
  (∃ e a', Step (2 ^ k) a e a' ∧ r.2 = e.map (Event.map (BitVec.ofNat 64)) ∧
    Represents k r.1 a') ∨ (r.2 = none ∧ Represents k r.1 a)

theorem matched_load {c : State Tid T} {a : TicketRing.State Tid T} (h : Represents k c a)
    {t : Tid} {op : Op T} (hp : a.phase t = .load op) (sp : Bool) :
    Matched k a (action c t sp) := by
  refine .inl ⟨none, _, .load hp, ?_⟩
  have hc : c.phase t = .load op := by rw [h.phase, hp]; rfl
  cases op with
  | push v =>
    simp only [action, hc, h.enqueuePos]
    exact ⟨rfl, h.setPhase t (.check (.push v) _)⟩
  | pop =>
    simp only [action, hc, h.dequeuePos]
    exact ⟨rfl, h.setPhase t (.check .pop _)⟩

theorem matched_check {c : State Tid T} {a : TicketRing.State Tid T} (h : Represents k c a)
    (hk : k < 64) (hb : Bounded (k := k) a) {t : Tid} {op : Op T} {p : ℕ}
    (hp : a.phase t = .check op p) (sp : Bool) : Matched k a (action c t sp) := by
  have hc : c.phase t = .check op (BitVec.ofNat 64 p) := by rw [h.phase, hp]; rfl
  have hticket := hb.ticket t op p (.inl hp)
  have hseq : c.sequence (BitVec.ofNat 64 p &&& c.bufferMask) =
      BitVec.ofNat 64 (a.seq (p % 2 ^ k)) := by rw [h.sequence, h.index hk]
  have key : ∀ w, w < 2 ^ 64 → w = want op.side p → ∀ r : State Tid T × Option _,
      r = (if (BitVec.ofNat 64 (a.seq (p % 2 ^ k))).toInt - (BitVec.ofNat 64 w).toInt = 0 then
          (c.setPhase t (.cas op (BitVec.ofNat 64 p)), none)
        else if (BitVec.ofNat 64 (a.seq (p % 2 ^ k))).toInt - (BitVec.ofNat 64 w).toInt < 0 then
          (c.setPhase t .idle, some (t, .refused op))
        else (c.setPhase t (.load op), none)) → Matched k a r := by
    rintro w hw rfl r rfl
    split_ifs with hready
    · rw [dif_eq_zero (hb.seq p) hw] at hready
      exact .inl ⟨none, _, .ready hp hready, rfl, h.setPhase t (.cas op p)⟩
    · exact .inl ⟨some (t, .refused op), _, .giveUp hp, rfl, h.setPhase t .idle⟩
    · exact .inl ⟨none, _, .reload hp, rfl, h.setPhase t (.load op)⟩
  cases op with
  | push v =>
    refine key p (by omega) rfl _ ?_
    simp only [action, hc, hseq]
  | pop =>
    refine key (p + 1) (by omega) rfl _ ?_
    simp only [action, hc, hseq, BitVec.ofNat_add]
    rfl

theorem matched_cas {c : State Tid T} {a : TicketRing.State Tid T} (h : Represents k c a)
    (hb : Bounded (k := k) a) {t : Tid} {op : Op T} {p : ℕ}
    (hp : a.phase t = .cas op p) (sp : Bool) : Matched k a (action c t sp) := by
  have hc : c.phase t = .cas op (BitVec.ofNat 64 p) := by rw [h.phase, hp]; rfl
  have hticket := hb.ticket t op p (.inr hp)
  have hpos := hb.pos op.side
  have heq : BitVec.ofNat 64 (a.pos op.side) = BitVec.ofNat 64 p ↔ a.pos op.side = p :=
    ofNat_inj (by omega) (by omega)
  cases op with
  | push v =>
    simp only [action, hc, h.enqueuePos]
    split_ifs with hwin
    · refine .inl ⟨some (t, .won (.push v) p), _, .win hp (heq.mp hwin.1), rfl, ?_⟩
      refine Represents.setPhase ?_ t (.access (.push v) p)
      exact { h with
        enqueuePos := by simp [Op.side, BitVec.ofNat_add]
        dequeuePos := by simp [Op.side, h.dequeuePos] }
    · exact .inl ⟨none, _, .lose hp, rfl, h.setPhase t (.check (.push v) _)⟩
  | pop =>
    simp only [action, hc, h.dequeuePos]
    split_ifs with hwin
    · refine .inl ⟨some (t, .won .pop p), _, .win hp (heq.mp hwin.1), rfl, ?_⟩
      refine Represents.setPhase ?_ t (.access .pop p)
      exact { h with
        enqueuePos := by simp [Op.side, h.enqueuePos]
        dequeuePos := by simp [Op.side, BitVec.ofNat_add] }
    · exact .inl ⟨none, _, .lose hp, rfl, h.setPhase t (.check .pop _)⟩

theorem matched_access {c : State Tid T} {a : TicketRing.State Tid T} (h : Represents k c a)
    (hk : k < 64) {t : Tid} {op : Op T} {p : ℕ} (hp : a.phase t = .access op p) (sp : Bool) :
    Matched k a (action c t sp) := by
  have hc : c.phase t = .access op (BitVec.ofNat 64 p) := by rw [h.phase, hp]; rfl
  cases op with
  | push v =>
    simp only [action, hc]
    refine .inl ⟨none, _, .write hp, rfl, Represents.setPhase ?_ t (.store .push p v)⟩
    exact { h with data := update_index (e := id) h.data (h.index hk p) rfl }
  | pop =>
    have hdata := h.data (BitVec.ofNat 64 p &&& c.bufferMask)
    rw [h.index hk] at hdata
    simp only [action, hc, hdata]
    exact .inl ⟨none, _, .read hp, rfl, h.setPhase t (.store .pop p _)⟩

theorem matched_store {c : State Tid T} {a : TicketRing.State Tid T} (h : Represents k c a)
    (hk : k < 64) {t : Tid} {side : Side} {p : ℕ} {v : T} (hp : a.phase t = .store side p v)
    (sp : Bool) : Matched k a (action c t sp) := by
  have hc : c.phase t = .store side (BitVec.ofNat 64 p) v := by rw [h.phase, hp]; rfl
  have hgive : ∀ x, x = BitVec.ofNat 64 (give (2 ^ k) side p) →
      Represents k
        ({ c with sequence :=
            Function.update c.sequence (BitVec.ofNat 64 p &&& c.bufferMask) x }.setPhase t .idle)
        ({ a with seq :=
            Function.update a.seq (p % 2 ^ k) (give (2 ^ k) side p) }.setPhase t .idle) := by
    intro x hx
    refine Represents.setPhase ?_ t .idle
    exact { h with sequence := update_index h.sequence (h.index hk p) hx }
  refine .inl ⟨some (t, .done side p v), _, .store hp, ?_⟩
  cases side with
  | push =>
    simp only [action, hc]
    exact ⟨rfl, hgive _ (by simp [give, BitVec.ofNat_add])⟩
  | pop =>
    simp only [action, hc]
    refine ⟨rfl, hgive _ ?_⟩
    rw [h.size, give, BitVec.ofNat_add]
    refine congrArg _ (BitVec.eq_of_toNat_eq ?_)
    rw [BitVec.toNat_twoPow, BitVec.toNat_ofNat]

/-- **Every move is matched**, as long as the words have not wrapped. -/
theorem simulates {c : State Tid T} {a : TicketRing.State Tid T} (h : Represents k c a)
    (hk : k < 64) (hb : Bounded (k := k) a) (m : Move Tid T) : Matched k a (step c m) := by
  cases m with
  | call t op =>
    simp only [step]
    cases hp : a.phase t with
    | idle =>
      have hc : c.phase t = .idle := by rw [h.phase, hp]; rfl
      rw [hc]
      exact .inl ⟨some (t, .call op), _, .call hp, rfl, h.setPhase t (.load op)⟩
    | _ =>
      rw [h.phase, hp]
      exact .inr ⟨rfl, h⟩
  | act t sp =>
    cases hp : a.phase t with
    | idle =>
      have hc : c.phase t = .idle := by rw [h.phase, hp]; rfl
      simp only [step, action, hc]
      exact .inr ⟨rfl, h⟩
    | load op => exact matched_load h hp sp
    | check op p => exact matched_check h hk hb hp sp
    | cas op p => exact matched_cas h hb hp sp
    | access op p => exact matched_access h hk hp sp
    | store side p v => exact matched_store h hk hp sp

/-! ### Every schedule -/

/-- Below `2^63` calls, a reached ring is bounded. -/
theorem bounded_of_trace {data : ℕ → T} {es : List (Tid × Event ℕ T)}
    {a : TicketRing.State Tid T} (hk1 : 1 ≤ k) (hk : k < 64)
    (h : Trace (Step (2 ^ k)) (TicketRing.initial data) es a)
    (hops : (callers es).length < 2 ^ 63) : Bounded (k := k) a := by
  have hM : 2 ≤ 2 ^ k := by simpa using Nat.pow_le_pow_right (n := 2) (by omega) hk1
  have hMle : 2 ^ k ≤ 2 ^ 63 := Nat.pow_le_pow_right (by omega) (by omega)
  have hinv := trace_inv hM h
  have hpos : ∀ side, a.pos side < 2 ^ 63 := fun side => by
    have := wins_le_calls h side
    rw [hinv.won_order side, List.length_range] at this
    omega
  refine ⟨fun p => ?_, hpos, ?_⟩
  · have := hinv.seq_lt (p % 2 ^ k) (Nat.mod_lt _ (by omega))
    have := hpos .push
    omega
  · rintro t op p (hp | hp)
    · exact (hinv.check_le t op p hp).trans_lt (hpos _)
    · exact (hinv.cas_le t op p hp).1.trans_lt (hpos _)

/-- Every schedule of fewer than `2^63` operations is a trace of the ring. -/
theorem history_simulated (hk1 : 1 ≤ k) (hk : k < 64) (junk : Size → T)
    (ms : List (Move Tid T))
    (hops : (callers (history (fresh (BitVec.twoPow 64 k) junk) ms)).length < 2 ^ 63) :
    ∃ es a, Trace (Step (2 ^ k)) (TicketRing.initial fun n => junk (BitVec.ofNat 64 n)) es a ∧
      history (fresh (BitVec.twoPow 64 k) junk) ms = es.map (Event.map (BitVec.ofNat 64)) ∧
      Represents k (run next (fresh (BitVec.twoPow 64 k) junk) ms) a := by
  refine trace_of_run (P := fun es => (callers es).length < 2 ^ 63) (fun as bs h => ?_)
    (represents_fresh junk) (fun es c m a ht hok hrel => ?_) ms hops
  · rw [callers, List.filterMap_append, List.length_append] at h
    exact (Nat.le_add_right ..).trans_lt h
  · rw [callers_map] at hok
    exact simulates hrel hk (bounded_of_trace hk1 hk ht hok) m

omit [DecidableEq Tid] in
/-- The queue properties of a ticket ring's trace, read through the words. -/
theorem queueCorrect_of_represents {es : List (Tid × Event ℕ T)} {c : State Tid T}
    {a : TicketRing.State Tid T} (hk1 : 1 ≤ k) (hk : k < 64) (hinv : Inv (2 ^ k) es a)
    (hb : Bounded (k := k) a) (h : Represents k c a) :
    QueueCorrect (es.map (Event.map (BitVec.ofNat 64))) c := by
  have hM : 2 ≤ 2 ^ k := by simpa using Nat.pow_le_pow_right (n := 2) (by omega) hk1
  have hlt : ∀ {side p v}, (p, v) ∈ completed side es → p < 2 ^ 64 := fun hp =>
    ((hinv.done_lt _ _ _ hp).trans (hb.pos _)).trans (by omega)
  have honce : ∀ side, ((completed side (es.map (Event.map (BitVec.ofNat 64)))).map
      Prod.fst).Nodup := by
    intro side
    rw [completed_map, List.map_map]
    refine List.Nodup.map_on ?_ (List.Nodup.of_map _ (hinv.done_nodup side))
    rintro ⟨p, v⟩ hp ⟨q, w⟩ hq heq
    obtain rfl : p = q := (ofNat_inj (hlt hp) (hlt hq)).mp heq
    rw [hinv.value_unique hp hq]
  constructor
  case pushes_once => exact honce .push
  case pops_once => exact honce .pop
  case popped_pushed =>
    intro x hx
    rw [completed_map] at hx ⊢
    obtain ⟨⟨p, v⟩, hp, rfl⟩ := List.mem_map.mp hx
    exact List.mem_map.mpr ⟨(p, v), hinv.popped p v hp, rfl⟩
  case not_overwritten =>
    intro p v hp
    rw [completed_map] at hp ⊢
    obtain ⟨⟨q, w⟩, hq, heq⟩ := List.mem_map.mp hp
    obtain ⟨rfl, rfl⟩ := Prod.mk.inj heq
    rcases hinv.kept q w hq with hpop | hready
    · exact .inl (List.mem_map.mpr ⟨(q, w), hpop, rfl⟩)
    · obtain ⟨x, hx, hd⟩ := hinv.full q hready
      rw [h.data, h.index hk, hd]
      exact .inr (hinv.value_unique hx hq)
  case pushes_in_order =>
    have hwon := hinv.won_order .push
    have hlen := congrArg List.length hwon
    simp only [wins, List.length_map, List.length_range] at hwon hlen
    rw [pushWins_map, List.length_map, hlen, ← hwon, List.map_map, List.map_map]
    rfl
  case pops_in_order =>
    have hwon := hinv.won_order .pop
    have hlen := congrArg List.length hwon
    simp only [wins, List.length_range] at hwon hlen
    rw [popWins_map, List.length_map, hlen, hwon]
  case delivered_in_order =>
    intro x hx
    rw [completed_map] at hx
    obtain ⟨⟨p, v⟩, hp, rfl⟩ := List.mem_map.mp hx
    have hwon := hinv.won_order .push
    obtain ⟨i, hi, hget⟩ := List.getElem_of_mem (hinv.pushed_won p v (hinv.popped p v hp))
    have hip : i = p := by
      have hi' : i < (wins .push es).length := by simpa [wins] using hi
      have h1 : (wins .push es)[i] = i := by simp [hwon]
      have h2 : (wins .push es)[i] = p := by simp [wins, hget]
      exact h1.symm.trans h2
    subst hip
    rw [pushWins_map, BitVec.toNat_ofNat, Nat.mod_eq_of_lt (hlt hp), List.getElem?_map,
      List.getElem?_eq_getElem hi, hget]
    rfl
  case no_race =>
    intro t u x y p q htu ht hu hc
    have hholds : ∀ {w z r}, c.phase w = .access z r →
        ∃ n, r = BitVec.ofNat 64 n ∧ (a.phase w).Holds z.side n := by
      intro w z r hw
      rw [h.phase] at hw
      cases hph : a.phase w with
      | access z' n =>
        rw [hph] at hw
        obtain ⟨rfl, rfl⟩ := Phase.access.inj hw
        exact ⟨n, rfl, rfl, rfl⟩
      | _ => rw [hph] at hw; cases hw
    obtain ⟨m, rfl, hm⟩ := hholds ht
    obtain ⟨n, rfl, hn⟩ := hholds hu
    refine htu (hinv.exclusive hM hm hn ?_).1
    rw [← h.index hk, ← h.index hk, hc]

omit [DecidableEq Tid] in
/-- A power of two is a size the constructor keeps. -/
theorem construct_twoPow (hk : k < 64) (junk : Size → T) :
    construct (BitVec.twoPow 64 k) junk =
      some (fresh (BitVec.twoPow 64 k) junk : State Tid T) := by
  have hpow : BitVec.twoPow 64 k = BitVec.ofNat 64 (2 ^ k) := by
    rw [← BitVec.toNat_inj, BitVec.toNat_twoPow, BitVec.toNat_ofNat]
  have hand : BitVec.twoPow 64 k &&& (BitVec.twoPow 64 k - 1) = 0 := by
    refine BitVec.eq_of_toNat_eq ?_
    nth_rewrite 1 [hpow]
    rw [toNat_and_mask hk, Nat.mod_self]
    rfl
  exact if_neg (not_not.mpr hand)

/-- **The ring buffer is a correct queue.**  For every size that is a power of two from 2 up, any
threads, and every schedule with fewer than `2^63` operations, the history and the reached state
are those of a correct queue. -/
theorem ring_buffer_correct (hk1 : 1 ≤ k) (hk : k < 64) (junk : Size → T) (s : State Tid T)
    (hs : construct (BitVec.twoPow 64 k) junk = some s) (ms : List (Move Tid T))
    (hops : (callers (history s ms)).length < 2 ^ 63) :
    QueueCorrect (history s ms) (run next s ms) := by
  rw [construct_twoPow hk] at hs
  obtain rfl := Option.some.inj hs
  obtain ⟨es, a, htrace, hes, hrel⟩ := history_simulated hk1 hk junk ms hops
  have hM : 2 ≤ 2 ^ k := by simpa using Nat.pow_le_pow_right (n := 2) (by omega) hk1
  rw [hes, callers_map] at hops
  rw [hes]
  exact queueCorrect_of_represents hk1 hk (trace_inv hM htrace)
    (bounded_of_trace hk1 hk htrace hops) hrel

end

/-- Thread 0 pushes 7 into a buffer of two cells while thread 1 pops: the pop finds the cell not yet
written, tries again, and gets the value. -/
def handover : List (Move (Fin 2) ℕ) :=
  [.call 0 (.push 7), .act 0 false, .act 0 false, .call 1 .pop, .act 0 true, .act 0 false,
    .act 1 false, .act 0 false, .act 1 false, .call 1 .pop, .act 0 false, .act 0 false,
    .act 1 false, .act 1 false, .act 1 false, .act 1 false, .act 1 false]

theorem ring_buffer_correct_handover :
    QueueCorrect (history (fresh (BitVec.twoPow 64 1) fun _ => 0) handover)
        (run next (fresh (BitVec.twoPow 64 1) fun _ => 0) handover) ∧
      completed .pop (history (fresh (BitVec.twoPow 64 1) fun _ => 0) handover) = [(0, 7)] :=
  ⟨ring_buffer_correct le_rfl (by decide) (fun _ => 0) _ (construct_twoPow (by decide) _) handover
    (by decide +kernel), by decide +kernel⟩

end FtjSsdSim.Engine.RingBuffer
