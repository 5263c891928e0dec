import Mathlib
import FtjSsdSim.Library.BoundedFifo
import FtjSsdSim.Library.Machine

/-!
# The submission queue

`ftj_submission_queue` is a ring of `2 ^ ADDR_WIDTH` slots behind two pointers and a flag.  The number
of requests in it is not stored.  `step` is one clock edge with reset released.

The flag is set by a write that makes the pointers meet, whether or not a read moves the other
pointer in the same edge.  So with one slot free a read and a write together leave the flag set and
one slot free, until the next read (`Represents.filled`); nothing is lost by it.

* `step_represents` — one edge, on the level of the queue the slots stand for;
* `queue_lossless` — every run from reset;
* `full_exact_iff` — when `full` says that all slots are in use.
-/

namespace FtjSsdSim.Hdl.SubmissionQueue

open FtjSsdSim.Library

/-! ### The module of the source -/

/-- The registers and the memory, for a `DATA_WIDTH` of `w` and an `ADDR_WIDTH` of `a`. -/
structure State (w a : ℕ) where
  wrPtr : BitVec a
  rdPtr : BitVec a
  isFull : Bool
  dataOut : BitVec w
  queueMem : BitVec a → BitVec w

/-- The input pins at a clock edge. -/
structure Input (w : ℕ) where
  wrEn : Bool
  dataIn : BitVec w
  rdEn : Bool
  deriving DecidableEq, Repr

variable {w a : ℕ}

/-- The state after reset; the memory is not reset. -/
def reset (mem : BitVec a → BitVec w) : State w a where
  wrPtr := 0
  rdPtr := 0
  isFull := false
  dataOut := 0
  queueMem := mem

def empty (s : State w a) : Bool := s.wrPtr == s.rdPtr && !s.isFull

def full (s : State w a) : Bool := s.isFull

/-- `wr_en && !full`. -/
def accepts (s : State w a) (i : Input w) : Bool := i.wrEn && !full s

/-- `rd_en && !empty`. -/
def loads (s : State w a) (i : Input w) : Bool := i.rdEn && !empty s

/-- One clock edge. -/
def step (s : State w a) (i : Input w) : State w a where
  queueMem := if accepts s i then Function.update s.queueMem s.wrPtr i.dataIn else s.queueMem
  wrPtr := if accepts s i then s.wrPtr + 1 else s.wrPtr
  dataOut := if loads s i then s.queueMem s.rdPtr else s.dataOut
  rdPtr := if loads s i then s.rdPtr + 1 else s.rdPtr
  isFull :=
    if i.rdEn && s.isFull then false
    else if accepts s i && s.wrPtr + 1 == s.rdPtr then true
    else s.isFull

/-! ### The queue the slots stand for -/

/-- The requests in the queue, in order, each with the slot it is in. -/
structure Represents (s : State w a) (f : Fifo (BitVec a × BitVec w)) : Prop where
  rdPtr : s.rdPtr = BitVec.ofNat a f.taken
  wrPtr : s.wrPtr = BitVec.ofNat a f.pushed
  slot : ∀ j x, f.items[j]? = some x → x.1 = BitVec.ofNat a (f.taken + j)
  stored : ∀ x ∈ f.items, s.queueMem x.1 = x.2
  room : s.isFull = false → f.items.length < 2 ^ a
  filled : s.isFull = true → 2 ^ a ≤ f.items.length + 1 ∧ f.items.length ≤ 2 ^ a

/-- The requests after an edge: those that stay and the one that is accepted. -/
def after (s : State w a) (i : Input w) (f : Fifo (BitVec a × BitVec w)) :
    Fifo (BitVec a × BitVec w) :=
  ⟨f.taken + (loads s i).toNat,
    f.items.drop (loads s i).toNat ++ if accepts s i then [(s.wrPtr, i.dataIn)] else []⟩

/-- Two positions less than a whole turn apart are in different slots. -/
theorem ofNat_ne {m n : ℕ} (hlt : m < n) (hturn : n < m + 2 ^ a) :
    BitVec.ofNat a m ≠ BitVec.ofNat a n := by
  intro h
  have hmod : m % 2 ^ a = n % 2 ^ a := by
    rw [← BitVec.toNat_ofNat, h, BitVec.toNat_ofNat]
  have hdvd : 2 ^ a ∣ n - m := (Nat.modEq_iff_dvd' (Nat.le_of_lt hlt)).mp hmod
  have hle := Nat.le_of_dvd (Nat.sub_pos_of_lt hlt) hdvd
  omega

theorem ofNat_turn (m : ℕ) : BitVec.ofNat a (m + 2 ^ a) = BitVec.ofNat a m := by
  rw [← BitVec.toNat_inj, BitVec.toNat_ofNat, BitVec.toNat_ofNat, Nat.add_mod_right]

variable {s : State w a} {f : Fifo (BitVec a × BitVec w)}

/-- **`empty`** is asserted exactly when no request is in the queue. -/
theorem Represents.empty_iff (h : Represents s f) (ha : 0 < a) : empty s = true ↔ f.items = [] := by
  have hturn : 2 ^ 1 ≤ 2 ^ a := Nat.pow_le_pow_right (by decide) ha
  rw [empty, Bool.and_eq_true, beq_iff_eq, h.wrPtr, h.rdPtr, Fifo.pushed, Bool.not_eq_true']
  constructor
  · rintro ⟨hptr, hfull⟩
    have hlt := h.room hfull
    by_contra hne
    have hpos := List.length_pos_iff.mpr hne
    exact ofNat_ne (a := a) (m := f.taken) (by omega) (by omega) hptr.symm
  · intro hnil
    rw [hnil]
    refine ⟨rfl, ?_⟩
    by_contra hfull
    have hle := (h.filled (by simpa using hfull)).1
    rw [hnil, List.length_nil] at hle
    omega

/-- A write is accepted only while a slot is free. -/
theorem Represents.room_of_accepts (h : Represents s f) {i : Input w} (hacc : accepts s i = true) :
    f.items.length < 2 ^ a :=
  h.room (Bool.not_eq_true' _ ▸ (Bool.and_eq_true_iff.mp hacc).2)

/-- A request that is loaded is the first one of the queue. -/
theorem Represents.first_of_loads (h : Represents s f) (ha : 0 < a) {i : Input w}
    (hload : loads s i = true) : ∃ x rest, f.items = x :: rest := by
  refine List.exists_cons_of_ne_nil fun hnil => ?_
  have hempty := (h.empty_iff ha).mpr hnil
  rw [loads, hempty, Bool.not_true, Bool.and_false] at hload
  exact Bool.noConfusion hload

/-- **No slot is overwritten before it is read**: the slot a write goes to holds no request. -/
theorem Represents.slot_ne_wrPtr (h : Represents s f) (hroom : f.items.length < 2 ^ a)
    {x : BitVec a × BitVec w} (hx : x ∈ f.items) : x.1 ≠ s.wrPtr := by
  obtain ⟨j, hj⟩ := List.mem_iff_getElem?.mp hx
  have hlt : j < f.items.length := (List.getElem?_eq_some_iff.mp hj).1
  rw [h.slot j x hj, h.wrPtr, Fifo.pushed]
  exact ofNat_ne (by omega) (by omega)

/-- The value that is loaded is that of the first request. -/
theorem Represents.loaded (h : Represents s f) (ha : 0 < a) {i : Input w} (hload : loads s i = true) :
    f.items.take 1 = [(s.rdPtr, (step s i).dataOut)] := by
  obtain ⟨x, rest, hitems⟩ := h.first_of_loads ha hload
  have hslot : x.1 = s.rdPtr := by
    rw [h.rdPtr, h.slot 0 x (by rw [hitems]; rfl), Nat.add_zero]
  have hdata : (step s i).dataOut = s.queueMem s.rdPtr := if_pos hload
  rw [hitems, List.take_succ_cons, List.take_zero, hdata, ← hslot,
    h.stored x (hitems ▸ List.mem_cons_self ..)]

theorem Represents.loads_le (h : Represents s f) (ha : 0 < a) (i : Input w) :
    (loads s i).toNat ≤ f.items.length := by
  cases hl : loads s i with
  | false => exact Nat.zero_le _
  | true =>
    obtain ⟨x, rest, hitems⟩ := h.first_of_loads ha hl
    rw [hitems]
    exact Nat.succ_le_succ (Nat.zero_le _)

theorem after_length (s : State w a) (i : Input w) (f : Fifo (BitVec a × BitVec w)) :
    (after s i f).items.length =
      f.items.length - (loads s i).toNat + (accepts s i).toNat := by
  rw [after, List.length_append, List.length_drop]
  cases accepts s i <;> rfl

/-- While the flag is set every read loads a request, and no write is accepted. -/
theorem loads_of_full {s : State w a} (hfull : s.isFull = true) (i : Input w) :
    loads s i = i.rdEn ∧ accepts s i = false := by
  simp [loads, accepts, empty, full, hfull]

/-- An accepted write makes the pointers meet when it takes the last free slot. -/
theorem Represents.meets_iff (h : Represents s f) (hroom : f.items.length < 2 ^ a) :
    s.wrPtr + 1 = s.rdPtr ↔ f.items.length + 1 = 2 ^ a := by
  have hnext : s.wrPtr + 1 = BitVec.ofNat a (f.taken + (f.items.length + 1)) := by
    rw [h.wrPtr, Fifo.pushed, ← Nat.add_assoc, BitVec.ofNat_add _ 1]
    rfl
  rw [hnext, h.rdPtr]
  constructor
  · intro heq
    by_contra hne
    exact ofNat_ne (a := a) (m := f.taken) (by omega) (by omega) heq.symm
  · intro hlast
    rw [hlast, ofNat_turn]

/-- **One edge.**  The first request leaves if one is loaded, and an accepted one is put at the end. -/
theorem step_represents (h : Represents s f) (ha : 0 < a) (i : Input w) :
    Represents (step s i) (after s i f) := by
  have hturn : 2 ^ 1 ≤ 2 ^ a := Nat.pow_le_pow_right (by decide) ha
  have hload := h.loads_le ha i
  have hlength := after_length s i f
  constructor
  case rdPtr =>
    show (if loads s i then s.rdPtr + 1 else s.rdPtr) = BitVec.ofNat a (f.taken + _)
    rw [h.rdPtr, BitVec.ofNat_add]
    cases loads s i with
    | false => exact (BitVec.add_zero _).symm
    | true => rfl
  case wrPtr =>
    have hpushed : (after s i f).pushed = f.pushed + (accepts s i).toNat := by
      have htaken : (after s i f).taken = f.taken + (loads s i).toNat := rfl
      rw [Fifo.pushed, Fifo.pushed, hlength, htaken]
      omega
    show (if accepts s i then s.wrPtr + 1 else s.wrPtr) = _
    rw [hpushed, h.wrPtr, BitVec.ofNat_add]
    cases accepts s i with
    | false => exact (BitVec.add_zero _).symm
    | true => rfl
  case slot =>
    intro j x hx
    show x.1 = BitVec.ofNat a (f.taken + _ + j)
    rw [Nat.add_assoc]
    rw [after, List.getElem?_append, List.length_drop] at hx
    split_ifs at hx with hj hacc
    · rw [List.getElem?_drop] at hx
      exact h.slot _ x hx
    · have hlast : j = f.items.length - (loads s i).toNat := by
        have := (List.getElem?_eq_some_iff.mp hx).1
        rw [List.length_singleton] at this
        omega
      rw [hlast, Nat.sub_self] at hx
      obtain rfl := Option.some.inj hx
      rw [hlast, Nat.add_sub_cancel' hload]
      exact h.wrPtr
    · cases hx
  case stored =>
    intro x hx
    show (if accepts s i then Function.update s.queueMem s.wrPtr i.dataIn else s.queueMem) x.1 = x.2
    rcases List.mem_append.mp hx with hold | hnew
    · have hmem := List.mem_of_mem_drop hold
      split_ifs with hacc
      · rw [Function.update_of_ne (h.slot_ne_wrPtr (h.room_of_accepts hacc) hmem)]
        exact h.stored x hmem
      · exact h.stored x hmem
    · split_ifs at hnew with hacc
      · obtain rfl := List.mem_singleton.mp hnew
        rw [if_pos hacc, Function.update_self]
      · cases hnew
  case room =>
    intro hfull
    rw [hlength]
    change (if i.rdEn && s.isFull then false else if accepts s i && s.wrPtr + 1 == s.rdPtr then true
      else s.isFull) = false at hfull
    split_ifs at hfull with hread hmeet
    · obtain ⟨hrd, hflag⟩ := Bool.and_eq_true_iff.mp hread
      have hle := (h.filled hflag).2
      rw [(loads_of_full hflag i).1, (loads_of_full hflag i).2, hrd]
      simp only [Bool.toNat_true, Bool.toNat_false]
      omega
    · have hroom := h.room hfull
      cases hacc : accepts s i with
      | false => exact Nat.lt_of_le_of_lt (Nat.sub_le ..) hroom
      | true =>
        rw [hacc, Bool.true_and, beq_iff_eq, h.meets_iff hroom] at hmeet
        simp only [Bool.toNat_true]
        omega
  case filled =>
    intro hfull
    rw [hlength]
    change (if i.rdEn && s.isFull then false else if accepts s i && s.wrPtr + 1 == s.rdPtr then true
      else s.isFull) = true at hfull
    split_ifs at hfull with hread hmeet
    · obtain ⟨hacc, hptr⟩ := Bool.and_eq_true_iff.mp hmeet
      have hroom := h.room_of_accepts hacc
      have hlast := (h.meets_iff hroom).mp (beq_iff_eq.mp hptr)
      have hle := Bool.toNat_le (loads s i)
      rw [hacc, Bool.toNat_true]
      omega
    · have hrd : i.rdEn = false := by simpa [hfull] using hread
      rw [(loads_of_full hfull i).1, (loads_of_full hfull i).2, hrd]
      exact h.filled hfull

/-! ### Runs -/

/-- The accepted requests of a run, each with the slot it was written to. -/
def acceptedWrites (mem : BitVec a → BitVec w) (is : List (Input w)) : List (BitVec a × BitVec w) :=
  observed step (fun c => if accepts c.1 c.2 then some (c.1.wrPtr, c.2.dataIn) else none) (reset mem)
    is

/-- The values on `data_in` in the cycles with `wr_en && !full`. -/
def accepted (mem : BitVec a → BitVec w) (is : List (Input w)) : List (BitVec w) :=
  (acceptedWrites mem is).map Prod.snd

/-- The values that `data_out` takes in the cycles with `rd_en && !empty`. -/
def loaded (mem : BitVec a → BitVec w) (is : List (Input w)) : List (BitVec w) :=
  observed step (fun c => if loads c.1 c.2 then some (step c.1 c.2).dataOut else none) (reset mem) is

/-- The accepted requests that have not been read. -/
def unread (mem : BitVec a → BitVec w) (is : List (Input w)) : List (BitVec a × BitVec w) :=
  (acceptedWrites mem is).drop (loaded mem is).length

theorem reset_represents (mem : BitVec a → BitVec w) :
    Represents (reset mem) (Fifo.empty _) where
  rdPtr := rfl
  wrPtr := rfl
  slot j x hx := by cases hx
  stored x hx := by cases hx
  room _ := Nat.two_pow_pos a
  filled h := by cases h

/-- **Every run**: the requests accepted are those loaded followed by those in the queue. -/
theorem run_represents (ha : 0 < a) (mem : BitVec a → BitVec w) (is : List (Input w)) :
    ∃ f, Represents (run step (reset mem) is) f ∧
      ∃ gone, acceptedWrites mem is = gone ++ f.items ∧ loaded mem is = gone.map Prod.snd := by
  induction is using List.reverseRecOn with
  | nil => exact ⟨_, reset_represents mem, [], rfl, rfl⟩
  | append_singleton is i ih =>
    obtain ⟨f, h, gone, haccepted, hloaded⟩ := ih
    refine ⟨after (run step (reset mem) is) i f, ?_, gone ++ f.items.take
      (loads (run step (reset mem) is) i).toNat, ?_, ?_⟩
    · rw [run_snoc]
      exact step_represents h ha i
    · have hsplit : ∀ (n : ℕ) (new : List (BitVec a × BitVec w)),
          gone ++ f.items ++ new = gone ++ f.items.take n ++ (f.items.drop n ++ new) := by
        intro n new
        rw [List.append_assoc, List.append_assoc, ← List.append_assoc (f.items.take n),
          List.take_append_drop]
      rw [acceptedWrites, observed_snoc, ← acceptedWrites, haccepted, after, hsplit]
      refine congrArg _ (congrArg _ ?_)
      split_ifs <;> rfl
    · rw [loaded, observed_snoc, ← loaded, hloaded, List.map_append]
      refine congrArg _ ?_
      simp only
      cases hl : loads (run step (reset mem) is) i with
      | false => rfl
      | true =>
        rw [Bool.toNat_true, h.loaded ha hl]
        rfl

/-- **The queue loses nothing.**  For every width, every memory and every sequence of writes and reads
after reset: the values loaded are the first ones of those accepted, in order; `empty` is asserted
exactly when all of them have been loaded; every accepted request that is not is still in the slot it
was written to; and no write is accepted into such a slot. -/
theorem queue_lossless (ha : 1 ≤ a) (mem : BitVec a → BitVec w) (is : List (Input w)) :
    let s := run step (reset mem) is
    loaded mem is <+: accepted mem is ∧
      (empty s = true ↔ loaded mem is = accepted mem is) ∧
      (∀ x ∈ unread mem is, s.queueMem x.1 = x.2) ∧
      ∀ i, accepts s i = true → ∀ x ∈ unread mem is, x.1 ≠ s.wrPtr := by
  intro s
  obtain ⟨f, h, gone, haccepted, hloaded⟩ := run_represents ha mem is
  have hall : accepted mem is = loaded mem is ++ f.items.map Prod.snd := by
    rw [accepted, haccepted, hloaded, List.map_append]
  have hunread : unread mem is = f.items := by
    rw [unread, haccepted, hloaded, List.length_map, List.drop_left]
  refine ⟨⟨_, hall.symm⟩, ?_, ?_, ?_⟩
  · rw [h.empty_iff ha, hall]
    constructor
    · intro hnil
      rw [hnil, List.map_nil, List.append_nil]
    · intro heq
      exact List.map_eq_nil_iff.mp (List.append_right_eq_self.mp heq.symm)
  · rw [hunread]
    exact h.stored
  · intro i hacc x hx
    rw [hunread] at hx
    exact h.slot_ne_wrPtr (h.room_of_accepts hacc) hx

/-- Two slots: the second write comes with a read and sets the flag with one request in the queue. -/
theorem queue_lossless_two_slots :
    let is : List (Input 8) := [⟨true, 1, false⟩, ⟨true, 2, true⟩, ⟨true, 3, false⟩, ⟨false, 0, true⟩]
    let mem : BitVec 1 → BitVec 8 := fun _ => 0
    let s := run step (reset mem) is
    loaded mem is <+: accepted mem is ∧
      (empty s = true ↔ loaded mem is = accepted mem is) ∧
      (∀ x ∈ unread mem is, s.queueMem x.1 = x.2) ∧
      ∀ i, accepts s i = true → ∀ x ∈ unread mem is, x.1 ≠ s.wrPtr :=
  queue_lossless (by decide) _ _

/-! ### The full flag -/

/-- The requests that have not been read are those in the queue, also after one more edge. -/
theorem run_unread (ha : 0 < a) (mem : BitVec a → BitVec w) (is : List (Input w)) :
    ∃ f, Represents (run step (reset mem) is) f ∧ unread mem is = f.items ∧
      ∀ i, unread mem (is ++ [i]) = (after (run step (reset mem) is) i f).items := by
  obtain ⟨f, h, gone, haccepted, hloaded⟩ := run_represents ha mem is
  have hunread : unread mem is = f.items := by
    rw [unread, haccepted, hloaded, List.length_map, List.drop_left]
  refine ⟨f, h, hunread, fun i => ?_⟩
  have hle : (loaded mem is).length ≤ (acceptedWrites mem is).length := by
    rw [haccepted, hloaded, List.length_map, List.length_append]
    exact Nat.le_add_right ..
  have hnew : acceptedWrites mem (is ++ [i]) = acceptedWrites mem is ++
      if accepts (run step (reset mem) is) i then [((run step (reset mem) is).wrPtr, i.dataIn)]
      else [] := by
    rw [acceptedWrites, observed_snoc]
    refine congrArg _ ?_
    simp only
    split_ifs <;> rfl
  have hone : (loaded mem (is ++ [i])).length =
      (loaded mem is).length + (loads (run step (reset mem) is) i).toNat := by
    rw [loaded, observed_snoc, List.length_append]
    refine congrArg _ ?_
    simp only
    cases loads (run step (reset mem) is) i <;> rfl
  rw [unread, hnew, hone, ← List.drop_drop, List.drop_append_of_le_length hle, ← unread, hunread,
    List.drop_append_of_le_length (h.loads_le ha i), after]

/-- **The flag after an edge**, if it was exact before. -/
theorem Represents.full_step_iff (h : Represents s f) (ha : 0 < a)
    (hexact : full s = true ↔ f.items.length = 2 ^ a) (i : Input w) :
    (full (step s i) = true ↔ (after s i f).items.length = 2 ^ a) ↔
      (i.wrEn = true → i.rdEn = true → f.items.length + 1 ≠ 2 ^ a) := by
  have hturn : 2 ^ 1 ≤ 2 ^ a := Nat.pow_le_pow_right (by decide) ha
  have hnext : full (step s i) = if i.rdEn && s.isFull then false
      else if accepts s i && s.wrPtr + 1 == s.rdPtr then true else s.isFull := rfl
  rw [hnext, after_length]
  by_cases hfull : s.isFull = true
  · -- no write is accepted, and a read frees a slot
    have hall := hexact.mp hfull
    obtain ⟨hload, hacc⟩ := loads_of_full hfull i
    rw [hload, hacc, hfull, hall]
    cases i.rdEn with
    | false => simp
    | true =>
      refine iff_of_true ?_ fun _ _ => by omega
      simp only [Bool.and_true, if_true, Bool.toNat_true, Bool.toNat_false]
      exact iff_of_false (by decide) (by omega)
  · have hflag : s.isFull = false := by simpa using hfull
    have hroom := h.room hflag
    have hacc : accepts s i = i.wrEn := by simp [accepts, full, hflag]
    have hload : loads s i = (i.rdEn && !decide (f.items.length = 0)) := by
      have hempty : empty s = decide (f.items.length = 0) := by
        rw [Bool.eq_iff_iff, h.empty_iff ha, decide_eq_true_iff, List.length_eq_zero_iff]
      rw [loads, hempty]
    have hmeet : (s.wrPtr + 1 == s.rdPtr) = decide (f.items.length + 1 = 2 ^ a) := by
      rw [Bool.eq_iff_iff, beq_iff_eq, h.meets_iff hroom, decide_eq_true_iff]
    rw [hload, hacc, hmeet, hflag, Bool.and_false]
    by_cases hlast : f.items.length + 1 = 2 ^ a
    · have hpos : ¬ f.items.length = 0 := by omega
      rw [decide_eq_true hlast, decide_eq_false hpos]
      cases i.wrEn <;> cases i.rdEn <;> simp <;> omega
    · rw [decide_eq_false hlast, Bool.and_false]
      refine iff_of_true (iff_of_false (by simp) ?_) fun _ _ => hlast
      have hle := Bool.toNat_le i.wrEn
      omega

/-- `full` is asserted exactly when all slots hold a request that has not been read, and with a free
slot a write is accepted. -/
def FullExact (mem : BitVec a → BitVec w) (is : List (Input w)) : Prop :=
  (full (run step (reset mem) is) = true ↔ (unread mem is).length = 2 ^ a) ∧
    ((unread mem is).length < 2 ^ a →
      ∀ i : Input w, i.wrEn = true → accepts (run step (reset mem) is) i = true)

theorem fullExact_iff (mem : BitVec a → BitVec w) (is : List (Input w)) :
    FullExact mem is ↔ (full (run step (reset mem) is) = true ↔ (unread mem is).length = 2 ^ a) := by
  refine and_iff_left_of_imp fun hexact hroom i hi => ?_
  have hflag : full (run step (reset mem) is) = false :=
    Bool.eq_false_iff.mpr fun hfull => hroom.ne (hexact.mp hfull)
  rw [accepts, hi, hflag]
  rfl

/-- **When the flag is exact.**  For every width, every memory and every sequence of writes and reads
after reset: the flag is exact all along exactly when no write comes with a read while one slot is
free. -/
theorem full_exact_iff (ha : 1 ≤ a) (mem : BitVec a → BitVec w) (is : List (Input w)) :
    (∀ js, js <+: is → FullExact mem js) ↔
      ∀ js i, js ++ [i] <+: is → i.wrEn = true → i.rdEn = true →
        (unread mem js).length + 1 ≠ 2 ^ a := by
  induction is using List.reverseRecOn with
  | nil =>
    refine iff_of_true (fun js hjs => ?_) fun js i hjs => ?_
    · rw [List.prefix_nil.mp hjs, fullExact_iff]
      exact iff_of_false (by simp [run, full, reset]) (Nat.two_pow_pos a).ne
    · exact absurd (List.prefix_nil.mp hjs) (List.append_ne_nil_of_right_ne_nil _ (by simp))
  | append_singleton is i ih =>
    obtain ⟨f, h, hunread, hnext⟩ := run_unread ha mem is
    have hsplit : (∀ js j, js ++ [j] <+: is ++ [i] → j.wrEn = true → j.rdEn = true →
          (unread mem js).length + 1 ≠ 2 ^ a) ↔
        (i.wrEn = true → i.rdEn = true → f.items.length + 1 ≠ 2 ^ a) ∧
          ∀ js j, js ++ [j] <+: is → j.wrEn = true → j.rdEn = true →
            (unread mem js).length + 1 ≠ 2 ^ a := by
      constructor
      · intro hok
        refine ⟨hunread ▸ hok is i List.prefix_rfl, fun js j hjs => ?_⟩
        exact hok js j (hjs.trans (List.prefix_append ..))
      · rintro ⟨hlast, hok⟩ js j hjs
        rcases List.prefix_concat_iff.mp hjs with heq | hjs
        · obtain ⟨rfl, rfl⟩ := List.append_singleton_inj.mp heq
          exact hunread.symm ▸ hlast
        · exact hok js j hjs
    rw [hsplit]
    simp only [List.prefix_concat_iff, or_imp, forall_and, forall_eq]
    constructor
    · rintro ⟨hnew, hold⟩
      have hexact := (fullExact_iff mem is).mp (hold is List.prefix_rfl)
      rw [fullExact_iff, run_snoc, hnext] at hnew
      rw [hunread] at hexact
      exact ⟨(h.full_step_iff ha hexact i).mp hnew, ih.mp hold⟩
    · rintro ⟨hlast, hok⟩
      have hold := ih.mpr hok
      have hexact := (fullExact_iff mem is).mp (hold is List.prefix_rfl)
      rw [hunread] at hexact
      refine ⟨?_, hold⟩
      rw [fullExact_iff, run_snoc, hnext]
      exact (h.full_step_iff ha hexact i).mpr hlast

/-- A queue of two slots: it is filled, refuses a write that comes with a read, is emptied, and takes a
write that comes with a read while it is empty. -/
def fillAndDrain : List (Input 8) :=
  [⟨true, 1, false⟩, ⟨true, 2, false⟩, ⟨true, 3, true⟩, ⟨false, 0, true⟩, ⟨true, 4, true⟩]

theorem full_exact_iff_two_slots :
    let mem : BitVec 1 → BitVec 8 := fun _ => 0
    full (run step (reset mem) (fillAndDrain.take 2)) = true ∧
      (∀ js i, js ++ [i] <+: fillAndDrain → i.wrEn = true → i.rdEn = true →
        (unread mem js).length + 1 ≠ 2 ^ 1) ∧
      ((∀ js, js <+: fillAndDrain → FullExact mem js) ↔
        ∀ js i, js ++ [i] <+: fillAndDrain → i.wrEn = true → i.rdEn = true →
          (unread mem js).length + 1 ≠ 2 ^ 1) := by
  intro mem
  refine ⟨by decide, fun js i hjs hw hr => ?_, full_exact_iff (by decide) _ _⟩
  have hprefixes : ∀ l ∈ fillAndDrain.inits, ∀ i ∈ l.getLast?, i.wrEn = true → i.rdEn = true →
      (unread mem l.dropLast).length + 1 ≠ 2 ^ 1 := by decide
  have hlen := hprefixes (js ++ [i]) ((List.mem_inits _ _).mpr hjs) i (by simp) hw hr
  rwa [List.dropLast_concat] at hlen

/-- **The flag is set with a free slot**: in a queue of the default size fifteen requests are written,
and then one is written while one is read. -/
theorem full_with_free_slot :
    let mem : BitVec 4 → BitVec 64 := fun _ => 0
    let is : List (Input 64) := List.replicate 15 ⟨true, 1, false⟩ ++ [⟨true, 1, true⟩]
    full (run step (reset mem) is) = true ∧ (unread mem is).length = 15 ∧
      ¬ FullExact mem is := by
  intro mem is
  have hfull : full (run step (reset mem) is) = true := by decide
  have hlen : (unread mem is).length = 15 := by decide
  refine ⟨hfull, hlen, fun h => ?_⟩
  have := h.1.mp hfull
  omega

end FtjSsdSim.Hdl.SubmissionQueue
