import Mathlib
import FtjSsdSim.Library.Machine
import FtjSsdSim.Hdl.TopController

/-!
# Bursts on the AXI channels

What passes on the five AXI4 channels of the controller, read off its pins: a transfer takes place in
a cycle in which a channel's `valid` and `ready` are both high.

* `Event`, `handshakes`, `history` — the transfers of a cycle and of a run;
* `ObeysAxi` — the host keeps a `valid` and its payload until the handshake;
* `ReadBack` — the transfers hold an acknowledged write burst, a later read burst of the same range
  and its answer;
* `Silent`, `Settled` — what a piece of a run has to end with for the next one to be put behind it.
-/

namespace FtjSsdSim.Hdl.Axi

open FtjSsdSim.Library FtjSsdSim.Hdl.TopController

/-- The pins of a cycle. -/
abbrev Cycle := AxiRegs × Host

/-- A transfer on one of the channels. -/
inductive Event where
  | aw (addr : BitVec 32) (len : Byte)
  | w (data : Word) (last : Bool)
  | b (resp : BitVec 2)
  | ar (addr : BitVec 32) (len : Byte)
  | r (data : Option Word) (resp : BitVec 2) (last : Bool)
  deriving DecidableEq, Repr

/-- The transfers of a cycle. -/
def handshakes (c : Cycle) : List Event :=
  (if c.2.awvalid && c.1.awready then [.aw c.2.awaddr c.2.awlen] else []) ++
  (if c.2.wvalid && c.1.wready then [.w c.2.wdata c.2.wlast] else []) ++
  (if c.1.bvalid && c.2.bready then [.b c.1.bresp] else []) ++
  (if c.2.arvalid && c.1.arready then [.ar c.2.araddr c.2.arlen] else []) ++
  (if c.1.rvalid && c.2.rready then [.r c.1.rdata c.1.rresp c.1.rlast] else [])

/-- The transfers of a run. -/
def history (cs : List Cycle) : List Event := cs.flatMap handshakes

theorem history_append (cs ds : List Cycle) : history (cs ++ ds) = history cs ++ history ds :=
  List.flatMap_append

/-- Read data is passed as the registers hold it. -/
theorem r_mem_history {cs : List Cycle} {d : Option Word} {resp : BitVec 2} {last : Bool}
    (h : Event.r d resp last ∈ history cs) : ∃ c ∈ cs, c.1.rvalid = true ∧ c.1.rdata = d := by
  obtain ⟨c, hc, hr⟩ := List.mem_flatMap.mp h
  refine ⟨c, hc, ?_⟩
  simp only [handshakes, List.mem_append] at hr
  rcases hr with (((hr | hr) | hr) | hr) | hr <;> split_ifs at hr with hv <;> simp_all

theorem w_mem_history {cs : List Cycle} {d : Word} {last : Bool}
    (h : Event.w d last ∈ history cs) :
    ∃ c ∈ cs, c.2.wvalid = true ∧ c.1.wready = true ∧ c.2.wlast = last := by
  obtain ⟨c, hc, hw⟩ := List.mem_flatMap.mp h
  refine ⟨c, hc, ?_⟩
  simp only [handshakes, List.mem_append] at hw
  rcases hw with (((hw | hw) | hw) | hw) | hw <;> split_ifs at hw with hv <;> simp_all

/-- A response that is taken is seen. -/
theorem b_mem_history {cs : List Cycle} {c : Cycle} (hc : c ∈ cs) (hv : c.1.bvalid = true)
    (hr : c.2.bready = true) : Event.b c.1.bresp ∈ history cs := by
  refine List.mem_flatMap.mpr ⟨c, hc, ?_⟩
  simp [handshakes, hv, hr]

/-! ### Requests and responses -/

/-- A read address transfer. -/
def Event.isAr : Event → Bool
  | .ar .. => true
  | _ => false

/-- A read data transfer. -/
def Event.isR : Event → Bool
  | .r .. => true
  | _ => false

/-- The transfer that completes a write burst. -/
def Event.isLastBeat : Event → Bool
  | .w _ last => last
  | _ => false

/-- A write response transfer. -/
def Event.isB : Event → Bool
  | .b _ => true
  | _ => false

section

variable (c : Cycle)

theorem countP_isLastBeat : (handshakes c).countP Event.isLastBeat =
    if c.2.wvalid = true ∧ c.1.wready = true ∧ c.2.wlast = true then 1 else 0 := by
  simp only [handshakes]
  split_ifs <;> simp_all [List.countP_cons, Event.isLastBeat]

theorem countP_isB : (handshakes c).countP Event.isB =
    if c.1.bvalid = true ∧ c.2.bready = true then 1 else 0 := by
  simp only [handshakes]
  split_ifs <;> simp_all [List.countP_cons, Event.isB]

theorem countP_isAr : (handshakes c).countP Event.isAr =
    if c.2.arvalid = true ∧ c.1.arready = true then 1 else 0 := by
  simp only [handshakes]
  split_ifs <;> simp_all [List.countP_cons, Event.isAr]

theorem countP_isR : (handshakes c).countP Event.isR =
    if c.1.rvalid = true ∧ c.2.rready = true then 1 else 0 := by
  simp only [handshakes]
  split_ifs <;> simp_all [List.countP_cons, Event.isR]

end

/-! ### The discipline of the host -/

/-- A `valid` without its `ready` comes with the same payload in the next cycle. -/
structure Held (c d : Cycle) : Prop where
  aw : c.2.awvalid = true → c.1.awready = false →
    d.2.awvalid = true ∧ d.2.awaddr = c.2.awaddr ∧ d.2.awlen = c.2.awlen
  w : c.2.wvalid = true → c.1.wready = false →
    d.2.wvalid = true ∧ d.2.wdata = c.2.wdata ∧ d.2.wlast = c.2.wlast
  ar : c.2.arvalid = true → c.1.arready = false →
    d.2.arvalid = true ∧ d.2.araddr = c.2.araddr ∧ d.2.arlen = c.2.arlen

theorem held_same (r r' : AxiRegs) (i : Host) : Held (r, i) (r', i) where
  aw hv _ := ⟨hv, rfl, rfl⟩
  w hv _ := ⟨hv, rfl, rfl⟩
  ar hv _ := ⟨hv, rfl, rfl⟩

/-- The host keeps every `valid` until its `ready`. -/
def ObeysAxi (cs : List Cycle) : Prop := cs.IsChain Held

/-- No request of the host is left waiting. -/
structure Settled (c : Cycle) : Prop where
  aw : c.2.awvalid = true → c.1.awready = true
  w : c.2.wvalid = true → c.1.wready = true
  ar : c.2.arvalid = true → c.1.arready = true

theorem Settled.held {c : Cycle} (h : Settled c) (d : Cycle) : Held c d where
  aw hv hr := absurd ((h.aw hv).symm.trans hr) (by decide)
  w hv hr := absurd ((h.w hv).symm.trans hr) (by decide)
  ar hv hr := absurd ((h.ar hv).symm.trans hr) (by decide)

theorem obeysAxi_of_settled {cs : List Cycle} (h : ∀ c ∈ cs, Settled c) : ObeysAxi cs := by
  induction cs with
  | nil => exact .nil
  | cons c cs ih =>
    refine (ih fun d hd => h d (List.mem_cons_of_mem _ hd)).cons fun d _ => ?_
    exact (h c (List.mem_cons_self ..)).held d

theorem handshakes_silent (r : AxiRegs) : handshakes (r, Host.silent) = [] := by
  simp [handshakes, Host.silent]

/-! ### Single requests -/

/-- The host requests a write burst. -/
def awRequest (addr : BitVec 32) (len : Byte) : Host :=
  { Host.silent with awvalid := true, awaddr := addr, awlen := len }

/-- The host offers a beat. -/
def wRequest (data : Word) (last : Bool) : Host :=
  { Host.silent with wvalid := true, wdata := data, wlast := last }

/-- The host takes a write response. -/
def bTake : Host := { Host.silent with bready := true }

/-- The host requests a read burst. -/
def arRequest (addr : BitVec 32) (len : Byte) : Host :=
  { Host.silent with arvalid := true, araddr := addr, arlen := len }

/-- The host takes a beat. -/
def rTake : Host := { Host.silent with rready := true }

section

variable (a : AxiRegs) (addr : BitVec 32) (len : Byte) (d : Word) (last : Bool)

theorem handshakes_aw :
    handshakes (a, awRequest addr len) = if a.awready = true then [.aw addr len] else [] := by
  simp [handshakes, awRequest, Host.silent]

theorem handshakes_w :
    handshakes (a, wRequest d last) = if a.wready = true then [.w d last] else [] := by
  simp [handshakes, wRequest, Host.silent]

theorem handshakes_b : handshakes (a, bTake) = if a.bvalid = true then [.b a.bresp] else [] := by
  simp [handshakes, bTake, Host.silent]

theorem handshakes_ar :
    handshakes (a, arRequest addr len) = if a.arready = true then [.ar addr len] else [] := by
  simp [handshakes, arRequest, Host.silent]

theorem handshakes_r :
    handshakes (a, rTake) = if a.rvalid = true then [.r a.rdata a.rresp a.rlast] else [] := by
  simp [handshakes, rTake, Host.silent]

variable {a}

theorem settled_aw (h : a.awready = true) : Settled (a, awRequest addr len) :=
  ⟨fun _ => h, (fun hv => by cases hv), (fun hv => by cases hv)⟩

theorem settled_w (h : a.wready = true) : Settled (a, wRequest d last) :=
  ⟨(fun hv => by cases hv), fun _ => h, (fun hv => by cases hv)⟩

theorem settled_ar (h : a.arready = true) : Settled (a, arRequest addr len) :=
  ⟨(fun hv => by cases hv), (fun hv => by cases hv), fun _ => h⟩

theorem settled_take (h : Host) (haw : h.awvalid = false) (hw : h.wvalid = false)
    (har : h.arvalid = false) : Settled (a, h) where
  aw hv := absurd (hv.symm.trans haw) (by decide)
  w hv := absurd (hv.symm.trans hw) (by decide)
  ar hv := absurd (hv.symm.trans har) (by decide)

end

/-! ### Writes read back -/

/-- A beat on a data channel: the word and the `last` flag. -/
abbrev Beat := Option Word × Bool

/-- The beats of a burst, the flag on the last one only. -/
def beats : List Word → List Beat
  | [] => []
  | [d] => [(some d, true)]
  | d :: ds => (some d, false) :: beats ds

/-- The words of a burst are defined. -/
theorem isSome_of_mem_beats {ds : List Word} {x : Beat} (h : x ∈ beats ds) : x.1.isSome := by
  induction ds with
  | nil => cases h
  | cons d ds ih =>
    cases ds with
    | nil => rw [List.mem_singleton.mp h]; rfl
    | cons e es =>
      rcases List.mem_cons.mp h with rfl | h
      · rfl
      · exact ih h

/-- The last beat has its flag. -/
theorem exists_last_beat {ds : List Word} (h : ds ≠ []) : ∃ d, (some d, true) ∈ beats ds := by
  induction ds with
  | nil => exact absurd rfl h
  | cons d ds ih =>
    cases ds with
    | nil => exact ⟨d, List.mem_singleton_self _⟩
    | cons e es =>
      obtain ⟨x, hx⟩ := ih (List.cons_ne_nil _ _)
      exact ⟨x, List.mem_cons_of_mem _ hx⟩

/-- The beat of a write data transfer. -/
def Event.writeBeat : Event → Option Beat
  | .w d last => some (some d, last)
  | _ => none

/-- The beat of a read data transfer. -/
def Event.readBeat : Event → Option Beat
  | .r d _ last => some (d, last)
  | _ => none

/-- The beats that answer a read burst, from the transfers after its address. -/
def answer (rest : List Event) : List Beat :=
  (rest.takeWhile fun e => !e.isAr).filterMap Event.readBeat

/-- Bursts of `m` and `n` beats of eight bytes at these addresses share a byte. -/
def Overlaps (a : BitVec 32) (m : ℕ) (b : BitVec 32) (n : ℕ) : Prop :=
  a.toNat < b.toNat + 8 * n ∧ b.toNat < a.toNat + 8 * m

/-- The transfers hold a write burst of `words`, its response, no overlapping write burst after it, a
read burst of as many beats from the same address, and its answer up to `RLAST`. -/
inductive ReadBack : List Event → List Word → List Beat → Prop where
  | mk {pre burst later rest : List Event} {addr : BitVec 32} {len : Byte} {resp : BitVec 2}
      {words : List Word} :
      words.length = len.toNat + 1 →
      burst.filterMap Event.writeBeat = beats words →
      (∀ resp, Event.b resp ∉ burst) →
      (∀ a l, Event.aw a l ∈ burst ++ later → ¬ Overlaps addr words.length a (l.toNat + 1)) →
      (∃ x ∈ answer rest, x.2 = true) →
      ReadBack (pre ++ .aw addr len :: burst ++ .b resp :: later ++ .ar addr len :: rest) words
        (answer rest)

/-- Where no defined word is ever read, no answer is the burst that was written. -/
theorem ReadBack.ne_beats {es : List Event} {words : List Word} {ans : List Beat}
    (h : ReadBack es words ans)
    (hnone : ∀ d resp last, Event.r d resp last ∈ es → d = none) : ans ≠ beats words := by
  obtain ⟨-, -, -, -, x, hx, -⟩ := h
  intro he
  have hsome := isSome_of_mem_beats (he ▸ hx)
  obtain ⟨e, hmem, hbeat⟩ := List.mem_filterMap.mp hx
  cases e with
  | r d resp last =>
    obtain rfl := hnone d resp last (List.mem_append_right _
      (List.mem_cons_of_mem _ (List.takeWhile_subset _ hmem)))
    cases hbeat
    cases hsome
  | _ => cases hbeat

end FtjSsdSim.Hdl.Axi
