import Mathlib
import FtjSsdSim.Library.Machine
import FtjSsdSim.Hdl.Axi

/-!
# The responses of the controller

The controller serves one burst at a time, so its registered outputs are a function of the state and
of `curr_op` (`Outputs`), and at most one response is owed: `Fsm.owesB` and `Fsm.owesR` are the
states between the handshake that ends a request and the handshake of its response.  With a host
that holds its requests, the transfers of every run balance with what is owed (`balanced_step`,
`run_balanced`), whatever the flash does.
-/

namespace FtjSsdSim.Hdl.TopController

open FtjSsdSim.Library

variable {p : Params}

/-- The pins of the AXI channels in a run. -/
def axiPins (s : State p) (is : List Input) : List Axi.Cycle :=
  (cycles step s is).map fun c => (c.1.axi, c.2.toHost)

theorem axiPins_snoc (s : State p) (is : List Input) (i : Input) :
    axiPins s (is ++ [i]) = axiPins s is ++ [((run step s is).axi, i.toHost)] := by
  rw [axiPins, cycles_append, List.map_append]
  rfl

/-! ### The outputs -/

/-- The value of `curr_op` that a state goes with. -/
def Fsm.op : Fsm → Option Bool
  | .coalesce | .eccGen | .pageProgram | .progWait | .wlRemap => some true
  | .pageRead | .readWait | .afeSense => some false
  | _ => none

/-- What the outputs show in each state. -/
structure Outputs (s : State p) : Prop where
  awready : s.axi.awready = true ↔ s.state = .fetch
  wready : s.axi.wready = true ↔ s.state = .coalesce
  arready : s.axi.arready = true ↔ s.state = .ftlTranslate ∧ s.currOp = false
  bvalid : s.axi.bvalid = true → s.state = .respond ∧ s.currOp = true
  bresp : s.axi.bresp = 0
  rvalid : s.axi.rvalid = true ↔ s.state = .respond ∧ s.currOp = false
  op : ∀ b, s.state.op = some b → s.currOp = b

theorem outputs_reset (m : Memories p) : Outputs (reset m) where
  awready := by simp [reset]
  wready := by simp [reset]
  arready := by simp [reset]
  bvalid h := by cases h
  bresp := rfl
  rvalid := by simp [reset]
  op b h := by cases h

theorem awready_step {s : State p} (h : Outputs s) (i : Input) :
    (step s i).axi.awready = true ↔ (step s i).state = .fetch := by
  have haw := h.awready
  rw [axi_step, state_step]
  cases hs : s.state <;> simp only [hs] at haw ⊢ <;> grind

theorem wready_step {s : State p} (h : Outputs s) (i : Input) :
    (step s i).axi.wready = true ↔ (step s i).state = .coalesce := by
  have hw := h.wready
  rw [axi_step, state_step]
  cases hs : s.state <;> simp only [hs] at hw ⊢ <;> grind

theorem arready_step {s : State p} (h : Outputs s) (i : Input) :
    (step s i).axi.arready = true ↔
      (step s i).state = .ftlTranslate ∧ (step s i).currOp = false := by
  have har := h.arready
  have hop := h.op
  have hcurr := currOp_step s i
  rw [axi_step, state_step]
  rw [state_step] at hcurr
  cases hs : s.state <;> simp only [hs, Fsm.op] at har hop hcurr ⊢ <;> grind

theorem bvalid_step {s : State p} (h : Outputs s) (i : Input) :
    (step s i).axi.bvalid = true → (step s i).state = .respond ∧ (step s i).currOp = true := by
  have hb := h.bvalid
  have hcurr := currOp_step s i
  rw [axi_step, state_step]
  cases hs : s.state <;> simp only [hs] at hb hcurr ⊢ <;> grind

theorem bresp_step {s : State p} (h : Outputs s) (i : Input) : (step s i).axi.bresp = 0 := by
  have hresp := h.bresp
  rw [axi_step]
  cases hs : s.state <;> simp only <;> grind

theorem rvalid_step {s : State p} (h : Outputs s) (i : Input) :
    (step s i).axi.rvalid = true ↔ (step s i).state = .respond ∧ (step s i).currOp = false := by
  have hr := h.rvalid
  have hop := h.op
  have hcurr := currOp_step s i
  rw [axi_step, state_step]
  cases hs : s.state <;> simp only [hs, Fsm.op] at hr hop hcurr ⊢ <;> grind

theorem op_step {s : State p} (h : Outputs s) (i : Input) (b : Bool)
    (hb : (step s i).state.op = some b) : (step s i).currOp = b := by
  have hop := h.op
  have hcurr := currOp_step s i
  rw [state_step] at hb
  cases hs : s.state <;> simp only [hs, Fsm.op] at hb hop hcurr ⊢ <;> grind [Fsm.op]

theorem Outputs.step {s : State p} (h : Outputs s) (i : Input) :
    Outputs (TopController.step s i) :=
  ⟨awready_step h i, wready_step h i, arready_step h i, bvalid_step h i, bresp_step h i,
    rvalid_step h i, op_step h i⟩

/-! ### What is owed -/

/-- The states from the last beat of a write burst to its response. -/
def Fsm.owesB : Fsm → Bool
  | .ftlTranslate | .eccGen | .pageProgram | .progWait | .wlRemap | .respond => true
  | _ => false

/-- The states from the address of a read burst to its answer. -/
def Fsm.owesR : Fsm → Bool
  | .pageRead | .readWait | .afeSense | .respond => true
  | _ => false

/-- The write responses that are owed. -/
def owedB (s : State p) : ℕ := if s.currOp = true ∧ s.state.owesB = true then 1 else 0

/-- The read answers that are owed. -/
def owedR (s : State p) : ℕ := if s.currOp = false ∧ s.state.owesR = true then 1 else 0

theorem owedB_le (s : State p) : owedB s ≤ 1 := by
  rw [owedB]
  split_ifs <;> omega

theorem owedR_le (s : State p) : owedR s ≤ 1 := by
  rw [owedR]
  split_ifs <;> omega

/-- A last beat makes a response owed, and the response settles it. -/
theorem owedB_step {s : State p} (h : Outputs s) (i : Input) :
    owedB s + (Axi.handshakes (s.axi, i.toHost)).countP Axi.Event.isLastBeat =
      owedB (step s i) + (Axi.handshakes (s.axi, i.toHost)).countP Axi.Event.isB := by
  have hw := h.wready
  have hb := h.bvalid
  have hop := h.op
  have hcurr := currOp_step s i
  rw [state_step] at hcurr
  rw [Axi.countP_isLastBeat, Axi.countP_isB, owedB, owedB, state_step]
  cases hs : s.state <;> simp only [hs, Fsm.op, Fsm.owesB] at hw hb hop hcurr ⊢ <;> grind [Fsm.owesB]

/-- The read address of a host that holds it makes an answer owed, and the answer settles it. -/
theorem owedR_step {s : State p} (h : Outputs s) {i : Input}
    (har : s.state = .ftlTranslate → s.currOp = false → i.arvalid = true) :
    owedR s + (Axi.handshakes (s.axi, i.toHost)).countP Axi.Event.isAr =
      owedR (step s i) + (Axi.handshakes (s.axi, i.toHost)).countP Axi.Event.isR := by
  have hready := h.arready
  have hr := h.rvalid
  have hop := h.op
  have hcurr := currOp_step s i
  rw [state_step] at hcurr
  rw [Axi.countP_isAr, Axi.countP_isR, owedR, owedR, state_step]
  cases hs : s.state <;>
    simp only [hs, Fsm.op, Fsm.owesR] at har hready hr hop hcurr ⊢ <;> grind [Fsm.owesR]

/-! ### Runs -/

theorem run_outputs (m : Memories p) (is : List Input) : Outputs (run step (reset m) is) :=
  run_invariant (P := fun _ => True) (outputs_reset m) (fun _ i h _ => h.step i) is
    fun _ _ => trivial

/-- A read burst is looked up in the cycle after its address is seen, which has waited. -/
theorem lookup_entered {s : State p} (h : Outputs s) {i : Input}
    (hs : (step s i).state = .ftlTranslate) (hop : (step s i).currOp = false) :
    i.arvalid = true ∧ s.axi.arready = false := by
  have hcoal := h.op
  rw [currOp_step] at hop
  rw [state_step] at hs hop
  cases hst : s.state <;> simp only [hst, Fsm.op] at hs hop hcoal <;> grind

/-- A host that holds its requests still shows the address when a read burst is looked up. -/
theorem lookup_held (m : Memories p) {is : List Input} {i : Input}
    (hobeys : Axi.ObeysAxi (axiPins (reset m) (is ++ [i])))
    (hs : (run step (reset m) is).state = .ftlTranslate)
    (hop : (run step (reset m) is).currOp = false) : i.arvalid = true := by
  induction is using List.reverseRecOn with
  | nil => cases hs
  | append_singleton is j _ =>
    rw [axiPins_snoc, axiPins_snoc, List.append_assoc] at hobeys
    rw [run_snoc] at hs hop
    obtain ⟨hvalid, hwait⟩ := lookup_entered (run_outputs m is) hs hop
    have hheld := List.isChain_pair.mp (List.isChain_append.mp hobeys).2.1
    exact (hheld.ar hvalid hwait).1

/-- Every response of a run answers a request of the run, up to what is owed. -/
theorem run_balanced (m : Memories p) (is : List Input)
    (hobeys : Axi.ObeysAxi (axiPins (reset m) is)) :
    (Axi.history (axiPins (reset m) is)).countP Axi.Event.isLastBeat =
        (Axi.history (axiPins (reset m) is)).countP Axi.Event.isB +
          owedB (run step (reset m) is) ∧
      (Axi.history (axiPins (reset m) is)).countP Axi.Event.isAr =
        (Axi.history (axiPins (reset m) is)).countP Axi.Event.isR +
          owedR (run step (reset m) is) := by
  induction is using List.reverseRecOn with
  | nil => exact ⟨rfl, rfl⟩
  | append_singleton is i ih =>
    have hpins := axiPins_snoc (reset m) is i
    obtain ⟨hb, hr⟩ := ih (List.IsChain.left_of_append (hpins ▸ hobeys))
    have hout := run_outputs m is
    have hbstep := owedB_step hout i
    have hrstep := owedR_step hout (lookup_held m hobeys)
    rw [hpins, run_snoc, Axi.history_append, List.countP_append, List.countP_append,
      List.countP_append, List.countP_append]
    have hlast : Axi.history [((run step (reset m) is).axi, i.toHost)] =
        Axi.handshakes ((run step (reset m) is).axi, i.toHost) := List.flatMap_singleton ..
    rw [hlast]
    constructor
    · omega
    · omega

/-- A response that is not taken is shown again. -/
theorem bvalid_held {s : State p} (h : Outputs s) {i : Input} (hv : s.axi.bvalid = true)
    (hr : i.bready = false) :
    (step s i).axi.bvalid = true ∧ (step s i).axi.bresp = s.axi.bresp := by
  obtain ⟨hs, hop⟩ := h.bvalid hv
  rw [axi_step, h.bresp, hs]
  simp only [hop, hr, Bool.false_eq_true, false_and, if_true, if_false, and_self]

/-- An answer that is not taken is shown again. -/
theorem rvalid_held {s : State p} (h : Outputs s) {i : Input} (hv : s.axi.rvalid = true)
    (hr : i.rready = false) : (step s i).axi = s.axi := by
  obtain ⟨hs, hop⟩ := h.rvalid.mp hv
  rw [axi_step, hs]
  simp only [hop, hr, Bool.false_eq_true, false_and, if_false]

/-- **Safety of the responses**, after every run from reset with a host that holds its requests and
any flash: no response is given before its burst is complete and at most one is owed, on each of
the two channels, only one of them shows a response, and it shows it unchanged until it is taken. -/
theorem responses_safe (m : Memories p) (is : List Input)
    (hobeys : Axi.ObeysAxi (axiPins (reset m) is)) :
    let es := Axi.history (axiPins (reset m) is)
    let s := run step (reset m) is
    (es.countP Axi.Event.isB ≤ es.countP Axi.Event.isLastBeat ∧
        es.countP Axi.Event.isLastBeat ≤ es.countP Axi.Event.isB + 1) ∧
      (es.countP Axi.Event.isR ≤ es.countP Axi.Event.isAr ∧
        es.countP Axi.Event.isAr ≤ es.countP Axi.Event.isR + 1) ∧
      ¬ (s.axi.bvalid = true ∧ s.axi.rvalid = true) ∧
      (∀ i : Input, s.axi.bvalid = true → i.bready = false →
        (step s i).axi.bvalid = true ∧ (step s i).axi.bresp = s.axi.bresp) ∧
      (∀ i : Input, s.axi.rvalid = true → i.rready = false →
        (step s i).axi.rvalid = true ∧ (step s i).axi.rdata = s.axi.rdata ∧
          (step s i).axi.rresp = s.axi.rresp ∧ (step s i).axi.rlast = s.axi.rlast) := by
  intro es s
  have hout : Outputs s := run_outputs m is
  have hb : es.countP Axi.Event.isLastBeat = es.countP Axi.Event.isB + owedB s :=
    (run_balanced m is hobeys).1
  have hr : es.countP Axi.Event.isAr = es.countP Axi.Event.isR + owedR s :=
    (run_balanced m is hobeys).2
  have hble := owedB_le s
  have hrle := owedR_le s
  refine ⟨⟨by omega, by omega⟩, ⟨by omega, by omega⟩, ?_, fun i => bvalid_held hout, ?_⟩
  · rintro ⟨hbv, hrv⟩
    have hop := (hout.bvalid hbv).2
    rw [(hout.rvalid.mp hrv).2] at hop
    cases hop
  · intro i hv hready
    rw [rvalid_held hout hv hready]
    exact ⟨hv, rfl, rfl, rfl⟩

/-- A host that asks for both bursts at once and takes every response. -/
def greedy : Host where
  awvalid := true
  awaddr := 0
  awlen := 0
  wvalid := true
  wdata := 5
  wlast := true
  bready := true
  arvalid := true
  araddr := 0
  arlen := 0
  rready := true

/-- The same host before it has anything to write. -/
def reader : Host := { greedy with awvalid := false, wvalid := false }

theorem axiPins_append (s : State p) (is js : List Input) :
    axiPins s (is ++ js) = axiPins s is ++ axiPins (run step s is) js := by
  rw [axiPins, cycles_append, List.map_append]
  rfl

/-- A host that repeats what it asks for obeys, whatever the controller shows. -/
theorem axiPins_obeys (s : State p) (is : List Input)
    (h : is.IsChain fun i j => ∀ r r', Axi.Held (r, i.toHost) (r', j.toHost)) :
    Axi.ObeysAxi (axiPins s is) := by
  induction is generalizing s with
  | nil => exact .nil
  | cons i is ih =>
    refine (ih (step s i) h.tail).cons fun d hd => ?_
    cases is with
    | nil => cases hd
    | cons j js =>
      obtain rfl : ((step s i).axi, j.toHost) = d := Option.some.inj hd
      exact (List.isChain_cons_cons.mp h).1 _ _

theorem axiPins_replicate_obeys (s : State p) (n : ℕ) (i : Input) :
    Axi.ObeysAxi (axiPins s (List.replicate n i)) :=
  axiPins_obeys s _ (List.isChain_replicate_of_rel _ fun r r' => Axi.held_same r r' _)

/-- A wait state counts down and changes nothing else once the pins are released. -/
theorem wait_run {s : State p} (i : Input) (hs : s.state = .progWait ∨ s.state = .readWait)
    (hpins : s.nand.release = s.nand) (n : ℕ) (hn : n ≤ s.nandWaitCnt.toNat) :
    run step s (List.replicate n i) =
      { s with nandWaitCnt := s.nandWaitCnt - BitVec.ofNat 19 n } := by
  induction n generalizing s with
  | zero => simp [run]
  | succ n ih =>
    have hwait : s.nandWaitCnt > 0 := (waiting_iff _).mpr fun h => by
      rw [h] at hn
      exact absurd hn (by simp)
    have hstep : step s i = { s with nandWaitCnt := s.nandWaitCnt - 1 } := by
      rcases hs with hs | hs
      · simp only [step, hs, progWait, if_pos hwait, hpins]
      · simp only [step, hs, readWait, if_pos hwait, hpins]
    have hcount : s.nandWaitCnt - 1 - BitVec.ofNat 19 n = s.nandWaitCnt - BitVec.ofNat 19 (n + 1) := by
      rw [BitVec.ofNat_add]
      bv_omega
    have hless : n ≤ (s.nandWaitCnt - 1).toNat := by bv_omega
    rw [List.replicate_succ, run_cons, hstep]
    exact (ih (s := { s with nandWaitCnt := s.nandWaitCnt - 1 }) hs hpins hless).trans (by rw [hcount])

/-- The parameters with 200 blocks: fewer than the ten bits of the counter hold, and enough not to
collect at once. -/
def twoHundred : Params := { defaults with blocks := 200 }

/-- The host reads, and then reads and writes. -/
def readThenWrite : List Input :=
  List.replicate 2762 ⟨reader, true, none⟩ ++ List.replicate 30009 ⟨greedy, true, none⟩

theorem readThenWrite_obeys (s : State p) : Axi.ObeysAxi (axiPins s readThenWrite) := by
  refine axiPins_obeys s _ (List.isChain_append.mpr ⟨?_, ?_, ?_⟩)
  · exact List.isChain_replicate_of_rel _ fun r r' => Axi.held_same r r' _
  · exact List.isChain_replicate_of_rel _ fun r r' => Axi.held_same r r' _
  · intro i hi j hj r r'
    rw [List.eq_of_mem_replicate (List.mem_of_mem_getLast? hi),
      List.eq_of_mem_replicate (List.mem_of_mem_head? hj)]
    exact ⟨fun h => (Bool.false_ne_true h).elim, fun h => (Bool.false_ne_true h).elim,
      fun h _ => ⟨h, rfl, rfl⟩⟩

theorem run_wait {s : State p} (i : Input) {is : List Input} {n : ℕ}
    (hs : (run step s is).state = .progWait ∨ (run step s is).state = .readWait)
    (hpins : (run step s is).nand.release = (run step s is).nand)
    (hn : (run step s is).nandWaitCnt = BitVec.ofNat 19 n) (hsmall : n < 2 ^ 19) :
    run step s (is ++ List.replicate n i) = { run step s is with nandWaitCnt := 0 } := by
  have hcount : (run step s is).nandWaitCnt.toNat = n := by
    rw [hn, BitVec.toNat_ofNat, Nat.mod_eq_of_lt hsmall]
  rw [run_append, wait_run i hs hpins n hcount.ge, hn, BitVec.sub_self]
  rfl

/-- The end of the wait for the page that is read. -/
def pageThere : State twoHundred :=
  { run step (reset (blank twoHundred)) (List.replicate 260 ⟨reader, true, none⟩) with
    nandWaitCnt := 0 }

/-- The end of the wait for the page that is written. -/
def pageStored : State twoHundred :=
  { run step pageThere (List.replicate 3 ⟨reader, true, none⟩ ++
      List.replicate 7 ⟨greedy, true, none⟩) with
    nandWaitCnt := 0 }

theorem run_pageThere : run step (reset (blank twoHundred)) (List.replicate 260 ⟨reader, true, none⟩ ++
    List.replicate 2499 ⟨reader, true, none⟩) = pageThere :=
  run_wait _ (by decide +kernel) (by decide +kernel) (by decide +kernel) (by decide)

theorem run_pageStored : run step pageThere ((List.replicate 3 ⟨reader, true, none⟩ ++
    List.replicate 7 ⟨greedy, true, none⟩) ++ List.replicate 29999 ⟨greedy, true, none⟩) =
      pageStored :=
  run_wait _ (by decide +kernel) (by decide +kernel) (by decide +kernel) (by decide)

theorem readThenWrite_eq : readThenWrite = (List.replicate 260 ⟨reader, true, none⟩ ++
    List.replicate 2499 ⟨reader, true, none⟩) ++ (((List.replicate 3 ⟨reader, true, none⟩ ++
      List.replicate 7 ⟨greedy, true, none⟩) ++ List.replicate 29999 ⟨greedy, true, none⟩) ++
        List.replicate 3 ⟨greedy, true, none⟩) := by
  simp only [readThenWrite, ← List.append_assoc, List.replicate_append_replicate]
  simp only [List.append_assoc, List.replicate_append_replicate]

/-- What passes in a piece of a run passes in the run. -/
theorem countP_history_le (e : Axi.Event → Bool) {s t : State p} {is : List Input}
    (ht : run step s is = t) (js ks : List Input) : (Axi.history (axiPins t js)).countP e ≤
      (Axi.history (axiPins s (is ++ (js ++ ks)))).countP e := by
  rw [axiPins_append, axiPins_append, Axi.history_append, Axi.history_append, List.countP_append,
    List.countP_append, ht]
  omega

/-- In that run a read and a write are answered. -/
theorem readThenWrite_answered :
    let es := Axi.history (axiPins (reset (blank twoHundred)) readThenWrite)
    0 < es.countP Axi.Event.isR ∧ 0 < es.countP Axi.Event.isB := by
  have hread : (Axi.history (axiPins pageThere (List.replicate 3 ⟨reader, true, none⟩ ++
      List.replicate 7 ⟨greedy, true, none⟩))).countP Axi.Event.isR = 1 := by decide +kernel
  have hwritten : (Axi.history (axiPins pageStored (List.replicate 3
      ⟨greedy, true, none⟩))).countP Axi.Event.isB = 1 := by decide +kernel
  have hrest := run_pageStored
  rw [← run_pageThere, ← run_append] at hrest
  have hr := countP_history_le Axi.Event.isR run_pageThere (List.replicate 3 ⟨reader, true, none⟩ ++
    List.replicate 7 ⟨greedy, true, none⟩) (List.replicate 29999 ⟨greedy, true, none⟩ ++
      List.replicate 3 ⟨greedy, true, none⟩)
  have hb := countP_history_le Axi.Event.isB hrest (List.replicate 3 ⟨greedy, true, none⟩) []
  rw [hread] at hr
  rw [hwritten] at hb
  simp only [List.append_assoc, List.append_nil] at hr hb
  simp only [readThenWrite_eq, List.append_assoc]
  exact ⟨hr, hb⟩

/-- Both laws at work: a read burst, and then a write burst, with a host that takes every response. -/
theorem responses_safe_greedy :
    let es := Axi.history (axiPins (reset (blank twoHundred)) readThenWrite)
    let s := run step (reset (blank twoHundred)) readThenWrite
    (0 < es.countP Axi.Event.isR ∧ 0 < es.countP Axi.Event.isB) ∧
      (es.countP Axi.Event.isB ≤ es.countP Axi.Event.isLastBeat ∧
        es.countP Axi.Event.isLastBeat ≤ es.countP Axi.Event.isB + 1) ∧
      (es.countP Axi.Event.isR ≤ es.countP Axi.Event.isAr ∧
        es.countP Axi.Event.isAr ≤ es.countP Axi.Event.isR + 1) ∧
      ¬ (s.axi.bvalid = true ∧ s.axi.rvalid = true) ∧
      (∀ i : Input, s.axi.bvalid = true → i.bready = false →
        (step s i).axi.bvalid = true ∧ (step s i).axi.bresp = s.axi.bresp) ∧
      (∀ i : Input, s.axi.rvalid = true → i.rready = false →
        (step s i).axi.rvalid = true ∧ (step s i).axi.rdata = s.axi.rdata ∧
          (step s i).axi.rresp = s.axi.rresp ∧ (step s i).axi.rlast = s.axi.rlast) :=
  ⟨readThenWrite_answered, responses_safe (blank twoHundred) readThenWrite (readThenWrite_obeys _)⟩

end FtjSsdSim.Hdl.TopController
