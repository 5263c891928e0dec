import Mathlib
import FtjSsdSim.Library.Machine
import FtjSsdSim.Hdl.NandSystem

/-!
# Progress of the joined modules

From reset the controller and its flash initialise, and then answer every write burst and every read
burst, whatever the flash has stored.  Each part of such a run is a `Phase`, and phases compose.

* `exists_up` — both modules finish initialising;
* `exists_write` — a write burst of any length gets its response shown, while no block is worn out;
* `exists_read` — a read burst of any length gets its answer.
-/

namespace FtjSsdSim.Hdl.NandSystem

open FtjSsdSim.Library FtjSsdSim.Hdl

variable {p : TopController.Params} {q : NandFlash.Params}

/-! ### Phases of a run -/

/-- The inputs `is` take `s` to `t` with the transfers `es`, and leave no request waiting. -/
structure Phase (q : NandFlash.Params) (s : System p) (is : List TopController.Host)
    (es : List Axi.Event) (t : System p) : Prop where
  reach : run (step q) s is = t
  events : Axi.history (axiCycles q s is) = es
  obeys : Axi.ObeysAxi (axiCycles q s is)
  settled : ∀ c ∈ (axiCycles q s is).getLast?, Axi.Settled c

theorem axiCycles_append (s : System p) (is js : List TopController.Host) :
    axiCycles q s (is ++ js) = axiCycles q s is ++ axiCycles q (run (step q) s is) js := by
  rw [axiCycles, cycles_append, List.map_append]
  rfl

theorem Phase.append {s t u : System p} {is js : List TopController.Host}
    {es fs : List Axi.Event} (h : Phase q s is es t) (k : Phase q t js fs u) :
    Phase q s (is ++ js) (es ++ fs) u := by
  obtain ⟨rfl, rfl, hobeys, hsettled⟩ := h
  refine ⟨by rw [run_append, k.reach], ?_, ?_, ?_⟩
  · rw [axiCycles_append, Axi.history_append, k.events]
  · rw [axiCycles_append]
    exact List.IsChain.append hobeys k.obeys fun c hc d _ => (hsettled c hc).held d
  · rw [axiCycles_append, List.getLast?_append]
    intro c hc
    rcases Option.or_eq_some_iff.mp hc with hc | ⟨-, hc⟩
    · exact k.settled c hc
    · exact hsettled c hc

/-- Waiting transfers nothing. -/
theorem phase_wait (s : System p) (n : ℕ) :
    Phase q s (List.replicate n .silent) [] (run (step q) s (List.replicate n .silent)) := by
  have hsilent : ∀ c ∈ axiCycles q s (List.replicate n .silent), ∃ r, c = (r, .silent) := by
    intro c hc
    obtain ⟨⟨t, i⟩, ht, rfl⟩ := List.mem_map.mp hc
    obtain rfl := List.eq_of_mem_replicate (mem_of_mem_cycles ht)
    exact ⟨_, rfl⟩
  have hsettled : ∀ c ∈ axiCycles q s (List.replicate n .silent), Axi.Settled c := by
    intro c hc
    obtain ⟨r, rfl⟩ := hsilent c hc
    exact Axi.settled_take _ rfl rfl rfl
  refine ⟨rfl, List.flatMap_eq_nil_iff.mpr fun c hc => ?_, Axi.obeysAxi_of_settled hsettled,
    fun c hc => hsettled c (List.mem_of_getLast? hc)⟩
  obtain ⟨r, rfl⟩ := hsilent c hc
  exact Axi.handshakes_silent r

/-! ### Initialisation -/

/-- The `ready` and `valid` outputs of the five channels. -/
structure Shows (a : TopController.AxiRegs) (awready wready bvalid arready rvalid : Bool) :
    Prop where
  awready : a.awready = awready
  wready : a.wready = wready
  bvalid : a.bvalid = bvalid
  arready : a.arready = arready
  rvalid : a.rvalid = rvalid

/-- No channel shows a `valid` or a `ready`. -/
abbrev Silent (a : TopController.AxiRegs) : Prop := Shows a false false false false false

/-- Both modules are initialised and no collection is due. -/
structure Up (s : System p) : Prop where
  apart : Apart s
  flash : s.flash.state = .idle
  done : s.ctl.initDone = true
  enough : p.gcThreshold ≤ s.ctl.freeBlockCount.toNat

theorem Up.step {s : System p} (h : Up s) (hne : s.ctl.state ≠ .blockErase)
    (i : TopController.Host) : Up (NandSystem.step q s i) where
  apart := h.apart.step i
  flash := NandFlash.step_stays_idle q h.flash h.apart.pins.cle h.apart.pins.ale
  done := by
    rw [NandSystem.step, (TopController.init_step _ _).1, h.done, Bool.true_or]
  enough := by
    rw [NandSystem.step, TopController.freeBlockCount_step, if_neg hne]
    exact h.enough

/-- Without a request an idle controller stays idle and silent. -/
theorem idle_step {s : TopController.State p} {i : TopController.Input} (hs : s.state = .idle)
    (haxi : Silent s.axi) (henough : p.gcThreshold ≤ s.freeBlockCount.toNat)
    (hi : i.toHost = .silent) :
    (TopController.step s i).state = .idle ∧ Silent (TopController.step s i).axi := by
  have haw : i.awvalid = false := congrArg TopController.Host.awvalid hi
  have har : i.arvalid = false := congrArg TopController.Host.arvalid hi
  rw [TopController.state_step, TopController.axi_step]
  simp only [hs, haw, har, if_neg henough.not_gt, Bool.false_eq_true, false_and, if_false]
  split_ifs
  all_goals exact ⟨rfl, haxi.awready, haxi.wready, rfl, haxi.arready, rfl⟩

/-- The modules while they initialise. -/
structure Starting (q : NandFlash.Params) (s : System p) : Prop where
  apart : Apart s
  state : s.ctl.state = .idle
  axi : Silent s.ctl.axi
  enough : p.gcThreshold ≤ s.ctl.freeBlockCount.toNat
  range : s.ctl.initDone = false → TopController.InRange p s.ctl.peInitPtr
  filled : s.ctl.initDone = false → TopController.Filled s.ctl
  fresh : s.ctl.initDone = true → TopController.Fresh s.ctl.toMemories
  blocks : s.flash.state = .init → s.flash.initPtrBlk.toNat ≤ q.blocks

theorem starting_reset (m : TopController.Memories p) (f : NandFlash.Memories) (hpos : 1 ≤ p.blocks)
    (hT : p.gcThreshold ≤ p.blocks % 1024) : Starting q (reset m f) where
  apart := apart_reset m f
  state := rfl
  axi := ⟨rfl, rfl, rfl, rfl, rfl⟩
  enough := by rwa [reset, TopController.reset, BitVec.toNat_ofNat]
  range _ := hpos
  filled _ := TopController.filled_reset m
  fresh h := by cases h
  blocks _ := Nat.zero_le _

theorem Starting.step {s : System p} (h : Starting q s) (hle : p.blocks ≤ 1024)
    (hq : q.blocks < 1024) (hpage : q.pageBytes ≤ 8192) :
    Starting q (NandSystem.step q s .silent) := by
  obtain ⟨hstate, haxi⟩ := idle_step (i := input s .silent) h.state h.axi h.enough rfl
  have hcount : (TopController.step s.ctl (input s .silent)).freeBlockCount =
      s.ctl.freeBlockCount := by
    rw [TopController.freeBlockCount_step, if_neg (by simp [h.state])]
  have hstays : s.ctl.initDone = true →
      (TopController.step s.ctl (input s .silent)).initDone = true := fun hd => by
    rw [(TopController.init_step _ _).1, hd, Bool.true_or]
  have hnot : (TopController.step s.ctl (input s .silent)).initDone = false →
      s.ctl.initDone = false := fun hd' => Bool.eq_false_iff.mpr fun hd => by
    rw [hstays hd] at hd'
    cases hd'
  refine ⟨h.apart.step _, hstate, haxi, hcount ▸ h.enough, fun hd' => ?_, fun hd' => ?_,
    fun hd' => ?_, fun hf => ?_⟩
  · have hd := hnot hd'
    exact (TopController.initRank_step _ h.state hd hle (h.range hd)).1
  · have hd := hnot hd'
    exact ((h.filled hd).step h.state hd _).1 hd'
  · cases hd : s.ctl.initDone with
    | false => exact (((h.filled hd).step h.state hd _).2 hd').1
    | true =>
      rw [NandSystem.step, TopController.toMemories_kept _ hd (by simp [h.state])
        (by simp [h.state]) (by simp [h.state])]
      exact h.fresh hd
  · rcases h.apart.quiet.state with hs | hs
    · exact (NandFlash.initRank_step q _ hs (h.blocks hs) hq hpage).1
    · rw [NandSystem.step, NandFlash.step_stays_idle q hs h.apart.pins.cle h.apart.pins.ale] at hf
      cases hf

/-- A bound on the cycles that both modules need. -/
def startRank (q : NandFlash.Params) (s : System p) : ℕ :=
  TopController.initRank s.ctl + NandFlash.initRank q s.flash

theorem startRank_step {s : System p} (h : Starting q s) (hle : p.blocks ≤ 1024)
    (hq : q.blocks < 1024) (hpage : q.pageBytes ≤ 8192)
    (hmore : ¬ (s.ctl.initDone = true ∧ s.flash.state = .idle)) :
    startRank q (NandSystem.step q s .silent) < startRank q s := by
  have hctl : s.ctl.initDone = false → TopController.initRank (NandSystem.step q s .silent).ctl <
      TopController.initRank s.ctl := fun hd =>
    (TopController.initRank_step _ h.state hd hle (h.range hd)).2
  have hctl' : s.ctl.initDone = true →
      TopController.initRank (NandSystem.step q s .silent).ctl = 0 := fun hd => by
    rw [TopController.initRank, NandSystem.step, (TopController.init_step _ _).1, hd]
    rfl
  have hflash : s.flash.state = .init →
      NandFlash.initRank q (NandSystem.step q s .silent).flash < NandFlash.initRank q s.flash :=
    fun hs => (NandFlash.initRank_step q _ hs (h.blocks hs) hq hpage).2
  have hflash' : s.flash.state = .idle →
      NandFlash.initRank q (NandSystem.step q s .silent).flash = 0 := fun hs => by
    rw [NandFlash.initRank, NandSystem.step,
      NandFlash.step_stays_idle q hs h.apart.pins.cle h.apart.pins.ale]
    rfl
  rw [startRank, startRank]
  cases hd : s.ctl.initDone with
  | false =>
    have h₁ := hctl hd
    rcases h.apart.quiet.state with hs | hs
    · have h₂ := hflash hs
      omega
    · have h₂ := hflash' hs
      omega
  | true =>
    have h₁ := hctl' hd
    have h₂ := hflash (h.apart.quiet.state.resolve_right fun hs => hmore ⟨hd, hs⟩)
    omega

/-- **Both modules finish initialising** when the flash has fewer than 1024 blocks. -/
theorem exists_up (m : TopController.Memories p) (f : NandFlash.Memories) (hpos : 1 ≤ p.blocks)
    (hle : p.blocks ≤ 1024) (hT : p.gcThreshold ≤ p.blocks % 1024) (hq : q.blocks < 1024)
    (hpage : q.pageBytes ≤ 8192) :
    ∃ n, let s := run (step q) (reset m f) (List.replicate n .silent)
      Up s ∧ s.ctl.state = .idle ∧ Silent s.ctl.axi ∧ TopController.Fresh s.ctl.toMemories := by
  have hnext : ∀ s : System p, Starting q s → ¬ (s.ctl.initDone = true ∧ s.flash.state = .idle) →
      Starting q (step q s .silent) ∧ startRank q (step q s .silent) < startRank q s :=
    fun s h hmore => ⟨h.step hle hq hpage, startRank_step h hle hq hpage hmore⟩
  obtain ⟨n, h, ⟨hd, hf⟩, -⟩ :=
    exists_run_replicate (startRank q) hnext (starting_reset m f hpos hT)
  exact ⟨n, ⟨h.apart, hf, hd, h.enough⟩, h.state, h.axi, h.fresh hd⟩

/-! ### A write burst -/

/-- The controller is in state `f` and shows these outputs, with both modules up. -/
structure At (s : System p) (f : TopController.Fsm) (awready wready bvalid arready rvalid : Bool) :
    Prop where
  up : Up s
  state : s.ctl.state = f
  axi : Shows s.ctl.axi awready wready bvalid arready rvalid

theorem at_fetch {s : System p} (h : At s .idle false false false false false) (addr : BitVec 32)
    (len : Byte) :
    At (step q s (Axi.awRequest addr len)) .fetch true false false false false := by
  refine ⟨h.up.step (by simp [h.state]) _, ?_, ?_⟩
  · rw [step, TopController.state_step]
    simp [h.state, h.up.done, h.up.enough.not_gt, h.axi.awready, Axi.awRequest, input]
  · rw [step, TopController.axi_step]
    simp only [h.state, h.up.done, h.up.enough.not_gt, h.axi.awready, Axi.awRequest, input]
    exact ⟨rfl, h.axi.wready, rfl, h.axi.arready, rfl⟩

theorem at_coalesce {s : System p} (h : At s .fetch true false false false false)
    (i : TopController.Host) :
    At (step q s i) .coalesce false true false false false ∧ (step q s i).ctl.currOp = true := by
  refine ⟨⟨h.up.step (by simp [h.state]) _, ?_, ?_⟩, ?_⟩
  · rw [step, TopController.state_step, h.state]
  · rw [step, TopController.axi_step, h.state]
    exact ⟨rfl, rfl, h.axi.bvalid, h.axi.arready, h.axi.rvalid⟩
  · rw [step, TopController.currOp_step, h.state]

theorem at_beat {s : System p} (h : At s .coalesce false true false false false) (data : Word) :
    At (step q s (Axi.wRequest data false)) .coalesce false true false false false := by
  refine ⟨h.up.step (by simp [h.state]) _, ?_, ?_⟩
  · rw [step, TopController.state_step]
    simp [h.state, Axi.wRequest, input]
  · rw [step, TopController.axi_step]
    simpa [h.state, Axi.wRequest, input] using h.axi

theorem at_ftlTranslate {s : System p} (h : At s .coalesce false true false false false)
    (data : Word) :
    At (step q s (Axi.wRequest data true)) .ftlTranslate false false false false false := by
  refine ⟨h.up.step (by simp [h.state]) _, ?_, ?_⟩
  · rw [step, TopController.state_step]
    simp [h.state, Axi.wRequest, input, h.axi.wready]
  · rw [step, TopController.axi_step]
    simp only [h.state, Axi.wRequest, input, h.axi.wready, and_self, if_true]
    exact ⟨h.axi.awready, rfl, h.axi.bvalid, h.axi.arready, h.axi.rvalid⟩

/-- The wait states count down. -/
theorem wait_step {s : TopController.State p} (i : TopController.Input)
    (hs : s.state = .progWait ∨ s.state = .readWait) (hne : s.nandWaitCnt ≠ 0) :
    (TopController.step s i).state = s.state ∧
      (TopController.step s i).wlNeeded = s.wlNeeded ∧
      (TopController.step s i).nandWaitCnt.toNat + 1 = s.nandWaitCnt.toNat := by
  have hcount : (s.nandWaitCnt - 1).toNat + 1 = s.nandWaitCnt.toNat := by bv_omega
  have hgt := (TopController.waiting_iff s.nandWaitCnt).mpr hne
  rcases hs with hs | hs
  · simp only [TopController.step, hs, TopController.progWait, if_pos hgt]
    exact ⟨trivial, trivial, hcount⟩
  · simp only [TopController.step, hs, TopController.readWait, if_pos hgt]
    exact ⟨trivial, trivial, hcount⟩

/-- No block has reached the limit of program cycles. -/
def Cold (m : TopController.Memories p) : Prop :=
  ∀ b, TopController.InRange p b → (m.peCycleTable b).toNat ≤ p.tlcMaxPe

theorem cold_of_fresh {m : TopController.Memories p} (h : TopController.Fresh m) : Cold m :=
  fun b hb => by
    rw [h.pe b hb]
    exact Nat.zero_le _

/-- A write burst on its way from its last beat to its response. -/
structure Writing (s : System p) : Prop where
  up : Up s
  op : s.ctl.currOp = true
  stage :
    (Silent s.ctl.axi ∧ (Cold s.ctl.toMemories ∧
        (s.ctl.state = .ftlTranslate ∨ s.ctl.state = .eccGen ∨ s.ctl.state = .pageProgram) ∨
      s.ctl.state = .progWait ∧ s.ctl.wlNeeded = false ∨ s.ctl.state = .respond)) ∨
    (Shows s.ctl.axi false false true false false ∧ s.ctl.state = .respond)

/-- A bound on the cycles until the response is shown. -/
def writeRank (s : System p) : ℕ :=
  match s.ctl.state with
  | .ftlTranslate => 30005
  | .eccGen => 30004
  | .pageProgram => 30003
  | .progWait => s.ctl.nandWaitCnt.toNat + 2
  | _ => if s.ctl.axi.bvalid = true then 0 else 1

theorem Writing.step {s : System p} (h : Writing s)
    (hmore : ¬ At s .respond false false true false false) :
    Writing (NandSystem.step q s .silent) ∧
      writeRank (NandSystem.step q s .silent) < writeRank s := by
  have hrb : (input s .silent).nandRbN = true := h.up.apart.quiet.rbN
  have hup : s.ctl.state ≠ .blockErase → Up (NandSystem.step q s .silent) := fun hne =>
    h.up.step hne _
  have hstate := TopController.state_step s.ctl (input s .silent)
  have haxi := TopController.axi_step s.ctl (input s .silent)
  have hop := TopController.currOp_step s.ctl (input s .silent)
  have hmem := fun hp hg hw =>
    TopController.toMemories_kept (s := s.ctl) (input s .silent) h.up.done hp hg hw
  rcases h.stage with ⟨hsil, ⟨hcold, hs | hs | hs⟩ | ⟨hs, hwl⟩ | hs⟩ | ⟨hshow, hs⟩
  · simp only [hs, h.op, if_true] at hstate haxi hop
    refine ⟨⟨hup (by simp [hs]), hop, .inl ⟨?_, .inl ⟨?_, .inr (.inl hstate)⟩⟩⟩, ?_⟩
    · exact haxi ▸ ⟨hsil.awready, hsil.wready, hsil.bvalid, rfl, hsil.rvalid⟩
    · exact hmem (by simp [hs]) (by simp [hs]) (by simp [hs]) ▸ hcold
    · simp only [writeRank, NandSystem.step, hs, hstate]
      omega
  · simp only [hs, h.op] at hstate haxi hop
    refine ⟨⟨hup (by simp [hs]), hop, .inl ⟨haxi ▸ hsil, .inl ⟨?_, .inr (.inr hstate)⟩⟩⟩, ?_⟩
    · exact hmem (by simp [hs]) (by simp [hs]) (by simp [hs]) ▸ hcold
    · simp only [writeRank, NandSystem.step, hs, hstate]
      omega
  · have hwait : (NandSystem.step q s .silent).ctl.wlNeeded = false ∧
        (NandSystem.step q s .silent).ctl.nandWaitCnt = 30000 := by
      have hnot : ¬ (TopController.InRange p (TopController.block s.ctl.currPba) ∧
          p.tlcMaxPe < (s.ctl.peCycleTable (TopController.block s.ctl.currPba)).toNat) :=
        fun h => (hcold _ h.1).not_gt h.2
      simp only [NandSystem.step, TopController.step, hs, TopController.pageProgram, if_neg hnot,
        and_self]
    simp only [hs, h.op] at hstate haxi hop
    refine ⟨⟨hup (by simp [hs]), hop, .inl ⟨haxi ▸ hsil, .inr (.inl ⟨hstate, hwait.1⟩)⟩⟩, ?_⟩
    simp only [writeRank, hs, hwait.2]
    simp only [NandSystem.step, hstate]
    decide
  · simp only [hs, h.op] at haxi hop
    by_cases hzero : s.ctl.nandWaitCnt = 0
    · simp only [hs, hzero, hrb, and_self, if_true, hwl, Bool.false_eq_true, if_false] at hstate
      refine ⟨⟨hup (by simp [hs]), hop, .inl ⟨haxi ▸ hsil, .inr (.inr hstate)⟩⟩, ?_⟩
      simp only [writeRank, NandSystem.step, hs, hstate, haxi, hsil.bvalid, Bool.false_eq_true,
        if_false]
      omega
    · obtain ⟨hstay, hwl', hcount⟩ := wait_step (input s .silent) (.inl hs) hzero
      rw [hs] at hstay
      refine ⟨⟨hup (by simp [hs]), hop,
        .inl ⟨haxi ▸ hsil, .inr (.inl ⟨hstay, hwl'.trans hwl⟩)⟩⟩, ?_⟩
      simp only [writeRank, NandSystem.step, hs, hstay]
      omega
  · have hready : (input s .silent).bready = false := rfl
    simp only [hs, h.op, hready, Bool.false_eq_true, false_and, if_true, if_false]
      at hstate haxi hop
    refine ⟨⟨hup (by simp [hs]), hop, .inr ⟨?_, hstate⟩⟩, ?_⟩
    · exact haxi ▸ ⟨hsil.awready, hsil.wready, rfl, hsil.arready, hsil.rvalid⟩
    · simp only [writeRank, NandSystem.step, hs, hstate, haxi, hsil.bvalid]
      decide
  · exact absurd ⟨h.up, hs, hshow⟩ hmore

/-- The response is taken, and the controller idles again. -/
theorem at_idle_after_write {s : System p} (h : At s .respond false false true false false)
    (hop : s.ctl.currOp = true) :
    At (step q s Axi.bTake) .idle false false false false false := by
  have hready : (input s Axi.bTake).bready = true := rfl
  refine ⟨h.up.step (by simp [h.state]) _, ?_, ?_⟩
  · simp only [step, TopController.state_step, h.state, hop, hready, h.axi.bvalid, and_self, if_true]
  · simp only [step, TopController.axi_step, h.state, hop, hready, h.axi.bvalid, and_self, if_true]
    exact ⟨h.axi.awready, h.axi.wready, rfl, h.axi.arready, h.axi.rvalid⟩

/-- One cycle whose requests are all taken. -/
theorem phase_one {s : System p} {i : TopController.Host} (h : Axi.Settled (s.ctl.axi, i)) :
    Phase q s [i] (Axi.handshakes (s.ctl.axi, i)) (step q s i) where
  reach := rfl
  events := by simp [Axi.history, axiCycles, cycles]
  obeys := .singleton _
  settled c hc := by
    simp only [axiCycles, cycles, List.map_cons, List.map_nil, List.getLast?_singleton,
      Option.mem_def, Option.some.injEq] at hc
    exact hc ▸ h

theorem phase_b {s : System p} (h : s.ctl.axi.bvalid = true) :
    Phase q s [Axi.bTake] [.b s.ctl.axi.bresp] (step q s Axi.bTake) := by
  have hevent := Axi.handshakes_b s.ctl.axi
  rw [if_pos h] at hevent
  exact hevent ▸ phase_one (Axi.settled_take _ rfl rfl rfl)

theorem phase_r {s : System p} (h : s.ctl.axi.rvalid = true) :
    Phase q s [Axi.rTake] [.r s.ctl.axi.rdata s.ctl.axi.rresp s.ctl.axi.rlast]
      (step q s Axi.rTake) := by
  have hevent := Axi.handshakes_r s.ctl.axi
  rw [if_pos h] at hevent
  exact hevent ▸ phase_one (Axi.settled_take _ rfl rfl rfl)

/-- Two cycles with the same request, taken in the second. -/
theorem phase_two {s : System p} {i : TopController.Host}
    (h : Axi.Settled ((step q s i).ctl.axi, i)) :
    Phase q s [i, i] (Axi.handshakes (s.ctl.axi, i) ++ Axi.handshakes ((step q s i).ctl.axi, i))
      (step q (step q s i) i) where
  reach := rfl
  events := by simp [Axi.history, axiCycles, cycles]
  obeys := .cons_cons (Axi.held_same _ _ i) (.singleton _)
  settled c hc := by
    simp only [axiCycles, cycles, List.map_cons, List.map_nil, List.getLast?_cons_cons,
      List.getLast?_singleton, Option.mem_def, Option.some.injEq] at hc
    exact hc ▸ h

/-- Nothing else passes while the beats of `words` do. -/
structure BeatsOnly (es : List Axi.Event) (words : List Word) : Prop where
  beats : es.filterMap Axi.Event.writeBeat = Axi.beats words
  only : ∀ e ∈ es, ∃ d last, e = .w d last

/-- One beat, which moves neither the memories nor the direction. -/
theorem phase_beat {s : System p} (h : At s .coalesce false true false false false) (d : Word)
    (last : Bool) :
    Phase q s [Axi.wRequest d last] [.w d last] (step q s (Axi.wRequest d last)) ∧
      (step q s (Axi.wRequest d last)).ctl.currOp = s.ctl.currOp ∧
      (step q s (Axi.wRequest d last)).ctl.toMemories = s.ctl.toMemories := by
  have hevent : Axi.handshakes (s.ctl.axi, Axi.wRequest d last) = [.w d last] := by
    rw [Axi.handshakes_w, h.axi.wready]
    rfl
  refine ⟨hevent ▸ phase_one (Axi.settled_w d last h.axi.wready), ?_, ?_⟩
  · rw [step, TopController.currOp_step, h.state]
  · exact TopController.toMemories_kept _ h.up.done (by simp [h.state]) (by simp [h.state])
      (by simp [h.state])

/-- **The beats of a write burst** are taken one in a cycle. -/
theorem phase_beats {s : System p} (h : At s .coalesce false true false false false)
    {words : List Word} (hne : words ≠ []) :
    ∃ is es t, Phase q s is es t ∧ BeatsOnly es words ∧
      At t .ftlTranslate false false false false false ∧ t.ctl.currOp = s.ctl.currOp ∧
      t.ctl.toMemories = s.ctl.toMemories := by
  induction words generalizing s with
  | nil => exact absurd rfl hne
  | cons d ds ih =>
    cases ds with
    | nil =>
      obtain ⟨hphase, hop, hmem⟩ := phase_beat (q := q) h d true
      exact ⟨_, _, _, hphase, ⟨rfl, fun e he => ⟨d, true, List.mem_singleton.mp he⟩⟩,
        at_ftlTranslate h d, hop, hmem⟩
    | cons d' ds =>
      obtain ⟨hphase, hop, hmem⟩ := phase_beat (q := q) h d false
      obtain ⟨is, es, t, hrest, hbeats, hat, hop', hmem'⟩ :=
        ih (at_beat h d) (List.cons_ne_nil _ _)
      refine ⟨_, _, t, hphase.append hrest, ⟨?_, fun e he => ?_⟩, hat, hop'.trans hop,
        hmem'.trans hmem⟩
      · rw [List.filterMap_append, hbeats.beats]
        rfl
      · rcases List.mem_append.mp he with he | he
        · exact ⟨d, false, List.mem_singleton.mp he⟩
        · exact hbeats.only e he

/-- **A collected burst gets to its response.** -/
theorem exists_response {s : System p} (h : Writing s) :
    ∃ n, At (run (step q) s (List.replicate n .silent)) .respond false false true false false ∧
      (run (step q) s (List.replicate n .silent)).ctl.currOp = true := by
  have hnext : ∀ s : System p, Writing s → ¬ At s .respond false false true false false →
      Writing (step q s .silent) ∧ writeRank (step q s .silent) < writeRank s :=
    fun s hs hmore => hs.step hmore
  obtain ⟨n, hn, hat, -⟩ := exists_run_replicate writeRank hnext h
  exact ⟨n, hat, hn.op⟩

/-- **Every write burst gets its response shown**, while no block is worn out. -/
theorem exists_write {s : System p} (h : At s .idle false false false false false)
    (hcold : Cold s.ctl.toMemories) (addr : BitVec 32) (len : Byte) {words : List Word}
    (hne : words ≠ []) :
    ∃ is es t, Phase q s is (.aw addr len :: es) t ∧ BeatsOnly es words ∧
      At t .respond false false true false false ∧ t.ctl.currOp = true := by
  -- the address
  have h₁ := at_fetch (q := q) h addr len
  obtain ⟨h₂, hop₂⟩ := at_coalesce (q := q) h₁ (Axi.awRequest addr len)
  have haw : Phase q s [Axi.awRequest addr len, Axi.awRequest addr len] [.aw addr len]
      (step q (step q s (Axi.awRequest addr len)) (Axi.awRequest addr len)) := by
    have hevents : Axi.handshakes (s.ctl.axi, Axi.awRequest addr len) ++
        Axi.handshakes ((step q s (Axi.awRequest addr len)).ctl.axi, Axi.awRequest addr len) =
        [.aw addr len] := by
      rw [Axi.handshakes_aw, Axi.handshakes_aw, h.axi.awready, h₁.axi.awready]
      rfl
    exact hevents ▸ phase_two (Axi.settled_aw addr len h₁.axi.awready)
  have hmem₂ : (step q (step q s (Axi.awRequest addr len)) (Axi.awRequest addr len)).ctl.toMemories =
      s.ctl.toMemories := by
    rw [step, TopController.toMemories_kept _ h₁.up.done (by simp [h₁.state]) (by simp [h₁.state])
      (by simp [h₁.state])]
    exact TopController.toMemories_kept _ h.up.done (by simp [h.state]) (by simp [h.state])
      (by simp [h.state])
  -- the beats
  obtain ⟨is, es, t, hbeats, honly, h₃, hop₃, hmem₃⟩ := phase_beats (q := q) h₂ hne
  have hwriting : Writing t := by
    refine ⟨h₃.up, hop₃.trans hop₂, .inl ⟨h₃.axi, .inl ⟨?_, .inl h₃.state⟩⟩⟩
    rw [hmem₃, hmem₂]
    exact hcold
  -- the response
  obtain ⟨n, h₄, hop₄⟩ := exists_response (q := q) hwriting
  have hall := (haw.append hbeats).append (phase_wait t n)
  rw [List.append_nil] at hall
  exact ⟨_, es, _, hall, honly, h₄, hop₄⟩

/-! ### A read burst -/

/-- A read burst on its way from its address to its data. -/
structure Fetching (s : System p) : Prop where
  up : Up s
  op : s.ctl.currOp = false
  stage :
    (Silent s.ctl.axi ∧
      (s.ctl.state = .pageRead ∨ s.ctl.state = .readWait ∨ s.ctl.state = .afeSense)) ∨
    (Shows s.ctl.axi false false false false true ∧ s.ctl.axi.rlast = true ∧ s.ctl.state = .respond)

/-- A bound on the cycles until the data are shown. -/
def readRank (s : System p) : ℕ :=
  match s.ctl.state with
  | .pageRead => 2503
  | .readWait => s.ctl.nandWaitCnt.toNat + 2
  | .afeSense => 1
  | _ => 0

theorem Fetching.step {s : System p} (h : Fetching s)
    (hmore : ¬ At s .respond false false false false true) :
    Fetching (NandSystem.step q s .silent) ∧
      readRank (NandSystem.step q s .silent) < readRank s := by
  have hrb : (input s .silent).nandRbN = true := h.up.apart.quiet.rbN
  have hup : s.ctl.state ≠ .blockErase → Up (NandSystem.step q s .silent) := fun hne =>
    h.up.step hne _
  have hstate := TopController.state_step s.ctl (input s .silent)
  have haxi := TopController.axi_step s.ctl (input s .silent)
  have hop := TopController.currOp_step s.ctl (input s .silent)
  rcases h.stage with ⟨hsil, hs | hs | hs⟩ | ⟨hshow, -, hs⟩
  · have hwait : (NandSystem.step q s .silent).ctl.nandWaitCnt = 2500 := by
      simp only [NandSystem.step, TopController.step, hs, TopController.pageRead]
    simp only [hs, h.op] at hstate haxi hop
    refine ⟨⟨hup (by simp [hs]), hop, .inl ⟨haxi ▸ hsil, .inr (.inl hstate)⟩⟩, ?_⟩
    simp only [readRank, hs, hwait]
    simp only [NandSystem.step, hstate]
    decide
  · simp only [hs, h.op] at haxi hop
    by_cases hzero : s.ctl.nandWaitCnt = 0
    · simp only [hs, hzero, hrb, and_self, if_true] at hstate
      refine ⟨⟨hup (by simp [hs]), hop, .inl ⟨haxi ▸ hsil, .inr (.inr hstate)⟩⟩, ?_⟩
      simp only [readRank, NandSystem.step, hs, hstate]
      omega
    · obtain ⟨hstay, -, hcount⟩ := wait_step (input s .silent) (.inr hs) hzero
      rw [hs] at hstay
      refine ⟨⟨hup (by simp [hs]), hop, .inl ⟨haxi ▸ hsil, .inr (.inl hstay)⟩⟩, ?_⟩
      simp only [readRank, NandSystem.step, hs, hstay]
      omega
  · simp only [hs, h.op] at hstate haxi hop
    refine ⟨⟨hup (by simp [hs]), hop, .inr ⟨?_, ?_, hstate⟩⟩, ?_⟩
    · exact haxi ▸ ⟨hsil.awready, hsil.wready, hsil.bvalid, hsil.arready, rfl⟩
    · exact haxi ▸ rfl
    · simp only [readRank, NandSystem.step, hs, hstate]
      decide
  · exact absurd ⟨h.up, hs, hshow⟩ hmore

/-- **A requested read gets to its data.** -/
theorem exists_data {s : System p} (h : Fetching s) :
    ∃ n, At (run (step q) s (List.replicate n .silent)) .respond false false false false true ∧
      (run (step q) s (List.replicate n .silent)).ctl.currOp = false ∧
      (run (step q) s (List.replicate n .silent)).ctl.axi.rlast = true := by
  have hnext : ∀ s : System p, Fetching s → ¬ At s .respond false false false false true →
      Fetching (step q s .silent) ∧ readRank (step q s .silent) < readRank s :=
    fun s hs hmore => hs.step hmore
  obtain ⟨n, hn, hat, -⟩ := exists_run_replicate readRank hnext h
  refine ⟨n, hat, hn.op, ?_⟩
  rcases hn.stage with ⟨hsil, -⟩ | ⟨-, hlast, -⟩
  · exact absurd (hat.axi.rvalid.symm.trans hsil.rvalid) (by decide)
  · exact hlast

theorem at_ftlTranslate_read {s : System p} (h : At s .idle false false false false false)
    (addr : BitVec 32) (len : Byte) :
    At (step q s (Axi.arRequest addr len)) .ftlTranslate false false false true false ∧
      (step q s (Axi.arRequest addr len)).ctl.currOp = false := by
  have haw : (input s (Axi.arRequest addr len)).awvalid = false := rfl
  have har : (input s (Axi.arRequest addr len)).arvalid = true := rfl
  have hstate : (step q s (Axi.arRequest addr len)).ctl.state = .ftlTranslate := by
    simp only [step, TopController.state_step, h.state, h.up.done, h.up.enough.not_gt, haw, har,
      h.axi.arready, Bool.true_eq_false, Bool.false_eq_true, false_and, and_self, if_true, if_false]
  refine ⟨⟨h.up.step (by simp [h.state]) _, hstate, ?_⟩, ?_⟩
  · simp only [step, TopController.axi_step, h.state, h.up.done, h.up.enough.not_gt, haw, har,
      h.axi.arready, Bool.true_eq_false, Bool.false_eq_true, false_and, and_self, if_true, if_false]
    exact ⟨h.axi.awready, h.axi.wready, rfl, rfl, rfl⟩
  · have hop := TopController.currOp_step s.ctl (input s (Axi.arRequest addr len))
    simp only [h.state] at hop
    rw [step, hop, show (TopController.step s.ctl (input s (Axi.arRequest addr len))).state =
      .ftlTranslate from hstate, decide_eq_true rfl, Bool.not_true, Bool.and_false]

theorem fetching_of_ftlTranslate {s : System p} (h : At s .ftlTranslate false false false true false)
    (hop : s.ctl.currOp = false) (i : TopController.Host) : Fetching (step q s i) := by
  refine ⟨h.up.step (by simp [h.state]) _, ?_, .inl ⟨?_, .inl ?_⟩⟩
  · rw [step, TopController.currOp_step, h.state, hop]
  · rw [step, TopController.axi_step, h.state]
    exact ⟨h.axi.awready, h.axi.wready, h.axi.bvalid, rfl, h.axi.rvalid⟩
  · rw [step, TopController.state_step, h.state, hop]
    rfl

/-- The data are taken, and the controller idles again. -/
theorem at_idle_after_read {s : System p} (h : At s .respond false false false false true)
    (hop : s.ctl.currOp = false) :
    At (step q s Axi.rTake) .idle false false false false false := by
  have hready : (input s Axi.rTake).rready = true := rfl
  refine ⟨h.up.step (by simp [h.state]) _, ?_, ?_⟩
  · simp only [step, TopController.state_step, h.state, hop, hready, Bool.false_eq_true, if_false,
      true_or, if_true]
  · simp only [step, TopController.axi_step, h.state, hop, hready, h.axi.rvalid, and_self, if_true,
      Bool.false_eq_true, if_false]
    exact ⟨h.axi.awready, h.axi.wready, h.axi.bvalid, h.axi.arready, rfl⟩

/-- **Every read burst is answered**, by one beat whatever its length. -/
theorem exists_read {s : System p} (h : At s .idle false false false false false)
    (addr : BitVec 32) (len : Byte) :
    ∃ is d resp t, Phase q s is [.ar addr len, .r d resp true] t ∧
      At t .idle false false false false false := by
  -- the address
  obtain ⟨h₁, hop₁⟩ := at_ftlTranslate_read (q := q) h addr len
  have hfetch := fetching_of_ftlTranslate (q := q) h₁ hop₁ (Axi.arRequest addr len)
  have har : Phase q s [Axi.arRequest addr len, Axi.arRequest addr len] [.ar addr len]
      (step q (step q s (Axi.arRequest addr len)) (Axi.arRequest addr len)) := by
    have hevents : Axi.handshakes (s.ctl.axi, Axi.arRequest addr len) ++
        Axi.handshakes ((step q s (Axi.arRequest addr len)).ctl.axi, Axi.arRequest addr len) =
        [.ar addr len] := by
      rw [Axi.handshakes_ar, Axi.handshakes_ar, h.axi.arready, h₁.axi.arready]
      rfl
    exact hevents ▸ phase_two (Axi.settled_ar addr len h₁.axi.arready)
  -- the data
  obtain ⟨n, h₂, hop₂, hlast⟩ := exists_data (q := q) hfetch
  have hall := (har.append (phase_wait _ n)).append (phase_r h₂.axi.rvalid)
  rw [List.append_nil, hlast] at hall
  exact ⟨_, _, _, _, hall, at_idle_after_read (q := q) h₂ hop₂⟩

end FtjSsdSim.Hdl.NandSystem
