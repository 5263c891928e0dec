import Mathlib
import FtjSsdSim.Library.Machine
import FtjSsdSim.Hdl.SystemProgress

/-!
# Reading back what was written

The controller samples `nand_io` in the last cycle of `STATE_READ_WAIT`, long after it has let go of
the bus, and the flash, which has latched no command, never drives it.  So the low byte of every word
read is undefined (`ReadsNothing`), and no read burst returns what a write burst stored
(`read_back_differs`).

The second half puts a run together in which both modules initialise and the host writes a word and
reads it: there is such a run for every controller that has enough free blocks and every flash whose
pointers reach their limits (`exists_read_back`).
-/

namespace FtjSsdSim.Hdl.NandSystem

open FtjSsdSim.Library FtjSsdSim.Hdl

variable {p : TopController.Params} {q : NandFlash.Params}

/-! ### Acknowledged writes -/

/-- The last beat of a write burst is taken. -/
def LastBeat (c : System p × TopController.Host) : Prop :=
  c.2.wvalid = true ∧ c.1.ctl.axi.wready = true ∧ c.2.wlast = true

/-- The write response is taken. -/
def Response (c : System p × TopController.Host) : Prop :=
  c.1.ctl.axi.bvalid = true ∧ c.2.bready = true

/-- `burst` are the cycles from the last beat of a write burst to its response. -/
inductive AnsweredWrite (cs : List (System p × TopController.Host)) :
    List (System p × TopController.Host) → Prop where
  | mk {pre mid post : List (System p × TopController.Host)} {w b : System p × TopController.Host} :
      cs = pre ++ (w :: mid ++ [b]) ++ post → LastBeat w → Response b → (∀ c ∈ mid, ¬ Response c) →
      AnsweredWrite cs (w :: mid ++ [b])

/-- The flash goes through `NAND_BUSY_PROG`. -/
def Programs (burst : List (System p × TopController.Host)) : Prop :=
  ∃ c ∈ burst, c.1.flash.state = .busyProg

theorem AnsweredWrite.mem {cs burst : List (System p × TopController.Host)}
    (h : AnsweredWrite cs burst) {c : System p × TopController.Host} (hc : c ∈ burst) : c ∈ cs := by
  obtain ⟨rfl, -, -, -⟩ := h
  exact List.mem_append_left _ (List.mem_append_right _ hc)

/-- A flash that latches nothing does not program. -/
theorem not_programs {burst : List (System p × TopController.Host)}
    (h : ∀ c ∈ burst, Apart c.1) : ¬ Programs burst := by
  rintro ⟨c, hc, hprog⟩
  rcases (h c hc).quiet.state with hs | hs
  · rw [hs] at hprog
    cases hprog
  · rw [hs] at hprog
    cases hprog

/-- **No acknowledged write programs the flash**: for all parameters, every run from reset and every
write burst in it that gets its response. -/
theorem answered_write_unprogrammed (m : TopController.Memories p) (f : NandFlash.Memories)
    (is js : List TopController.Host) {burst : List (System p × TopController.Host)}
    (h : AnsweredWrite (cycles (step q) (run (step q) (reset m f) is) js) burst) :
    ¬ Programs burst :=
  not_programs fun _ hc => apart_of_mem_cycles (h.mem hc)

/-- From reset there is a run that initialises both modules and then answers a write burst. -/
theorem exists_answered_write (m : TopController.Memories p) (f : NandFlash.Memories)
    (hpos : 1 ≤ p.blocks) (hle : p.blocks ≤ 1024) (hT : p.gcThreshold ≤ p.blocks % 1024)
    (hq : q.blocks < 1024) (hpage : q.pageBytes ≤ 8192) (addr : BitVec 32) (len : Byte)
    {words : List Word} (hne : words ≠ []) :
    ∃ is js burst, Up (run (step q) (reset m f) is) ∧
      Axi.ObeysAxi (axiCycles q (reset m f) (is ++ js)) ∧
      AnsweredWrite (cycles (step q) (run (step q) (reset m f) is) js) burst := by
  obtain ⟨n, hup, hs, haxi, hfresh⟩ := exists_up (q := q) m f hpos hle hT hq hpage
  obtain ⟨is, es, t, hwrite, honly, hat, hop⟩ :=
    exists_write (q := q) ⟨hup, hs, haxi⟩ (cold_of_fresh hfresh) addr len hne
  have hall := (phase_wait (reset m f) n).append (hwrite.append (phase_b (q := q) hat.axi.bvalid))
  obtain ⟨d, hd⟩ := Axi.exists_last_beat hne
  have hlast : Axi.Event.w d true ∈ es := by
    rw [← honly.beats] at hd
    obtain ⟨e, he, hbeat⟩ := List.mem_filterMap.mp hd
    obtain ⟨d', last, rfl⟩ := honly.only e he
    cases hbeat
    exact he
  -- the cycle of the last beat
  obtain ⟨c, hc, hlastBeat⟩ : ∃ c ∈ cycles (step q) (run (step q) (reset m f)
      (List.replicate n .silent)) is, LastBeat c := by
    have hmem := List.mem_cons_of_mem (Axi.Event.aw addr len) hlast
    rw [← hwrite.events] at hmem
    obtain ⟨x, hx, hw⟩ := Axi.w_mem_history hmem
    obtain ⟨c, hc, rfl⟩ := List.mem_map.mp hx
    exact ⟨c, hc, hw⟩
  obtain ⟨pre, mid, hsplit⟩ := List.append_of_mem hc
  have hnone : ∀ x ∈ mid, ¬ Response x := by
    rintro x hx ⟨hv, hr⟩
    have hmem : (x.1.ctl.axi, x.2) ∈
        axiCycles q (run (step q) (reset m f) (List.replicate n .silent)) is :=
      List.mem_map.mpr ⟨x, hsplit ▸ List.mem_append_right _ (List.mem_cons_of_mem _ hx), rfl⟩
    have hb := Axi.b_mem_history hmem hv hr
    rw [hwrite.events] at hb
    rcases List.mem_cons.mp hb with hb | hb
    · cases hb
    · obtain ⟨d, last, hw⟩ := honly.only _ hb
      cases hw
  have hcycles : cycles (step q) (run (step q) (reset m f) (List.replicate n .silent))
      (is ++ [Axi.bTake]) = pre ++ (c :: mid ++ [(t, Axi.bTake)]) ++ [] := by
    rw [cycles_append, hsplit, hwrite.reach, List.append_nil, ← List.append_assoc]
    rfl
  exact ⟨List.replicate n .silent, is ++ [Axi.bTake], _, hup, hall.obeys,
    .mk hcycles hlastBeat ⟨hat.axi.bvalid, rfl⟩ hnone⟩

/-- A controller of 512 blocks. -/
def halfController : TopController.Params := { TopController.defaults with blocks := 512 }

/-- A flash of 512 blocks. -/
def halfFlash : NandFlash.Params := { NandFlash.defaults with blocks := 512 }

theorem answered_write_unprogrammed_half :
    ∃ is js burst, AnsweredWrite (cycles (step halfFlash) (run (step halfFlash)
      (reset (TopController.blank halfController) NandFlash.blank) is) js) burst ∧
      ¬ Programs burst := by
  obtain ⟨is, js, burst, -, -, h⟩ := exists_answered_write (q := halfFlash)
    (TopController.blank halfController) NandFlash.blank (by decide) (by decide) (by decide)
    (by decide) (by decide) 0x100 0 (show ([5] : List Word) ≠ [] by decide)
  exact ⟨is, js, burst, h, answered_write_unprogrammed _ _ is js h⟩

/-- **An acknowledged write that never reached the flash**: both modules with 512 blocks, the flash
past its initialisation and the host obeying AXI4. -/
theorem write_acknowledged_without_program :
    ∃ is js burst, (run (step halfFlash)
        (reset (TopController.blank halfController) NandFlash.blank) is).flash.state ≠ .init ∧
      Axi.ObeysAxi (axiCycles halfFlash
        (reset (TopController.blank halfController) NandFlash.blank) (is ++ js)) ∧
      AnsweredWrite (cycles (step halfFlash) (run (step halfFlash)
        (reset (TopController.blank halfController) NandFlash.blank) is) js) burst ∧
      ¬ Programs burst := by
  obtain ⟨is, js, burst, hup, hobeys, h⟩ := exists_answered_write (q := halfFlash)
    (TopController.blank halfController) NandFlash.blank (by decide) (by decide) (by decide)
    (by decide) (by decide) 0x100 0 (show ([5] : List Word) ≠ [] by decide)
  refine ⟨is, js, burst, by rw [hup.flash]; decide, hobeys, h, ?_⟩
  exact not_programs fun c hc => apart_of_mem_cycles (h.mem hc)

/-! ### The bus while a read is sampled -/

/-- Every read samples a released bus. -/
structure ReadsNothing (s : TopController.State p) : Prop where
  driving : s.state = .readWait → s.nand.oe = true → s.nandWaitCnt ≠ 0
  latched : s.state = .afeSense → s.latchRdata = none
  shown : s.axi.rvalid = true → s.axi.rdata = none

theorem readsNothing_reset (m : TopController.Memories p) :
    ReadsNothing (TopController.reset m) where
  driving h := by simp [TopController.reset] at h
  latched h := by simp [TopController.reset] at h
  shown h := by simp [TopController.reset] at h

/-- A read word is only shown in `STATE_AFE_SENSE`. -/
theorem shown_step {s : TopController.State p} (i : TopController.Input)
    (h : s.axi.rvalid = true → s.axi.rdata = none) (hl : s.state = .afeSense → s.latchRdata = none) :
    (TopController.step s i).axi.rvalid = true → (TopController.step s i).axi.rdata = none := by
  rw [TopController.axi_step]
  cases hs : s.state with
  | afeSense =>
    intro _
    simp only [hl hs, TopController.eccDecOutData, Option.map_none]
  | idle =>
    simp only
    split_ifs <;> simp
  | coalesce =>
    simp only
    split_ifs <;> exact h
  | respond =>
    simp only
    split_ifs <;> simp_all
  | _ => exact h

theorem readWait_entered {s : TopController.State p} {i : TopController.Input}
    (h : (TopController.step s i).state = .readWait) : s.state = .pageRead ∨ s.state = .readWait := by
  rw [TopController.state_step] at h
  cases hs : s.state <;> simp only [hs] at h <;> grind

theorem afeSense_entered {s : TopController.State p} {i : TopController.Input}
    (h : (TopController.step s i).state = .afeSense) :
    s.state = .readWait ∧ s.nandWaitCnt = 0 ∧ i.nandRbN = true := by
  rw [TopController.state_step] at h
  cases hs : s.state <;> simp only [hs] at h <;> grind

theorem ReadsNothing.step {s : TopController.State p} (h : ReadsNothing s)
    {i : TopController.Input} (hio : s.nand.oe = false → i.nandIo = none) :
    ReadsNothing (TopController.step s i) := by
  refine ⟨fun hs hoe => ?_, fun hs => ?_, shown_step i h.shown h.latched⟩
  · rcases readWait_entered hs with hp | hw
    · simp only [TopController.step, hp, TopController.pageRead]
      decide
    · -- the bus is let go of in the first cycle of the wait
      rw [TopController.nand_step, hw] at hoe
      cases hoe
  · obtain ⟨hw, hzero, hrb⟩ := afeSense_entered hs
    have hoe : s.nand.oe = false := Bool.eq_false_iff.mpr fun hoe => h.driving hw hoe hzero
    simp only [TopController.step, hw, TopController.readWait, hzero, hrb, hio hoe, if_true,
      Option.map_none, gt_iff_lt, BitVec.lt_irrefl, if_false]

/-- No one drives the bus while the controller does not. -/
theorem nandIo_released {s : System p} (h : Apart s) (hoe : s.ctl.nand.oe = false) :
    nandIo s = none := by
  rw [nandIo, hoe, h.quiet.oe]
  rfl

theorem run_readsNothing (m : TopController.Memories p) (f : NandFlash.Memories)
    (is : List TopController.Host) : ReadsNothing (run (step q) (reset m f) is).ctl := by
  refine (run_invariant (P := fun _ => True) (I := fun s => Apart s ∧ ReadsNothing s.ctl)
    ⟨apart_reset m f, readsNothing_reset m⟩ ?_ is fun _ _ => trivial).2
  intro s i h _
  exact ⟨h.1.step i, h.2.step (nandIo_released h.1)⟩

/-- Every word that is read is undefined. -/
theorem read_undefined (m : TopController.Memories p) (f : NandFlash.Memories)
    (is js : List TopController.Host) {d : Option Word} {resp : BitVec 2} {last : Bool}
    (h : Axi.Event.r d resp last ∈
      Axi.history (axiCycles q (run (step q) (reset m f) is) js)) : d = none := by
  obtain ⟨c, hc, hvalid, hdata⟩ := Axi.r_mem_history h
  obtain ⟨⟨s, i⟩, hs, rfl⟩ := List.mem_map.mp hc
  obtain ⟨ks, hks⟩ := exists_run_of_mem_cycles hs
  rw [← run_append] at hks
  have hnothing := run_readsNothing (q := q) m f (is ++ ks)
  rw [hks] at hnothing
  exact hdata.symm.trans (hnothing.shown hvalid)

/-- From reset there is a run that initialises both modules, and then writes words and reads the same
range. -/
theorem exists_read_back (m : TopController.Memories p) (f : NandFlash.Memories)
    (hpos : 1 ≤ p.blocks) (hle : p.blocks ≤ 1024) (hT : p.gcThreshold ≤ p.blocks % 1024)
    (hq : q.blocks < 1024) (hpage : q.pageBytes ≤ 8192) (addr : BitVec 32) {len : Byte}
    {words : List Word} (hlen : words.length = len.toNat + 1) :
    ∃ is js ans, Up (run (step q) (reset m f) is) ∧
      Axi.ObeysAxi (axiCycles q (reset m f) (is ++ js)) ∧
      Axi.ReadBack (Axi.history (axiCycles q (run (step q) (reset m f) is) js)) words ans := by
  obtain ⟨n, hup, hs, haxi, hfresh⟩ := exists_up (q := q) m f hpos hle hT hq hpage
  have hne : words ≠ [] := List.ne_nil_of_length_eq_add_one hlen
  obtain ⟨is, es, t, hwrite, honly, hat, hop⟩ :=
    exists_write (q := q) ⟨hup, hs, haxi⟩ (cold_of_fresh hfresh) addr len hne
  obtain ⟨js, d, resp, u, hread, -⟩ :=
    exists_read (q := q) (at_idle_after_write (q := q) hat hop) addr len
  have hburst := (hwrite.append (phase_b (q := q) hat.axi.bvalid)).append hread
  have hall := (phase_wait (reset m f) n).append hburst
  refine ⟨List.replicate n .silent, is ++ [Axi.bTake] ++ js, Axi.answer [.r d resp true], hup,
    hall.obeys, ?_⟩
  rw [hburst.events]
  show Axi.ReadBack ([] ++ .aw addr len :: es ++ .b t.ctl.axi.bresp :: [] ++
    .ar addr len :: [.r d resp true]) words _
  refine .mk hlen honly.beats (fun r hr => ?_) (fun a l ha => ?_)
    ⟨(d, true), List.mem_singleton_self _, rfl⟩
  · obtain ⟨_, _, he⟩ := honly.only _ hr
    cases he
  · rw [List.append_nil] at ha
    obtain ⟨_, _, he⟩ := honly.only _ ha
    cases he

/-- **No read returns what was written.**  For all parameters, every run from reset and every history
in it of an acknowledged write burst and a later read burst of the same range, not overwritten in
between: the answer is not the beats that were written. -/
theorem read_back_differs (m : TopController.Memories p) (f : NandFlash.Memories)
    (is js : List TopController.Host) {words : List Word} {ans : List Axi.Beat}
    (h : Axi.ReadBack (Axi.history (axiCycles q (run (step q) (reset m f) is) js)) words ans) :
    ans ≠ Axi.beats words :=
  h.ne_beats fun _ _ _ hr => read_undefined m f is js hr

theorem read_back_differs_half :
    ∃ is js ans, Axi.ReadBack (Axi.history (axiCycles halfFlash (run (step halfFlash)
      (reset (TopController.blank halfController) NandFlash.blank) is) js)) [5] ans ∧
      ans ≠ Axi.beats [5] := by
  obtain ⟨is, js, ans, -, -, h⟩ := exists_read_back (q := halfFlash)
    (TopController.blank halfController) NandFlash.blank (by decide) (by decide) (by decide)
    (by decide) (by decide) 0x100 (show ([5] : List Word).length = (0 : Byte).toNat + 1 by decide)
  exact ⟨is, js, ans, h, read_back_differs _ _ is js h⟩

/-- **A written word that is not read back**: both modules with 512 blocks and initialised, and the
host obeying AXI4. -/
theorem written_word_not_read_back :
    ∃ is js ans, Up (run (step halfFlash)
        (reset (TopController.blank halfController) NandFlash.blank) is) ∧
      Axi.ObeysAxi (axiCycles halfFlash
        (reset (TopController.blank halfController) NandFlash.blank) (is ++ js)) ∧
      Axi.ReadBack (Axi.history (axiCycles halfFlash (run (step halfFlash)
        (reset (TopController.blank halfController) NandFlash.blank) is) js)) [5] ans ∧
      ans ≠ Axi.beats [5] := by
  obtain ⟨is, js, ans, hup, hobeys, h⟩ := exists_read_back (q := halfFlash)
    (TopController.blank halfController) NandFlash.blank (by decide) (by decide) (by decide)
    (by decide) (by decide) 0x100 (show ([5] : List Word).length = (0 : Byte).toNat + 1 by decide)
  exact ⟨is, js, ans, hup, hobeys, h, h.ne_beats fun _ _ _ hr => read_undefined _ _ is js hr⟩

end FtjSsdSim.Hdl.NandSystem
