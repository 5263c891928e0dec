import Mathlib
import FtjSsdSim.Library.ByteStore
import FtjSsdSim.Library.Loop
import FtjSsdSim.Library.Machine
import FtjSsdSim.Engine.Provenance
import FtjSsdSim.Engine.Reading
import FtjSsdSim.Engine.WriteRuns

/-!
# What a flush leaves alone

A flush writes whole pages.  The bytes of a staging page that no push has filled are zeros, or what a
push to another page of the same staging page put there, and they are written too.

* `pushes_staging` — a staging page after any pushes, as a list of patches;
* `flush_overlay` — the address space after flushes that empty the buffer: each staged page laid
  over the old bytes;
* `flush_frame_iff` — the bytes that no push covered are unchanged exactly when the staged bytes that
  no push filled happen to be the old ones.
-/

namespace FtjSsdSim.Engine

open FtjSsdSim.Library

namespace BurstCoalescer

/-! ### Pushes and the staging pages they fill -/

/-- A call of `PushWrite`. -/
structure PushCall where
  lbaOffset : ℕ
  src : Option (ℕ → Byte)
  size : ℕ

/-- The call is not rejected. -/
def PushCall.Taken (p : PushCall) : Prop := p.src.isSome ∧ 0 < p.size ∧ p.size ≤ pageSz

instance (p : PushCall) : Decidable p.Taken := inferInstanceAs (Decidable (_ ∧ _))

/-- The push was given a byte for address `a`. -/
def PushCall.Covers (p : PushCall) (a : ℕ) : Prop :=
  p.Taken ∧ p.lbaOffset ≤ a ∧ a < p.lbaOffset + p.size

instance (p : PushCall) (a : ℕ) : Decidable (p.Covers a) := inferInstanceAs (Decidable (_ ∧ _))

/-- No push covers the address. -/
def Uncovered (ps : List PushCall) (a : ℕ) : Prop := ∀ p ∈ ps, ¬ p.Covers a

instance (ps : List PushCall) (a : ℕ) : Decidable (Uncovered ps a) :=
  inferInstanceAs (Decidable (∀ p ∈ ps, _))

/-- The pushes that are taken and go to staging page `i`. -/
def slotPushes (depth : ℕ) (ps : List PushCall) (i : ℕ) : List PushCall :=
  ps.filter fun p => p.Taken ∧ p.lbaOffset / pageSz % depth = i

/-- What a push puts into its staging page; what does not fit into the page is dropped. -/
def PushCall.slotPatch (p : PushCall) : Patch Byte :=
  ⟨p.lbaOffset % pageSz, p.src.getD fun _ => 0, min p.size (pageSz - p.lbaOffset % pageSz)⟩

/-- The address a staging page is written to: the page of the first push that claimed it. -/
def slotBase (depth : ℕ) (ps : List PushCall) (i : ℕ) : Option ℕ :=
  (slotPushes depth ps i).head?.map fun p => pageBase p.lbaOffset

/-- The bytes of a staging page: at each place the last one pushed there, else zero. -/
def slotBytes (depth : ℕ) (ps : List PushCall) (i : ℕ) : ℕ → Byte :=
  lastWrite 0 ((slotPushes depth ps i).map PushCall.slotPatch)

/-- The coalescer after a call of `PushWrite`. -/
def pushNext (c : BurstCoalescer Byte) (p : PushCall) : BurstCoalescer Byte :=
  (c.pushWrite p.lbaOffset p.src p.size).2

@[simp] theorem pushNext_depth (c : BurstCoalescer Byte) (p : PushCall) :
    (c.pushNext p).depth = c.depth := pushWrite_depth ..

theorem pushNext_rejected (c : BurstCoalescer Byte) {p : PushCall} (h : ¬ p.Taken) :
    c.pushNext p = c := by
  obtain ⟨lbaOffset, src, size⟩ := p
  cases src with
  | none => rfl
  | some src =>
    have hsize : size = 0 ∨ size > pageSz := by
      by_contra hsize
      rw [not_or] at hsize
      exact h ⟨rfl, Nat.pos_of_ne_zero hsize.1, Nat.le_of_not_lt hsize.2⟩
    exact congrArg Prod.snd (pushWrite_rejected c lbaOffset src hsize)

/-- A push that is taken changes one staging page. -/
theorem pushNext_taken (c : BurstCoalescer Byte) {p : PushCall} (h : p.Taken) :
    (c.pushNext p).staging = Function.update c.staging (c.pageIdx p.lbaOffset)
      (stage (claimSlot (c.staging (c.pageIdx p.lbaOffset)) p.lbaOffset) p.slotPatch.offset
        p.slotPatch.src p.slotPatch.size) := by
  obtain ⟨lbaOffset, src, size⟩ := p
  obtain ⟨hsome, hpos, hle⟩ := h
  cases src with
  | none => cases hsome
  | some src =>
    have hsize : ¬ (size = 0 ∨ size > pageSz) :=
      not_or.mpr ⟨Nat.pos_iff_ne_zero.mp hpos, Nat.not_lt.mpr hle⟩
    exact (pushWrite_taken c lbaOffset src hsize).2

theorem slotPushes_snoc {depth i : ℕ} (ps : List PushCall) {p : PushCall}
    (h : p.Taken ∧ p.lbaOffset / pageSz % depth = i) :
    slotPushes depth (ps ++ [p]) i = slotPushes depth ps i ++ [p] := by
  simp [slotPushes, List.filter_append, h]

theorem slotPushes_snoc_of_not {depth i : ℕ} (ps : List PushCall) {p : PushCall}
    (h : ¬ (p.Taken ∧ p.lbaOffset / pageSz % depth = i)) :
    slotPushes depth (ps ++ [p]) i = slotPushes depth ps i := by
  simp [slotPushes, List.filter_append, h]

/-- What staging page `i` of an empty coalescer holds after the pushes `ps`. -/
structure Stages (depth : ℕ) (ps : List PushCall) (i : ℕ) (pg : CoalescePage Byte) : Prop where
  data : pg.data = slotBytes depth ps i
  dirty : pg.dirty = (slotBase depth ps i).isSome
  base : ∀ base, slotBase depth ps i = some base → pg.baseLba = base

/-- A push that is taken is one more patch of its staging page, and the base of the page if that was
not in use. -/
theorem Stages.taken {depth i : ℕ} {ps : List PushCall} {pg : CoalescePage Byte}
    (h : Stages depth ps i pg) {p : PushCall} (hp : p.Taken ∧ p.lbaOffset / pageSz % depth = i) :
    Stages depth (ps ++ [p]) i (stage (claimSlot pg p.lbaOffset) p.slotPatch.offset
      p.slotPatch.src p.slotPatch.size) := by
  have hdirty := h.dirty
  have hbase := h.base
  rw [slotBase] at hdirty hbase
  constructor
  case data =>
    rw [slotBytes, slotPushes_snoc ps hp, List.map_append, List.map_singleton, lastWrite_snoc,
      Patch.apply, ← slotBytes, ← h.data, stage, claimSlot]
    split_ifs <;> rfl
  case dirty =>
    rw [slotBase, slotPushes_snoc ps hp]
    refine Eq.trans (claimSlot_dirty pg p.lbaOffset) ?_
    cases slotPushes depth ps i <;> rfl
  case base =>
    intro base hb
    rw [slotBase, slotPushes_snoc ps hp] at hb
    rw [stage, claimSlot]
    cases hfirst : slotPushes depth ps i with
    | nil =>
      rw [hfirst] at hb hdirty
      rw [if_neg (by rw [hdirty]; exact Bool.false_ne_true)]
      exact Option.some.inj hb
    | cons q qs =>
      rw [hfirst] at hb hdirty hbase
      rw [if_pos (by rw [hdirty]; rfl)]
      exact hbase base hb

theorem Stages.other {depth i : ℕ} {ps : List PushCall} {pg : CoalescePage Byte}
    (h : Stages depth ps i pg) {p : PushCall}
    (hp : ¬ (p.Taken ∧ p.lbaOffset / pageSz % depth = i)) : Stages depth (ps ++ [p]) i pg where
  data := by rw [slotBytes, slotPushes_snoc_of_not ps hp]; exact h.data
  dirty := by rw [slotBase, slotPushes_snoc_of_not ps hp]; exact h.dirty
  base := by rw [slotBase, slotPushes_snoc_of_not ps hp]; exact h.base

/-- A push leaves the other staging pages alone. -/
theorem pushNext_other (c : BurstCoalescer Byte) {p : PushCall} {i : ℕ}
    (h : ¬ (p.Taken ∧ c.pageIdx p.lbaOffset = i)) : (c.pushNext p).staging i = c.staging i := by
  by_cases htaken : p.Taken
  · rw [pushNext_taken c htaken, Function.update_of_ne fun hi => h ⟨htaken, hi.symm⟩]
  · rw [pushNext_rejected c htaken]

@[simp] theorem pushes_depth (c : BurstCoalescer Byte) (ps : List PushCall) :
    (run pushNext c ps).depth = c.depth :=
  run_invariant (P := fun _ => True) (I := fun c' : BurstCoalescer Byte => c'.depth = c.depth) rfl
    (fun c' p h _ => (pushNext_depth c' p).trans h) ps fun _ _ => trivial

/-- **The staging pages after any pushes** into an empty coalescer. -/
theorem pushes_staging (depth : ℕ) (ps : List PushCall) (i : ℕ) :
    Stages depth ps i ((run pushNext (construct Byte depth) ps).staging i) := by
  induction ps using List.reverseRecOn with
  | nil => exact ⟨rfl, rfl, fun base h => by cases h⟩
  | append_singleton ps p ih =>
    have hidx : (run pushNext (construct Byte depth) ps).pageIdx p.lbaOffset =
        p.lbaOffset / pageSz % depth := by
      rw [pageIdx, pushes_depth]
      rfl
    rw [run_snoc]
    by_cases hp : p.Taken ∧ p.lbaOffset / pageSz % depth = i
    · have hnew := ih.taken hp
      rw [pushNext_taken _ hp.1, hidx, hp.2, Function.update_self]
      exact hnew
    · rw [pushNext_other _ (by rwa [hidx])]
      exact ih.other hp

/-- The page a staging page belongs to is one of its own. -/
theorem slotBase_eq {depth : ℕ} {ps : List PushCall} {i base : ℕ}
    (h : slotBase depth ps i = some base) : base % pageSz = 0 ∧ base / pageSz % depth = i := by
  obtain ⟨p, hp, rfl⟩ := Option.map_eq_some_iff.mp h
  have hmem := List.mem_of_head? hp
  rw [slotPushes, List.mem_filter] at hmem
  have hslot : p.lbaOffset / pageSz % depth = i := (of_decide_eq_true hmem.2).2
  rw [pageBase, Nat.mul_mod_left, Nat.mul_div_cancel _ (by decide)]
  exact ⟨rfl, hslot⟩

/-! ### Flushes -/

/-- `FTJController::Write` with a log of the calls, each with the state it meets. -/
def loggedWrite (s : FTJController × List (FTJController × FTJController.WriteCall)) (offset : ℕ)
    (src : ℕ → Byte) (size : ℕ) :
    Bool × FTJController × List (FTJController × FTJController.WriteCall) :=
  let r := controllerWrite s.1 offset src size
  (r.1, r.2, s.2 ++ [(s.1, ⟨offset, some src, size⟩)])

/-- The calls of a host: pushes, then flushes. -/
def pushThenFlush (ps : List PushCall) (maxPages : List ℕ) : List (HostOp Byte) :=
  (ps.map fun p => .push p.lbaOffset p.src p.size) ++ maxPages.map .flush

/-- The calls on an empty coalescer of the given depth in front of a controller. -/
def hostRun (depth : ℕ) (ftl : FTJController) (ops : List (HostOp Byte)) :
    Host Byte FTJController :=
  run (Host.step controllerWrite) (start depth ftl) ops

/-- The calls of `Write` that the flushes of a run make, each with the state it meets. -/
def flushWrites (depth : ℕ) (ftl : FTJController) (ops : List (HostOp Byte)) :
    List (FTJController × FTJController.WriteCall) :=
  (run (Host.step loggedWrite) ⟨construct Byte depth, (ftl, [])⟩ ops).ftl.2

/-- The log does not change the run. -/
theorem hostRun_eq (depth : ℕ) (ftl : FTJController) (ops : List (HostOp Byte)) :
    hostRun depth ftl ops =
      (run (Host.step loggedWrite) ⟨construct Byte depth, (ftl, [])⟩ ops).map id Prod.fst := by
  have hmap : ∀ op : HostOp Byte, op.map id = op := by
    intro op
    cases op with
    | push lbaOffset src size => cases src <;> rfl
    | flush maxPages => rfl
  have hstep : ∀ (h : Host Byte (FTJController × List (FTJController × FTJController.WriteCall)))
      (op : HostOp Byte), Host.step controllerWrite (h.map id Prod.fst) (op.map id) =
        (Host.step loggedWrite h op).map id Prod.fst :=
    fun h op => Host.step_map rfl (fun _ _ _ _ => rfl) h op
  have h := run_map hstep ⟨construct Byte depth, (ftl, [])⟩ ops
  rw [List.map_congr_left fun op _ => hmap op, List.map_id'] at h
  exact h

/-- The staged pages of `start` that `c` has handed over, laid over the bytes `f`. -/
def overlay (start c : BurstCoalescer Byte) (f : ℕ → Byte) (a : ℕ) : Byte :=
  let pg := start.staging (a / pageSz % start.depth)
  if pg.dirty = true ∧ (c.staging (a / pageSz % start.depth)).dirty = false ∧
      pg.baseLba = pageBase a then
    pg.data (a % pageSz)
  else f a

/-- Every staging page in use belongs to a page of its own. -/
def Placed (c : BurstCoalescer Byte) : Prop :=
  ∀ i, (c.staging i).dirty = true →
    (c.staging i).baseLba % pageSz = 0 ∧ (c.staging i).baseLba / pageSz % c.depth = i

/-- **Handing over one page** lays it over the address space. -/
theorem overlay_flush {start c c' : BurstCoalescer Byte} {f : ℕ → Byte} {i : ℕ}
    (hplaced : start.Placed) (hi : c.staging i = start.staging i)
    (hdirty : (c.staging i).dirty = true)
    (hc' : c'.staging = Function.update c.staging i (CoalescePage.empty Byte)) :
    blit (overlay start c f) (start.staging i).baseLba (start.staging i).data 0 pageSz =
      overlay start c' f := by
  rw [hi] at hdirty
  obtain ⟨hbase, hslot⟩ := hplaced i hdirty
  simp only [pageSz] at hbase hslot
  funext a
  by_cases hin : (start.staging i).baseLba ≤ a ∧ a < (start.staging i).baseLba + pageSz
  · have hpage : pageBase a = (start.staging i).baseLba ∧
        a / pageSz = (start.staging i).baseLba / pageSz ∧
        a % pageSz = 0 + (a - (start.staging i).baseLba) := by
      simp only [pageBase, pageSz] at hin ⊢
      omega
    obtain ⟨hpb, hdiv, hmod⟩ := hpage
    have hidx : a / pageSz % start.depth = i := by
      rw [hdiv]
      exact hslot
    rw [blit_in hin.1 hin.2, overlay]
    simp only [hidx, hc', Function.update_self]
    rw [if_pos ⟨hdirty, rfl, hpb.symm⟩, hmod]
  · have hne : (start.staging i).baseLba ≠ pageBase a := by
      intro h
      rw [h] at hin
      simp only [pageBase, pageSz] at hin
      omega
    rw [blit_out hin, overlay, overlay]
    by_cases hidx : a / pageSz % start.depth = i
    · simp only [hidx]
      rw [if_neg fun h => hne h.2.2, if_neg fun h => hne h.2.2]
    · simp only [hc', Function.update_of_ne hidx]

/-- A flush in progress: every staging page is as it was or reset, and once all the writes so far
were clean and returned `true`, the address space is `f` under the pages handed over. -/
structure Flushing (start : BurstCoalescer Byte) (f : ℕ → Byte) (c : BurstCoalescer Byte)
    (ftl : FTJController × List (FTJController × FTJController.WriteCall)) : Prop where
  depth : c.depth = start.depth
  slot : ∀ i, c.staging i = start.staging i ∨ (c.staging i).dirty = false
  ecc : ftl.1.EccMatches
  content : (∀ x ∈ ftl.2, FTJController.CleanWrite x ∧ FTJController.writeResult x = true) →
    ∃ v, ftl.1.Represents v ∧ FTJController.contentOf v = overlay start c f

variable {start : BurstCoalescer Byte} {f : ℕ → Byte}

/-- **One iteration of the flush loop.** -/
theorem flushSlot_flushing (hplaced : start.Placed) (maxPages i : ℕ)
    {st : FlushState Byte (FTJController × List (FTJController × FTJController.WriteCall))}
    (h : Flushing start f st.coalescer st.ftl) :
    Flushing start f (flushSlot loggedWrite maxPages i st).coalescer
      (flushSlot loggedWrite maxPages i st).ftl := by
  rw [flushSlot]
  simp only
  split_ifs with hgo
  · have hi : st.coalescer.staging i = start.staging i := by
      refine (h.slot i).resolve_right ?_
      rw [hgo.2]
      exact Bool.noConfusion
    have hstaging : (resetSlot (countWrite (loggedWrite st.ftl (st.coalescer.staging i).baseLba
        (st.coalescer.staging i).data pageSz).1 st.coalescer) i).staging =
        Function.update st.coalescer.staging i (CoalescePage.empty Byte) :=
      congrArg (fun staging => Function.update staging i _) (countWrite_staging ..)
    constructor
    case depth => exact (countWrite_depth ..).trans h.depth
    case slot =>
      intro j
      rw [hstaging]
      by_cases hj : j = i
      · rw [hj, Function.update_self]
        exact .inr rfl
      · rw [Function.update_of_ne hj]
        exact h.slot j
    case ecc =>
      exact FTJController.write_eccMatches h.ecc (st.coalescer.staging i).baseLba
        (some (st.coalescer.staging i).data) pageSz
    case content =>
      intro hlog
      obtain ⟨v, hrep, hcontent⟩ := h.content fun x hx => hlog x (List.mem_append_left _ hx)
      obtain ⟨hclean, htrue⟩ := hlog _ (List.mem_append_right _ (List.mem_singleton_self _))
      obtain ⟨v', hrep', -, hpatch⟩ := FTJController.writeNext_represents hrep _ hclean
      refine ⟨v', hrep', (hpatch htrue).trans ?_⟩
      rw [hcontent, ← overlay_flush hplaced hi hgo.2 hstaging, hi]
      rfl
  · exact h

/-- **A host call of the flush phase.** -/
theorem flush_flushing (hplaced : start.Placed) (maxPages : ℕ)
    {h : Host Byte (FTJController × List (FTJController × FTJController.WriteCall))}
    (hf : Flushing start f h.coalescer h.ftl) :
    Flushing start f (Host.step loggedWrite h (.flush maxPages)).coalescer
      (Host.step loggedWrite h (.flush maxPages)).ftl :=
  forLoop_preserves (P := fun st : FlushState Byte (FTJController ×
    List (FTJController × FTJController.WriteCall)) => Flushing start f st.coalescer st.ftl) hf
    fun i _ _ _ ht => flushSlot_flushing hplaced maxPages i ht

/-- The pushes only fill the coalescer. -/
theorem run_pushes (ps : List PushCall) (c : BurstCoalescer Byte)
    (ftl : FTJController × List (FTJController × FTJController.WriteCall)) :
    run (Host.step loggedWrite) ⟨c, ftl⟩ (ps.map fun p => .push p.lbaOffset p.src p.size) =
      ⟨run pushNext c ps, ftl⟩ := by
  induction ps generalizing c with
  | nil => rfl
  | cons p ps ih => rw [List.map_cons, run_cons, run_cons, ← ih]; rfl

theorem pushes_placed (depth : ℕ) (ps : List PushCall) :
    (run pushNext (construct Byte depth) ps).Placed := by
  intro i hd
  have hslot := pushes_staging depth ps i
  rw [hslot.dirty, Option.isSome_iff_exists] at hd
  obtain ⟨base, hb⟩ := hd
  rw [hslot.base base hb, pushes_depth]
  exact slotBase_eq hb

/-- Whatever the flushes after the pushes are. -/
theorem pushThenFlush_flushing (depth : ℕ) {c : FTJController}
    {v : ℕ → Option FTJController.Page} (h : c.Represents v) (hecc : c.EccMatches)
    (ps : List PushCall) (maxPages : List ℕ) :
    Flushing (run pushNext (construct Byte depth) ps) (FTJController.contentOf v)
      (run (Host.step loggedWrite) ⟨construct Byte depth, (c, [])⟩
        (pushThenFlush ps maxPages)).coalescer
      (run (Host.step loggedWrite) ⟨construct Byte depth, (c, [])⟩
        (pushThenFlush ps maxPages)).ftl := by
  have hstart : FTJController.contentOf v = overlay (run pushNext (construct Byte depth) ps)
      (run pushNext (construct Byte depth) ps) (FTJController.contentOf v) := by
    funext a
    rw [overlay]
    exact (if_neg fun hc => by rw [hc.1] at hc; exact Bool.noConfusion hc.2.1).symm
  rw [pushThenFlush, run_append, run_pushes]
  refine run_invariant (P := fun x => ∃ n, x.2 = HostOp.flush n)
    (I := fun h : Host Byte (FTJController × List (FTJController × FTJController.WriteCall)) =>
      Flushing (run pushNext (construct Byte depth) ps) (FTJController.contentOf v) h.coalescer
        h.ftl) ?base ?next _ fun x hx => ?flush
  case base => exact ⟨rfl, fun _ => .inl rfl, hecc, fun _ => ⟨v, h, hstart⟩⟩
  case next =>
    rintro t - ht ⟨n, rfl⟩
    exact flush_flushing (pushes_placed depth ps) n ht
  case flush =>
    obtain ⟨n, -, hn⟩ := List.mem_map.mp (mem_of_mem_cycles hx)
    exact ⟨n, hn.symm⟩

/-- **The address space after a flush that empties the buffer**: every staged page, laid over the
bytes from before. -/
theorem flush_overlay {depth : ℕ} (hdepth : 0 < depth) {c : FTJController}
    {v : ℕ → Option FTJController.Page} (h : c.Represents v) (hecc : c.EccMatches)
    (ps : List PushCall) (maxPages : List ℕ)
    (hempty : ∀ i < depth,
      ((hostRun depth c (pushThenFlush ps maxPages)).coalescer.staging i).dirty = false)
    (hwrites : ∀ x ∈ flushWrites depth c (pushThenFlush ps maxPages),
      FTJController.CleanWrite x ∧ FTJController.writeResult x = true) :
    ∃ f', (hostRun depth c (pushThenFlush ps maxPages)).ftl.ReadsAs f' ∧
      ∀ a, f' a = match slotBase depth ps (a / pageSz % depth) with
        | some base =>
          if base = pageBase a then slotBytes depth ps (a / pageSz % depth) (a % pageSz)
          else FTJController.contentOf v a
        | none => FTJController.contentOf v a := by
  have hrun := pushThenFlush_flushing depth h hecc ps maxPages
  rw [hostRun_eq] at hempty ⊢
  rw [flushWrites] at hwrites
  obtain ⟨v', hrep, hcontent⟩ := hrun.content hwrites
  refine ⟨_, hrep.readsAs hrun.ecc, fun a => ?_⟩
  have hi : a / pageSz % depth < depth := Nat.mod_lt _ hdepth
  have hslot := pushes_staging depth ps (a / pageSz % depth)
  have hdepth' : (run pushNext (construct Byte depth) ps).depth = depth := pushes_depth _ ps
  rw [hcontent, overlay]
  simp only [hdepth', hslot.data, hslot.dirty]
  have hreset : ((run (Host.step loggedWrite) ⟨construct Byte depth, (c, [])⟩
      (pushThenFlush ps maxPages)).coalescer.staging (a / pageSz % depth)).dirty = false :=
    hempty _ hi
  rw [hreset]
  cases hb : slotBase depth ps (a / pageSz % depth) with
  | none => exact if_neg fun hc => Bool.false_ne_true hc.1
  | some base =>
    rw [hslot.base base hb]
    exact if_congr (by simp) rfl rfl

/-- **The frame law of the flush.**  For every admitted capacity below `2^31` pages, every state
reached by `Write` calls whose erase loops never meet a page that is on a free list already, every
depth, and all pushes followed by flushes that empty the staging buffer, whose writes return `true`
and have such erase loops: every byte that no push covered is read as before exactly when in every
staged page the bytes that no push covered are staged as they were. -/
theorem flush_frame_iff {capacity : ℕ} (hcap : FTJController.Admitted capacity)
    (hsmall : capacity / FTJController.pageSize < 2 ^ 31) (ws : List FTJController.WriteCall)
    (hclean : ∀ x ∈ cycles FTJController.writeNext (FTJController.construct capacity) ws,
      FTJController.CleanWrite x) {depth : ℕ} (hdepth : 0 < depth) (ps : List PushCall)
    (maxPages : List ℕ) :
    let c := run FTJController.writeNext (FTJController.construct capacity) ws
    let host := hostRun depth c (pushThenFlush ps maxPages)
    (∀ i < depth, (host.coalescer.staging i).dirty = false) →
    (∀ x ∈ flushWrites depth c (pushThenFlush ps maxPages),
      FTJController.CleanWrite x ∧ FTJController.writeResult x = true) →
    ∃ f f', c.ReadsAs f ∧ host.ftl.ReadsAs f' ∧
      ((∀ a, Uncovered ps a → f' a = f a) ↔
        ∀ i base, slotBase depth ps i = some base → ∀ r < pageSz, Uncovered ps (base + r) →
          slotBytes depth ps i r = f (base + r)) := by
  intro c host hempty hwrites
  obtain ⟨v, hrep, -, -⟩ := FTJController.run_represents hcap hsmall ws hclean
  have hecc := FTJController.run_eccMatches capacity ws
  obtain ⟨f', hreads, hf'⟩ := flush_overlay hdepth hrep hecc ps maxPages hempty hwrites
  refine ⟨FTJController.contentOf v, f', hrep.readsAs hecc, hreads, fun h i base hb r hr hun => ?_,
    fun h a hun => ?_⟩
  · obtain ⟨hmod, hslot⟩ := slotBase_eq hb
    obtain ⟨hdiv, hrem, hpage⟩ : (base + r) / pageSz = base / pageSz ∧ (base + r) % pageSz = r ∧
        base = pageBase (base + r) := by
      simp only [pageBase, pageSz] at hmod hr ⊢
      omega
    have hbyte := hf' (base + r)
    rw [hdiv, hslot, hb, hrem] at hbyte
    simp only at hbyte
    rw [if_pos hpage, h _ hun] at hbyte
    exact hbyte.symm
  · rw [hf' a]
    cases hb : slotBase depth ps (a / pageSz % depth) with
    | none => rfl
    | some base =>
      simp only
      split_ifs with hpage
      · have ha : base + a % pageSz = a := by
          rw [hpage, pageBase]
          exact Nat.div_add_mod' a pageSz
        rw [h _ base hb (a % pageSz) (Nat.mod_lt _ (by decide)) (by rwa [ha]), ha]
      · rfl

/-- Three bytes pushed to a new drive: the bytes around them are zero before and after. -/
theorem flush_frame_iff_new_drive :
    ∃ f f', (FTJController.construct FTJController.sixtyPages).ReadsAs f ∧
      (hostRun defaultDepth (FTJController.construct FTJController.sixtyPages)
        (pushThenFlush [⟨10, some fun _ => 7, 3⟩] [64])).ftl.ReadsAs f' ∧
      ∀ a, Uncovered [⟨10, some fun _ => 7, 3⟩] a → f' a = f a := by
  obtain ⟨f, f', hf, hf', hiff⟩ := flush_frame_iff FTJController.sixtyPages_admitted (by decide) []
    (fun x hx => by cases hx) (show 0 < defaultDepth by decide) [⟨10, some fun _ => 7, 3⟩] [64]
    (by decide +kernel) (by decide +kernel)
  refine ⟨f, f', hf, hf', hiff.mpr fun i base hb r hr hun => ?_⟩
  have hzero : f (base + r) = 0 := by
    rw [← hf.shown]
    simp [FTJController.rawByte, run, FTJController.construct]
  have hpushes : slotPushes defaultDepth [⟨10, some fun _ => 7, 3⟩] i =
      [⟨10, some fun _ => 7, 3⟩] ∧ base = 0 := by
    obtain ⟨p, hp, rfl⟩ := Option.map_eq_some_iff.mp hb
    have hmem := List.mem_filter.mp (List.mem_of_head? hp)
    obtain rfl := List.mem_singleton.mp hmem.1
    exact ⟨List.filter_eq_self.mpr fun q hq => List.mem_singleton.mp hq ▸ hmem.2, rfl⟩
  obtain ⟨hpushes, rfl⟩ := hpushes
  have hout : ¬ (10 ≤ r ∧ r < 13) := fun hin => by
    refine hun _ (List.mem_singleton_self _) ⟨by decide, ?_, ?_⟩
    · exact hin.1.trans_eq (Nat.zero_add r).symm
    · exact (Nat.zero_add r).trans_lt hin.2
  rw [hzero, slotBytes, hpushes]
  refine (congrFun (lastWrite_snoc (0 : Byte) [] _) r).trans (blit_out fun h => hout ?_)
  simpa [PushCall.slotPatch, pageSz] using h

/-- **A flush clears a byte.**  Bytes 0 and 1 hold 5; byte 0 alone is pushed and flushed, and byte 1
reads 0. -/
theorem flush_frame_clears_byte :
    let c := run FTJController.writeNext (FTJController.construct FTJController.sixtyPages)
      [⟨0, some fun _ => 5, 2⟩]
    let ops := pushThenFlush [⟨0, some fun _ => 1, 1⟩] [64]
    (∀ i < defaultDepth, ((hostRun defaultDepth c ops).coalescer.staging i).dirty = false) ∧
      (∀ x ∈ flushWrites defaultDepth c ops, FTJController.writeResult x = true) ∧
      Uncovered [⟨0, some fun _ => 1, 1⟩] 1 ∧
      c.Healthy ∧ (hostRun defaultDepth c ops).ftl.Healthy ∧
      ((c.read (fun _ _ _ _ => false) 0 1 (some fun _ => 0) 1).dest.map fun dest => dest 0) =
        some 5 ∧
      (((hostRun defaultDepth c ops).ftl.read (fun _ _ _ _ => false) 0 1 (some fun _ => 0) 1).dest.map
        fun dest => dest 0) = some 0 := by
  decide +kernel

end BurstCoalescer

end FtjSsdSim.Engine
