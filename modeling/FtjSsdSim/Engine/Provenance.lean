import Mathlib
import FtjSsdSim.Library.ByteStore
import FtjSsdSim.Library.Loop
import FtjSsdSim.Library.Machine
import FtjSsdSim.Engine.Controller
import FtjSsdSim.Engine.BurstCoalescer

/-!
# Where staged bytes end up

Every byte is staged with the address it is meant for, and the controller records the calls of
`Write` it is handed.  Forgetting the addresses and the record gives back the program's own run
(`marked_run`), so what is proved of the marks is proved of the bytes.

* `directed_of_no_conflict` — while no push meets a staging page in use for another page, every byte
  is handed over at its own address;
* `directed_conflict` — two pushes, to pages whose numbers are congruent modulo the depth, after
  which the second one's byte is handed over at the first one's address.
-/

namespace FtjSsdSim.Engine

open FtjSsdSim.Library

namespace BurstCoalescer

/-- A byte with the address it was staged for; the bytes of a fill have none. -/
structure Marked where
  byte : Byte
  address : Option ℕ

instance : Zero Marked := ⟨⟨0, none⟩⟩

/-- The bytes of a source, pushed at `lbaOffset`. -/
def marked (lbaOffset : ℕ) (src : ℕ → Byte) (i : ℕ) : Marked := ⟨src i, some (lbaOffset + i)⟩

/-- A call with its bytes marked. -/
def HostOp.mark : HostOp Byte → HostOp Marked
  | .push lbaOffset src size => .push lbaOffset (src.map (marked lbaOffset)) size
  | .flush maxPages => .flush maxPages

theorem HostOp.map_mark (op : HostOp Byte) : op.mark.map Marked.byte = op := by
  cases op with
  | push lbaOffset src size => cases src <;> rfl
  | flush maxPages => rfl

/-- `FTJController::Write`, as the coalescer calls it. -/
def controllerWrite (ftl : FTJController) (offset : ℕ) (src : ℕ → Byte) (size : ℕ) :
    Bool × FTJController :=
  ftl.write offset (some src) size

/-- The same on marked bytes, with a record of the calls. -/
def recordedWrite (s : FTJController × List (Patch Marked)) (offset : ℕ) (src : ℕ → Marked)
    (size : ℕ) : Bool × FTJController × List (Patch Marked) :=
  let r := controllerWrite s.1 offset (Marked.byte ∘ src) size
  (r.1, r.2, s.2 ++ [⟨offset, src, size⟩])

/-- The program's run: an empty coalescer of the given depth in front of a controller. -/
abbrev start (depth : ℕ) (ftl : FTJController) : Host Byte FTJController :=
  ⟨construct Byte depth, ftl⟩

/-- The marked run. -/
abbrev markedStart (depth : ℕ) (ftl : FTJController) :
    Host Marked (FTJController × List (Patch Marked)) :=
  ⟨construct Marked depth, (ftl, [])⟩

/-- The calls of `Write` in a run, with their bytes marked. -/
def handed (depth : ℕ) (ftl : FTJController) (ops : List (HostOp Byte)) : List (Patch Marked) :=
  (run (Host.step recordedWrite) (markedStart depth ftl) (ops.map HostOp.mark)).ftl.2

/-- Every byte that was staged for an address is handed over, if at all, at that address. -/
def Directed (depth : ℕ) (ftl : FTJController) (ops : List (HostOp Byte)) : Prop :=
  ∀ w ∈ handed depth ftl ops, ∀ r < w.size, ∀ a, (w.src r).address = some a → a = w.offset + r

/-- The call is a push that is taken and meets a staging page in use for another page. -/
def Conflict {β φ : Type*} (x : Host β φ × HostOp β) : Prop :=
  match x.2 with
  | .push lbaOffset src size =>
    src.isSome ∧ 0 < size ∧ size ≤ pageSz ∧
      (x.1.coalescer.staging (x.1.coalescer.pageIdx lbaOffset)).dirty = true ∧
      (x.1.coalescer.staging (x.1.coalescer.pageIdx lbaOffset)).baseLba ≠ pageBase lbaOffset
  | .flush _ => False

instance {β φ : Type*} (x : Host β φ × HostOp β) : Decidable (Conflict x) :=
  match x with
  | (_, .push ..) => inferInstanceAs (Decidable (_ ∧ _))
  | (_, .flush _) => inferInstanceAs (Decidable False)

/-! ### The marks follow the bytes -/

/-- Forgetting the marks and the record commutes with every call. -/
theorem forget_step (h : Host Marked (FTJController × List (Patch Marked))) (op : HostOp Marked) :
    Host.step controllerWrite (h.map Marked.byte Prod.fst) (op.map Marked.byte) =
      (Host.step recordedWrite h op).map Marked.byte Prod.fst :=
  Host.step_map rfl (fun _ _ _ _ => rfl) h op

theorem map_mark (ops : List (HostOp Byte)) :
    (ops.map HostOp.mark).map (HostOp.map Marked.byte) = ops := by
  rw [List.map_map]
  exact (List.map_congr_left fun op _ => op.map_mark).trans (List.map_id ops)

/-- **The marked run is the program's run**, with marks and a record on top. -/
theorem marked_run (depth : ℕ) (ftl : FTJController) (ops : List (HostOp Byte)) :
    run (Host.step controllerWrite) (start depth ftl) ops =
      (run (Host.step recordedWrite) (markedStart depth ftl) (ops.map HostOp.mark)).map
        Marked.byte Prod.fst := by
  have h := run_map forget_step (markedStart depth ftl) (ops.map HostOp.mark)
  rw [map_mark] at h
  exact h

theorem marked_cycles (depth : ℕ) (ftl : FTJController) (ops : List (HostOp Byte)) :
    cycles (Host.step controllerWrite) (start depth ftl) ops =
      (cycles (Host.step recordedWrite) (markedStart depth ftl) (ops.map HostOp.mark)).map
        (Prod.map (Host.map Marked.byte Prod.fst) (HostOp.map Marked.byte)) := by
  have h := cycles_map forget_step (markedStart depth ftl) (ops.map HostOp.mark)
  rw [map_mark] at h
  exact h

/-- The conflict is about the slots, not about what they hold. -/
theorem conflict_map {β γ φ ψ : Type*} {f : β → γ} {g : φ → ψ} (x : Host β φ × HostOp β) :
    Conflict (Prod.map (Host.map f g) (HostOp.map f) x) ↔ Conflict x := by
  obtain ⟨h, op⟩ := x
  cases op with
  | push lbaOffset src size => cases src <;> exact Iff.rfl
  | flush maxPages => exact Iff.rfl

/-! ### The invariant -/

/-- Every marked byte of the staging buffer is in a page in use, at its own address. -/
def InPlace (c : BurstCoalescer Marked) : Prop :=
  ∀ i r a, ((c.staging i).data r).address = some a →
    (c.staging i).dirty = true ∧ a = (c.staging i).baseLba + r

/-- Every marked byte of the calls was handed over at its own address. -/
def AllDirected (ws : List (Patch Marked)) : Prop :=
  ∀ w ∈ ws, ∀ r a, (w.src r).address = some a → a = w.offset + r

theorem construct_inPlace (depth : ℕ) : (construct Marked depth).InPlace := by
  rintro i r a h
  cases h

/-- Replacing one page by a page whose bytes are in place. -/
theorem InPlace.update {c c' : BurstCoalescer Marked} (h : c.InPlace) {i : ℕ}
    (pg : CoalescePage Marked) (hstaging : c'.staging = Function.update c.staging i pg)
    (hpg : ∀ r a, (pg.data r).address = some a → pg.dirty = true ∧ a = pg.baseLba + r) :
    c'.InPlace := by
  intro j r a hj
  rw [hstaging] at hj ⊢
  by_cases hij : j = i
  · subst hij
    rw [Function.update_self] at hj ⊢
    exact hpg r a hj
  · rw [Function.update_of_ne hij] at hj ⊢
    exact h j r a hj

/-- **A push without a conflict** puts its bytes in place. -/
theorem pushWrite_inPlace {c : BurstCoalescer Marked} (h : c.InPlace) (lbaOffset : ℕ)
    (src : Option (ℕ → Byte)) (size : ℕ)
    (hslot : src.isSome → 0 < size → size ≤ pageSz →
      (c.staging (c.pageIdx lbaOffset)).dirty = true →
        (c.staging (c.pageIdx lbaOffset)).baseLba = pageBase lbaOffset) :
    (c.pushWrite lbaOffset (src.map (marked lbaOffset)) size).2.InPlace := by
  cases src with
  | none => exact h
  | some src =>
    by_cases hsize : size = 0 ∨ size > pageSz
    · simp only [pushWrite, Option.map_some, if_pos hsize]
      exact h
    · -- the page is in use, whoever claimed it, for the page of `lbaOffset`
      have hclaim : claimSlot (c.staging (c.pageIdx lbaOffset)) lbaOffset =
          { c.staging (c.pageIdx lbaOffset) with baseLba := pageBase lbaOffset, dirty := true } := by
        rw [claimSlot]
        split_ifs with hd
        · rw [← hslot rfl (by omega) (by omega) hd, ← hd]
        · rfl
      have hold : ∀ r a, ((c.staging (c.pageIdx lbaOffset)).data r).address = some a →
          a = pageBase lbaOffset + r := by
        intro r a ha
        obtain ⟨hd, hr⟩ := h _ r a ha
        rw [hr, hslot rfl (by omega) (by omega) hd]
      simp only [pushWrite, Option.map_some, if_neg hsize]
      refine h.update (i := c.pageIdx lbaOffset) _ rfl fun r a hr => ?_
      rw [hclaim] at hr ⊢
      refine ⟨rfl, ?_⟩
      simp only [stage] at hr ⊢
      by_cases hin : lbaOffset % pageSz ≤ r ∧
          r < lbaOffset % pageSz + min size (pageSz - lbaOffset % pageSz)
      · rw [blit_in hin.1 hin.2] at hr
        have ha : lbaOffset + (0 + (r - lbaOffset % pageSz)) = a := Option.some_inj.mp hr
        have hdiv := Nat.div_add_mod' lbaOffset pageSz
        simp only [pageBase]
        omega
      · rw [blit_out hin] at hr
        exact hold r a hr

/-- **One iteration of the flush loop** hands the bytes of a page over in place. -/
theorem flushSlot_directed {st : FlushState Marked (FTJController × List (Patch Marked))}
    (hc : st.coalescer.InPlace) (hw : AllDirected st.ftl.2) (maxPages i : ℕ) :
    (flushSlot recordedWrite maxPages i st).coalescer.InPlace ∧
      AllDirected (flushSlot recordedWrite maxPages i st).ftl.2 := by
  rw [flushSlot]
  simp only
  split_ifs with hgo
  · constructor
    · refine hc.update (i := i) (CoalescePage.empty Marked) ?_ fun r a hr => by cases hr
      exact congrArg (fun staging => Function.update staging i _) (countWrite_staging ..)
    · intro w hmem
      rcases List.mem_append.mp hmem with hmem | hmem
      · exact hw w hmem
      · obtain rfl := List.mem_singleton.mp hmem
        exact fun r a hr => (hc i r a hr).2
  · exact ⟨hc, hw⟩

/-- **One call.** -/
theorem step_directed {h : Host Marked (FTJController × List (Patch Marked))}
    (hc : h.coalescer.InPlace) (hw : AllDirected h.ftl.2) (op : HostOp Byte)
    (hok : ¬ Conflict (h, op.mark)) :
    (Host.step recordedWrite h op.mark).coalescer.InPlace ∧
      AllDirected (Host.step recordedWrite h op.mark).ftl.2 := by
  cases op with
  | push lbaOffset src size =>
    refine ⟨pushWrite_inPlace hc lbaOffset src size fun hsome hpos hle hd => ?_, hw⟩
    by_contra hbase
    exact hok ⟨by rwa [Option.isSome_map], hpos, hle, hd, hbase⟩
  | flush maxPages =>
    exact forLoop_preserves (P := fun st : FlushState Marked (FTJController × List (Patch Marked)) =>
      st.coalescer.InPlace ∧ AllDirected st.ftl.2) ⟨hc, hw⟩
      fun i t _ _ ht => flushSlot_directed ht.1 ht.2 maxPages i

/-- **No byte is misdirected in a run without conflicts.**  For every depth, every controller and
every sequence of pushes and flushes in which no push that is taken meets a staging page in use for
another page, every byte is handed to `Write`, if at all, at the address it was pushed for. -/
theorem directed_of_no_conflict (depth : ℕ) (ftl : FTJController) (ops : List (HostOp Byte))
    (hok : ∀ x ∈ cycles (Host.step controllerWrite) (start depth ftl) ops, ¬ Conflict x) :
    Directed depth ftl ops := by
  have hrun : (run (Host.step recordedWrite) (markedStart depth ftl)
      (ops.map HostOp.mark)).coalescer.InPlace ∧ AllDirected (handed depth ftl ops) := by
    refine run_invariant (P := fun x => ¬ Conflict x ∧ ∃ op : HostOp Byte, x.2 = op.mark)
      (I := fun h : Host Marked (FTJController × List (Patch Marked)) =>
        h.coalescer.InPlace ∧ AllDirected h.ftl.2)
      ⟨construct_inPlace depth, fun w hw => by cases hw⟩ ?next _ ?noConflict
    case next =>
      rintro h op ⟨hc, hw⟩ ⟨hnot, op', rfl⟩
      exact step_directed hc hw op' hnot
    case noConflict =>
      intro x hx
      constructor
      · intro hconf
        refine hok _ ?_ (conflict_map (f := Marked.byte) (g := Prod.fst) x |>.mpr hconf)
        rw [marked_cycles]
        exact List.mem_map_of_mem hx
      · obtain ⟨op, -, hop⟩ := List.mem_map.mp (mem_of_mem_cycles hx)
        exact ⟨op, hop.symm⟩
  exact fun w hw r _ a => hrun.2 w hw r a

/-- Pushes to two pages, one of them twice, and a flush. -/
theorem directed_of_no_conflict_two_pages :
    Directed defaultDepth (FTJController.construct (512 * 4096))
      [.push 4094 (some fun _ => 1) 8, .push 10 (some fun _ => 2) 4, .push 4096 (some fun _ => 3) 1,
        .flush 64] :=
  directed_of_no_conflict _ _ _ (by decide +kernel)

/-- **A misdirected byte.**  Pages 0 and 256 share a staging page: the byte pushed for address
1048576 is taken and handed to `Write` at address 0. -/
theorem directed_conflict :
    ¬ Directed defaultDepth (FTJController.construct (512 * 4096))
      [.push 0 (some fun _ => 1) 1, .push 1048576 (some fun _ => 2) 1, .flush 64] := by
  intro h
  have hhanded : (handed defaultDepth (FTJController.construct (512 * 4096))
      [.push 0 (some fun _ => 1) 1, .push 1048576 (some fun _ => 2) 1, .flush 64]).map
        (fun w => (w.offset, w.size, (w.src 0).address)) = [(0, 4096, some 1048576)] := by
    decide +kernel
  obtain ⟨w, hw, hpatch⟩ := List.mem_map.mp (hhanded ▸ List.mem_singleton_self _)
  obtain ⟨hoffset, hsize, haddress⟩ : w.offset = 0 ∧ w.size = 4096 ∧
      (w.src 0).address = some 1048576 := by simpa using hpatch
  have := h w hw 0 (by omega) 1048576 haddress
  omega

end BurstCoalescer

end FtjSsdSim.Engine
