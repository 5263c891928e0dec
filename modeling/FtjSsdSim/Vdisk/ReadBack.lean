import Mathlib
import FtjSsdSim.Vdisk.Runs

/-!
# Files over a run

What a file of a volume that is reached does with its bytes.

* `reached_setFileSize`, `reached_write` — exactly when changing its size, or writing, leaves its block;
* `reached_readBack` — what was written is read, and what was not is as it was, whatever calls come between
  that leave the bytes of the file alone (`Spared`).
-/

namespace FtjSsdSim.Vdisk

open FtjSsdSim.Library FtjSsdSim.Engine

variable {nls : Nls} {v : Volume nls false} {a : Store} {id : NodeId} {n : FileNode} {ps : Path}
  {pathSuffix : PathSuffix} {sys : System}

namespace Volume

/-! ### Leaving the block -/

/-- **Exactly when `SetFileSize` leaves the block of a file**, in any volume that is reached. -/
theorem reached_setFileSize (hsplit : Splits pathSuffix) (h : Reached pathSuffix v a)
    (hn : v.fs.nodes id = some n) (sys : System) {newSize : ℕ} (hnew : newSize < 2 ^ 64) :
    v.fs.setFileSize sys id newSize false = none ↔ Overruns n newSize := by
  obtain ⟨hinv, -⟩ := h.inv hsplit
  rw [← setFileSizeInternal_eq_none_iff sys (hinv.held id n hn) hinv.small hnew, Memfs.setFileSize, hn,
    Option.bind_eq_bind, Option.bind_some]
  cases setFileSizeInternal v.fs.maxFileSize sys n newSize false with
  | none => exact iff_of_true rfl rfl
  | some r => exact iff_of_false (by simp) (by simp)

theorem node_oneFile : ∃ n, oneFile.fs.nodes 2 = some n ∧ n.fileName ≠ diskName ∧ ¬ Overruns n 4096 := by
  have hnode : (oneFile.fs.nodes 2).map (fun n => (n.fileName, n.fileInfo.allocationSize)) =
      some (pathName [partA], 0) := by decide
  obtain ⟨n, hn, hdata⟩ := Option.map_eq_some_iff.mp hnode
  obtain ⟨hname, halloc⟩ := Prod.mk.inj hdata
  refine ⟨n, hn, by rw [hname]; decide, ?_⟩
  rintro (hwrap | ⟨-, -, hle⟩)
  · exact absurd hwrap (by norm_num)
  · rw [halloc] at hle
    exact absurd hle (by decide)

theorem reached_setFileSize_oneFile : oneFile.fs.setFileSize willing 2 (2 ^ 64 - 1) false = none ∧
    oneFile.fs.setFileSize willing 2 4096 false ≠ none := by
  obtain ⟨n, hn, -, hok⟩ := node_oneFile
  constructor
  · exact (reached_setFileSize fspPathSuffix_splits reached_oneFile hn willing (by norm_num)).mpr (.inl (by norm_num))
  · exact fun hnone => hok
      ((reached_setFileSize fspPathSuffix_splits reached_oneFile hn willing (by norm_num)).mp hnone)

/-- **Exactly when `Write` leaves the block of a file**: where its end, or the end rounded up, does not fit
64 bits, and in the first case the file could be given the size that is left of the end. -/
theorem reached_write (hsplit : Splits pathSuffix) (h : Reached pathSuffix v a) (hn : v.fs.nodes id = some n)
    (hname : n.fileName ≠ diskName) (sys : System) (buffer : ℕ → Byte) {offset length : ℕ}
    (writeToEndOfFile constrainedIo : Bool) (hoffset : offset < 2 ^ 64) (hlength : length < 2 ^ 32) :
    v.fs.write sys id buffer offset length writeToEndOfFile constrainedIo = none ↔
      constrainedIo = false ∧
        ((writeStart n.contents offset writeToEndOfFile constrainedIo + length < 2 ^ 64 ∧
            2 ^ 64 ≤ writeStart n.contents offset writeToEndOfFile constrainedIo + length + 511) ∨
          (2 ^ 64 ≤ writeStart n.contents offset writeToEndOfFile constrainedIo + length ∧
            ∃ m, setFileSizeInternal v.fs.maxFileSize sys n
              (writeStart n.contents offset writeToEndOfFile constrainedIo + length - 2 ^ 64) false =
                some (.success, m))) := by
  obtain ⟨hinv, -⟩ := h.inv hsplit
  rw [← write_eq_none_iff sys ((hinv.held id n hn).backed hname) hinv.small hoffset hlength, Memfs.write, hn,
    Option.bind_eq_bind, Option.bind_some]
  cases n.write v.fs.maxFileSize sys buffer offset length writeToEndOfFile constrainedIo with
  | none => exact iff_of_true rfl rfl
  | some r => exact iff_of_false (by simp) (by simp)

theorem reached_write_oneFile :
    oneFile.fs.write willing 2 (fun _ => 7) (2 ^ 64 - 2) 1 false false = none ∧
      oneFile.fs.write willing 2 (fun _ => 7) 100 3 false false ≠ none := by
  obtain ⟨n, hn, hname, -⟩ := node_oneFile
  constructor
  · refine (reached_write fspPathSuffix_splits reached_oneFile hn hname willing (fun _ => 7) false false (by norm_num)
      (by norm_num)).mpr ⟨rfl, .inl ⟨?_, ?_⟩⟩
    · show 2 ^ 64 - 2 + 1 < 2 ^ 64
      norm_num
    · show 2 ^ 64 ≤ 2 ^ 64 - 2 + 1 + 511
      norm_num
  · intro hnone
    obtain ⟨-, ⟨-, hwrap⟩ | ⟨hwrap, -⟩⟩ := (reached_write fspPathSuffix_splits reached_oneFile hn hname willing
      (fun _ => 7) false false (by norm_num) (by norm_num)).mp hnone
    · exact absurd (show 2 ^ 64 ≤ 100 + 3 + 511 from hwrap) (by norm_num)
    · exact absurd (show 2 ^ 64 ≤ 100 + 3 from hwrap) (by norm_num)

end Volume

/-! ### Reading back -/

/-- A request that leaves the bytes of a file alone. -/
def Request.Spares (id : NodeId) : Request → Prop
  | .overwrite other _ _ _ => other ≠ id
  | .write other _ _ _ _ _ => other ≠ id
  | .setFileSize other _ _ => other ≠ id
  | .rename other _ _ => other ≠ id
  | _ => True

theorem Store.setBytes_object_of_ne (a : Store) {other : NodeId} (h : other ≠ id)
    (f : List Byte → List Byte) : (a.setBytes other f).object id = a.object id :=
  Function.update_of_ne h.symm _ _

theorem Store.apply_object_of_spares {r : Request} {reply : Reply} (h : r.Spares id)
    (hanswers : a.Answers r reply) (hid : id ∈ a.opens) : (a.apply r reply).object id = a.object id := by
  unfold Store.apply
  split
  · -- a new file is none of the open ones
    refine Function.update_of_ne ?_ _ _
    rintro rfl
    exact (hanswers.2 rfl).1 hid
  · rfl
  · rfl
  · exact a.setBytes_object_of_ne h _
  · split_ifs <;> rfl
  · exact a.setBytes_object_of_ne h _
  · exact a.setBytes_object_of_ne h _
  · exact Function.update_of_ne (Ne.symm h) _ _
  · rfl

namespace Volume

/-- Admitted calls that leave the bytes of a file alone, while it stays open. -/
inductive Spared (pathSuffix : PathSuffix) (id : NodeId) (v : Volume nls false) (a : Store) :
    Volume nls false → Store → Prop
  | refl : Spared pathSuffix id v a v a
  | call {w w' : Volume nls false} {b : Store} {r : Request} {reply : Reply} (hits : FTJController.Hits)
      (sys : System) (h : Spared pathSuffix id v a w b) (hid : id ∈ w.opens) (hr : r.Admitted w)
      (hspares : r.Spares id) (hcall : w.call pathSuffix hits sys r = some (reply, w')) :
      Spared pathSuffix id v a w' (b.apply r reply)

theorem Spared.reached {w : Volume nls false} {b : Store} (hs : Spared pathSuffix id v a w b)
    (hsplit : Splits pathSuffix) (h : Reached pathSuffix v a) :
    Reached pathSuffix w b ∧ b.object id = a.object id := by
  induction hs with
  | refl => exact ⟨h, rfl⟩
  | @call w w' b r reply hits sys hs hid hr hspares hcall ih =>
    obtain ⟨hreached, hobject⟩ := ih
    obtain ⟨hinv, hshows⟩ := hreached.inv hsplit
    obtain ⟨-, -, hanswers⟩ := hinv.of_call hshows hsplit hr hcall
    refine ⟨hreached.call hits sys hr hcall, ?_⟩
    rw [Store.apply_object_of_spares hspares hanswers (by rw [hshows.opens]; exact hid), hobject]

theorem read_transferred {hits : FTJController.Hits} {buffer : ℕ → Byte} {offset length : ℕ} {reply : Reply}
    {v' : Volume nls false}
    (h : v.call pathSuffix hits sys (.read id buffer offset length) = some (reply, v')) :
    ∃ status count bytes, reply = .transferred status count bytes := by
  rw [call, Volume.read, Option.bind_eq_bind] at h
  obtain ⟨n, -, hn⟩ := Option.bind_eq_some_iff.mp h
  split_ifs at hn
  · cases hn
    exact ⟨_, _, _, rfl⟩
  · obtain ⟨r, -, hr⟩ := Option.bind_eq_some_iff.mp hn
    cases hr
    exact ⟨_, _, _, rfl⟩

theorem write_transferred {hits : FTJController.Hits} {buffer : ℕ → Byte} {offset length : ℕ}
    {eof constrained : Bool} {reply : Reply} {v' : Volume nls false}
    (h : v.call pathSuffix hits sys (.write id buffer offset length eof constrained) = some (reply, v')) :
    ∃ status count, reply = .transferred status count [] := by
  rw [call, Volume.write, Option.bind_eq_bind] at h
  obtain ⟨n, -, hn⟩ := Option.bind_eq_some_iff.mp h
  split_ifs at hn
  · cases hn
    exact ⟨_, _, rfl⟩
  · obtain ⟨r, -, hr⟩ := Option.bind_eq_some_iff.mp hn
    cases hr
    exact ⟨_, _, rfl⟩

/-- Reading as many bytes there gives these. -/
def Delivers (pathSuffix : PathSuffix) (v : Volume nls false) (id : NodeId) (offset : ℕ) (bytes : List Byte) :
    Prop :=
  ∀ hits sys buffer, (Request.read id buffer offset bytes.length).Admitted v →
    ∃ v', v.call pathSuffix hits sys (.read id buffer offset bytes.length) =
      some (.transferred .success bytes.length bytes, v')

theorem Reached.delivers (h : Reached pathSuffix v a) (hsplit : Splits pathSuffix) {file bytes : List Byte}
    (hfile : (a.object id).bytes = some file) {offset : ℕ} (hlt : offset < file.length)
    (hslice : slice file offset bytes.length = bytes) : v.Delivers pathSuffix id offset bytes := by
  intro hits sys buffer hr
  obtain ⟨hinv, hs⟩ := h.inv hsplit
  have hserved : Served a (.read id buffer offset bytes.length)
      (v.call pathSuffix hits sys (.read id buffer offset bytes.length)) := hinv.read hs hr
  obtain ⟨reply, v', heq, -, -, hanswers⟩ := hserved
  obtain ⟨status, count, got, rfl⟩ := read_transferred heq
  have hgot := hanswers file hfile
  rw [if_neg (Nat.not_le.mpr hlt), hslice] at hgot
  obtain ⟨rfl, rfl, rfl⟩ := hgot
  exact ⟨v', heq⟩

/-- A write within `MaxFileSize` fails for want of memory only. -/
theorem Inv.write_succeeds (h : v.Inv) (hs : v.Shows a) {file : List Byte}
    (hfile : (a.object id).bytes = some file) {hits : FTJController.Hits} {buffer : ℕ → Byte}
    {offset length count : ℕ} {eof constrained : Bool} {status : Status} {v' : Volume nls false}
    (hr : (Request.write id buffer offset length eof constrained).Admitted v) (hmem : sys.heapOk = true)
    (hfit : constrained = false →
      roundUp (writeStart file offset eof constrained + length) ≤ v.fs.maxFileSize)
    (heq : v.call pathSuffix hits sys (.write id buffer offset length eof constrained) =
      some (.transferred status count [], v')) : status = .success := by
  obtain ⟨hid, -, hend⟩ := hr
  obtain ⟨n, hn⟩ := h.open_node hid
  rw [hs.object id n hn] at hfile
  obtain ⟨hname, rfl⟩ := view_bytes hfile
  rw [call, Volume.write, hn, Option.bind_eq_bind, Option.bind_some, if_neg hname] at heq
  obtain ⟨r, hwrite, hrv⟩ := Option.bind_eq_some_iff.mp heq
  cases hrv
  rw [Memfs.write, hn, Option.bind_eq_bind, Option.bind_some] at hwrite
  obtain ⟨x, hx, hxr⟩ := Option.bind_eq_some_iff.mp hwrite
  cases hxr
  refine write_success hmem (fun hc => ⟨?_, hfit hc⟩) hx
  have hlt := hend hc n hn
  omega

/-- A file that was written gives what was written, and beside it what was there before. -/
theorem Reached.delivers_written (h : Reached pathSuffix v a) (hsplit : Splits pathSuffix) {file : List Byte}
    {buffer : ℕ → Byte} {offset length count : ℕ} {eof constrained : Bool}
    (hbytes : (a.object id).bytes = some (written file buffer offset length eof constrained))
    (hcount : count = writeCount file offset length constrained) :
    (0 < count → v.Delivers pathSuffix id (writeStart file offset eof constrained) (window buffer count)) ∧
      ∀ o k, 0 < k → o + k ≤ file.length →
        o + k ≤ writeStart file offset eof constrained ∨
          writeStart file offset eof constrained + count ≤ o →
        v.Delivers pathSuffix id o (slice file o k) := by
  have hlength : ∀ o k, o + k ≤ file.length → (slice file o k).length = k := by
    intro o k hle
    rw [slice, List.length_take, List.length_drop]
    omega
  by_cases hpast : constrained = true ∧ file.length ≤ offset
  · -- constrained to a file that ends before it: nothing is written
    rw [written, if_pos hpast] at hbytes
    have hnone : count = 0 := by
      rw [hcount, writeCount, if_pos hpast.1]
      omega
    refine ⟨fun hpos => by omega, ?_⟩
    intro o k hk hle _
    exact h.delivers hsplit hbytes (by omega) (by rw [hlength o k hle])
  · rw [written, if_neg hpast, ← hcount] at hbytes
    have hsize := length_splice 0 file (writeStart file offset eof constrained) (window buffer count)
    rw [length_window] at hsize
    constructor
    · intro hpos
      refine h.delivers hsplit hbytes (by omega) ?_
      exact slice_splice_self 0 file _ (window buffer count)
    · intro o k hk hle hbeside
      refine h.delivers hsplit hbytes (by omega) ?_
      rw [hlength o k hle]
      exact slice_splice_of_disjoint 0 file hle (by rw [length_window]; exact hbeside)

/-- **Read your writes.**  A write within `MaxFileSize` succeeds if there is memory.  One that succeeds is
read back, and what is beside it as it was, after whatever calls that leave the bytes of the file alone. -/
theorem reached_readBack (hsplit : Splits pathSuffix) (h : Reached pathSuffix v a) {file : List Byte}
    (hfile : (a.object id).bytes = some file) {buffer : ℕ → Byte} {offset length : ℕ}
    {eof constrained : Bool} (hr : (Request.write id buffer offset length eof constrained).Admitted v)
    (sys : System) (hits : FTJController.Hits) :
    ∃ status count v₁, v.call pathSuffix hits sys (.write id buffer offset length eof constrained) =
        some (.transferred status count [], v₁) ∧
      (sys.heapOk = true → (constrained = false →
          roundUp (writeStart file offset eof constrained + length) ≤ v.fs.maxFileSize) → status = .success) ∧
      (status = .success → count = writeCount file offset length constrained ∧
        ∀ w b, Spared pathSuffix id v₁
            (a.apply (.write id buffer offset length eof constrained) (.transferred status count [])) w b →
          (0 < count → w.Delivers pathSuffix id (writeStart file offset eof constrained)
            (window buffer count)) ∧
          ∀ o k, 0 < k → o + k ≤ file.length →
            o + k ≤ writeStart file offset eof constrained ∨
              writeStart file offset eof constrained + count ≤ o →
            w.Delivers pathSuffix id o (slice file o k)) := by
  obtain ⟨hinv, hs⟩ := h.inv hsplit
  have hserved : Served a (.write id buffer offset length eof constrained)
      (v.call pathSuffix hits sys (.write id buffer offset length eof constrained)) := hinv.write hs hr
  obtain ⟨reply, v₁, heq, -, -, hanswers⟩ := hserved
  obtain ⟨status, count, rfl⟩ := write_transferred heq
  refine ⟨status, count, v₁, heq, fun hmem hfit => hinv.write_succeeds hs hfile hr hmem hfit heq, ?_⟩
  rintro rfl
  have hcount : count = writeCount file offset length constrained := hanswers file hfile rfl
  refine ⟨hcount, fun w b hspared => ?_⟩
  obtain ⟨hreached, hobject⟩ := hspared.reached hsplit (h.call hits sys hr heq)
  refine hreached.delivers_written hsplit ?_ hcount
  rw [hobject]
  show (Function.update a.object id _ id).bytes = _
  rw [Function.update_self, hfile]
  rfl

/-- A write to the file in the root. -/
def writeFile (byte : Byte) (offset length : ℕ) : Request := .write 2 (fun _ => byte) offset length false false

theorem writeFile_admitted {v : Volume plainNls false} (hopen : 2 ∈ v.opens) (byte : Byte) {offset length : ℕ}
    (hlength : length < 2 ^ 32) (hend : offset + length + 511 < 2 ^ 64) :
    (writeFile byte offset length).Admitted v := ⟨hopen, hlength, fun _ _ _ => hend⟩

theorem replies_writeFile : oneFile.replies [writeFile 5 0 4, writeFile 7 100 3, makeFile [partB]] =
      [some (.transferred .success 4 []), some (.transferred .success 3 []), some (.opened .success 3)] ∧
    2 ∈ oneFile.opens ∧ 2 ∈ (oneFile.after (writeFile 5 0 4)).opens ∧
    2 ∈ ((oneFile.after (writeFile 5 0 4)).after (writeFile 7 100 3)).opens := by decide

/-- Both writes are read back after another file has been made. -/
theorem reached_readBack_writeFile : ∃ v w : Volume plainNls false,
    (oneFile.after (writeFile 5 0 4)).ask (writeFile 7 100 3) = some (.transferred .success 3 [], v) ∧
      v.ask (makeFile [partB]) = some (.opened .success 3, w) ∧
      w.Delivers fspPathSuffix 2 100 [7, 7, 7] ∧ w.Delivers fspPathSuffix 2 0 [5, 5, 5, 5] := by
  obtain ⟨hreplies, hopen, hopen', hopen''⟩ := replies_writeFile
  simp only [replies, List.cons.injEq] at hreplies
  have h := reached_oneFile.after (writeFile_admitted hopen 5 (by norm_num) (by norm_num)) hreplies.1
  have hfile : ((((Store.mounted true).apply (makeFile [partA]) (.opened .success 2)).apply (writeFile 5 0 4)
      (.transferred .success 4 [])).object 2).bytes = some [5, 5, 5, 5] := by
    simp only [makeFile, writeFile, Store.apply, pathOf_pathName, Store.setBytes, Function.update_self]
    rfl
  have hr : (writeFile 7 100 3).Admitted (oneFile.after (writeFile 5 0 4)) :=
    writeFile_admitted hopen' 7 (by norm_num) (by norm_num)
  obtain ⟨status, count, v, hcall, -, hback⟩ := reached_readBack fspPathSuffix_splits h hfile hr
    willing (fun _ _ _ _ => false)
  have hask : some (Reply.transferred .success 3 [], (oneFile.after (writeFile 5 0 4)).after (writeFile 7 100 3)) =
      some (Reply.transferred status count [], v) := (ask_eq hreplies.2.1).symm.trans hcall
  cases hask
  obtain ⟨-, hspared⟩ := hback rfl
  obtain ⟨hdelivers, hbeside⟩ := hspared _ _ (.call _ willing .refl hopen'' (makeFile_admitted _ [partB]) trivial
    (ask_eq hreplies.2.2.1))
  exact ⟨_, _, hcall, ask_eq hreplies.2.2.1, hdelivers (by decide),
    hbeside 0 4 (by decide) (by decide) (.inl (by decide))⟩

end Volume

end FtjSsdSim.Vdisk
