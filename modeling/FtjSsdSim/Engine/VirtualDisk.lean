import Mathlib
import FtjSsdSim.Engine.Bounds
import FtjSsdSim.Engine.Controller

/-!
# The virtual disk file

The branches of the file system callbacks `Read` and `Write` for the file `\ftj_disk.bin`, which hand
a transfer to the process's controller.  Offsets and sizes are 64-bit, the length of the host's buffer
is 32-bit, and the size passed on is `EndOffset - Offset` cut to 32 bits.

* Up to the end of the file the size is at most the length, also where `Offset + Length` wraps
  (`transferSize_le`).
* A write past the end of the file makes the difference negative.  Its 32 bits are then a size above
  the capacity of the disk unless the offset itself is (`transferSize_beyond`), so the controller's
  range check refuses every such call.
-/

namespace FtjSsdSim.Engine.VirtualDisk

open FtjSsdSim.Library FtjSsdSim.Engine.FTJController

/-! ### The callbacks of the source -/

/-- The results of the two branches. -/
inductive NtStatus where
  | success
  | endOfFile
  | invalidParameter
  deriving DecidableEq, Repr

/-- The fields of `FSP_FSCTL_FILE_INFO` that the branches read or assign. -/
structure FileInfo where
  fileSize : BitVec 64
  lastWriteTime : BitVec 64
  changeTime : BitVec 64

/-- The file node of the disk, `g_controller` and the generator seed of the calling thread. -/
structure Disk where
  fileInfo : FileInfo
  controller : Option FTJController
  seed : Word

/-- A call of the controller: its arguments and whether it returned true. -/
structure Call where
  offset : BitVec 64
  size : BitVec 32
  ok : Bool
  deriving DecidableEq, Repr

/-- What a callback returns, with the call it made.  `bytesTransferred` and `fileInfo` are `none` where
nothing is assigned through the pointer. -/
structure Answer where
  status : NtStatus
  bytesTransferred : Option (BitVec 32)
  fileInfo : Option FileInfo
  buffer : Option (ℕ → Byte)
  disk : Disk
  call : Option Call

/-- `EndOffset`: the end of the transfer, cut at the end of the file. -/
def endOffset (offset : BitVec 64) (length : BitVec 32) (fileSize : BitVec 64) : BitVec 64 :=
  let endOffset := offset + length.setWidth 64
  if endOffset > fileSize then fileSize else endOffset

/-- `(ULONG)(EndOffset - Offset)`. -/
def transferSize (offset : BitVec 64) (length : BitVec 32) (fileSize : BitVec 64) : BitVec 32 :=
  (endOffset offset length fileSize - offset).setWidth 32

/-- `Read`. -/
def read (hits : Hits) (d : Disk) (buffer : Option (ℕ → Byte)) (offset : BitVec 64)
    (length : BitVec 32) : Answer :=
  if offset ≥ d.fileInfo.fileSize then ⟨.endOfFile, none, none, buffer, d, none⟩
  else
    match d.controller with
    | none => ⟨.invalidParameter, none, none, buffer, d, none⟩
    | some c =>
      let size := transferSize offset length d.fileInfo.fileSize
      let r := c.read hits d.seed offset.toNat buffer size.toNat
      let d := { d with controller := some r.controller, seed := r.seed }
      let call := some ⟨offset, size, r.ok⟩
      if r.ok then ⟨.success, some size, none, r.dest, d, call⟩
      else ⟨.invalidParameter, none, none, r.dest, d, call⟩

/-- The common end of `Write`.  `now` is the system time, `infoWanted` tells whether the `FileInfo`
pointer is not null. -/
def writeRange (d : Disk) (buffer : Option (ℕ → Byte)) (offset : BitVec 64) (length : BitVec 32)
    (infoWanted : Bool) (now : BitVec 64) : Answer :=
  match d.controller with
  | none => ⟨.invalidParameter, none, none, buffer, d, none⟩
  | some c =>
    let size := transferSize offset length d.fileInfo.fileSize
    match c.write offset.toNat buffer size.toNat with
    | (true, c) =>
      let call := some ⟨offset, size, true⟩
      if infoWanted then
        let info := { d.fileInfo with lastWriteTime := now, changeTime := now }
        ⟨.success, some size, some info, buffer, { d with fileInfo := info, controller := some c },
          call⟩
      else ⟨.success, some size, none, buffer, { d with controller := some c }, call⟩
    | (false, c) =>
      ⟨.invalidParameter, none, none, buffer, { d with controller := some c },
        some ⟨offset, size, false⟩⟩

/-- `Write`. -/
def write (d : Disk) (buffer : Option (ℕ → Byte)) (offset : BitVec 64) (length : BitVec 32)
    (writeToEndOfFile constrainedIo infoWanted : Bool) (now : BitVec 64) : Answer :=
  if constrainedIo then
    if offset ≥ d.fileInfo.fileSize then ⟨.success, none, none, buffer, d, none⟩
    else writeRange d buffer offset length infoWanted now
  else
    writeRange d buffer (if writeToEndOfFile then d.fileInfo.fileSize else offset) length infoWanted
      now

/-! ### The size passed on -/

section

variable {offset fileSize : BitVec 64} {length : BitVec 32}

theorem endOffset_toNat : (endOffset offset length fileSize).toNat =
    min ((offset.toNat + length.toNat) % 2 ^ 64) fileSize.toNat := by
  have hlen : (length.setWidth 64).toNat = length.toNat := by
    rw [BitVec.toNat_setWidth]
    have := length.isLt
    omega
  have hsum : (offset + length.setWidth 64).toNat = (offset.toNat + length.toNat) % 2 ^ 64 := by
    rw [BitVec.toNat_add, hlen]
  show (if offset + length.setWidth 64 > fileSize then fileSize
    else offset + length.setWidth 64).toNat = _
  split_ifs with hgt
  · rw [gt_iff_lt, BitVec.lt_def, hsum] at hgt
    omega
  · rw [gt_iff_lt, BitVec.lt_def, hsum] at hgt
    omega

theorem transferSize_toNat : (transferSize offset length fileSize).toNat =
    ((2 ^ 64 - offset.toNat + min ((offset.toNat + length.toNat) % 2 ^ 64) fileSize.toNat) % 2 ^ 64) %
      2 ^ 32 := by
  rw [transferSize, BitVec.toNat_setWidth, BitVec.toNat_sub, endOffset_toNat]

/-- From inside the file, or from its end, the size is at most the length. -/
theorem transferSize_le (h : offset.toNat ≤ fileSize.toNat) :
    (transferSize offset length fileSize).toNat ≤ length.toNat := by
  have hoffset := offset.isLt
  have hlength := length.isLt
  have hfile := fileSize.isLt
  rw [transferSize_toNat]
  rcases Nat.lt_or_ge (offset.toNat + length.toNat) (2 ^ 64) with hfit | hwrap
  · have hmin : min ((offset.toNat + length.toNat) % 2 ^ 64) fileSize.toNat =
        min (offset.toNat + length.toNat) fileSize.toNat := by rw [Nat.mod_eq_of_lt hfit]
    rw [hmin]
    omega
  · omega

/-- A size from past the end of the file is out of the range of every capacity below 2 ^ 31, or the
offset is. -/
theorem transferSize_beyond {capacity : ℕ} (hcap : capacity < 2 ^ 31)
    (h : fileSize.toNat < offset.toNat) (hin : offset.toNat ≤ capacity) :
    capacity < (transferSize offset length fileSize).toNat := by
  have hlength := length.isLt
  rw [transferSize_toNat]
  omega

end

/-! ### The calls that succeed -/

section

variable {c : FTJController} {offset size : ℕ}

/-- A read that succeeds is in range. -/
theorem read_ok_range {hits : Hits} {seed : Word} {dest : Option (ℕ → Byte)}
    (h : (c.read hits seed offset dest size).ok = true) : offset + size ≤ c.capacity := by
  cases dest with
  | none => cases h
  | some dest =>
    by_contra hout
    have hrange : size > c.capacity ∨ offset > c.capacity - size := by omega
    rw [FTJController.read] at h
    simp only [if_pos hrange] at h
    cases h

/-- A write that succeeds is in range. -/
theorem write_ok_range {src : Option (ℕ → Byte)} (h : (c.write offset src size).1 = true) :
    offset + size ≤ c.capacity := by
  cases src with
  | none => cases h
  | some src =>
    by_contra hout
    have hrange : size > c.capacity ∨ offset > c.capacity - size := by omega
    rw [FTJController.write] at h
    simp only [if_pos hrange] at h
    cases h

end

/-- The call of an answer, if it succeeded, stays inside the host's buffer and inside the disk, and its
size is the one reported. -/
def Answer.InRange (capacity : ℕ) (length : BitVec 32) (a : Answer) : Prop :=
  ∀ call, a.call = some call → call.ok = true →
    call.size.toNat ≤ length.toNat ∧ call.offset.toNat + call.size.toNat ≤ capacity ∧
      a.bytesTransferred = some call.size

section

variable {d : Disk} {capacity : ℕ} {buffer : Option (ℕ → Byte)} {offset : BitVec 64}
  {length : BitVec 32}

theorem read_inRange {hits : Hits} (hcap : ∀ c ∈ d.controller, c.capacity = capacity) :
    (read hits d buffer offset length).InRange capacity length := by
  intro call hcall hok
  rw [read] at hcall ⊢
  by_cases hend : offset ≥ d.fileInfo.fileSize
  · rw [if_pos hend] at hcall
    cases hcall
  · rw [if_neg hend] at hcall ⊢
    have hlt : offset.toNat ≤ d.fileInfo.fileSize.toNat := by
      rw [ge_iff_le, BitVec.le_def] at hend
      omega
    cases hc : d.controller with
    | none =>
      rw [hc] at hcall
      cases hcall
    | some c =>
      simp only [hc] at hcall ⊢
      split_ifs at hcall ⊢ with hread
      · obtain rfl := Option.some.inj hcall
        have hrange := read_ok_range hread
        rw [hcap c hc] at hrange
        exact ⟨transferSize_le hlt, hrange, rfl⟩
      · obtain rfl := Option.some.inj hcall
        exact absurd hok hread

/-- The size of a successful write needs no bound on its offset: past the end of the file the
controller's range check has refused it. -/
theorem writeRange_inRange {infoWanted : Bool} {now : BitVec 64}
    (hcap : ∀ c ∈ d.controller, c.capacity = capacity) (hsmall : capacity < 2 ^ 31) :
    (writeRange d buffer offset length infoWanted now).InRange capacity length := by
  intro call hcall hok
  rw [writeRange] at hcall ⊢
  cases hc : d.controller with
  | none =>
    rw [hc] at hcall
    cases hcall
  | some c =>
    simp only [hc] at hcall ⊢
    rcases hw : c.write offset.toNat buffer
      (transferSize offset length d.fileInfo.fileSize).toNat with ⟨ok, c'⟩
    simp only [hw] at hcall ⊢
    cases ok with
    | false =>
      obtain rfl := Option.some.inj hcall
      cases hok
    | true =>
      have hrange := write_ok_range (congrArg Prod.fst hw)
      rw [hcap c hc] at hrange
      have hsize : (transferSize offset length d.fileInfo.fileSize).toNat ≤ length.toNat := by
        rcases Nat.lt_or_ge d.fileInfo.fileSize.toNat offset.toNat with hgt | hle
        · have hbeyond : capacity < (transferSize offset length d.fileInfo.fileSize).toNat :=
            transferSize_beyond hsmall hgt (by omega)
          omega
        · exact transferSize_le hle
      cases infoWanted with
      | true =>
        obtain rfl := Option.some.inj hcall
        exact ⟨hsize, hrange, rfl⟩
      | false =>
        obtain rfl := Option.some.inj hcall
        exact ⟨hsize, hrange, rfl⟩

theorem write_inRange {writeToEndOfFile constrainedIo infoWanted : Bool} {now : BitVec 64}
    (hcap : ∀ c ∈ d.controller, c.capacity = capacity) (hsmall : capacity < 2 ^ 31) :
    (write d buffer offset length writeToEndOfFile constrainedIo infoWanted now).InRange capacity
      length := by
  rw [write]
  cases constrainedIo with
  | false => exact writeRange_inRange hcap hsmall
  | true =>
    rw [if_pos rfl]
    by_cases hend : offset ≥ d.fileInfo.fileSize
    · rw [if_pos hend]
      intro call hcall
      cases hcall
    · rw [if_neg hend]
      exact writeRange_inRange hcap hsmall

end

/-- **Transfers stay inside the host's buffer and the disk.**  Whatever the offset, the length, the
current file size and the flags, a call of the 128 MiB controller that returns true transfers at most
the length of the host's buffer, within the capacity, and is reported with its size. -/
theorem transfers_in_range (hits : Hits) (d : Disk)
    (hcap : ∀ c ∈ d.controller, c.capacity = 128 * 1024 * 1024) (buffer : Option (ℕ → Byte))
    (offset : BitVec 64) (length : BitVec 32)
    (writeToEndOfFile constrainedIo infoWanted : Bool) (now : BitVec 64) :
    (read hits d buffer offset length).InRange (128 * 1024 * 1024) length ∧
    (write d buffer offset length writeToEndOfFile constrainedIo infoWanted now).InRange
      (128 * 1024 * 1024) length :=
  ⟨read_inRange hcap, write_inRange hcap (by decide)⟩

/-- A write up to the end of the file makes its call. -/
theorem writeRange_call {d : Disk} {c : FTJController} (hc : d.controller = some c)
    (buffer : Option (ℕ → Byte)) (offset : BitVec 64) (length : BitVec 32) (infoWanted : Bool)
    (now : BitVec 64) :
    (writeRange d buffer offset length infoWanted now).call =
      some ⟨offset, transferSize offset length d.fileInfo.fileSize,
        (c.write offset.toNat buffer
          (transferSize offset length d.fileInfo.fileSize).toNat).1⟩ := by
  rw [writeRange]
  simp only [hc]
  generalize c.write offset.toNat buffer _ = r
  obtain ⟨ok, c'⟩ := r
  cases ok with
  | false => rfl
  | true =>
    simp only
    split_ifs <;> rfl

/-- A write to the disk as it is created: the call is made and returns true. -/
theorem transfers_in_range_created :
    let c := construct (128 * 1024 * 1024)
    let d : Disk := ⟨⟨128 * 1024 * 1024, 0, 0⟩, some c, 1337⟩
    let a := write d (some fun _ => 1) 4096 8192 false false true 0
    a.call = some ⟨4096, 8192, true⟩ ∧ a.InRange (128 * 1024 * 1024) 8192 := by
  intro c d a
  have hcap : (construct (128 * 1024 * 1024)).capacity = 128 * 1024 * 1024 := by rw [construct]
  refine ⟨?_, (transfers_in_range (fun _ _ _ _ => false) d ?_ _ _ _ _ _ _ _).2⟩
  · have hpages : numPages (128 * 1024 * 1024) = 32768 := by decide
    have hok : (c.write 4096 (some fun _ => 1) 8192).1 = true := by
      refine write_true_of_free _ (by rw [hcap]; decide) (construct_free_nonneg (by omega)) ?_
      rw [construct_free_length (by omega), hpages]
      decide
    have hoffset : (4096 : BitVec 64).toNat = 4096 := by decide
    have hsize : transferSize 4096 8192 d.fileInfo.fileSize = 8192 := by decide
    have hsize' : (8192 : BitVec 32).toNat = 8192 := by decide
    have hcall := writeRange_call (d := d) rfl (some fun _ => 1) 4096 8192 true 0
    rw [hsize, hsize', hoffset, hok] at hcall
    rw [← hcall]
    simp only [a, write, Bool.false_eq_true, if_false]
  · intro c' hc'
    obtain rfl := Option.some.inj hc'
    exact hcap

end FtjSsdSim.Engine.VirtualDisk
