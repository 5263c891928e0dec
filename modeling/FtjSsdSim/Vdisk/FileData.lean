import Mathlib
import FtjSsdSim.Library.Bits
import FtjSsdSim.Library.ByteStore
import FtjSsdSim.Library.ByteFile
import FtjSsdSim.Vdisk.FileNames

/-!
# The data of a file

A file node keeps its data in one block of the large heap, which holds `AllocationSize` bytes, of which
the first `FileSize` are the file.  Growing a block leaves whatever the heap had in the new bytes, and
`SetFileSizeInternal` overwrites them with zeros before the file reaches them.

An access outside its block, or through a null pointer, ends the run: the operations that touch data
return `none` there.

* `setFileSizeInternal_spec`, `write_spec`, `read_spec` — on a node whose block is as large as it says
  (`Backed`), the operations are `resize`, `splice` and `slice` of the bytes of the file, whatever the
  heap had in the block, and no access leaves the block;
* `write_eq_none_iff` — exactly when a write leaves the block: where its end wraps around, or the
  rounding of its end does.
-/

namespace FtjSsdSim.Vdisk

open FtjSsdSim.Library

/-! ### The structures of the source -/

/-- The `NTSTATUS` values of the callbacks. -/
inductive Status where
  | success
  | insufficientResources
  | objectNameNotFound
  | objectPathNotFound
  | notADirectory
  | objectNameInvalid
  | objectNameCollision
  | cannotMake
  | diskFull
  | endOfFile
  | invalidParameter
  | invalidDeviceRequest
  | accessDenied
  | directoryNotEmpty
  | bufferOverflow
  deriving DecidableEq, Repr

/-- The fields of `FSP_FSCTL_FILE_INFO` that are ever assigned.  The sizes are 64-bit. -/
structure FileInfo where
  fileAttributes : BitVec 32
  allocationSize : ℕ
  fileSize : ℕ
  creationTime : ℕ
  lastAccessTime : ℕ
  lastWriteTime : ℕ
  changeTime : ℕ
  indexNumber : ℕ
  deriving DecidableEq

/-- A block of the large heap. -/
structure Block where
  size : ℕ
  bytes : ℕ → Byte

/-- `MEMFS_FILE_NODE`.  The length of `fileSecurity` is `FileSecuritySize`. -/
structure FileNode where
  fileName : FileName
  fileInfo : FileInfo
  fileSecurity : List Byte
  fileData : Option Block
  refCount : ℤ

/-- What the system answers during one callback: the time, whether each kind of allocation succeeds, and
what a new block of the large heap holds.  Entries of the map are told apart by their node, and lists of
nodes by their capacity. -/
structure System where
  now : ℕ
  nodeOk : Bool
  securityOk : Bool
  heapOk : Bool
  insertOk : ℕ → Bool
  listOk : ℕ → Bool
  fresh : ℕ → Byte

/-! ### The large heap -/

/-- `LargeHeapAlloc`. -/
def largeHeapAlloc (sys : System) (size : ℕ) : Option Block :=
  if sys.heapOk then some ⟨size, sys.fresh⟩ else none

/-- `LargeHeapRealloc`, for the pointer it returns.  The bytes of the old block are kept. -/
def largeHeapRealloc (sys : System) (pointer : Option Block) (size : ℕ) : Option Block :=
  match pointer with
  | some block =>
    if size ≠ 0 then
      if sys.heapOk then some ⟨size, fun i => if i < block.size then block.bytes i else sys.fresh i⟩
      else none
    else none
  | none => if size ≠ 0 then largeHeapAlloc sys size else none

/-- The size of the block behind a pointer. -/
def blockSize : Option Block → ℕ
  | some block => block.size
  | none => 0

/-- The `n` bytes from `start` on are in the block. -/
def reaches (pointer : Option Block) (start n : ℕ) : Bool :=
  n = 0 || start + n ≤ blockSize pointer

/-- The bytes behind a pointer. -/
def bytesAt : Option Block → ℕ → Byte
  | some block => block.bytes
  | none => fun _ => 0

/-- `memcpy` of `n` bytes into the block, or `memset` where `src` is constant. -/
def copyTo (pointer : Option Block) (start : ℕ) (src : ℕ → Byte) (n : ℕ) : Option (Option Block) :=
  if reaches pointer start n then
    some (pointer.map fun block => { block with bytes := blit block.bytes start src 0 n })
  else none

/-! ### The operations of the source -/

/-- `MEMFS_SECTOR_SIZE * MEMFS_SECTORS_PER_ALLOCATION_UNIT`. -/
def allocationUnit : ℕ := 512

/-- `(Size + AllocationUnit - 1) / AllocationUnit * AllocationUnit`, in 64 bits. -/
def roundUp (size : ℕ) : ℕ := (size + allocationUnit - 1) % 2 ^ 64 / allocationUnit * allocationUnit

/-- `SetFileSizeInternal` with `SetAllocationSize`. -/
def setAllocationSize (maxFileSize : ℕ) (sys : System) (n : FileNode) (newSize : ℕ) :
    Status × FileNode :=
  if n.fileInfo.allocationSize ≠ newSize then
    if newSize > maxFileSize then (.diskFull, n)
    else
      let fileData := largeHeapRealloc sys n.fileData newSize
      if fileData.isNone ∧ newSize ≠ 0 then (.insufficientResources, n)
      else
        (.success, { n with
          fileData := fileData
          fileInfo := { n.fileInfo with
            allocationSize := newSize
            fileSize := if n.fileInfo.fileSize > newSize then newSize else n.fileInfo.fileSize } })
  else (.success, n)

/-- `SetFileSizeInternal`. -/
def setFileSizeInternal (maxFileSize : ℕ) (sys : System) (n : FileNode) (newSize : ℕ)
    (setAllocation : Bool) : Option (Status × FileNode) :=
  if setAllocation then some (setAllocationSize maxFileSize sys n newSize)
  else if n.fileInfo.fileSize ≠ newSize then
    let (status, n) :=
      if n.fileInfo.allocationSize < newSize then
        setAllocationSize maxFileSize sys n (roundUp newSize)
      else (.success, n)
    if status ≠ .success then some (status, n)
    else do
      let fileData ←
        if n.fileInfo.fileSize < newSize then
          copyTo n.fileData n.fileInfo.fileSize (fun _ => 0) (newSize - n.fileInfo.fileSize)
        else some n.fileData
      some (.success,
        { n with fileData := fileData, fileInfo := { n.fileInfo with fileSize := newSize } })
  else some (.success, n)

/-- `if (!NT_SUCCESS(Result)) return Result;` between two steps. -/
def proceed {α : Type*} (r : Option (Status × FileNode)) (stop : Status → FileNode → α)
    (next : FileNode → Option α) : Option α :=
  r.bind fun x => if x.1 = .success then next x.2 else some (stop x.1 x.2)

/-- `EndOffset = Offset + Length`, in 64 bits. -/
def endOffset (offset length : ℕ) : ℕ := (offset + length) % 2 ^ 64

/-- `EndOffset - Offset`, in 64 bits. -/
def transferLength (offset endOffset : ℕ) : ℕ := (endOffset + (2 ^ 64 - offset)) % 2 ^ 64

/-- `Read` of an ordinary file: the status, the bytes transferred and what is in the buffer. -/
def FileNode.read (n : FileNode) (offset length : ℕ) : Option (Status × ℕ × List Byte) :=
  if offset ≥ n.fileInfo.fileSize then some (.endOfFile, 0, [])
  else
    let size := transferLength offset (min (endOffset offset length) n.fileInfo.fileSize)
    if reaches n.fileData offset size then
      some (.success, size % 2 ^ 32, window (fun i => bytesAt n.fileData (offset + i)) size)
    else none

/-- The end of `Write`: the copy, and the bytes transferred. -/
def FileNode.writeRange (n : FileNode) (buffer : ℕ → Byte) (offset endOffset : ℕ) :
    Option (Status × ℕ × FileNode) := do
  let size := transferLength offset endOffset
  let fileData ← copyTo n.fileData offset buffer size
  some (.success, size % 2 ^ 32, { n with fileData := fileData })

/-- `Write` to an ordinary file without `ConstrainedIo`, from the offset it has settled on. -/
def FileNode.writeGrowing (maxFileSize : ℕ) (sys : System) (n : FileNode) (buffer : ℕ → Byte)
    (offset length : ℕ) : Option (Status × ℕ × FileNode) :=
  let endOffset := endOffset offset length
  if endOffset > n.fileInfo.fileSize then
    proceed (setFileSizeInternal maxFileSize sys n endOffset false)
      (fun status n => (status, 0, n)) fun n => n.writeRange buffer offset endOffset
  else n.writeRange buffer offset endOffset

/-- `Write` to an ordinary file. -/
def FileNode.write (maxFileSize : ℕ) (sys : System) (n : FileNode) (buffer : ℕ → Byte)
    (offset length : ℕ) (writeToEndOfFile constrainedIo : Bool) : Option (Status × ℕ × FileNode) :=
  if constrainedIo then
    if offset ≥ n.fileInfo.fileSize then some (.success, 0, n)
    else n.writeRange buffer offset (min (endOffset offset length) n.fileInfo.fileSize)
  else
    n.writeGrowing maxFileSize sys buffer
      (if writeToEndOfFile then n.fileInfo.fileSize else offset) length

/-! ### What a file holds -/

/-- The file: the first `FileSize` bytes of the block. -/
def FileNode.contents (n : FileNode) : List Byte := window (bytesAt n.fileData) n.fileInfo.fileSize

/-- The block is as large as `AllocationSize` says, the file is no longer, and the limit of the volume
is kept. -/
structure Backed (maxFileSize : ℕ) (n : FileNode) : Prop where
  held : blockSize n.fileData = n.fileInfo.allocationSize
  fits : n.fileInfo.fileSize ≤ n.fileInfo.allocationSize
  small : n.fileInfo.allocationSize ≤ maxFileSize

/-- `m` is `n` with other data: another block and other sizes. -/
def SameButData (n m : FileNode) : Prop :=
  m = { n with
    fileData := m.fileData
    fileInfo := { n.fileInfo with
      allocationSize := m.fileInfo.allocationSize
      fileSize := m.fileInfo.fileSize } }

theorem SameButData.refl (n : FileNode) : SameButData n n := rfl

theorem SameButData.trans {n m k : FileNode} (h : SameButData n m) (h' : SameButData m k) :
    SameButData n k := by
  rw [SameButData] at h h' ⊢
  rw [h', h]

section

variable {maxFileSize : ℕ} {sys : System} {n : FileNode}

theorem reaches_of_le {pointer : Option Block} {start size : ℕ} (h : start + size ≤ blockSize pointer) :
    reaches pointer start size = true := by
  rw [reaches, Bool.or_eq_true]
  exact .inr (decide_eq_true h)

theorem reaches_eq_false {pointer : Option Block} {start size : ℕ} (hsize : size ≠ 0)
    (h : blockSize pointer < start + size) : reaches pointer start size = false := by
  rw [reaches, decide_eq_false hsize, Bool.false_or]
  exact decide_eq_false (not_le.mpr h)

theorem copyTo_eq_none (src : ℕ → Byte) {pointer : Option Block} {start size : ℕ} (hsize : size ≠ 0)
    (h : blockSize pointer < start + size) : copyTo pointer start src size = none := by
  rw [copyTo, reaches_eq_false hsize h]
  rfl

/-- A copy inside the block. -/
theorem copyTo_spec (pointer : Option Block) (start size : ℕ) (src : ℕ → Byte)
    (h : start + size ≤ blockSize pointer) :
    ∃ q, copyTo pointer start src size = some q ∧ blockSize q = blockSize pointer ∧
      bytesAt q = blit (bytesAt pointer) start src 0 size := by
  refine ⟨_, if_pos (reaches_of_le h), ?_, ?_⟩
  · cases pointer <;> rfl
  · cases pointer with
    | some block => rfl
    | none =>
      rw [blockSize] at h
      obtain rfl : size = 0 := by omega
      rw [blit_zero]
      rfl

/-- What `LargeHeapRealloc` returns, if it does not fail. -/
theorem largeHeapRealloc_spec {pointer : Option Block} {size : ℕ}
    (h : ¬ ((largeHeapRealloc sys pointer size).isNone ∧ size ≠ 0)) :
    blockSize (largeHeapRealloc sys pointer size) = size ∧
      ∀ i < min size (blockSize pointer),
        bytesAt (largeHeapRealloc sys pointer size) i = bytesAt pointer i := by
  rcases Nat.eq_zero_or_pos size with rfl | hpos
  · refine ⟨?_, fun i hi => by omega⟩
    cases pointer <;> rfl
  · have hne : size ≠ 0 := by omega
    have hheap : sys.heapOk = true := by
      by_contra hheap
      refine h ⟨?_, hne⟩
      cases pointer <;> simp [largeHeapRealloc, largeHeapAlloc, hheap]
    cases pointer with
    | none =>
      rw [largeHeapRealloc, if_pos hne, largeHeapAlloc, if_pos hheap]
      exact ⟨rfl, fun i hi => by rw [blockSize] at hi; omega⟩
    | some block =>
      rw [largeHeapRealloc, if_pos hne, if_pos hheap]
      refine ⟨rfl, fun i hi => ?_⟩
      rw [blockSize] at hi
      exact if_pos (by omega)

/-! ### The size of a file -/

variable (sys)

/-- **Changing the allocation** cuts the file where the block is now shorter, or fails and changes
nothing. -/
theorem setAllocationSize_spec (h : Backed maxFileSize n) (newSize : ℕ) :
    ∃ status m, setAllocationSize maxFileSize sys n newSize = (status, m) ∧ SameButData n m ∧
      Backed maxFileSize m ∧ (status ≠ .success → m = n) ∧
      (status = .success → m.fileInfo.allocationSize = newSize ∧
        m.fileInfo.fileSize = min n.fileInfo.fileSize newSize ∧
        m.contents = n.contents.take newSize) := by
  rw [setAllocationSize]
  by_cases hne : n.fileInfo.allocationSize ≠ newSize
  · rw [if_pos hne]
    by_cases hmax : newSize > maxFileSize
    · rw [if_pos hmax]
      exact ⟨_, _, rfl, .refl n, h, fun _ => rfl, fun hs => by cases hs⟩
    · rw [if_neg hmax]
      by_cases hfail : (largeHeapRealloc sys n.fileData newSize).isNone ∧ newSize ≠ 0
      · simp only [if_pos hfail]
        exact ⟨_, _, rfl, .refl n, h, fun _ => rfl, fun hs => by cases hs⟩
      · simp only [if_neg hfail]
        have hblock := largeHeapRealloc_spec hfail
        have hsize : (if n.fileInfo.fileSize > newSize then newSize else n.fileInfo.fileSize) =
            min n.fileInfo.fileSize newSize := by
          split_ifs <;> omega
        refine ⟨_, _, rfl, rfl, ⟨hblock.1, ?_, by simpa using hmax⟩, fun hs => (hs rfl).elim,
          fun _ => ⟨rfl, hsize, ?_⟩⟩
        · simp only [hsize]
          omega
        · refine List.ext_getElem? ?_
          intro i
          have hfits := h.fits
          have hheld := h.held
          simp only [FileNode.contents, hsize, List.getElem?_take, getElem?_window]
          by_cases hi : i < newSize
          · rw [if_pos hi]
            by_cases hi' : i < n.fileInfo.fileSize
            · rw [if_pos (by omega), if_pos hi', hblock.2 i (by omega)]
            · rw [if_neg (by omega), if_neg hi']
          · rw [if_neg hi, if_neg (by omega)]
  · rw [if_neg hne]
    have heq : n.fileInfo.allocationSize = newSize := not_not.mp hne
    have hfits := h.fits
    refine ⟨_, _, rfl, .refl n, h, fun _ => rfl, fun _ => ⟨heq, by omega, ?_⟩⟩
    rw [List.take_of_length_le]
    rw [FileNode.contents, length_window]
    omega

theorem le_roundUp {size : ℕ} (h : size + 511 < 2 ^ 64) : size ≤ roundUp size := by
  rw [roundUp, allocationUnit, Nat.mod_eq_of_lt (by omega)]
  omega

/-- **Changing the size of a file** cuts it or fills it up with zeros, or fails and changes nothing. -/
theorem setFileSizeInternal_spec (h : Backed maxFileSize n) {newSize : ℕ}
    (hnew : newSize + 511 < 2 ^ 64) :
    ∃ status m, setFileSizeInternal maxFileSize sys n newSize false = some (status, m) ∧
      SameButData n m ∧ Backed maxFileSize m ∧ (status ≠ .success → m = n) ∧
      (status = .success → m.contents = resize 0 n.contents newSize) := by
  rw [setFileSizeInternal, if_neg Bool.false_ne_true]
  by_cases hne : n.fileInfo.fileSize ≠ newSize
  · rw [if_pos hne]
    -- after the block is made large enough, or is found to be
    have hgrow : ∃ status m, (if n.fileInfo.allocationSize < newSize then
          setAllocationSize maxFileSize sys n (roundUp newSize) else (.success, n)) = (status, m) ∧
        SameButData n m ∧ Backed maxFileSize m ∧ (status ≠ .success → m = n) ∧
        (status = .success → newSize ≤ m.fileInfo.allocationSize ∧
          m.fileInfo.fileSize = n.fileInfo.fileSize ∧
          ∀ i < n.fileInfo.fileSize, bytesAt m.fileData i = bytesAt n.fileData i) := by
      by_cases hlt : n.fileInfo.allocationSize < newSize
      · rw [if_pos hlt]
        obtain ⟨status, m, heq, hsame, hb, hfail, hok⟩ :=
          setAllocationSize_spec sys h (roundUp newSize)
        refine ⟨status, m, heq, hsame, hb, hfail, fun hs => ?_⟩
        obtain ⟨halloc, hsize, hcontents⟩ := hok hs
        have hround := le_roundUp hnew
        have hfits := h.fits
        refine ⟨by omega, by omega, fun i hi => ?_⟩
        have hget := congrArg (·[i]?) hcontents
        simp only [FileNode.contents, List.getElem?_take, getElem?_window] at hget
        rw [if_pos (by omega), if_pos (by omega), if_pos hi] at hget
        exact Option.some.inj hget
      · rw [if_neg hlt]
        exact ⟨_, _, rfl, .refl n, h, fun _ => rfl, fun _ => ⟨by omega, rfl, fun _ _ => rfl⟩⟩
    obtain ⟨status, m, heq, hsame, hb, hfail, hok⟩ := hgrow
    rw [heq]
    by_cases hs : status = .success
    · obtain ⟨halloc, hsize, hbytes⟩ := hok hs
      simp only [hs, ne_eq, not_true_eq_false, if_false]
      by_cases hlt : m.fileInfo.fileSize < newSize
      · -- the new bytes are set to zero
        obtain ⟨q, hq, hqsize, hqbytes⟩ := copyTo_spec m.fileData m.fileInfo.fileSize
          (newSize - m.fileInfo.fileSize) (fun _ => 0) (by have := hb.held; omega)
        simp only [if_pos hlt, hq]
        refine ⟨_, _, rfl, ?_, ⟨hqsize.trans hb.held, halloc, hb.small⟩, fun hs => (hs rfl).elim,
          fun _ => ?_⟩
        · rw [SameButData] at hsame ⊢
          rw [hsame]
        · refine List.ext_getElem? ?_
          intro i
          simp only [FileNode.contents, hqbytes, getElem?_resize, getElem?_window]
          by_cases hi : i < newSize
          · rw [if_pos hi, if_pos hi]
            by_cases hi' : i < n.fileInfo.fileSize
            · rw [if_pos hi', blit_out (by omega), hbytes i hi']
              rfl
            · rw [if_neg hi', blit_in (by omega) (by omega)]
              rfl
          · rw [if_neg hi, if_neg hi]
      · simp only [if_neg hlt]
        refine ⟨_, _, rfl, ?_, ⟨hb.held, halloc, hb.small⟩, fun hs => (hs rfl).elim, fun _ => ?_⟩
        · rw [SameButData] at hsame ⊢
          rw [hsame]
        · refine List.ext_getElem? ?_
          intro i
          simp only [FileNode.contents, getElem?_resize, getElem?_window]
          by_cases hi : i < newSize
          · rw [if_pos hi, if_pos hi, if_pos (by omega), hbytes i (by omega)]
            rfl
          · rw [if_neg hi, if_neg hi]
    · simp only [ne_eq, hs, not_false_eq_true, if_true]
      exact ⟨_, _, rfl, hsame, hb, hfail, fun h' => (hs h').elim⟩
  · rw [if_neg hne]
    refine ⟨_, _, rfl, .refl n, h, fun _ => rfl, fun _ => ?_⟩
    refine List.ext_getElem? ?_
    intro i
    simp only [FileNode.contents, getElem?_resize, getElem?_window, not_not.mp hne]
    split_ifs <;> rfl

/-! ### Reads and writes -/

section

variable {α : Type*} {status : Status} {m : FileNode} {stop : Status → FileNode → α}
  {next : FileNode → Option α}

theorem proceed_none : proceed none stop next = none := rfl

theorem proceed_success (h : status = .success) : proceed (some (status, m)) stop next = next m :=
  if_pos h

theorem proceed_failure (h : status ≠ .success) :
    proceed (some (status, m)) stop next = some (stop status m) := if_neg h

end

theorem length_contents (n : FileNode) : n.contents.length = n.fileInfo.fileSize := by
  rw [FileNode.contents, length_window]

theorem endOffset_eq {offset length : ℕ} (h : offset + length < 2 ^ 64) :
    endOffset offset length = offset + length := Nat.mod_eq_of_lt h

theorem transferLength_eq {offset stop : ℕ} (hle : offset ≤ stop) (hstop : stop < 2 ^ 64) :
    transferLength offset stop = stop - offset := by
  rw [transferLength]
  omega

theorem Backed.fileSize_le (h : Backed maxFileSize n) : n.fileInfo.fileSize ≤ maxFileSize :=
  h.fits.trans h.small

/-- **Reading** is a slice of the file, at every offset and for every length. -/
theorem read_spec (h : Backed maxFileSize n) (hmax : maxFileSize < 2 ^ 32) {offset length : ℕ}
    (hlength : length < 2 ^ 32) :
    n.read offset length = some (if offset < n.contents.length then
      (.success, (slice n.contents offset length).length, slice n.contents offset length)
      else (.endOfFile, 0, [])) := by
  have hsize := h.fileSize_le
  rw [FileNode.read, length_contents]
  by_cases hoff : offset ≥ n.fileInfo.fileSize
  · rw [if_pos hoff, if_neg (by omega)]
  · rw [if_neg hoff, if_pos (show offset < n.fileInfo.fileSize by omega), endOffset_eq (by omega),
      transferLength_eq (by omega) (by omega)]
    have hlen : (slice n.contents offset length).length =
        min (offset + length) n.fileInfo.fileSize - offset := by
      rw [slice, List.length_take, List.length_drop, length_contents]
      omega
    have hfits := h.fits
    have hheld := h.held
    simp only
    rw [if_pos (reaches_of_le (by omega)), hlen, Nat.mod_eq_of_lt (by omega)]
    congr 3
    refine List.ext_getElem? ?_
    intro i
    rw [getElem?_slice, FileNode.contents, getElem?_window, getElem?_window]
    by_cases hi : i < length
    · rw [if_pos hi]
      by_cases hi' : offset + i < n.fileInfo.fileSize
      · rw [if_pos (by omega), if_pos hi']
      · rw [if_neg (by omega), if_neg hi']
    · rw [if_neg hi, if_neg (by omega)]

/-- Where a write starts. -/
def writeStart (l : List Byte) (offset : ℕ) (writeToEndOfFile constrainedIo : Bool) : ℕ :=
  if constrainedIo then offset else if writeToEndOfFile then l.length else offset

/-- How many bytes a write takes: constrained, it does not go past the end of the file. -/
def writeCount (l : List Byte) (offset length : ℕ) (constrainedIo : Bool) : ℕ :=
  if constrainedIo then min length (l.length - offset) else length

/-- The file after a write. -/
def written (l : List Byte) (buffer : ℕ → Byte) (offset length : ℕ)
    (writeToEndOfFile constrainedIo : Bool) : List Byte :=
  if constrainedIo ∧ l.length ≤ offset then l
  else splice 0 l (writeStart l offset writeToEndOfFile constrainedIo)
    (window buffer (writeCount l offset length constrainedIo))

/-- The copy of a write that stays inside the block. -/
theorem writeRange_spec (h : Backed maxFileSize n) (buffer : ℕ → Byte) (offset : ℕ) {count : ℕ}
    (hcount : count < 2 ^ 32) (hend : offset + count ≤ n.fileInfo.fileSize)
    (hsmall : n.fileInfo.fileSize < 2 ^ 64) :
    ∃ m, n.writeRange buffer offset (offset + count) = some (.success, count, m) ∧
      SameButData n m ∧ Backed maxFileSize m ∧
      m.contents = splice 0 n.contents offset (window buffer count) := by
  have hfits := h.fits
  have hheld := h.held
  obtain ⟨q, hq, hqsize, hqbytes⟩ := copyTo_spec n.fileData offset count buffer (by omega)
  have hlen : transferLength offset (offset + count) = count := by
    rw [transferLength_eq (by omega) (by omega), Nat.add_sub_cancel_left]
  refine ⟨{ n with fileData := q }, ?_, rfl, ⟨hqsize.trans h.held, h.fits, h.small⟩, ?_⟩
  · simp only [FileNode.writeRange, hlen, hq, Nat.mod_eq_of_lt hcount]
    rfl
  · refine List.ext_getElem? ?_
    intro i
    simp only [FileNode.contents, hqbytes, getElem?_splice, getElem?_window, length_window]
    by_cases hi : offset ≤ i ∧ i < offset + count
    · rw [if_pos (show i < n.fileInfo.fileSize by omega), if_neg (show ¬ i < offset by omega),
        if_pos hi.2, if_pos (show i - offset < count by omega), blit_in hi.1 hi.2, Nat.zero_add]
    · rw [blit_out hi]
      by_cases hlt : i < offset
      · rw [if_pos hlt, if_pos (show i < n.fileInfo.fileSize by omega)]
        rfl
      · rw [if_neg hlt, if_neg (show ¬ i < offset + count by omega)]

/-- Writing over a file that was first made longer, with zeros, is writing past its end. -/
theorem splice_resize {l : List Byte} {offset : ℕ} {bs : List Byte} (h : l.length ≤ offset + bs.length) :
    splice 0 (resize 0 l (offset + bs.length)) offset bs = splice 0 l offset bs := by
  refine List.ext_getElem? ?_
  intro i
  rw [getElem?_splice, getElem?_splice, getElem?_resize]
  by_cases hi : i < offset
  · rw [if_pos hi, if_pos hi, if_pos (by omega)]
    rfl
  · rw [if_neg hi, if_neg hi]
    by_cases hi' : i < offset + bs.length
    · rw [if_pos hi', if_pos hi']
    · rw [if_neg hi', if_neg hi', if_neg hi', List.getElem?_eq_none (by omega)]

theorem writeGrowing_spec (h : Backed maxFileSize n) (hmax : maxFileSize < 2 ^ 32)
    (buffer : ℕ → Byte) (offset : ℕ) {length : ℕ} (hlength : length < 2 ^ 32)
    (hend : offset + length + 511 < 2 ^ 64) :
    ∃ status count m, n.writeGrowing maxFileSize sys buffer offset length = some (status, count, m) ∧
      SameButData n m ∧ Backed maxFileSize m ∧ (status ≠ .success → m = n ∧ count = 0) ∧
      (status = .success →
        m.contents = splice 0 n.contents offset (window buffer length) ∧ count = length) := by
  have hsize := h.fileSize_le
  rw [FileNode.writeGrowing, endOffset_eq (by omega)]
  by_cases hgrow : offset + length > n.fileInfo.fileSize
  · rw [if_pos hgrow]
    obtain ⟨status, m, heq, hsame, hb, hfail, hok⟩ := setFileSizeInternal_spec sys h hend
    rw [heq]
    by_cases hs : status = .success
    · have hm : m.contents.length = offset + length := by
        rw [hok hs, length_resize]
      rw [length_contents] at hm
      obtain ⟨k, hk, hsame', hb', hcontents⟩ := writeRange_spec hb buffer offset hlength (by omega)
        (by omega)
      rw [proceed_success hs]
      refine ⟨_, _, k, hk, hsame.trans hsame', hb', fun hs => (hs rfl).elim, fun _ => ⟨?_, rfl⟩⟩
      rw [hcontents, hok hs]
      have hlen : offset + length = offset + (window buffer length).length := by
        rw [length_window]
      rw [hlen]
      exact splice_resize (by rw [length_contents, length_window]; omega)
    · rw [proceed_failure hs]
      exact ⟨_, _, m, rfl, hsame, hb, fun _ => ⟨hfail hs, rfl⟩, fun h' => absurd h' hs⟩
  · rw [if_neg hgrow]
    obtain ⟨m, heq, hsame, hb, hcontents⟩ := writeRange_spec h buffer offset hlength (by omega)
      (by omega)
    exact ⟨_, _, m, heq, hsame, hb, fun hs => (hs rfl).elim, fun _ => ⟨hcontents, rfl⟩⟩

theorem writeStart_growing (n : FileNode) (offset : ℕ) (writeToEndOfFile : Bool) :
    writeStart n.contents offset writeToEndOfFile false =
      if writeToEndOfFile then n.fileInfo.fileSize else offset := by
  rw [writeStart, if_neg Bool.false_ne_true, length_contents]

/-- **Writing** is `written`, or fails and changes nothing: as long as the end of the write, rounded up,
is a 64-bit number. -/
theorem write_spec (h : Backed maxFileSize n) (hmax : maxFileSize < 2 ^ 32) (buffer : ℕ → Byte)
    (offset : ℕ) {length : ℕ} (writeToEndOfFile : Bool) {constrainedIo : Bool} (hlength : length < 2 ^ 32)
    (hend : constrainedIo = false →
      writeStart n.contents offset writeToEndOfFile constrainedIo + length + 511 < 2 ^ 64) :
    ∃ status count m,
      n.write maxFileSize sys buffer offset length writeToEndOfFile constrainedIo =
        some (status, count, m) ∧ SameButData n m ∧ Backed maxFileSize m ∧
      (status ≠ .success → m = n ∧ count = 0) ∧
      (status = .success →
        m.contents = written n.contents buffer offset length writeToEndOfFile constrainedIo ∧
        count = writeCount n.contents offset length constrainedIo) := by
  have hsize := h.fileSize_le
  cases constrainedIo with
  | true =>
    rw [FileNode.write, if_pos rfl]
    by_cases hoff : offset ≥ n.fileInfo.fileSize
    · rw [if_pos hoff]
      refine ⟨_, _, _, rfl, .refl n, h, fun hs => (hs rfl).elim, fun _ => ⟨?_, ?_⟩⟩
      · rw [written, if_pos ⟨rfl, by rw [length_contents]; exact hoff⟩]
      · rw [writeCount, if_pos rfl, length_contents]
        omega
    · rw [if_neg hoff, endOffset_eq (by omega)]
      have hcount : writeCount n.contents offset length true =
          min length (n.fileInfo.fileSize - offset) := by
        rw [writeCount, if_pos rfl, length_contents]
      have hstop : min (offset + length) n.fileInfo.fileSize =
          offset + writeCount n.contents offset length true := by
        rw [hcount]
        omega
      have hlt : writeCount n.contents offset length true < 2 ^ 32 := by omega
      obtain ⟨m, heq, hsame, hb, hcontents⟩ := writeRange_spec h buffer offset hlt (by omega) (by omega)
      rw [hstop]
      refine ⟨_, _, m, heq, hsame, hb, fun hs => (hs rfl).elim, fun _ => ⟨?_, rfl⟩⟩
      rw [hcontents, written, if_neg (by rw [length_contents]; omega), writeStart, if_pos rfl]
  | false =>
    have hwritten : written n.contents buffer offset length writeToEndOfFile false =
        splice 0 n.contents (writeStart n.contents offset writeToEndOfFile false)
          (window buffer length) := if_neg (by simp)
    have hcount : writeCount n.contents offset length false = length := rfl
    have hfit := hend rfl
    rw [writeStart_growing] at hfit
    rw [FileNode.write, if_neg Bool.false_ne_true, hwritten, hcount, writeStart_growing]
    exact writeGrowing_spec sys h hmax buffer _ hlength hfit

/-! ### When a write leaves the block -/

/-- A size whose rounding wraps around frees the block, and then zeros are written to it. -/
theorem setFileSizeInternal_roundUp_wraps (h : Backed maxFileSize n) (hmax : maxFileSize < 2 ^ 32)
    {newSize : ℕ} (hlt : newSize < 2 ^ 64) (hwrap : 2 ^ 64 ≤ newSize + 511) :
    setFileSizeInternal maxFileSize sys n newSize false = none := by
  have hsize := h.fileSize_le
  have hsmall := h.small
  have hround : roundUp newSize = 0 := by
    rw [roundUp, allocationUnit]
    omega
  obtain ⟨status, m, heq, -, hb, hfail, hok⟩ := setAllocationSize_spec sys h 0
  have hs : status = .success := by
    by_cases halloc : n.fileInfo.allocationSize = 0
    · rw [setAllocationSize, if_neg (by omega)] at heq
      exact (congrArg Prod.fst heq).symm
    · rw [setAllocationSize, if_pos (by omega), if_neg (by omega)] at heq
      simp only [ne_eq, not_true_eq_false, and_false, if_false] at heq
      exact (congrArg Prod.fst heq).symm
  obtain ⟨halloc, hm, -⟩ := hok hs
  rw [setFileSizeInternal, if_neg Bool.false_ne_true, if_pos (by omega), if_pos (by omega), hround,
    heq]
  have hlt' : m.fileInfo.fileSize < newSize := by omega
  have hheld := hb.held
  have hout : blockSize m.fileData < m.fileInfo.fileSize + (newSize - m.fileInfo.fileSize) := by omega
  simp only [hs, ne_eq, not_true_eq_false, if_false, if_pos hlt',
    copyTo_eq_none _ (Nat.sub_ne_zero_of_lt hlt') hout]
  rfl

theorem setFileSizeInternal_shrink {newSize : ℕ} (hb : Backed maxFileSize n)
    (h : newSize ≤ n.fileInfo.fileSize) :
    ∃ m, setFileSizeInternal maxFileSize sys n newSize false = some (.success, m) := by
  have hfits := hb.fits
  rw [setFileSizeInternal, if_neg Bool.false_ne_true]
  by_cases hne : n.fileInfo.fileSize = newSize
  · rw [if_neg (not_not.mpr hne)]
    exact ⟨_, rfl⟩
  · rw [if_pos hne, if_neg (by omega)]
    simp only [ne_eq, not_true_eq_false, if_false]
    rw [if_neg (by omega)]
    exact ⟨_, rfl⟩

/-- A copy whose end has wrapped around starts far behind the block. -/
theorem writeRange_wrapped (h : Backed maxFileSize n) (hmax : maxFileSize < 2 ^ 32)
    (buffer : ℕ → Byte) {start length : ℕ} (hstart : start < 2 ^ 64) (hlength : length < 2 ^ 32)
    (hwrap : 2 ^ 64 ≤ start + length) :
    n.writeRange buffer start (start + length - 2 ^ 64) = none := by
  have hlen : transferLength start (start + length - 2 ^ 64) = length := by
    rw [transferLength]
    omega
  have hheld := h.held
  have hsmall := h.small
  have hne : length ≠ 0 := by omega
  have hout : blockSize n.fileData < start + length := by omega
  simp only [FileNode.writeRange, hlen, copyTo_eq_none buffer hne hout]
  rfl

theorem writeGrowing_eq_none_iff (h : Backed maxFileSize n) (hmax : maxFileSize < 2 ^ 32)
    {buffer : ℕ → Byte} {start length : ℕ} (hstart : start < 2 ^ 64) (hlength : length < 2 ^ 32) :
    n.writeGrowing maxFileSize sys buffer start length = none ↔
      (start + length < 2 ^ 64 ∧ 2 ^ 64 ≤ start + length + 511) ∨
        (2 ^ 64 ≤ start + length ∧ ∃ m, setFileSizeInternal maxFileSize sys n
          (start + length - 2 ^ 64) false = some (.success, m)) := by
  have hsize := h.fileSize_le
  by_cases hwrap : 2 ^ 64 ≤ start + length
  · have hend : endOffset start length = start + length - 2 ^ 64 := by
      rw [endOffset]
      omega
    have hlt : start + length - 2 ^ 64 < 2 ^ 32 := by omega
    have hnone := fun {m} (hb : Backed maxFileSize m) =>
      writeRange_wrapped hb hmax buffer hstart hlength hwrap
    rw [FileNode.writeGrowing, hend]
    simp only [hwrap, true_and, not_lt.mpr hwrap, false_and, false_or]
    generalize start + length - 2 ^ 64 = stop at hlt hnone ⊢
    by_cases hgrow : stop > n.fileInfo.fileSize
    · rw [if_pos hgrow]
      obtain ⟨status, m, heq, -, hb, -, -⟩ := setFileSizeInternal_spec sys h
        (show stop + 511 < 2 ^ 64 by omega)
      rw [heq]
      by_cases hs : status = .success
      · rw [proceed_success hs, hnone hb, hs]
        exact iff_of_true rfl ⟨m, rfl⟩
      · rw [proceed_failure hs]
        refine iff_of_false (by simp) ?_
        intro ⟨m', heq'⟩
        rw [Option.some_inj, Prod.mk.injEq] at heq'
        exact hs heq'.1
    · rw [if_neg hgrow]
      exact iff_of_true (hnone h) (setFileSizeInternal_shrink sys h (by omega))
  · by_cases hround : 2 ^ 64 ≤ start + length + 511
    · have hend : endOffset start length = start + length := endOffset_eq (by omega)
      have hnone := setFileSizeInternal_roundUp_wraps sys h hmax
        (not_le.mp hwrap) hround
      rw [FileNode.writeGrowing, hend]
      refine iff_of_true ?_ (.inl ⟨by omega, hround⟩)
      rw [if_pos (by omega), hnone, proceed_none]
    · obtain ⟨status, count, m, heq, -⟩ := writeGrowing_spec sys h hmax buffer start hlength
        (not_le.mp hround)
      rw [heq]
      refine iff_of_false (by simp) ?_
      rintro (⟨-, hround'⟩ | ⟨hwrap', -⟩)
      · exact hround hround'
      · exact hwrap hwrap'

/-- **Exactly when a write leaves its block**: its end, or the end rounded up, does not fit 64 bits, and
in the first case the file could be given the size that is left of the end. -/
theorem write_eq_none_iff (h : Backed maxFileSize n) (hmax : maxFileSize < 2 ^ 32)
    {buffer : ℕ → Byte} {offset length : ℕ} {writeToEndOfFile constrainedIo : Bool}
    (hoffset : offset < 2 ^ 64) (hlength : length < 2 ^ 32) :
    n.write maxFileSize sys buffer offset length writeToEndOfFile constrainedIo = none ↔
      constrainedIo = false ∧
        ((writeStart n.contents offset writeToEndOfFile constrainedIo + length < 2 ^ 64 ∧
            2 ^ 64 ≤ writeStart n.contents offset writeToEndOfFile constrainedIo + length + 511) ∨
          (2 ^ 64 ≤ writeStart n.contents offset writeToEndOfFile constrainedIo + length ∧
            ∃ m, setFileSizeInternal maxFileSize sys n
              (writeStart n.contents offset writeToEndOfFile constrainedIo + length - 2 ^ 64) false =
                some (.success, m))) := by
  cases constrainedIo with
  | true =>
    obtain ⟨status, count, m, heq, -⟩ := write_spec sys h hmax buffer offset writeToEndOfFile
      hlength (fun hc : true = false => by cases hc)
    rw [heq]
    exact iff_of_false (by simp) (fun hc => by cases hc.1)
  | false =>
    have hsize := h.fileSize_le
    have hlt : (if writeToEndOfFile then n.fileInfo.fileSize else offset) < 2 ^ 64 := by
      split_ifs
      · exact Nat.lt_of_le_of_lt hsize (hmax.trans (by norm_num))
      · exact hoffset
    rw [FileNode.write, if_neg Bool.false_ne_true, writeStart_growing,
      writeGrowing_eq_none_iff sys h hmax hlt hlength]
    exact (and_iff_right rfl).symm

/-! ### When a write succeeds -/

variable {sys} {newSize : ℕ} {m : FileNode} {status : Status}

theorem setAllocationSize_success (n : FileNode) (hmem : sys.heapOk = true) (hle : newSize ≤ maxFileSize) :
    (setAllocationSize maxFileSize sys n newSize).1 = .success := by
  have hgot : ¬ ((largeHeapRealloc sys n.fileData newSize).isNone ∧ newSize ≠ 0) := by
    rintro ⟨hnone, hne⟩
    cases hdata : n.fileData <;> simp [hdata, largeHeapRealloc, largeHeapAlloc, hne, hmem] at hnone
  rw [setAllocationSize]
  by_cases hne : n.fileInfo.allocationSize ≠ newSize
  · rw [if_pos hne, if_neg (Nat.not_lt.mpr hle)]
    simp only [if_neg hgot]
  · rw [if_neg hne]

theorem setFileSizeInternal_success (hmem : sys.heapOk = true) (hle : roundUp newSize ≤ maxFileSize)
    (h : setFileSizeInternal maxFileSize sys n newSize false = some (status, m)) : status = .success := by
  have halloc := setAllocationSize_success n hmem hle
  rw [setFileSizeInternal, if_neg Bool.false_ne_true] at h
  by_cases hne : n.fileInfo.fileSize ≠ newSize
  · rw [if_pos hne] at h
    have hfirst : (if n.fileInfo.allocationSize < newSize then
        setAllocationSize maxFileSize sys n (roundUp newSize) else (.success, n)).1 = .success := by
      split_ifs
      · exact halloc
      · rfl
    generalize (if n.fileInfo.allocationSize < newSize then
      setAllocationSize maxFileSize sys n (roundUp newSize) else (.success, n)) = r at h hfirst
    obtain ⟨first, k⟩ := r
    rw [show first = .success from hfirst] at h
    simp only [ne_eq, not_true_eq_false, if_false] at h
    split_ifs at h
    · obtain ⟨data, -, hm⟩ := Option.bind_eq_some_iff.mp h
      cases hm
      rfl
    · cases h
      rfl
  · rw [if_neg hne] at h
    cases h
    rfl

theorem writeRange_success {buffer : ℕ → Byte} {start stop count : ℕ}
    (h : n.writeRange buffer start stop = some (status, count, m)) : status = .success := by
  rw [FileNode.writeRange, Option.bind_eq_bind] at h
  obtain ⟨data, -, hm⟩ := Option.bind_eq_some_iff.mp h
  cases hm
  rfl

/-- A write within `MaxFileSize` fails for want of memory only. -/
theorem write_success (hmem : sys.heapOk = true) {buffer : ℕ → Byte} {offset length count : ℕ}
    {eof constrained : Bool}
    (hfit : constrained = false → writeStart n.contents offset eof constrained + length < 2 ^ 64 ∧
      roundUp (writeStart n.contents offset eof constrained + length) ≤ maxFileSize)
    (h : n.write maxFileSize sys buffer offset length eof constrained = some (status, count, m)) :
    status = .success := by
  cases constrained with
  | true =>
    rw [FileNode.write, if_pos rfl] at h
    split_ifs at h
    · cases h
      rfl
    · exact writeRange_success h
  | false =>
    obtain ⟨hlt, hle⟩ := hfit rfl
    rw [writeStart_growing] at hlt hle
    rw [FileNode.write, if_neg Bool.false_ne_true, FileNode.writeGrowing] at h
    generalize (if eof = true then n.fileInfo.fileSize else offset) = start at hlt hle h
    rw [endOffset_eq hlt] at h
    split_ifs at h
    · obtain ⟨r, hr, hwrite⟩ := Option.bind_eq_some_iff.mp h
      rw [if_pos (setFileSizeInternal_success hmem hle hr)] at hwrite
      exact writeRange_success hwrite
    · exact writeRange_success h

end

end FtjSsdSim.Vdisk
