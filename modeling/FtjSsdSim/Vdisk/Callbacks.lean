import Mathlib
import FtjSsdSim.Vdisk.FileNodeMap

/-!
# The callbacks of the file system

The functions of `MemfsInterface` on the state of the volume, apart from the branches of `Read` and
`Write` for the disk file.  A callback returns `none` where the process would touch freed memory, leave
a block, or stop.

Reparse points, named streams, extended attributes and slow input and output are compiled out.
-/

namespace FtjSsdSim.Vdisk

open Std FtjSsdSim.Library

/-- `L"\\ftj_disk.bin"`. -/
def diskName : FileName :=
  ['\\', 'f', 't', 'j', '_', 'd', 'i', 's', 'k', '.', 'b', 'i', 'n'].map wide

/-- The flags of `Cleanup`. -/
structure CleanupFlags where
  delete : Bool
  setAllocationSize : Bool
  setArchiveBit : Bool
  setLastAccessTime : Bool
  setLastWriteTime : Bool
  setChangeTime : Bool

/-- The sizes and the label of `FSP_FSCTL_VOLUME_INFO`. -/
structure VolumeInfo where
  totalSize : ℕ
  freeSize : ℕ
  volumeLabel : FileName
  deriving DecidableEq

/-- The name and the file information of `FSP_FSCTL_DIR_INFO`. -/
structure DirInfo where
  fileName : FileName
  fileInfo : FileInfo
  deriving DecidableEq

namespace Memfs

variable {nls : Nls} {caseInsensitive : Bool}

/-! ### The volume -/

/-- `Memfs->MaxFileNodes - MemfsFileNodeMapCount(Memfs->FileNodeMap)`, in 64 bits. -/
def freeNodes (s : Memfs nls caseInsensitive) : ℕ :=
  (s.maxFileNodes + (2 ^ 64 - s.fileNodeMap.size)) % 2 ^ 64

/-- `GetVolumeInfo`. -/
def getVolumeInfo (s : Memfs nls caseInsensitive) : VolumeInfo :=
  { totalSize := s.maxFileNodes * s.maxFileSize % 2 ^ 64
    freeSize := s.freeNodes * s.maxFileSize % 2 ^ 64
    volumeLabel := s.volumeLabel }

/-- `SetVolumeLabel`.  The length of the label is 16-bit, counts bytes, and is cut to the 64 bytes of the
field; the product for the total size is 32-bit. -/
def setVolumeLabel (s : Memfs nls caseInsensitive) (label : FileName) :
    VolumeInfo × Memfs nls caseInsensitive :=
  let s := { s with volumeLabel := label.take (min (label.length * 2 % 2 ^ 16) 64 / 2) }
  ({ totalSize := s.maxFileNodes * s.maxFileSize % 2 ^ 32
     freeSize := s.freeNodes * s.maxFileSize % 2 ^ 64
     volumeLabel := s.volumeLabel }, s)

/-! ### Security -/

/-- The end of `GetSecurityByName`, and `GetSecurity`: the size is always returned, the descriptor where
it fits. -/
def copySecurity (n : FileNode) (size : ℕ) : Status × ℕ × List Byte :=
  if n.fileSecurity.length > size then (.bufferOverflow, n.fileSecurity.length, [])
  else (.success, n.fileSecurity.length, n.fileSecurity)

/-- The result for a name without a node, where `Result` is `STATUS_OBJECT_NAME_NOT_FOUND` unless the
parent is missing or no directory. -/
def notFound (pathSuffix : PathSuffix) (s : Memfs nls caseInsensitive) (fileName : FileName) :
    Option Status := do
  match ← s.fileNodeMapGetParent pathSuffix fileName with
  | .error status => some status
  | .ok _ => some .objectNameNotFound

/-- `GetSecurityByName`: the status, the attributes, and what `copySecurity` returns. -/
def getSecurityByName (pathSuffix : PathSuffix) (s : Memfs nls caseInsensitive) (fileName : FileName)
    (size : Option ℕ) : Option (Status × Option (BitVec 32) × ℕ × List Byte) := do
  match s.fileNodeMapGet fileName with
  | none => some (← s.notFound pathSuffix fileName, none, 0, [])
  | some id => do
    let n ← s.nodes id
    match size with
    | none => some (.success, some n.fileInfo.fileAttributes, 0, [])
    | some size =>
      let (status, length, descriptor) := copySecurity n size
      some (status, some n.fileInfo.fileAttributes, length, descriptor)

/-- `GetSecurity`. -/
def getSecurity (s : Memfs nls caseInsensitive) (id : NodeId) (size : ℕ) :
    Option (Status × ℕ × List Byte) := do
  let n ← s.nodes id
  some (copySecurity n size)

/-- `SetSecurity`, with what `FspSetSecurityDescriptor` makes of the descriptor. -/
def setSecurity (sys : System) (s : Memfs nls caseInsensitive) (id : NodeId)
    (modify : List Byte → Except Status (List Byte)) : Option (Status × Memfs nls caseInsensitive) := do
  let n ← s.nodes id
  match modify n.fileSecurity with
  | .error status => some (status, s)
  | .ok descriptor =>
    if sys.securityOk then some (.success, s.setNode id { n with fileSecurity := descriptor })
    else some (.insufficientResources, s)

/-! ### Creating and opening -/

/-- The name under which `Create` files the node.  A case-insensitive volume takes the spelling of the
parent; the result is then checked for its length once more. -/
def normalizedName (pathSuffix : PathSuffix) (parent : FileNode) (fileName : FileName) : FileName :=
  prevFileName parent.fileName (pathSuffix fileName).2

/-- The part of `Create` that makes the node, fills it in and files it. -/
def createNode (pathSuffix : PathSuffix) (sys : System) (s : Memfs nls caseInsensitive)
    (fileName : FileName) (fileAttributes : BitVec 32) (securityDescriptor : Option (List Byte))
    (allocationSize : ℕ) : Option (Status × NodeId × Memfs nls caseInsensitive) := do
  let (status, id, s) ← s.fileNodeCreate sys fileName
  if status ≠ .success then some (status, 0, s)
  else if securityDescriptor.isSome ∧ sys.securityOk = false then
    some (.insufficientResources, 0, s.fileNodeDelete id)
  else if allocationSize ≠ 0 ∧ (largeHeapAlloc sys allocationSize).isNone then
    some (.insufficientResources, 0, s.fileNodeDelete id)
  else do
    let n ← s.nodes id
    let n := { n with
      fileInfo := { n.fileInfo with
        fileAttributes := if fileAttributes &&& attributeDirectory ≠ 0 then fileAttributes
          else fileAttributes ||| attributeArchive
        allocationSize := allocationSize }
      fileSecurity := securityDescriptor.getD []
      fileData := if allocationSize ≠ 0 then largeHeapAlloc sys allocationSize else none }
    let (status, inserted, s) ← (s.setNode id n).fileNodeMapInsert pathSuffix sys id
    if status ≠ .success ∨ inserted = false then
      some (if status = .success then .objectNameCollision else status, 0, s.fileNodeDelete id)
    else do
      let s ← s.fileNodeReference id
      some (.success, id, s)

/-- `Create`.  `directoryFile` is the bit `FILE_DIRECTORY_FILE` of `CreateOptions`. -/
def create (pathSuffix : PathSuffix) (sys : System) (s : Memfs nls caseInsensitive)
    (fileName : FileName) (directoryFile : Bool) (fileAttributes : BitVec 32)
    (securityDescriptor : Option (List Byte)) (allocationSize : ℕ) :
    Option (Status × NodeId × Memfs nls caseInsensitive) := do
  if maxPath ≤ fileName.length then some (.objectNameInvalid, 0, s)
  else
    let allocationSize := if directoryFile then 0 else allocationSize
    if (s.fileNodeMapGet fileName).isSome then some (.objectNameCollision, 0, s)
    else
      match ← s.fileNodeMapGetParent pathSuffix fileName with
      | .error status => some (status, 0, s)
      | .ok parent => do
        if s.fileNodeMap.size ≥ s.maxFileNodes then some (.cannotMake, 0, s)
        else if allocationSize > s.maxFileSize then some (.diskFull, 0, s)
        else do
          let p ← s.nodes parent
          let name := if caseInsensitive then normalizedName pathSuffix p fileName else fileName
          if maxPath ≤ name.length then some (.objectNameInvalid, 0, s)
          else s.createNode pathSuffix sys name fileAttributes securityDescriptor allocationSize

/-- `Open`. -/
def openFile (pathSuffix : PathSuffix) (s : Memfs nls caseInsensitive) (fileName : FileName) :
    Option (Status × NodeId × Memfs nls caseInsensitive) := do
  if maxPath ≤ fileName.length then some (.objectNameInvalid, 0, s)
  else
    match s.fileNodeMapGet fileName with
    | none => some (← s.notFound pathSuffix fileName, 0, s)
    | some id => do
      let s ← s.fileNodeReference id
      some (.success, id, s)

/-- `Close`. -/
def close (s : Memfs nls caseInsensitive) (id : NodeId) : Option (Memfs nls caseInsensitive) :=
  s.fileNodeDereference id

/-! ### The file information -/

/-- `GetFileInfo`. -/
def getFileInfo (s : Memfs nls caseInsensitive) (id : NodeId) : Option FileInfo := do
  let n ← s.nodes id
  some n.fileInfo

/-- `Flush`: nothing is cached, and the file information is returned if there is a file. -/
def flush (s : Memfs nls caseInsensitive) : Option NodeId → Option (Option FileInfo)
  | none => some none
  | some id => (s.getFileInfo id).map some

/-- `if (0 != NewTime) Time = NewTime;`. -/
def newTime (new old : ℕ) : ℕ := if new ≠ 0 then new else old

/-- `SetBasicInfo`.  No attributes stand for `INVALID_FILE_ATTRIBUTES`. -/
def setBasicInfo (s : Memfs nls caseInsensitive) (id : NodeId) (fileAttributes : Option (BitVec 32))
    (creationTime lastAccessTime lastWriteTime changeTime : ℕ) :
    Option (Memfs nls caseInsensitive) := do
  let n ← s.nodes id
  some (s.setNode id { n with fileInfo := { n.fileInfo with
    fileAttributes := fileAttributes.getD n.fileInfo.fileAttributes
    creationTime := newTime creationTime n.fileInfo.creationTime
    lastAccessTime := newTime lastAccessTime n.fileInfo.lastAccessTime
    lastWriteTime := newTime lastWriteTime n.fileInfo.lastWriteTime
    changeTime := newTime changeTime n.fileInfo.changeTime } })

/-- `SetFileSize`. -/
def setFileSize (sys : System) (s : Memfs nls caseInsensitive) (id : NodeId) (newSize : ℕ)
    (setAllocation : Bool) : Option (Status × Memfs nls caseInsensitive) := do
  let n ← s.nodes id
  let (status, n) ← setFileSizeInternal s.maxFileSize sys n newSize setAllocation
  some (status, s.setNode id n)

/-- The attributes after `Overwrite`. -/
def overwriteAttributes (old fileAttributes : BitVec 32) (replace : Bool) : BitVec 32 :=
  if replace then fileAttributes ||| attributeArchive
  else old ||| (fileAttributes ||| attributeArchive)

/-- `Overwrite`. -/
def overwrite (sys : System) (s : Memfs nls caseInsensitive) (id : NodeId)
    (fileAttributes : BitVec 32) (replaceFileAttributes : Bool) (allocationSize : ℕ) :
    Option (Status × Memfs nls caseInsensitive) := do
  let n ← s.nodes id
  let (status, n) := setAllocationSize s.maxFileSize sys n allocationSize
  if status ≠ .success then some (status, s.setNode id n)
  else
    some (.success, s.setNode id (touch { n with fileInfo := { n.fileInfo with
      fileAttributes :=
        overwriteAttributes n.fileInfo.fileAttributes fileAttributes replaceFileAttributes
      fileSize := 0 } } sys.now))

/-! ### Reading and writing ordinary files -/

/-- `Read` of a file other than the disk file. -/
def read (s : Memfs nls caseInsensitive) (id : NodeId) (offset length : ℕ) :
    Option (Status × ℕ × List Byte) := do
  let n ← s.nodes id
  n.read offset length

/-- `Write` to a file other than the disk file. -/
def write (sys : System) (s : Memfs nls caseInsensitive) (id : NodeId) (buffer : ℕ → Byte)
    (offset length : ℕ) (writeToEndOfFile constrainedIo : Bool) :
    Option (Status × ℕ × Memfs nls caseInsensitive) := do
  let n ← s.nodes id
  let (status, count, n) ←
    n.write s.maxFileSize sys buffer offset length writeToEndOfFile constrainedIo
  some (status, count, s.setNode id n)

/-! ### Deleting and renaming -/

/-- `CanDelete`. -/
def canDelete (pathSuffix : PathSuffix) (s : Memfs nls caseInsensitive) (id : NodeId) :
    Option Status := do
  let n ← s.nodes id
  if n.fileName = diskName then some .accessDenied
  else if ← s.fileNodeMapHasChild pathSuffix id then some .directoryNotEmpty
  else some .success

/-- The attributes and times that `Cleanup` sets. -/
def cleanupInfo (sys : System) (flags : CleanupFlags) (n : FileNode) : FileNode :=
  { n with fileInfo := { n.fileInfo with
    fileAttributes :=
      if flags.setArchiveBit && !n.isDirectory then n.fileInfo.fileAttributes ||| attributeArchive
      else n.fileInfo.fileAttributes
    lastAccessTime := if flags.setLastAccessTime then sys.now else n.fileInfo.lastAccessTime
    lastWriteTime := if flags.setLastWriteTime then sys.now else n.fileInfo.lastWriteTime
    changeTime := if flags.setChangeTime then sys.now else n.fileInfo.changeTime } }

/-- `Cleanup`. -/
def cleanup (pathSuffix : PathSuffix) (sys : System) (s : Memfs nls caseInsensitive) (id : NodeId)
    (flags : CleanupFlags) : Option (Memfs nls caseInsensitive) := do
  let n ← s.nodes id
  let n := cleanupInfo sys flags n
  let n := if flags.setAllocationSize then
      (Vdisk.setAllocationSize s.maxFileSize sys n (roundUp n.fileInfo.fileSize)).2
    else n
  let s := s.setNode id n
  if flags.delete then
    if ← s.fileNodeMapHasChild pathSuffix id then some s
    else s.fileNodeMapRemove pathSuffix sys id
  else some s

/-- One round of the second loop of `Rename`: the node is taken out of the map, gets its new name, and
goes back.  The process stops if that fails. -/
def renameNode (pathSuffix : PathSuffix) (sys : System) (newFileName : FileName) (fileNameLen : ℕ)
    (s : Memfs nls caseInsensitive) (id : NodeId) : Option (Memfs nls caseInsensitive) := do
  let s ← s.fileNodeMapRemove pathSuffix sys id
  let n ← s.nodes id
  let s := s.setNode id { n with fileName := newFileName ++ n.fileName.drop fileNameLen }
  let (status, _, s) ← s.fileNodeMapInsert pathSuffix sys id
  if status ≠ .success then none else some s

/-- `Rename` up to the first look at the descendants: the status with which it ends there, if it does. -/
def renameRefused (s : Memfs nls caseInsensitive) (id : NodeId) (newFileName : FileName)
    (replaceIfExists : Bool) : Option (Option Status) := do
  match s.fileNodeMapGet newFileName with
  | none => some none
  | some new =>
    if new = id then some none
    else if replaceIfExists = false then some (some .objectNameCollision)
    else do
      let m ← s.nodes new
      if m.isDirectory then some (some .accessDenied) else some none

/-- The node that `Rename` finds under the new name is taken out of the map. -/
def renameReplace (pathSuffix : PathSuffix) (sys : System) (s : Memfs nls caseInsensitive)
    (newFileNode : Option NodeId) : Option (Memfs nls caseInsensitive) :=
  match newFileNode with
  | none => some s
  | some new => do
    let s ← s.fileNodeReference new
    let s ← s.fileNodeMapRemove pathSuffix sys new
    s.fileNodeDereference new

/-- `Rename`.  The nodes that are renamed carry one more reference meanwhile. -/
def rename (pathSuffix : PathSuffix) (sys : System) (s : Memfs nls caseInsensitive) (id : NodeId)
    (newFileName : FileName) (replaceIfExists : Bool) :
    Option (Status × Memfs nls caseInsensitive) := do
  let n ← s.nodes id
  if n.fileName = diskName then some (.accessDenied, s)
  else
    match ← s.renameRefused id newFileName replaceIfExists with
    | some status => some (status, s)
    | none => do
      let newFileNode := s.fileNodeMapGet newFileName
      let descendants ← s.fileNodeMapEnumerateDescendants id
      let (context, s) ←
        (descendants.map Prod.snd).foldlM (fileNodeMapEnumerateFn sys) (⟨true, [], 0⟩, s)
      if descendants.any fun e =>
          maxPath ≤ e.1.length - n.fileName.length + newFileName.length then do
        let s ← s.fileNodeMapEnumerateFree context
        some (.objectNameInvalid, s)
      else do
        let s ← s.renameReplace pathSuffix sys newFileNode
        let s ← context.fileNodes.foldlM
          (renameNode pathSuffix sys newFileName n.fileName.length) s
        let s ← s.fileNodeMapEnumerateFree context
        some (.success, s)

/-! ### Directories -/

/-- `L"."`. -/
def dot : FileName := [wide '.']

/-- `L".."`. -/
def dotDot : FileName := [wide '.', wide '.']

/-- `FspFileSystemAddDirInfo` of one entry after another, while there is room in the buffer.  The flag
tells whether all of them were added. -/
def addDirInfos (room : List DirInfo → DirInfo → Bool) :
    List DirInfo → List DirInfo → List DirInfo × Bool
  | buffer, [] => (buffer, true)
  | buffer, e :: es =>
    if room buffer e then addDirInfos room (buffer ++ [e]) es else (buffer, false)

/-- The dot entries of `ReadDirectory`: all entries that are to be added before the children, and the
marker that is left. -/
def dotEntries (n parent : FileNode) (marker : Option FileName) :
    List DirInfo × Option FileName :=
  if marker = none then ([⟨dot, n.fileInfo⟩, ⟨dotDot, parent.fileInfo⟩], none)
  else if marker = some dot then ([⟨dotDot, parent.fileInfo⟩], none)
  else ([], marker)

/-- The entries of `AddDirInfo` for children. -/
def childInfos (pathSuffix : PathSuffix) (s : Memfs nls caseInsensitive) :
    List (FileName × NodeId) → Option (List DirInfo)
  | [] => some []
  | e :: es => do
    let n ← s.nodes e.2
    let infos ← s.childInfos pathSuffix es
    some (⟨(pathSuffix e.1).2, n.fileInfo⟩ :: infos)

/-- `ReadDirectory`: the status, the entries in the buffer, and whether the end of the directory was
marked.  `room` tells whether the buffer has room for one more entry. -/
def readDirectory (pathSuffix : PathSuffix) (s : Memfs nls caseInsensitive) (id : NodeId)
    (marker : Option FileName) (room : List DirInfo → DirInfo → Bool) :
    Option (Status × List DirInfo × Bool) := do
  let n ← s.nodes id
  if n.fileName.length ≠ 1 then
    match ← s.fileNodeMapGetParent pathSuffix n.fileName with
    | .error status => some (status, [], false)
    | .ok parent => do
      let p ← s.nodes parent
      let (dots, marker) := dotEntries n p marker
      let (buffer, added) := addDirInfos room [] dots
      if added = false then some (.success, buffer, false)
      else do
        let entries ← s.fileNodeMapEnumerateChildren pathSuffix id marker
        let infos ← s.childInfos pathSuffix entries
        let (buffer, added) := addDirInfos room buffer infos
        some (.success, buffer, added)
  else do
    let entries ← s.fileNodeMapEnumerateChildren pathSuffix id marker
    let infos ← s.childInfos pathSuffix entries
    let (buffer, added) := addDirInfos room [] infos
    some (.success, buffer, added)

/-- `GetDirInfoByName`. -/
def getDirInfoByName (pathSuffix : PathSuffix) (s : Memfs nls caseInsensitive) (id : NodeId)
    (fileName : FileName) : Option (Status × Option DirInfo) := do
  let parent ← s.nodes id
  let name := parent.fileName ++ (if 1 < parent.fileName.length then [wide '\\'] else []) ++ fileName
  if maxPath ≤ name.length then some (.objectNameNotFound, none)
  else
    match s.fileNodeMapGet name with
    | none => some (.objectNameNotFound, none)
    | some child => do
      let n ← s.nodes child
      some (.success, some ⟨(pathSuffix n.fileName).2, n.fileInfo⟩)

end Memfs

/-! ### Device control -/

/-- `CTL_CODE(0x8000 + 'M', 'R', METHOD_BUFFERED, FILE_ANY_ACCESS)`. -/
def controlCode : BitVec 32 := (0x804d : BitVec 32) <<< 16 ||| (0x52 : BitVec 32) <<< 2

/-- What the loop of `Control` makes of a byte. -/
def rotate (p : Byte) : Byte :=
  if (0x41 ≤ p ∧ p ≤ 0x4d) ∨ (0x61 ≤ p ∧ p ≤ 0x6d) then p + 13
  else if (0x4e ≤ p ∧ p ≤ 0x5a) ∨ (0x6e ≤ p ∧ p ≤ 0x7a) then p - 13
  else p

/-- `Control`. -/
def control (code : BitVec 32) (input : List Byte) (outputBufferLength : ℕ) : Status × List Byte :=
  if controlCode = code then
    if outputBufferLength ≠ input.length then (.invalidParameter, [])
    else (.success, input.map rotate)
  else (.invalidDeviceRequest, [])

end FtjSsdSim.Vdisk
