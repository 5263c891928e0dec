import Mathlib
import FtjSsdSim.Engine.VirtualDisk
import FtjSsdSim.Vdisk.Callbacks
import FtjSsdSim.Library.Machine

/-!
# The mounted volume

`MemfsCreateFunnel` files the root directory and the disk file.  From then on the driver calls the
functions of `MemfsInterface`, with full names or with file nodes that `Create` and `Open` returned and
`Close` has not seen yet.  `Read` and `Write` of a node named `\ftj_disk.bin` go to the process's
controller.

A volume is the file system, the controller, and the open files.  One call takes a request to a reply;
a run takes a list of requests, and has failed (`none`) once a callback has.
-/

namespace FtjSsdSim.Vdisk

open FtjSsdSim.Library FtjSsdSim.Engine

/-- `FILE_ATTRIBUTE_NORMAL`. -/
def attributeNormal : BitVec 32 := 0x80

namespace Memfs

variable {nls : Nls} {caseInsensitive : Bool}

/-! ### Mounting -/

/-- The end of `MemfsCreateFunnel`, which makes the disk file.  The volume is mounted without it if that
fails. -/
def createDisk (pathSuffix : PathSuffix) (sys : System) (capacity : ℕ) (rootSecurity : List Byte)
    (s : Memfs nls caseInsensitive) : Option (Memfs nls caseInsensitive) := do
  let (status, disk, s) ← s.fileNodeCreate sys diskName
  if status ≠ .success then some s
  else do
    let n ← s.nodes disk
    let n := { n with
      fileInfo := { n.fileInfo with
        fileAttributes := attributeNormal
        fileSize := capacity
        allocationSize := capacity }
      fileSecurity := if sys.securityOk then rootSecurity else [] }
    let (status, _, s) ← (s.setNode disk n).fileNodeMapInsert pathSuffix sys disk
    if status ≠ .success then some (s.fileNodeDelete disk) else some s

/-- `MemfsCreateFunnel` from the file node map on, with the arguments that it keeps.  The system answers
once for the root directory and once for the disk file. -/
def createFunnel (pathSuffix : PathSuffix) (root disk : System) (maxFileNodes maxFileSize capacity : ℕ)
    (rootSecurity : List Byte) : Option (Status × Option (Memfs nls caseInsensitive)) := do
  let s : Memfs nls caseInsensitive :=
    { nodes := fun _ => none
      nextNode := 0
      indexNumber := 1
      fileNodeMap := ∅
      maxFileNodes := maxFileNodes
      maxFileSize := roundUp maxFileSize % 2 ^ 32
      volumeLabel := ['F', 'T', 'J', 'F', 'S'].map wide }
  let (status, id, s) ← s.fileNodeCreate root rootName
  if status ≠ .success then some (status, none)
  else if root.securityOk = false then some (.insufficientResources, none)
  else do
    let n ← s.nodes id
    let n := { n with
      fileInfo := { n.fileInfo with fileAttributes := attributeDirectory }
      fileSecurity := rootSecurity }
    let (status, _, s) ← (s.setNode id n).fileNodeMapInsert pathSuffix root id
    if status ≠ .success then some (status, none)
    else do
      let s ← s.createDisk pathSuffix disk capacity rootSecurity
      some (.success, some s)

/-- `MemfsFileNodeMapDelete`, with which `MemfsDelete` ends.  It touches each node of the map. -/
def fileNodeMapDelete (s : Memfs nls caseInsensitive) : Option (Memfs nls caseInsensitive) := do
  let s ← (s.fileNodeMap.toList.map Prod.snd).foldlM (fun s id => do
    let _ ← s.nodes id
    some (s.fileNodeDelete id)) s
  some { s with fileNodeMap := ∅ }

end Memfs

/-! ### Requests -/

/-- A callback with its arguments. -/
inductive Request where
  | getVolumeInfo
  | setVolumeLabel (label : FileName)
  | getSecurityByName (fileName : FileName) (size : Option ℕ)
  | create (fileName : FileName) (directoryFile : Bool) (fileAttributes : BitVec 32)
      (securityDescriptor : Option (List Byte)) (allocationSize : ℕ)
  | openFile (fileName : FileName)
  | overwrite (id : NodeId) (fileAttributes : BitVec 32) (replaceFileAttributes : Bool)
      (allocationSize : ℕ)
  | cleanup (id : NodeId) (flags : CleanupFlags)
  | close (id : NodeId)
  | read (id : NodeId) (buffer : ℕ → Byte) (offset length : ℕ)
  | write (id : NodeId) (buffer : ℕ → Byte) (offset length : ℕ) (writeToEndOfFile constrainedIo : Bool)
  | flush (id : Option NodeId)
  | getFileInfo (id : NodeId)
  | setBasicInfo (id : NodeId) (fileAttributes : Option (BitVec 32))
      (creationTime lastAccessTime lastWriteTime changeTime : ℕ)
  | setFileSize (id : NodeId) (newSize : ℕ) (setAllocation : Bool)
  | canDelete (id : NodeId)
  | rename (id : NodeId) (newFileName : FileName) (replaceIfExists : Bool)
  | getSecurity (id : NodeId) (size : ℕ)
  | setSecurity (id : NodeId) (modify : List Byte → Except Status (List Byte))
  | readDirectory (id : NodeId) (marker : Option FileName) (room : List DirInfo → DirInfo → Bool)
  | getDirInfoByName (id : NodeId) (fileName : FileName)
  | control (code : BitVec 32) (input : List Byte) (outputBufferLength : ℕ)

/-- What a callback returns. -/
inductive Reply where
  | done (status : Status)
  | volume (info : VolumeInfo)
  | security (status : Status) (fileAttributes : Option (BitVec 32)) (length : ℕ)
      (descriptor : List Byte)
  | opened (status : Status) (id : NodeId)
  | transferred (status : Status) (count : ℕ) (bytes : List Byte)
  | flushed (info : Option FileInfo)
  | info (info : FileInfo)
  | directory (status : Status) (entries : List DirInfo) (last : Bool)
  | entry (status : Status) (info : Option DirInfo)
  deriving DecidableEq

/-- The file system, `g_controller` with the generator seed of its thread, and the nodes of the open
files. -/
structure Volume (nls : Nls) (caseInsensitive : Bool) where
  fs : Memfs nls caseInsensitive
  controller : Option FTJController
  seed : Word
  opens : Multiset NodeId

namespace Volume

variable {nls : Nls} {caseInsensitive : Bool}

/-! ### The disk file -/

/-- The disk that the branches for the disk file see. -/
def disk (v : Volume nls caseInsensitive) (n : FileNode) : VirtualDisk.Disk :=
  ⟨⟨.ofNat 64 n.fileInfo.fileSize, .ofNat 64 n.fileInfo.lastWriteTime,
    .ofNat 64 n.fileInfo.changeTime⟩, v.controller, v.seed⟩

/-- The status of the branches for the disk file. -/
def diskStatus : VirtualDisk.NtStatus → Status
  | .success => .success
  | .endOfFile => .endOfFile
  | .invalidParameter => .invalidParameter

/-- The number of bytes transferred, which is zero until it is assigned. -/
def diskCount (a : VirtualDisk.Answer) : ℕ := (a.bytesTransferred.getD 0).toNat

/-- `Read`. -/
def read (hits : FTJController.Hits) (v : Volume nls caseInsensitive) (id : NodeId) (buffer : ℕ → Byte)
    (offset length : ℕ) : Option (Reply × Volume nls caseInsensitive) := do
  let n ← v.fs.nodes id
  if n.fileName = diskName then
    let a := VirtualDisk.read hits (v.disk n) (some buffer) (.ofNat 64 offset) (.ofNat 32 length)
    some (.transferred (diskStatus a.status) (diskCount a)
        (window (a.buffer.getD buffer) (diskCount a)),
      { v with controller := a.disk.controller, seed := a.disk.seed })
  else do
    let (status, count, bytes) ← v.fs.read id offset length
    some (.transferred status count bytes, v)

/-- `Write`. -/
def write (sys : System) (v : Volume nls caseInsensitive) (id : NodeId) (buffer : ℕ → Byte)
    (offset length : ℕ) (writeToEndOfFile constrainedIo : Bool) :
    Option (Reply × Volume nls caseInsensitive) := do
  let n ← v.fs.nodes id
  if n.fileName = diskName then
    let a := VirtualDisk.write (v.disk n) (some buffer) (.ofNat 64 offset) (.ofNat 32 length)
      writeToEndOfFile constrainedIo true (.ofNat 64 sys.now)
    let n := if a.fileInfo.isSome then { n with fileInfo := { n.fileInfo with
        lastWriteTime := sys.now
        changeTime := sys.now } }
      else n
    some (.transferred (diskStatus a.status) (diskCount a) [],
      { v with
        fs := v.fs.setNode id n
        controller := a.disk.controller
        seed := a.disk.seed })
  else do
    let (status, count, fs) ←
      v.fs.write sys id buffer offset length writeToEndOfFile constrainedIo
    some (.transferred status count [], { v with fs := fs })

/-! ### Calls -/

/-- What a callback without results beside its status does to the volume. -/
def finish (v : Volume nls caseInsensitive) (r : Status × Memfs nls caseInsensitive) :
    Reply × Volume nls caseInsensitive :=
  (.done r.1, { v with fs := r.2 })

/-- What `Create` or `Open` does to the volume: a file that it opens is open until it is closed. -/
def finishOpen (v : Volume nls caseInsensitive) (r : Status × NodeId × Memfs nls caseInsensitive) :
    Reply × Volume nls caseInsensitive :=
  (.opened r.1 r.2.1,
    { v with fs := r.2.2, opens := if r.1 = .success then r.2.1 ::ₘ v.opens else v.opens })

/-- One callback. -/
def call (pathSuffix : PathSuffix) (hits : FTJController.Hits) (sys : System) (v : Volume nls caseInsensitive) :
    Request → Option (Reply × Volume nls caseInsensitive)
  | .getVolumeInfo => some (.volume v.fs.getVolumeInfo, v)
  | .setVolumeLabel label =>
    some (.volume (v.fs.setVolumeLabel label).1, { v with fs := (v.fs.setVolumeLabel label).2 })
  | .getSecurityByName fileName size =>
    (v.fs.getSecurityByName pathSuffix fileName size).map fun r =>
      (.security r.1 r.2.1 r.2.2.1 r.2.2.2, v)
  | .create fileName directoryFile fileAttributes securityDescriptor allocationSize =>
    (v.fs.create pathSuffix sys fileName directoryFile fileAttributes securityDescriptor
      allocationSize).map v.finishOpen
  | .openFile fileName => (v.fs.openFile pathSuffix fileName).map v.finishOpen
  | .overwrite id fileAttributes replaceFileAttributes allocationSize =>
    (v.fs.overwrite sys id fileAttributes replaceFileAttributes allocationSize).map v.finish
  | .cleanup id flags =>
    (v.fs.cleanup pathSuffix sys id flags).map fun fs => (.done .success, { v with fs := fs })
  | .close id =>
    (v.fs.close id).map fun fs => (.done .success, { v with fs := fs, opens := v.opens.erase id })
  | .read id buffer offset length => v.read hits id buffer offset length
  | .write id buffer offset length writeToEndOfFile constrainedIo =>
    v.write sys id buffer offset length writeToEndOfFile constrainedIo
  | .flush id => (v.fs.flush id).map fun info => (.flushed info, v)
  | .getFileInfo id => (v.fs.getFileInfo id).map fun info => (.info info, v)
  | .setBasicInfo id fileAttributes creationTime lastAccessTime lastWriteTime changeTime =>
    (v.fs.setBasicInfo id fileAttributes creationTime lastAccessTime lastWriteTime changeTime).map
      fun fs => (.done .success, { v with fs := fs })
  | .setFileSize id newSize setAllocation =>
    (v.fs.setFileSize sys id newSize setAllocation).map v.finish
  | .canDelete id => (v.fs.canDelete pathSuffix id).map fun status => (.done status, v)
  | .rename id newFileName replaceIfExists =>
    (v.fs.rename pathSuffix sys id newFileName replaceIfExists).map v.finish
  | .getSecurity id size =>
    (v.fs.getSecurity id size).map fun r => (.security r.1 none r.2.1 r.2.2, v)
  | .setSecurity id modify => (v.fs.setSecurity sys id modify).map v.finish
  | .readDirectory id marker room =>
    (v.fs.readDirectory pathSuffix id marker room).map fun r => (.directory r.1 r.2.1 r.2.2, v)
  | .getDirInfoByName id fileName =>
    (v.fs.getDirInfoByName pathSuffix id fileName).map fun r => (.entry r.1 r.2, v)
  | .control code input outputBufferLength =>
    let r := Vdisk.control code input outputBufferLength
    some (.transferred r.1 r.2.length r.2, v)

end Volume

end FtjSsdSim.Vdisk
