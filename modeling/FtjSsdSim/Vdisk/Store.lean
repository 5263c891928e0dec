import Mathlib
import FtjSsdSim.Library.NameTree
import FtjSsdSim.Vdisk.Volume
import FtjSsdSim.Vdisk.References

/-!
# What the volume is for

A store is a tree of names, an object behind each of them, and the objects that are open.  Requests
change it as one expects of files: `Store.apply` says how, given the reply, `Store.Answers` says which
replies are right, and `Store.Stops` which requests get none, since the process stops.  The bytes of the
disk file are not its own, since the controller keeps them.

A volume shows a store (`Volume.Shows`) if the map is the tree and every node is its object.
-/

namespace FtjSsdSim.Vdisk

open FtjSsdSim.Library

/-- The path of the disk file. -/
def diskPath : Path :=
  [⟨['f', 't', 'j', '_', 'd', 'i', 's', 'k', '.', 'b', 'i', 'n'].map wide, by decide⟩]

theorem pathName_diskPath : pathName diskPath = diskName := rfl

/-- A file or a directory, as its users see it. -/
structure Object where
  directory : Bool
  bytes : Option (List Byte)

/-- What the requests have made of the volume. -/
structure Store where
  tree : NameTree Part NodeId
  object : NodeId → Object
  opens : Multiset NodeId

namespace Store

/-- The object with other bytes. -/
def setBytes (a : Store) (id : NodeId) (f : List Byte → List Byte) : Store :=
  { a with
    object := Function.update a.object id ⟨(a.object id).directory, (a.object id).bytes.map f⟩ }

/-- A new object. -/
def newObject (ps : Path) (directory : Bool) : Object :=
  ⟨directory, if ps = diskPath then none else some []⟩

/-- The object under its new name: the bytes of the file that gets the name of the disk file are no
longer read or written. -/
def renamed (ps : Path) (o : Object) : Object := if ps = diskPath then { o with bytes := none } else o

open Classical in
/-- The store after a request with its reply. -/
noncomputable def apply (a : Store) : Request → Reply → Store
  | .create fileName _ fileAttributes _ _, .opened .success id =>
    { tree := a.tree.file (pathOf fileName) id
      object := Function.update a.object id
        (newObject (pathOf fileName) (fileAttributes &&& attributeDirectory ≠ 0))
      opens := id ::ₘ a.opens }
  | .openFile _, .opened .success id => { a with opens := id ::ₘ a.opens }
  | .close id, _ => { a with opens := a.opens.erase id }
  | .overwrite id _ _ _, .done .success => a.setBytes id fun _ => []
  | .cleanup id flags, _ =>
    if flags.delete ∧ ∀ ps, a.tree ps = some id → ¬ a.tree.HasChild ps then
      { a with tree := fun ps => if a.tree ps = some id then none else a.tree ps }
    else a
  | .write id buffer offset length writeToEndOfFile constrainedIo, .transferred .success _ _ =>
    a.setBytes id fun file => written file buffer offset length writeToEndOfFile constrainedIo
  | .setFileSize id newSize setAllocation, .done .success =>
    a.setBytes id fun file => if setAllocation then file.take newSize else resize 0 file newSize
  | .rename id newFileName _, .done .success =>
    { a with
      tree := fun rs => if h : ∃ ps, a.tree ps = some id then
          a.tree.move h.choose (pathOf newFileName) rs
        else a.tree rs
      object := Function.update a.object id (renamed (pathOf newFileName) (a.object id)) }
  | _, _ => a

/-- The status for a name under which nothing is filed. -/
def missing (a : Store) (ps : Path) : Status :=
  match a.tree ps.dropLast with
  | none => .objectPathNotFound
  | some p => if (a.object p).directory then .objectNameNotFound else .notADirectory

/-- The status of `Open`. -/
noncomputable def openStatus (a : Store) (fileName : FileName) : Status :=
  if maxPath ≤ fileName.length then .objectNameInvalid
  else if (a.tree (pathOf fileName)).isSome then .success else a.missing (pathOf fileName)

/-- The status with which `Create` refuses a name. -/
noncomputable def createRefusal (a : Store) (fileName : FileName) : Option Status :=
  if maxPath ≤ fileName.length then some .objectNameInvalid
  else if (a.tree (pathOf fileName)).isSome then some .objectNameCollision
  else if a.missing (pathOf fileName) ≠ .objectNameNotFound then some (a.missing (pathOf fileName))
  else none

/-- When a rename succeeds: not that of the disk file, nor over another object unless that is a file which
may be replaced, nor where a name of the subtree gets too long. -/
def Renames (a : Store) (id : NodeId) (ps qs : Path) (replaceIfExists : Bool) : Prop :=
  a.tree diskPath ≠ some id ∧
    (∀ other, a.tree qs = some other → other ≠ id →
      replaceIfExists = true ∧ (a.object other).directory = false) ∧
    ∀ rs, a.tree (ps ++ rs) ≠ none → (pathName (qs ++ rs)).length < maxPath

/-- When a rename stops the process: memory runs out on a list of the nodes of the subtree, or no name gets
too long and memory runs out on the entry of one of the nodes. -/
def RenameStops (a : Store) (sys : System) (id : NodeId) (ps qs : Path) (replaceIfExists : Bool) : Prop :=
  a.tree diskPath ≠ some id ∧
    (∀ other, a.tree qs = some other → other ≠ id →
      replaceIfExists = true ∧ (a.object other).directory = false) ∧
    (ListFails sys {rs | a.tree (ps ++ rs) ≠ none}.ncard ∨
      ((∀ rs, a.tree (ps ++ rs) ≠ none → (pathName (qs ++ rs)).length < maxPath) ∧
        ∃ rs j, a.tree (ps ++ rs) = some j ∧ sys.insertOk j = false))

/-- The requests that get no reply. -/
def Stops (a : Store) (sys : System) : Request → Prop
  | .rename id newFileName replaceIfExists =>
    ∃ ps, a.tree ps = some id ∧ a.RenameStops sys id ps (pathOf newFileName) replaceIfExists
  | _ => False

/-- The replies that are right. -/
def Answers (a : Store) : Request → Reply → Prop
  | .getSecurityByName fileName _, .security status _ _ _ =>
    if (a.tree (pathOf fileName)).isSome then status = .success ∨ status = .bufferOverflow
    else status = a.missing (pathOf fileName)
  | .create fileName _ _ _ _, .opened status id =>
    (∀ refusal ∈ a.createRefusal fileName, status = refusal) ∧
      (status = .success → id ∉ a.opens ∧ ∀ ps, a.tree ps ≠ some id)
  | .openFile fileName, .opened status id =>
    status = a.openStatus fileName ∧ (status = .success → a.tree (pathOf fileName) = some id)
  | .read id _ offset length, .transferred status count bytes =>
    ∀ file, (a.object id).bytes = some file →
      if file.length ≤ offset then status = .endOfFile
      else status = .success ∧ bytes = slice file offset length ∧ count = bytes.length
  | .write id _ offset length _ constrainedIo, .transferred status count _ =>
    ∀ file, (a.object id).bytes = some file →
      status = .success → count = writeCount file offset length constrainedIo
  | .flush id, .flushed info =>
    ∀ i ∈ id, ∃ j, info = some j ∧ ∀ file, (a.object i).bytes = some file → j.fileSize = file.length
  | .getFileInfo id, .info info =>
    ∀ file, (a.object id).bytes = some file → info.fileSize = file.length
  | .canDelete id, .done status =>
    ∀ ps, a.tree ps = some id → ps ≠ diskPath → (status = .success ↔ ¬ a.tree.HasChild ps)
  | .rename id newFileName replaceIfExists, .done status =>
    ∀ ps, a.tree ps = some id → (status = .success ↔ a.Renames id ps (pathOf newFileName) replaceIfExists)
  | .readDirectory id marker _, .directory status entries last =>
    ∀ ps, a.tree ps = some id → status = .success ∧ (marker = none → last = true →
      ∀ c : Part, c.val ∈ entries.map DirInfo.fileName ↔
        (a.tree (ps ++ [c])).isSome ∨ (ps ≠ [] ∧ (c.val = Memfs.dot ∨ c.val = Memfs.dotDot)))
  | .getDirInfoByName id fileName, .entry status info =>
    ∀ ps c, a.tree ps = some id → fileName = c.val →
      (status = .success ↔ (a.tree (ps ++ [c])).isSome) ∧ ∀ i ∈ info, i.fileName = fileName
  | _, _ => True

end Store

/-! ### Volumes and stores -/

/-- The object that a node is. -/
def FileNode.view (n : FileNode) : Object :=
  ⟨n.isDirectory, if n.fileName = diskName then none else some n.contents⟩

/-- The tree of names is the map, and objects are nodes. -/
structure Volume.Shows {nls : Nls} (v : Volume nls false) (a : Store) : Prop where
  tree : a.tree = v.fs.lookup
  opens : a.opens = v.opens
  object : ∀ id n, v.fs.nodes id = some n → a.object id = n.view

end FtjSsdSim.Vdisk
