import Mathlib
import FtjSsdSim.Vdisk.FileData

/-!
# The map of file nodes

The file system keeps its nodes in one `std::map` from full names to nodes, ordered by
`MEMFS_FILE_NODE_LESS`.  Nodes are counted: the map holds one reference to each of its nodes, every open
file one more, and the last one to go frees the node.  An access to a freed node ends the run, and so
does a name that `wcscpy_s` cannot copy: the functions below return `none` there.

The functions that enumerate walk the map from a bound on.  Where every key is the name of a path
(`Named`), they find what their names say:

* `fileNodeMapEnumerateDescendants_spec` — every entry at or below the node;
* `fileNodeMapEnumerateChildren_spec` — every child, or every child behind the one named;
* `fileNodeMapHasChild_spec` — one look at the next entry tells whether there are children, provided
  that the map holds the parent of each of its paths;
* `enumerate_spec` — the list of nodes that `Rename` makes, or exactly when the process stops instead.
-/

namespace FtjSsdSim.Vdisk

open Std FtjSsdSim.Library

/-! ### The state of the source -/

/-- The address of a file node.  Addresses are not used again. -/
abbrev NodeId := ℕ

/-- `MEMFS_FILE_NODE_MAP`. -/
abbrev FileNodeMap (nls : Nls) (caseInsensitive : Bool) :=
  TreeMap FileName NodeId (keyOrder nls caseInsensitive)

/-- `MEMFS_FILE_NODE_MAP_ENUM_CONTEXT`.  `Count` is the length of the list. -/
structure EnumContext where
  reference : Bool
  fileNodes : List NodeId
  capacity : ℕ

/-- `realloc` of a list of so many nodes: the capacity it has then.  None is left of a list for no nodes. -/
def reallocFileNodes (sys : System) (capacity : ℕ) : Option ℕ :=
  if capacity ≠ 0 ∧ sys.listOk capacity = true then some capacity else none

/-- One of the lists for so many nodes cannot be had.  Their capacities are 16, 32 and so on. -/
def ListFails (sys : System) (count : ℕ) : Prop :=
  ∃ k, (k = 0 ∨ 8 * 2 ^ k < count) ∧ reallocFileNodes sys (16 * 2 ^ k % 2 ^ 32) = none

/-- `MEMFS`, the file nodes that are allocated, and the counter of `MemfsFileNodeCreate`. -/
structure Memfs (nls : Nls) (caseInsensitive : Bool) where
  nodes : NodeId → Option FileNode
  nextNode : NodeId
  indexNumber : ℕ
  fileNodeMap : FileNodeMap nls caseInsensitive
  maxFileNodes : ℕ
  maxFileSize : ℕ
  volumeLabel : FileName

/-- `FspPathSuffix`: the name up to the last component, and the last component. -/
abbrev PathSuffix := FileName → FileName × FileName

/-- `MEMFS_MAX_PATH`. -/
def maxPath : ℕ := 512

/-- `L"\\"`. -/
def rootName : FileName := [wide '\\']

/-- `FILE_ATTRIBUTE_DIRECTORY`. -/
def attributeDirectory : BitVec 32 := 0x10

/-- `FILE_ATTRIBUTE_ARCHIVE`. -/
def attributeArchive : BitVec 32 := 0x20

/-- The node is a directory. -/
def FileNode.isDirectory (n : FileNode) : Bool := n.fileInfo.fileAttributes &&& attributeDirectory ≠ 0

namespace Memfs

variable {nls : Nls} {caseInsensitive : Bool}

/-! ### Nodes and their reference counts -/

/-- The node at an address is assigned. -/
def setNode (s : Memfs nls caseInsensitive) (id : NodeId) (n : FileNode) :
    Memfs nls caseInsensitive :=
  { s with nodes := Function.update s.nodes id (some n) }

/-- `MemfsFileNodeDelete`. -/
def fileNodeDelete (s : Memfs nls caseInsensitive) (id : NodeId) : Memfs nls caseInsensitive :=
  { s with nodes := Function.update s.nodes id none }

/-- `MemfsFileNodeReference`. -/
def fileNodeReference (s : Memfs nls caseInsensitive) (id : NodeId) :
    Option (Memfs nls caseInsensitive) := do
  let n ← s.nodes id
  some (s.setNode id { n with refCount := n.refCount + 1 })

/-- `MemfsFileNodeDereference`. -/
def fileNodeDereference (s : Memfs nls caseInsensitive) (id : NodeId) :
    Option (Memfs nls caseInsensitive) := do
  let n ← s.nodes id
  if n.refCount - 1 = 0 then some (s.fileNodeDelete id)
  else some (s.setNode id { n with refCount := n.refCount - 1 })

/-- `MemfsFileNodeCreate`: the new node, which nothing refers to yet. -/
def fileNodeCreate (sys : System) (s : Memfs nls caseInsensitive) (fileName : FileName) :
    Option (Status × NodeId × Memfs nls caseInsensitive) :=
  if sys.nodeOk = false then some (.insufficientResources, 0, s)
  else if maxPath ≤ fileName.length then none
  else
    let n : FileNode := ⟨fileName, ⟨0, 0, 0, sys.now, sys.now, sys.now, sys.now, s.indexNumber⟩, [],
      none, 0⟩
    some (.success, s.nextNode,
      { s.setNode s.nextNode n with nextNode := s.nextNode + 1, indexNumber := s.indexNumber + 1 })

/-! ### The map -/

/-- `MemfsFileNodeMapGet`. -/
def fileNodeMapGet (s : Memfs nls caseInsensitive) (fileName : FileName) : Option NodeId :=
  s.fileNodeMap[fileName]?

/-- `MemfsFileNodeMapGetParent`. -/
def fileNodeMapGetParent (pathSuffix : PathSuffix) (s : Memfs nls caseInsensitive)
    (fileName : FileName) : Option (Except Status NodeId) :=
  if maxPath ≤ fileName.length then none
  else
    match s.fileNodeMap[(pathSuffix fileName).1]? with
    | none => some (.error .objectPathNotFound)
    | some id => do
      let n ← s.nodes id
      if n.isDirectory then some (.ok id) else some (.error .notADirectory)

/-- The three times that every change sets. -/
def touch (n : FileNode) (now : ℕ) : FileNode :=
  { n with fileInfo := { n.fileInfo with
      lastAccessTime := now
      lastWriteTime := now
      changeTime := now } }

/-- `MemfsFileNodeMapTouchParent`. -/
def fileNodeMapTouchParent (pathSuffix : PathSuffix) (sys : System) (s : Memfs nls caseInsensitive)
    (id : NodeId) : Option (Memfs nls caseInsensitive) := do
  let n ← s.nodes id
  if n.fileName = rootName then some s
  else
    match ← s.fileNodeMapGetParent pathSuffix n.fileName with
    | .error _ => some s
    | .ok parent => do
      let p ← s.nodes parent
      some (s.setNode parent (touch p sys.now))

/-- `MemfsFileNodeMapInsert`, with `*PInserted`. -/
def fileNodeMapInsert (pathSuffix : PathSuffix) (sys : System) (s : Memfs nls caseInsensitive)
    (id : NodeId) : Option (Status × Bool × Memfs nls caseInsensitive) := do
  let n ← s.nodes id
  if sys.insertOk id = false then some (.insufficientResources, false, s)
  else if s.fileNodeMap.contains n.fileName then some (.success, false, s)
  else do
    let s := { s with fileNodeMap := s.fileNodeMap.insert n.fileName id }
    let s ← s.fileNodeReference id
    let s ← s.fileNodeMapTouchParent pathSuffix sys id
    some (.success, true, s)

/-- `MemfsFileNodeMapRemove`: the entry under the node's name goes, and the node loses a reference. -/
def fileNodeMapRemove (pathSuffix : PathSuffix) (sys : System) (s : Memfs nls caseInsensitive)
    (id : NodeId) : Option (Memfs nls caseInsensitive) := do
  let n ← s.nodes id
  if s.fileNodeMap.contains n.fileName then do
    let s := { s with fileNodeMap := s.fileNodeMap.erase n.fileName }
    let s ← s.fileNodeMapTouchParent pathSuffix sys id
    s.fileNodeDereference id
  else some s

/-! ### Enumerating -/

/-- The entries from `FileNodeMap->upper_bound` on. -/
def upperBound (m : FileNodeMap nls caseInsensitive) (fileName : FileName) :
    List (FileName × NodeId) :=
  m.toList.filter fun e => keyOrder nls caseInsensitive fileName e.1 == .lt

/-- The entries from `FileNodeMap->lower_bound` on. -/
def lowerBound (m : FileNodeMap nls caseInsensitive) (fileName : FileName) :
    List (FileName × NodeId) :=
  m.toList.filter fun e => keyOrder nls caseInsensitive e.1 fileName != .lt

/-- `MemfsFileNodeMapHasChild`. -/
def fileNodeMapHasChild (pathSuffix : PathSuffix) (s : Memfs nls caseInsensitive) (id : NodeId) :
    Option Bool := do
  let n ← s.nodes id
  match (upperBound s.fileNodeMap n.fileName).head? with
  | none => some false
  | some e => some (fileNameCompare nls caseInsensitive (pathSuffix e.1).1 n.fileName = 0)

/-- `PrevFileName`: the name of the directory, a `\\` behind every name but the root's, and the
marker. -/
def prevFileName (dir marker : FileName) : FileName :=
  dir ++ (if dir = rootName then [] else [wide '\\']) ++ marker

/-- Where `MemfsFileNodeMapEnumerateChildren` starts.  The name of the marker is built in a buffer of
`MEMFS_MAX_PATH + 256` units. -/
def enumerateStart (dir : FileName) : Option FileName → Option FileName
  | none => some dir
  | some marker =>
    if (prevFileName dir marker).length < maxPath + 256 then some (prevFileName dir marker) else none

/-- The entries that `MemfsFileNodeMapEnumerateChildren` passes to its function one by one. -/
def fileNodeMapEnumerateChildren (pathSuffix : PathSuffix) (s : Memfs nls caseInsensitive)
    (id : NodeId) (marker : Option FileName) : Option (List (FileName × NodeId)) := do
  let n ← s.nodes id
  let start ← enumerateStart n.fileName marker
  some (((upperBound s.fileNodeMap start).takeWhile fun e =>
      fileNameHasPrefix nls caseInsensitive e.1 n.fileName).filter fun e =>
    fileNameCompare nls caseInsensitive (pathSuffix e.1).1 n.fileName = 0)

/-- The entries that `MemfsFileNodeMapEnumerateDescendants` passes to its function one by one. -/
def fileNodeMapEnumerateDescendants (s : Memfs nls caseInsensitive) (id : NodeId) :
    Option (List (FileName × NodeId)) := do
  let n ← s.nodes id
  some ((lowerBound s.fileNodeMap n.fileName).takeWhile fun e =>
    fileNameHasPrefix nls caseInsensitive e.1 n.fileName)

/-- `MemfsFileNodeMapEnumerateFn`: the node is added to the list, which grows where it is full.  The
process stops if it cannot. -/
def fileNodeMapEnumerateFn (sys : System) (r : EnumContext × Memfs nls caseInsensitive) (id : NodeId) :
    Option (EnumContext × Memfs nls caseInsensitive) := do
  let (context, s) := r
  let capacity ←
    if context.capacity ≤ context.fileNodes.length then
      reallocFileNodes sys
        (if context.capacity ≠ 0 then context.capacity * 2 % 2 ^ 32 else 16)
    else some context.capacity
  let s ← if context.reference then s.fileNodeReference id else some s
  some ({ context with fileNodes := context.fileNodes ++ [id], capacity := capacity }, s)

/-- `MemfsFileNodeMapEnumerateFree`. -/
def fileNodeMapEnumerateFree (context : EnumContext) (s : Memfs nls caseInsensitive) :
    Option (Memfs nls caseInsensitive) :=
  if context.reference then context.fileNodes.foldlM fileNodeDereference s else some s

end Memfs

/-! ### The paths of the entries -/

/-- `FspPathSuffix` takes the last component off the name of a path. -/
def Splits (pathSuffix : PathSuffix) : Prop :=
  ∀ (ps : Path) (p : Part), pathSuffix (pathName (ps ++ [p])) = (pathName ps, p.val)

/-- The path that a name is the name of. -/
noncomputable def pathOf (k : FileName) : Path := Function.invFun pathName k

@[simp] theorem pathOf_pathName (ps : Path) : pathOf (pathName ps) = ps :=
  Function.leftInverse_invFun pathName_injective ps

section

variable {nls : Nls} {m : FileNodeMap nls false} {ps : Path} {pathSuffix : PathSuffix}

/-- Every key is the name of a path. -/
def Canonical (m : FileNodeMap nls false) : Prop := ∀ e ∈ m.toList, pathName (pathOf e.1) = e.1

theorem keyOrder_pathName (ps qs : Path) :
    keyOrder nls false (pathName ps) (pathName qs) = compare ps qs := by
  rw [keyOrder_eq, tokensCompare_pathName]

theorem keyOrder_pathName_eq_iff {ps qs : Path} :
    keyOrder nls false (pathName ps) (pathName qs) = .eq ↔ ps = qs := by
  rw [keyOrder_pathName]
  exact LawfulEqCmp.compare_eq_iff_eq

theorem Canonical.ascending (h : Canonical m) :
    Ascending (fun e : FileName × NodeId => pathOf e.1) m.toList := by
  refine List.Pairwise.imp_of_mem ?_ (TreeMap.ordered_keys_toList (t := m))
  intro x y hx hy hlt
  rwa [← h x hx, ← h y hy, keyOrder_pathName] at hlt

/-- An entry is found under its path. -/
theorem Canonical.getElem?_eq_some (h : Canonical m) {id : NodeId} :
    m[pathName ps]? = some id ↔ (pathName ps, id) ∈ m.toList := by
  constructor
  · intro hget
    obtain ⟨k, hk, hmem⟩ :=
      TreeMap.getElem?_eq_some_iff_exists_compare_eq_eq_and_mem_toList.mp hget
    have hcanon := h _ hmem
    simp only at hcanon
    rw [← hcanon] at hk hmem
    rw [keyOrder_pathName_eq_iff.mp hk]
    exact hmem
  · intro hmem
    exact TreeMap.getElem?_eq_some_iff_exists_compare_eq_eq_and_mem_toList.mpr
      ⟨_, ReflCmp.compare_self, hmem⟩

theorem Canonical.mem_iff (h : Canonical m) :
    pathName ps ∈ m ↔ ∃ e ∈ m.toList, pathOf e.1 = ps := by
  rw [TreeMap.mem_iff_isSome_getElem?, Option.isSome_iff_exists]
  constructor
  · intro ⟨id, hid⟩
    exact ⟨_, h.getElem?_eq_some.mp hid, pathOf_pathName ps⟩
  · intro ⟨e, he, hpath⟩
    refine ⟨e.2, h.getElem?_eq_some.mpr ?_⟩
    rw [← hpath, h e he]
    exact he

theorem Canonical.upperBound_eq (h : Canonical m) (ps : Path) :
    Memfs.upperBound m (pathName ps) = m.toList.filter fun e => compare ps (pathOf e.1) == .lt := by
  refine List.filter_congr ?_
  intro e he
  rw [← h e he, keyOrder_pathName, pathOf_pathName]

theorem Canonical.lowerBound_eq (h : Canonical m) (ps : Path) :
    Memfs.lowerBound m (pathName ps) = m.toList.filter fun e => compare (pathOf e.1) ps != .lt := by
  refine List.filter_congr ?_
  intro e he
  rw [← h e he, keyOrder_pathName, pathOf_pathName]

theorem Canonical.hasPrefix_iff (h : Canonical m) {e : FileName × NodeId} (he : e ∈ m.toList)
    (ps : Path) : fileNameHasPrefix nls false e.1 (pathName ps) = true ↔ ps <+: pathOf e.1 := by
  rw [← fileNameHasPrefix_pathName nls, h e he]

theorem fileNameCompare_pathName {ps qs : Path} :
    fileNameCompare nls false (pathName ps) (pathName qs) = 0 ↔ ps = qs := by
  have h := compare_fileNameCompare nls (pathName ps) (pathName qs)
  rw [tokensCompare_pathName] at h
  constructor
  · intro h₀
    rw [h₀] at h
    exact LawfulEqOrd.eq_of_compare h.symm
  · rintro rfl
    rw [ReflOrd.compare_self] at h
    exact LawfulEqOrd.eq_of_compare h

/-- The test of an entry for a child of a directory. -/
theorem Canonical.isChild (h : Canonical m) (hsplit : Splits pathSuffix) {e : FileName × NodeId}
    (he : e ∈ m.toList) (hne : pathOf e.1 ≠ []) :
    fileNameCompare nls false (pathSuffix e.1).1 (pathName ps) = 0 ↔
      ∃ c, pathOf e.1 = ps ++ [c] := by
  obtain ⟨qs, c, hq⟩ := List.eq_nil_or_concat (pathOf e.1) |>.resolve_left hne
  rw [List.concat_eq_append] at hq
  rw [← h e he, pathOf_pathName, hq, hsplit, fileNameCompare_pathName]
  constructor
  · rintro rfl
    exact ⟨c, rfl⟩
  · intro ⟨d, hd⟩
    exact (List.append_inj' hd rfl).1

namespace Memfs

variable {s : Memfs nls false} {id : NodeId} {n : FileNode}

theorem ne_nil_of_lt {xs ys : Path} (h : compare xs ys = .lt) : ys ≠ [] := by
  rintro rfl
  cases xs with
  | nil => cases h
  | cons x xs => cases h

/-- **`MemfsFileNodeMapHasChild` looks at one entry only**, and that is enough where the map holds the
parent of each of its paths. -/
theorem fileNodeMapHasChild_spec (hsplit : Splits pathSuffix) (hcanon : Canonical s.fileNodeMap)
    (hclosed : ParentClosed (fun e : FileName × NodeId => pathOf e.1) s.fileNodeMap.toList)
    (hn : s.nodes id = some n) (hname : n.fileName = pathName ps) :
    ∃ b, s.fileNodeMapHasChild pathSuffix id = some b ∧
      (b = true ↔ ∃ c, pathName (ps ++ [c]) ∈ s.fileNodeMap) := by
  have hlook := exists_child_iff_head hcanon.ascending hclosed ps
  have hchildren : (∃ c, pathName (ps ++ [c]) ∈ s.fileNodeMap) ↔
      ∃ e ∈ s.fileNodeMap.toList, ∃ c, pathOf e.1 = ps ++ [c] := by
    simp only [hcanon.mem_iff]
    exact ⟨fun ⟨c, e, he, hc⟩ => ⟨e, he, c, hc⟩, fun ⟨e, he, c, hc⟩ => ⟨c, e, he, hc⟩⟩
  rw [fileNodeMapHasChild, hn, Option.bind_eq_bind, Option.bind_some, hname, hcanon.upperBound_eq,
    hchildren, ← hlook]
  cases hhead : (s.fileNodeMap.toList.filter fun e => compare ps (pathOf e.1) == .lt).head? with
  | none =>
    refine ⟨false, rfl, iff_of_false Bool.false_ne_true ?_⟩
    rintro ⟨e, he, -⟩
    cases he
  | some e =>
    obtain ⟨he, hlt⟩ := List.mem_filter.mp (List.mem_of_mem_head? hhead)
    refine ⟨_, rfl, ?_⟩
    rw [decide_eq_true_iff, hcanon.isChild hsplit he (ne_nil_of_lt (beq_iff_eq.mp hlt))]
    constructor
    · intro hc
      exact ⟨e, rfl, hc⟩
    · rintro ⟨e', he', hc⟩
      cases he'
      exact hc

/-- **`MemfsFileNodeMapEnumerateDescendants`** finds the entries at and below the node. -/
theorem fileNodeMapEnumerateDescendants_spec (hcanon : Canonical s.fileNodeMap)
    (hn : s.nodes id = some n) (hname : n.fileName = pathName ps) :
    s.fileNodeMapEnumerateDescendants id =
      some (s.fileNodeMap.toList.filter fun e => ps.isPrefixOf (pathOf e.1)) := by
  have hle : ∀ e ∈ lowerBound s.fileNodeMap (pathName ps),
      e ∈ s.fileNodeMap.toList ∧ (compare ps (pathOf e.1)).isLE = true := by
    intro e he
    rw [hcanon.lowerBound_eq, List.mem_filter] at he
    refine ⟨he.1, ?_⟩
    have hlt := bne_iff_ne.mp he.2
    rw [OrientedOrd.eq_swap]
    revert hlt
    cases compare (pathOf e.1) ps <;> decide
  rw [fileNodeMapEnumerateDescendants, hn, Option.bind_eq_bind, Option.bind_some, hname,
    takeWhile_prefix_eq_filter (by rw [hcanon.lowerBound_eq]; exact hcanon.ascending.filter _)
      (fun e he => (hle e he).2) fun e he => hcanon.hasPrefix_iff (hle e he).1 ps,
    hcanon.lowerBound_eq, List.filter_filter]
  refine congrArg some (List.filter_congr ?_)
  intro e he
  rw [Bool.eq_iff_iff, Bool.and_eq_true, hcanon.hasPrefix_iff he, List.isPrefixOf_iff_prefix]
  refine and_iff_left_of_imp ?_
  -- what has the prefix is not below the lower bound
  intro hpre
  have hle := isLE_of_prefix hpre
  rw [OrientedOrd.eq_swap] at hle
  revert hle
  cases compare (pathOf e.1) ps <;> decide

/-- Where `MemfsFileNodeMapEnumerateChildren` starts: behind the directory, or behind the marker. -/
def markerPath (ps : Path) : Option Part → Path
  | none => ps
  | some marker => ps ++ [marker]

theorem prevFileName_pathName (ps : Path) (marker : Part) :
    prevFileName (pathName ps) marker.val = pathName (ps ++ [marker]) := by
  cases ps with
  | nil =>
    rw [prevFileName, if_pos (show pathName [] = rootName from rfl), List.append_nil]
    simp [pathName]
  | cons p ps =>
    have hne : pathName (p :: ps) ≠ rootName := by
      intro h
      have h₀ : p :: ps = [] := pathName_injective (h.trans (rfl : rootName = pathName []))
      cases h₀
    rw [prevFileName, if_neg hne, pathName_of_ne_nil (List.cons_ne_nil p ps),
      pathName_of_ne_nil (by simp), List.flatMap_append, List.append_assoc]
    simp

/-- The last component of a path, if the path is a child of `ps`. -/
def childOf (ps qs : Path) : Option Part :=
  if ps.isPrefixOf qs && qs.length = ps.length + 1 then qs.getLast? else none

theorem childOf_eq_some {ps qs : Path} {c : Part} : childOf ps qs = some c ↔ qs = ps ++ [c] := by
  rw [childOf]
  constructor
  · intro h
    split_ifs at h with hchild
    rw [Bool.and_eq_true, List.isPrefixOf_iff_prefix, decide_eq_true_eq] at hchild
    obtain ⟨⟨rs, rfl⟩, hlen⟩ := hchild
    obtain ⟨d, rfl⟩ : ∃ d, rs = [d] := List.length_eq_one_iff.mp (by
      rw [List.length_append] at hlen
      omega)
    rw [List.getLast?_append, List.getLast?_singleton] at h
    rw [Option.some.inj h]
  · rintro rfl
    rw [if_pos (by simp), List.getLast?_append, List.getLast?_singleton]
    rfl

/-- The children of a directory: their last components and their nodes, in the order of the map. -/
noncomputable def children (m : FileNodeMap nls false) (ps : Path) : List (Part × NodeId) :=
  m.toList.filterMap fun e => (childOf ps (pathOf e.1)).map (·, e.2)

theorem filter_eq_map_filter {α β : Type*} {l : List α} {P : α → Bool} {f : α → Option β}
    {Q : β → Bool} {g : β → α}
    (h : ∀ x ∈ l, (P x = true → ∃ y, f x = some y ∧ Q y = true ∧ g y = x) ∧
      (P x = false → ∀ y, f x = some y → Q y = false)) :
    l.filter P = ((l.filterMap f).filter Q).map g := by
  induction l with
  | nil => rfl
  | cons x l ih =>
    have hx := h x (List.mem_cons_self ..)
    have hl := ih fun y hy => h y (List.mem_cons_of_mem _ hy)
    cases hP : P x with
    | true =>
      obtain ⟨y, hf, hQ, hg⟩ := hx.1 hP
      rw [List.filter_cons_of_pos hP, List.filterMap_cons_some hf, List.filter_cons_of_pos hQ,
        List.map_cons, hg, hl]
    | false =>
      rw [List.filter_cons_of_neg (by simp [hP]), hl]
      cases hf : f x with
      | none => rw [List.filterMap_cons_none hf]
      | some y =>
        rw [List.filterMap_cons_some hf, List.filter_cons_of_neg (by simp [hx.2 hP y hf])]

/-- **`MemfsFileNodeMapEnumerateChildren`** finds the children of the node, in their order, or those
behind the marker. -/
theorem fileNodeMapEnumerateChildren_spec (hsplit : Splits pathSuffix)
    (hcanon : Canonical s.fileNodeMap) (hn : s.nodes id = some n) (hname : n.fileName = pathName ps)
    {marker : Option Part}
    (hshort : ∀ p ∈ marker, (pathName (ps ++ [p])).length < maxPath + 256) :
    s.fileNodeMapEnumerateChildren pathSuffix id (marker.map Subtype.val) =
      some (((children s.fileNodeMap ps).filter fun c => marker.all fun p => compare p c.1 == .lt).map
        fun c => (pathName (ps ++ [c.1]), c.2)) := by
  have hstart : enumerateStart n.fileName (marker.map Subtype.val) =
      some (pathName (markerPath ps marker)) := by
    cases marker with
    | none => rw [hname]; rfl
    | some p =>
      rw [hname, Option.map_some, enumerateStart, prevFileName_pathName, if_pos (hshort p rfl)]
      rfl
  have hle : (compare ps (markerPath ps marker)).isLE = true := by
    cases marker with
    | none => rw [markerPath, ReflOrd.compare_self]; rfl
    | some p => exact isLE_of_prefix (List.prefix_append ps [p])
  -- which children are behind the marker
  have hmarker : ∀ c, compare (markerPath ps marker) (ps ++ [c]) = .lt ↔
      (marker.all fun p => compare p c == .lt) = true := by
    intro c
    cases marker with
    | none => exact iff_of_true (lt_append_cons ps c []) rfl
    | some p =>
      rw [markerPath, compare_append_append, List.compare_cons_cons, Option.all_some, beq_iff_eq]
      cases compare p c <;> decide
  have hmem : ∀ e ∈ upperBound s.fileNodeMap (pathName (markerPath ps marker)),
      e ∈ s.fileNodeMap.toList ∧ (compare ps (pathOf e.1)).isLE = true := by
    intro e he
    rw [hcanon.upperBound_eq, List.mem_filter, beq_iff_eq] at he
    refine ⟨he.1, TransOrd.isLE_trans hle ?_⟩
    rw [he.2]
    rfl
  rw [fileNodeMapEnumerateChildren, hn, Option.bind_eq_bind, Option.bind_some, hstart,
    Option.bind_eq_bind, Option.bind_some, hname,
    takeWhile_prefix_eq_filter (by rw [hcanon.upperBound_eq]; exact hcanon.ascending.filter _)
      (fun e he => (hmem e he).2) fun e he => hcanon.hasPrefix_iff (hmem e he).1 ps,
    hcanon.upperBound_eq, List.filter_filter, List.filter_filter, children]
  refine congrArg some (filter_eq_map_filter ?_)
  intro e he
  have hchild : ∀ {c}, childOf ps (pathOf e.1) = some c ↔ pathOf e.1 = ps ++ [c] := childOf_eq_some
  constructor
  · intro hP
    rw [Bool.and_eq_true, Bool.and_eq_true, decide_eq_true_eq, beq_iff_eq] at hP
    obtain ⟨⟨hcmp, -⟩, hlt⟩ := hP
    obtain ⟨c, hc⟩ := (hcanon.isChild hsplit he (ne_nil_of_lt hlt)).mp hcmp
    rw [hc] at hlt
    refine ⟨(c, e.2), by rw [hchild.mpr hc]; rfl, (hmarker c).mp hlt, ?_⟩
    rw [← hc, hcanon e he]
  · intro hP y hy
    obtain ⟨c, hc, rfl⟩ := Option.map_eq_some_iff.mp hy
    rw [hchild] at hc
    rw [Bool.eq_false_iff]
    intro hQ
    have hlt : compare (markerPath ps marker) (pathOf e.1) = .lt := by
      rw [hc]
      exact (hmarker c).mpr hQ
    refine Bool.eq_false_iff.mp hP ?_
    rw [Bool.and_eq_true, Bool.and_eq_true, decide_eq_true_eq, beq_iff_eq,
      hcanon.hasPrefix_iff he, hcanon.isChild hsplit he (ne_nil_of_lt hlt), hc]
    exact ⟨⟨⟨c, rfl⟩, List.prefix_append ps [c]⟩, by rw [← hc]; exact hlt⟩

/-! ### The list of the nodes -/

theorem fileNodeMapEnumerateFn_of_lt (sys : System) (s : Memfs nls false) (id : NodeId) {done : List NodeId}
    {capacity : ℕ} (h : done.length < capacity) :
    fileNodeMapEnumerateFn sys (⟨true, done, capacity⟩, s) id =
      (s.fileNodeReference id).map fun t => (⟨true, done ++ [id], capacity⟩, t) := by
  simp only [fileNodeMapEnumerateFn, if_neg (Nat.not_le.mpr h), if_true]
  cases s.fileNodeReference id <;> rfl

theorem fileNodeMapEnumerateFn_of_le (sys : System) (s : Memfs nls false) (id : NodeId) {done : List NodeId}
    {capacity : ℕ} (h : capacity ≤ done.length) :
    fileNodeMapEnumerateFn sys (⟨true, done, capacity⟩, s) id =
      (reallocFileNodes sys (if capacity ≠ 0 then capacity * 2 % 2 ^ 32 else 16)).bind fun grown =>
        (s.fileNodeReference id).map fun t => (⟨true, done ++ [id], grown⟩, t) := by
  simp only [fileNodeMapEnumerateFn, if_pos h, if_true]
  cases reallocFileNodes sys (if capacity ≠ 0 then capacity * 2 % 2 ^ 32 else 16) with
  | none => rfl
  | some grown => cases s.fileNodeReference id <;> rfl

theorem reallocFileNodes_eq_some {sys : System} {capacity grown : ℕ}
    (h : reallocFileNodes sys capacity = some grown) : grown = capacity ∧ capacity ≠ 0 := by
  rw [reallocFileNodes] at h
  split_ifs at h with hok
  exact ⟨(Option.some.inj h).symm, hok.1⟩

/-- A list that doubles its capacity still has less than 32 bits of it. -/
theorem grown_small {k : ℕ} (h : 16 * 2 ^ (k + 1) % 2 ^ 32 ≠ 0) : 16 * 2 ^ (k + 1) < 2 ^ 32 := by
  by_contra hle
  refine h (Nat.mod_eq_zero_of_dvd ?_)
  have hpow : 16 * 2 ^ (k + 1) = 2 ^ (k + 5) := by ring
  rw [hpow] at hle ⊢
  exact Nat.pow_dvd_pow 2 (Nat.le_of_not_lt fun hlt => hle (Nat.pow_lt_pow_right (by decide) hlt))

/-- A list for so many nodes can be enlarged again and again, from the `k`-th time on. -/
def Enlarges (sys : System) (k count : ℕ) : Prop :=
  ∀ i, k ≤ i → (i = 0 ∨ 8 * 2 ^ i < count) → reallocFileNodes sys (16 * 2 ^ i % 2 ^ 32) ≠ none

theorem listFails_iff {sys : System} {count : ℕ} : ListFails sys count ↔ ¬ Enlarges sys 0 count := by
  simp only [ListFails, Enlarges, not_forall, not_not, Nat.zero_le, true_and, exists_prop]

theorem enlarges_succ {sys : System} {k count : ℕ} (h : reallocFileNodes sys (16 * 2 ^ k % 2 ^ 32) ≠ none) :
    Enlarges sys k count ↔ Enlarges sys (k + 1) count := by
  constructor
  · intro hk i hi
    exact hk i (by omega)
  · intro hk i hi
    rcases Nat.eq_or_lt_of_le hi with rfl | hlt
    · exact fun _ => h
    · exact hk i hlt

/-- What becomes of a list that has been enlarged `k` times: it takes all further nodes, unless it cannot be
enlarged as often as they need. -/
theorem enumerate_grown (sys : System) (ids done : List NodeId) (k : ℕ) (s : Memfs nls false)
    (hsmall : 16 * 2 ^ k < 2 ^ 32) (hroom : done.length ≤ 16 * 2 ^ k) :
    (Enlarges sys (k + 1) (done ++ ids).length → ∃ capacity,
      ids.foldlM (fileNodeMapEnumerateFn sys) (⟨true, done, 16 * 2 ^ k⟩, s) =
        (ids.foldlM fileNodeReference s).map fun t => (⟨true, done ++ ids, capacity⟩, t)) ∧
    (¬ Enlarges sys (k + 1) (done ++ ids).length →
      ids.foldlM (fileNodeMapEnumerateFn sys) (⟨true, done, 16 * 2 ^ k⟩, s) = none) := by
  induction ids generalizing done k s with
  | nil =>
    refine ⟨fun _ => ⟨16 * 2 ^ k, by rw [List.append_nil]; rfl⟩, fun hnot => absurd ?_ hnot⟩
    intro i hi hneed
    have hpow : 2 ^ (k + 1) ≤ 2 ^ i := Nat.pow_le_pow_right (by decide) hi
    rw [List.append_nil] at hneed
    omega
  | cons id ids ih =>
    -- the node is added, and gets its reference, once there is room for it
    have hnext : ∀ j, 16 * 2 ^ j < 2 ^ 32 → done.length < 16 * 2 ^ j →
        (Enlarges sys (j + 1) (done ++ id :: ids).length → ∃ capacity,
          ((s.fileNodeReference id).map fun t => (⟨true, done ++ [id], 16 * 2 ^ j⟩, t)).bind
              (ids.foldlM (fileNodeMapEnumerateFn sys)) =
            ((s.fileNodeReference id).bind (ids.foldlM fileNodeReference)).map fun t =>
              (⟨true, done ++ id :: ids, capacity⟩, t)) ∧
        (¬ Enlarges sys (j + 1) (done ++ id :: ids).length →
          ((s.fileNodeReference id).map fun t => (⟨true, done ++ [id], 16 * 2 ^ j⟩, t)).bind
            (ids.foldlM (fileNodeMapEnumerateFn sys)) = none) := by
      intro j hj hlt
      cases s.fileNodeReference id with
      | none => exact ⟨fun _ => ⟨0, rfl⟩, fun _ => rfl⟩
      | some t =>
        have h := ih (done ++ [id]) j t hj (by
          rw [List.length_append]
          exact hlt)
        rw [← List.append_cons] at h
        exact h
    by_cases hlt : done.length < 16 * 2 ^ k
    · rw [List.foldlM_cons, List.foldlM_cons, fileNodeMapEnumerateFn_of_lt sys s id hlt]
      exact hnext k hsmall hlt
    · -- the list is full
      have hdouble : (if 16 * 2 ^ k ≠ 0 then 16 * 2 ^ k * 2 % 2 ^ 32 else 16) = 16 * 2 ^ (k + 1) % 2 ^ 32 := by
        rw [if_pos (by positivity), pow_succ 2 k, mul_assoc]
      have hneed : 8 * 2 ^ (k + 1) < (done ++ id :: ids).length := by
        rw [List.length_append, List.length_cons, pow_succ]
        omega
      rw [List.foldlM_cons, List.foldlM_cons, fileNodeMapEnumerateFn_of_le sys s id (Nat.not_lt.mp hlt), hdouble]
      cases hgrown : reallocFileNodes sys (16 * 2 ^ (k + 1) % 2 ^ 32) with
      | none => exact ⟨fun h => absurd hgrown (h (k + 1) le_rfl (.inr hneed)), fun _ => rfl⟩
      | some grown =>
        obtain ⟨rfl, hne⟩ := reallocFileNodes_eq_some hgrown
        have hsmall' := grown_small hne
        rw [enlarges_succ (by rw [hgrown]; simp), Nat.mod_eq_of_lt hsmall']
        refine hnext (k + 1) hsmall' ?_
        rw [pow_succ]
        omega

/-- **`MemfsFileNodeMapEnumerateFn`** lists all nodes and refers to each, or stops the process for want of a
list. -/
theorem enumerate_spec (sys : System) {ids : List NodeId} (hne : ids ≠ []) (s : Memfs nls false) :
    (ListFails sys ids.length → ids.foldlM (fileNodeMapEnumerateFn sys) (⟨true, [], 0⟩, s) = none) ∧
    (¬ ListFails sys ids.length → ∃ capacity,
      ids.foldlM (fileNodeMapEnumerateFn sys) (⟨true, [], 0⟩, s) =
        (ids.foldlM fileNodeReference s).map fun t => (⟨true, ids, capacity⟩, t)) := by
  obtain ⟨id, rest, rfl⟩ := List.exists_cons_of_ne_nil hne
  rw [listFails_iff, not_not, List.foldlM_cons, List.foldlM_cons,
    fileNodeMapEnumerateFn_of_le sys s id (Nat.zero_le _), if_neg (by decide)]
  cases hgrown : reallocFileNodes sys 16 with
  | none => exact ⟨fun _ => rfl, fun h => absurd hgrown (h 0 le_rfl (.inl rfl))⟩
  | some grown =>
    obtain ⟨rfl, -⟩ := reallocFileNodes_eq_some hgrown
    rw [enlarges_succ (show reallocFileNodes sys (16 * 2 ^ 0 % 2 ^ 32) ≠ none by simp [hgrown])]
    cases s.fileNodeReference id with
    | none => exact ⟨fun _ => rfl, fun _ => ⟨0, rfl⟩⟩
    | some t =>
      exact (enumerate_grown sys rest [id] 0 t (by norm_num) (by norm_num)).symm

end Memfs

end

end FtjSsdSim.Vdisk
