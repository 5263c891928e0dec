import Mathlib
import FtjSsdSim.Vdisk.NameCalls

/-!
# Creating files

`Create` allocates a node at an address that was never used, fills it in, files it and opens it.  Where
one of its allocations fails it takes the node back, and the volume is as it was but for the counters.
-/

namespace FtjSsdSim.Vdisk

open Std FtjSsdSim.Library FtjSsdSim.Engine

variable {nls : Nls} {v : Volume nls false} {a : Store} {id : NodeId} {n m : FileNode}
  {status : Status} {ps : Path} {pathSuffix : PathSuffix} {hits : FTJController.Hits} {sys : System}

namespace Memfs

variable {s : Memfs nls false} {held : Multiset NodeId}

/-- The state with another node allocated. -/
def allocated (s : Memfs nls false) (n : FileNode) : Memfs nls false :=
  { s.setNode s.nextNode n with nextNode := s.nextNode + 1, indexNumber := s.indexNumber + 1 }

/-- The state in which a node was allocated and freed. -/
def skipped (s : Memfs nls false) : Memfs nls false :=
  { s with nextNode := s.nextNode + 1, indexNumber := s.indexNumber + 1 }

theorem fresh_none (h : s.Named) : s.nodes s.nextNode = none := by
  cases hn : s.nodes s.nextNode with
  | none => rfl
  | some n => exact absurd (h.fresh _ n hn) (Nat.lt_irrefl _)

theorem allocated_nodes (j : NodeId) :
    (s.allocated n).nodes j = if j = s.nextNode then some n else s.nodes j := Function.update_apply ..

/-- What is freed again leaves no node behind. -/
theorem allocated_delete (h : s.Named) : (s.allocated n).fileNodeDelete s.nextNode = s.skipped := by
  have hnodes : ((s.allocated n).fileNodeDelete s.nextNode).nodes = s.nodes := by
    funext j
    rw [fileNodeDelete_nodes, allocated_nodes]
    split_ifs with hj
    · rw [hj, fresh_none h]
    · rfl
  rw [skipped, ← hnodes]
  rfl

theorem allocated_setNode (m : FileNode) : (s.allocated n).setNode s.nextNode m = s.allocated m :=
  congrArg (fun f => { s with
    nodes := f
    nextNode := s.nextNode + 1
    indexNumber := s.indexNumber + 1 }) (Function.update_idem ..)

/-- The node that `MemfsFileNodeCreate` makes. -/
def newNode (sys : System) (s : Memfs nls false) (fileName : FileName) : FileNode :=
  ⟨fileName, ⟨0, 0, 0, sys.now, sys.now, sys.now, sys.now, s.indexNumber⟩, [], none, 0⟩

theorem fileNodeCreate_eq {fileName : FileName} (hok : sys.nodeOk = true)
    (hlen : fileName.length < maxPath) :
    s.fileNodeCreate sys fileName =
      some (.success, s.nextNode, s.allocated (newNode sys s fileName)) := by
  rw [fileNodeCreate, if_neg (by rw [hok]; decide), if_neg (Nat.not_le.mpr hlen)]
  rfl

theorem Named.allocated (h : s.Named) (hname : n.fileName = pathName ps)
    (hlen : (pathName ps).length < maxPath) : (s.allocated n).Named where
  canonical := h.canonical
  entry qs j hq := by
    obtain ⟨k, hk, hkname⟩ := h.entry qs j hq
    refine ⟨k, ?_, hkname⟩
    rw [allocated_nodes, if_neg, hk]
    rintro rfl
    rw [fresh_none h] at hk
    cases hk
  node j k hk := by
    rw [allocated_nodes] at hk
    split_ifs at hk
    · rw [← Option.some.inj hk]
      exact ⟨ps, hname, hlen⟩
    · exact h.node j k hk
  fresh j k hk := by
    rw [allocated_nodes] at hk
    show j < s.nextNode + 1
    split_ifs at hk with hj
    · rw [hj]
      exact Nat.lt_succ_self _
    · exact (h.fresh j k hk).trans (Nat.lt_succ_self _)

/-- Nothing refers to an address that was never used. -/
theorem Sound.fresh_unheld (h : s.Sound held) : s.nextNode ∉ held ∧ ∀ ps, s.lookup ps ≠ some s.nextNode := by
  have hnone := fresh_none h.named
  constructor
  · intro hid
    obtain ⟨n, hn⟩ := h.counted.held_pos hid
    rw [hnone] at hn
    cases hn
  · intro ps hp
    obtain ⟨n, hn, -⟩ := h.named.entry ps _ hp
    rw [hnone] at hn
    cases hn

/-- A new node with one reference, which is held. -/
theorem Sound.allocated (h : s.Sound held) (hname : n.fileName = pathName ps)
    (hlen : (pathName ps).length < maxPath) (hcount : n.refCount = 1) :
    (s.allocated n).Sound (s.nextNode ::ₘ held) := by
  obtain ⟨hheld, hlook⟩ := h.fresh_unheld
  refine ⟨h.named.allocated hname hlen, fun j => ?_, fun j k hk => ?_⟩
  · have hj := h.counted j
    have hrefs := mapRefs_congr (s := s) (t := s.allocated n) rfl j
    rw [allocated_nodes, hrefs]
    by_cases heq : j = s.nextNode
    · have hnot : ¬ s.Mapped j := by
        rintro ⟨qs, hq⟩
        rw [heq] at hq
        exact hlook qs hq
      rw [if_pos heq, mapRefs_of_not_mapped hnot, heq, Multiset.count_cons_self,
        Multiset.count_eq_zero.mpr hheld]
      exact hcount
    · rw [if_neg heq, Multiset.count_cons_of_ne heq]
      exact hj
  · rw [allocated_nodes] at hk
    split_ifs at hk
    · rw [← Option.some.inj hk, hcount]
      exact Int.one_pos
    · exact h.live j k hk

theorem Sound.skipped (h : s.Sound held) : s.skipped.Sound held :=
  ⟨⟨h.named.canonical, h.named.entry, h.named.node, fun j k hk => (h.named.fresh j k hk).trans
    (Nat.lt_succ_self _)⟩, h.counted, h.live⟩

end Memfs

namespace Volume

theorem apply_create_failed {fileName : FileName} {directoryFile : Bool} {fileAttributes : BitVec 32}
    {securityDescriptor : Option (List Byte)} {allocationSize : ℕ} (h : status ≠ .success) :
    a.apply (.create fileName directoryFile fileAttributes securityDescriptor allocationSize)
      (.opened status id) = a := by
  cases status <;> first | rfl | exact absurd rfl h

theorem Inv.skipped (h : v.Inv) : Inv { v with fs := v.fs.skipped } :=
  ⟨h.sound.skipped, h.root, h.closed, h.held, h.small, h.size⟩

/-- The node that `Create` fills in. -/
def filledNode (sys : System) (s : Memfs nls false) (fileName : FileName) (fileAttributes : BitVec 32)
    (securityDescriptor : Option (List Byte)) (allocationSize : ℕ) : FileNode :=
  let n := Memfs.newNode sys s fileName
  { n with
    fileInfo := { n.fileInfo with
      fileAttributes := if fileAttributes &&& attributeDirectory ≠ 0 then fileAttributes
        else fileAttributes ||| attributeArchive
      allocationSize := allocationSize }
    fileSecurity := securityDescriptor.getD []
    fileData := if allocationSize ≠ 0 then largeHeapAlloc sys allocationSize else none }

section

variable {fileAttributes : BitVec 32} {securityDescriptor : Option (List Byte)} {allocationSize : ℕ}
  {s : Memfs nls false}

theorem filledNode_isDirectory :
    (filledNode sys s (pathName ps) fileAttributes securityDescriptor allocationSize).isDirectory =
      decide (fileAttributes &&& attributeDirectory ≠ 0) := by
  rw [FileNode.isDirectory]
  simp only [filledNode]
  split_ifs with hdir
  · rfl
  · rw [archive_and_directory]

theorem filledNode_view (sys : System) :
    (filledNode sys s (pathName ps) fileAttributes securityDescriptor allocationSize).view =
      Store.newObject ps (fileAttributes &&& attributeDirectory ≠ 0) := by
  have hdisk : pathName ps = diskName ↔ ps = diskPath := by
    rw [← pathName_diskPath]
    exact pathName_inj
  rw [FileNode.view, filledNode_isDirectory, Store.newObject]
  simp only [← hdisk]
  rfl

theorem filledNode_held {maxFileSize : ℕ} (hle : allocationSize ≤ maxFileSize)
    (halloc : ¬ (allocationSize ≠ 0 ∧ (largeHeapAlloc sys allocationSize).isNone)) :
    Held maxFileSize
      (filledNode sys s (pathName ps) fileAttributes securityDescriptor allocationSize) := by
  refine .inl ⟨?_, Nat.zero_le _, hle⟩
  show blockSize (if allocationSize ≠ 0 then largeHeapAlloc sys allocationSize else none) = allocationSize
  by_cases hzero : allocationSize ≠ 0
  · rw [if_pos hzero]
    have hheap : sys.heapOk = true := by
      by_contra hheap
      exact halloc ⟨hzero, by rw [largeHeapAlloc, if_neg hheap]; rfl⟩
    rw [largeHeapAlloc, if_pos hheap]
    rfl
  · rw [if_neg hzero]
    exact (not_not.mp hzero).symm

/-- `Create` once it has found no reason to refuse: it fails and leaves nothing behind, or the node is
filed and open. -/
theorem Inv.createNode (h : v.Inv) (sys : System) (fileAttributes : BitVec 32)
    (securityDescriptor : Option (List Byte)) (hsplit : Splits pathSuffix) (hp : v.fs.lookup ps = none)
    (hlen : (pathName ps).length < maxPath) (hle : allocationSize ≤ v.fs.maxFileSize) :
    (∃ status, status ≠ .success ∧ ∃ s, v.fs.createNode pathSuffix sys (pathName ps) fileAttributes
        securityDescriptor allocationSize = some (status, 0, s) ∧ (s = v.fs ∨ s = v.fs.skipped)) ∨
      ∃ n t, n = filledNode sys v.fs (pathName ps) fileAttributes securityDescriptor allocationSize ∧
        v.fs.createNode pathSuffix sys (pathName ps) fileAttributes securityDescriptor allocationSize =
          some (.success, v.fs.nextNode, t) ∧ t.Sound (v.fs.nextNode ::ₘ v.opens) ∧
        Memfs.Descends CountAndTimes (v.fs.allocated n) t ∧
        t.fileNodeMap = v.fs.fileNodeMap.insert (pathName ps) v.fs.nextNode ∧
        Held v.fs.maxFileSize n := by
  have hN := h.sound.named
  by_cases hnode : sys.nodeOk = true
  swap
  · refine .inl ⟨.insufficientResources, by decide, v.fs, ?_, .inl rfl⟩
    rw [Memfs.createNode, Memfs.fileNodeCreate, if_pos (by simpa using hnode)]
    rfl
  rw [Memfs.createNode, Memfs.fileNodeCreate_eq hnode hlen, Option.bind_eq_bind, Option.bind_some]
  simp only [ne_eq, not_true_eq_false, if_false]
  by_cases hsec : securityDescriptor.isSome = true ∧ sys.securityOk = false
  · rw [if_pos hsec, Memfs.allocated_delete hN]
    exact .inl ⟨.insufficientResources, by decide, _, rfl, .inr rfl⟩
  rw [if_neg hsec]
  by_cases halloc : allocationSize ≠ 0 ∧ (largeHeapAlloc sys allocationSize).isNone
  · rw [if_pos halloc, Memfs.allocated_delete hN]
    exact .inl ⟨.insufficientResources, by decide, _, rfl, .inr rfl⟩
  have hcreated : (v.fs.allocated (Memfs.newNode sys v.fs (pathName ps))).nodes v.fs.nextNode =
      some (Memfs.newNode sys v.fs (pathName ps)) := by
    rw [Memfs.allocated_nodes, if_pos rfl]
  rw [if_neg halloc, hcreated, Option.bind_eq_bind, Option.bind_some]
  obtain ⟨n, hn⟩ : ∃ n, n = filledNode sys v.fs (pathName ps) fileAttributes securityDescriptor
    allocationSize := ⟨_, rfl⟩
  have hset : (v.fs.allocated (Memfs.newNode sys v.fs (pathName ps))).setNode v.fs.nextNode
      (filledNode sys v.fs (pathName ps) fileAttributes securityDescriptor allocationSize) =
      v.fs.allocated n := by
    rw [Memfs.allocated_setNode, hn]
  rw [filledNode] at hset
  simp only at hset ⊢
  rw [hset]
  have hname : n.fileName = pathName ps := by
    rw [hn]
    rfl
  have hnn : (v.fs.allocated n).nodes v.fs.nextNode = some n := by
    rw [Memfs.allocated_nodes, if_pos rfl]
  by_cases hmem : sys.insertOk v.fs.nextNode = true
  swap
  · rw [Memfs.fileNodeMapInsert_failed pathSuffix hnn (by simpa using hmem), Option.bind_eq_bind,
      Option.bind_some]
    simp only
    rw [if_pos (.inl (by decide)), Memfs.allocated_delete hN]
    exact .inl ⟨_, by decide, _, rfl, .inr rfl⟩
  -- the reference of the map is the first one
  have hsound : ((v.fs.allocated n).setNode v.fs.nextNode (Memfs.referenced n)).Sound
      (v.fs.nextNode ::ₘ v.opens) := by
    rw [Memfs.allocated_setNode]
    exact h.sound.allocated hname hlen (by rw [Memfs.referenced, hn]; rfl)
  obtain ⟨t, ht, htsound, hd, hmap⟩ := Memfs.fileNodeMapInsert_sound hsplit hsound
    (hN.allocated hname hlen) hnn hname hp hmem
  have hentry : t.lookup ps = some v.fs.nextNode := by
    rw [Memfs.lookup, hmap, getElem?_insert_pathName, if_pos rfl]
  obtain ⟨m, hm, -⟩ := htsound.named.entry ps _ hentry
  rw [ht, Option.bind_eq_bind, Option.bind_some]
  simp only
  rw [if_neg (by decide), Memfs.fileNodeReference_eq hm]
  have hu : Memfs.Updated CountAndTimes t (t.setNode v.fs.nextNode (Memfs.referenced m)) :=
    Memfs.updated_setNode .refl hm rfl
  refine .inr ⟨n, _, hn, rfl, htsound.referenced hm, hd.trans .trans (hu.descends fun _ _ hR => hR),
    hmap, ?_⟩
  rw [hn]
  exact filledNode_held hle halloc

/-- The volume with another file. -/
theorem Inv.created (h : v.Inv) (hs : v.Shows a) {t : Memfs nls false} {opens : Multiset NodeId}
    {qs : Path} {c : Part} {parent : NodeId} (hps : ps = qs ++ [c]) (hp : v.fs.lookup ps = none)
    (hparent : v.fs.lookup qs = some parent) (hdir : v.fs.IsDir parent)
    (hroom : v.fs.fileNodeMap.size < max v.fs.maxFileNodes 2) (hheld : Held v.fs.maxFileSize n)
    (htsound : t.Sound opens) (hd : Memfs.Descends CountAndTimes (v.fs.allocated n) t)
    (hmap : t.fileNodeMap = v.fs.fileNodeMap.insert (pathName ps) v.fs.nextNode) :
    Inv { v with fs := t, opens := opens } ∧ Shows { v with fs := t, opens := opens }
      { tree := a.tree.file ps v.fs.nextNode
        object := Function.update a.object v.fs.nextNode n.view
        opens := opens } := by
  have hfresh := Memfs.fresh_none h.sound.named
  have hlook : t.lookup = NameTree.file v.fs.lookup ps v.fs.nextNode := Memfs.lookup_file hmap
  -- the other nodes are still there
  have hstay : ∀ j, v.fs.IsDir j → (v.fs.allocated n).IsDir j := by
    intro j ⟨k, hk, hkdir⟩
    refine ⟨k, ?_, hkdir⟩
    rw [Memfs.allocated_nodes, if_neg, hk]
    rintro rfl
    rw [hfresh] at hk
    cases hk
  constructor
  · refine inv_of_descends (v.fs.allocated n) (fun j k hk => ?_)
      ⟨hd.rest, fun j m hm => ?_⟩ htsound ?_ ?_ h.small ?_
    · rw [Memfs.allocated_nodes] at hk
      split_ifs at hk
      · rw [← Option.some.inj hk]
        exact hheld
      · exact h.held j k hk
    · obtain ⟨k, hk, hcount⟩ := hd.node j m hm
      exact ⟨k, hk, hcount.carried⟩
    · obtain ⟨j, hj, hjdir⟩ := h.root
      refine ⟨j, ?_, hstay j hjdir⟩
      rw [hlook, NameTree.file_apply, if_neg, hj]
      rw [hps]
      simp
    · rw [hlook, hps]
      refine NameTree.Closed.file (h.closed.mono fun _ j _ => hstay j) hparent (hstay parent hdir) ?_
      rw [← hps]
      exact hp
    · rw [hmap, Memfs.size_insert hp]
      show _ ≤ max v.fs.maxFileNodes 2
      omega
  · refine ⟨?_, rfl, fun j m hm => ?_⟩
    · rw [hlook, hs.tree]
    · obtain ⟨k, hk, hcount⟩ := hd.node j m hm
      rw [hcount.carried.view hcount.fileName]
      rw [Memfs.allocated_nodes] at hk
      show Function.update a.object v.fs.nextNode n.view j = k.view
      rw [Function.update_apply]
      split_ifs at hk ⊢
      · rw [Option.some.inj hk]
      · exact hs.object j k hk

theorem Inv.create (h : v.Inv) (hs : v.Shows a) (hsplit : Splits pathSuffix) {fileName : FileName}
    {directoryFile : Bool}
    (hr : (Request.create fileName directoryFile fileAttributes securityDescriptor
      allocationSize).Admitted v) :
    Served a (.create fileName directoryFile fileAttributes securityDescriptor allocationSize)
      (v.call pathSuffix hits sys
        (.create fileName directoryFile fileAttributes securityDescriptor allocationSize)) := by
  obtain ⟨ps, rfl⟩ := hr
  have hpath : a.tree (pathOf (pathName ps)) = v.fs.lookup ps := by
    rw [pathOf_pathName, hs.tree]
  have hrefuse : ∀ status, (∀ refusal ∈ a.createRefusal (pathName ps), status = refusal) →
      status ≠ .success → ∀ s, (s = v.fs ∨ s = v.fs.skipped) →
      Served a (.create (pathName ps) directoryFile fileAttributes securityDescriptor allocationSize)
        (some (v.finishOpen (status, 0, s))) := by
    intro status hrefusal hne s hkeep
    have hinv : Inv { v with fs := s } ∧ Shows { v with fs := s } a := by
      rcases hkeep with rfl | rfl
      · exact ⟨h, hs⟩
      · exact ⟨h.skipped, hs.tree, hs.opens, hs.object⟩
    have hsame : v.finishOpen (status, 0, s) = (.opened status 0, { v with fs := s }) := by
      rw [finishOpen, if_neg hne]
    rw [hsame]
    refine ⟨_, _, rfl, hinv.1, ?_, hrefusal, fun hok => absurd hok hne⟩
    rw [apply_create_failed hne]
    exact hinv.2
  rw [call, Memfs.create]
  by_cases hlen : maxPath ≤ (pathName ps).length
  · rw [if_pos hlen]
    refine hrefuse .objectNameInvalid ?_ (by decide) _ (.inl rfl)
    rw [Store.createRefusal, if_pos hlen]
    exact fun refusal hmem => Option.some.inj hmem
  rw [if_neg hlen]
  simp only
  rw [show v.fs.fileNodeMapGet (pathName ps) = v.fs.lookup ps from rfl]
  by_cases hmapped : (v.fs.lookup ps).isSome = true
  · rw [if_pos hmapped]
    refine hrefuse .objectNameCollision ?_ (by decide) _ (.inl rfl)
    rw [Store.createRefusal, if_neg hlen, hpath, if_pos hmapped]
    exact fun refusal hmem => Option.some.inj hmem
  have hp : v.fs.lookup ps = none := by simpa using hmapped
  rw [if_neg hmapped]
  rcases h.getParent hs hsplit hp (Nat.not_le.mp hlen) with
    ⟨hne, hsuccess, heq⟩ | ⟨hmissing, qs, c, parent, hps, hparent, hdir, heq⟩
  · rw [heq, Option.bind_eq_bind, Option.bind_some]
    refine hrefuse _ ?_ hsuccess _ (.inl rfl)
    rw [Store.createRefusal, if_neg hlen, hpath, if_neg hmapped, pathOf_pathName, if_pos hne]
    exact fun refusal hmem => Option.some.inj hmem
  -- nothing is wrong with the name
  have hfree : a.createRefusal (pathName ps) = none := by
    rw [Store.createRefusal, if_neg hlen, hpath, if_neg hmapped, pathOf_pathName, hmissing]
    rfl
  have hrefuse' := fun status => hrefuse status (by rw [hfree]; exact fun _ hmem => by cases hmem)
  rw [heq, Option.bind_eq_bind, Option.bind_some]
  simp only
  by_cases hroom : v.fs.fileNodeMap.size ≥ v.fs.maxFileNodes
  · rw [if_pos hroom]
    exact hrefuse' .cannotMake (by decide) _ (.inl rfl)
  rw [if_neg hroom]
  by_cases hfull : (if directoryFile = true then 0 else allocationSize) > v.fs.maxFileSize
  · rw [if_pos hfull]
    exact hrefuse' .diskFull (by decide) _ (.inl rfl)
  obtain ⟨p, hpn, hpdir⟩ := hdir
  rw [if_neg hfull, hpn, Option.bind_eq_bind, Option.bind_some]
  simp only [Bool.false_eq_true, if_false]
  rw [if_neg hlen]
  rcases h.createNode sys fileAttributes securityDescriptor hsplit hp (Nat.not_le.mp hlen)
    (Nat.not_lt.mp hfull) with
    ⟨status, hne, s, heq, hkeep⟩ | ⟨n, t, hn, heq, htsound, hd, hmap, hheld⟩
  · rw [heq]
    exact hrefuse' status hne s hkeep
  · obtain ⟨hinv, hshows⟩ := h.created hs hps hp hparent ⟨p, hpn, hpdir⟩
      ((Nat.not_le.mp hroom).trans_le (le_max_left ..)) hheld htsound hd hmap
    rw [heq]
    refine ⟨.opened .success v.fs.nextNode, _, rfl, hinv, ?_, ?_, fun _ => ?_⟩
    · show Shows _ { tree := _, object := _, opens := v.fs.nextNode ::ₘ a.opens }
      rw [pathOf_pathName, ← filledNode_view sys, ← hn, hs.opens]
      exact hshows
    · rw [hfree]
      exact fun _ hmem => by cases hmem
    · obtain ⟨hheld, hlook⟩ := h.sound.fresh_unheld
      rw [hs.opens, hs.tree]
      exact ⟨hheld, hlook⟩

end

end Volume

end FtjSsdSim.Vdisk
