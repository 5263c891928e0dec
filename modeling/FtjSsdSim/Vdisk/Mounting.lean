import Mathlib
import FtjSsdSim.Vdisk.Creation

/-!
# Mounting and unmounting

`MemfsCreateFunnel` fails, or mounts a volume with the root directory and, if its allocations succeed,
the disk file.  `MemfsDelete` frees the nodes that the map holds.

* `createFunnel_cases` — the volume that is mounted keeps the invariant and shows `Store.mounted`;
* `Inv.fileNodeMapDelete` — unmounting frees every node but those of deleted files that are still open.
-/

namespace FtjSsdSim.Vdisk

open Std FtjSsdSim.Library FtjSsdSim.Engine

variable {nls : Nls} {v : Volume nls false} {a : Store} {id : NodeId} {n : FileNode} {ps : Path}
  {pathSuffix : PathSuffix}

/-- The store of a volume that has been mounted, with or without the disk file. -/
def Store.mounted (disk : Bool) : Store where
  tree ps := if ps = [] then some 0 else if disk ∧ ps = diskPath then some 1 else none
  object id := if id = 0 then ⟨true, some []⟩ else ⟨false, none⟩
  opens := 0

namespace Memfs

variable {s t : Memfs nls false} {held : Multiset NodeId}

/-! ### Mounting -/

/-- The volume before anything is filed. -/
def unmounted (nls : Nls) (maxFileNodes maxFileSize : ℕ) : Memfs nls false where
  nodes _ := none
  nextNode := 0
  indexNumber := 1
  fileNodeMap := ∅
  maxFileNodes := maxFileNodes
  maxFileSize := roundUp maxFileSize % 2 ^ 32
  volumeLabel := ['F', 'T', 'J', 'F', 'S'].map wide

variable {maxFileNodes maxFileSize : ℕ}

theorem lookup_unmounted (ps : Path) : (unmounted nls maxFileNodes maxFileSize).lookup ps = none :=
  TreeMap.getElem?_emptyc

theorem unmounted_sound (nls : Nls) (maxFileNodes maxFileSize : ℕ) :
    (unmounted nls maxFileNodes maxFileSize).Sound 0 := by
  refine ⟨⟨canonical_iff.mpr fun k hk => ?_, fun ps id hp => ?_, fun id n hn => ?_, fun id n hn => ?_⟩, fun id => ?_,
    fun id n hn => ?_⟩
  · rw [show (unmounted nls maxFileNodes maxFileSize).fileNodeMap.getKey? k = none from
      TreeMap.getKey?_emptyc] at hk
    cases hk
  · rw [lookup_unmounted] at hp
    cases hp
  · cases hn
  · cases hn
  · exact Multiset.count_zero id
  · cases hn

/-- Filing a new node without opening it. -/
theorem insert_allocated {sys : System} (hsplit : Splits pathSuffix) (h : s.Sound held)
    (hname : n.fileName = pathName ps) (hlen : (pathName ps).length < maxPath) (hcount : n.refCount = 0)
    (hfree : s.lookup ps = none) (hmem : sys.insertOk s.nextNode = true) :
    ∃ t, (s.allocated n).fileNodeMapInsert pathSuffix sys s.nextNode = some (.success, true, t) ∧
      t.Sound held ∧ Descends CountAndTimes (s.allocated n) t ∧
      t.fileNodeMap = s.fileNodeMap.insert (pathName ps) s.nextNode := by
  have hsound : ((s.allocated n).setNode s.nextNode (referenced n)).Sound (s.nextNode ::ₘ held) := by
    rw [allocated_setNode]
    exact h.allocated hname hlen (by rw [referenced, hcount]; rfl)
  have hnode : (s.allocated n).nodes s.nextNode = some n := by
    rw [allocated_nodes, if_pos rfl]
  exact fileNodeMapInsert_sound hsplit hsound (h.named.allocated hname hlen) hnode hname hfree hmem

end Memfs

namespace Volume

variable {maxFileNodes maxFileSize capacity : ℕ} {rootSecurity : List Byte} {root disk : System}

/-- The root directory is filed. -/
theorem inv_root (hsplit : Splits pathSuffix) (hname : n.fileName = rootName) (hcount : n.refCount = 0)
    (hdir : n.isDirectory = true) (hdata : n.fileData = none) (hsize : n.fileInfo.fileSize = 0)
    (halloc : n.fileInfo.allocationSize = 0) (hmem : root.insertOk 0 = true) (nls : Nls) (maxFileNodes maxFileSize : ℕ) :
    ∃ t, ((Memfs.unmounted nls maxFileNodes maxFileSize).allocated n).fileNodeMapInsert pathSuffix root 0 =
        some (.success, true, t) ∧ t.fileNodeMap.size = 1 ∧ t.nextNode = 1 ∧
      (t.maxFileNodes, t.maxFileSize) = (maxFileNodes, roundUp maxFileSize % 2 ^ 32) ∧
      ∀ c seed, Inv ⟨t, c, seed, 0⟩ ∧ Shows ⟨t, c, seed, 0⟩ (Store.mounted false) := by
  obtain ⟨t, ht, htsound, hd, hmap⟩ := Memfs.insert_allocated hsplit
    (Memfs.unmounted_sound nls maxFileNodes maxFileSize) (show n.fileName = pathName [] from hname) (by decide)
    hcount
    (Memfs.lookup_unmounted []) hmem
  have hlook : t.lookup = fun ps => if ps = [] then some 0 else none := by
    rw [Memfs.lookup_file hmap]
    funext ps
    rw [NameTree.file_apply, Memfs.lookup_unmounted]
    rfl
  have hsize' : t.fileNodeMap.size = 1 := by
    rw [hmap, Memfs.size_insert (Memfs.lookup_unmounted [])]
    rfl
  -- the root is the only node
  have hnode : ∀ j k, ((Memfs.unmounted nls maxFileNodes maxFileSize).allocated n).nodes j = some k →
      j = 0 ∧ k = n := by
    intro j k hk
    rw [Memfs.allocated_nodes] at hk
    split_ifs at hk with hj
    · exact ⟨hj, (Option.some.inj hk).symm⟩
    · cases hk
  refine ⟨t, ht, hsize', by rw [hd.rest]; rfl, by rw [hd.rest]; rfl,
    fun c seed => ⟨?_, ?_, rfl, fun j m hm => ?_⟩⟩
  · have hinv : Inv { (⟨t, c, seed, 0⟩ : Volume nls false) with fs := t, opens := 0 } := inv_of_descends
      ((Memfs.unmounted nls maxFileNodes maxFileSize).allocated n) (fun j k hk => ?_)
      ⟨hd.rest, fun j m hm => ?_⟩ htsound ⟨0, by rw [hlook]; rfl, n, ?_, hdir⟩ ?_ ?_ ?_
    · exact hinv
    · rw [(hnode j k hk).2]
      refine .inl ⟨?_, ?_, ?_⟩
      · rw [hdata, halloc]
        rfl
      · rw [hsize]
        exact Nat.zero_le _
      · rw [halloc]
        exact Nat.zero_le _
    · obtain ⟨k, hk, hkm⟩ := hd.node j m hm
      exact ⟨k, hk, hkm.carried⟩
    · rw [Memfs.allocated_nodes]
      exact if_pos rfl
    · intro ps c j hj
      rw [hlook] at hj
      simp at hj
    · exact Nat.mod_lt _ (by decide)
    · rw [hsize']
      exact le_max_of_le_right (by decide)
  · rw [hlook]
    funext ps
    simp [Store.mounted]
  · obtain ⟨k, hk, hkm⟩ := hd.node j m hm
    obtain ⟨rfl, rfl⟩ := hnode j k hk
    rw [hkm.carried.view hkm.fileName, FileNode.view, hdir, if_neg (by rw [hname]; decide), FileNode.contents,
      hsize]
    rfl

/-- The disk file is filed in the root, or the volume stays without it. -/
theorem Inv.createDisk (h : v.Inv) (hs : v.Shows (Store.mounted false)) (hsize : v.fs.fileNodeMap.size = 1)
    (hnext : v.fs.nextNode = 1) (hsplit : Splits pathSuffix) (hcapacity : capacity + 511 < 2 ^ 64)
    (disk : System) (rootSecurity : List Byte) :
    ∃ t, v.fs.createDisk pathSuffix disk capacity rootSecurity = some t ∧
      (t.maxFileNodes, t.maxFileSize) = (v.fs.maxFileNodes, v.fs.maxFileSize) ∧ Inv { v with fs := t } ∧
      Shows { v with fs := t } (Store.mounted (disk.nodeOk && disk.insertOk 1)) := by
  have hN := h.sound.named
  cases hnode : disk.nodeOk with
  | false =>
    refine ⟨v.fs, ?_, rfl, h, hs⟩
    rw [Memfs.createDisk, Memfs.fileNodeCreate, if_pos hnode]
    rfl
  | true =>
    obtain ⟨n, hn⟩ : ∃ n : FileNode, n = { Memfs.newNode disk v.fs diskName with
        fileInfo := { (Memfs.newNode disk v.fs diskName).fileInfo with
          fileAttributes := attributeNormal
          fileSize := capacity
          allocationSize := capacity }
        fileSecurity := if disk.securityOk then rootSecurity else [] } := ⟨_, rfl⟩
    have hname : n.fileName = pathName diskPath := by
      rw [hn]
      rfl
    have hset : (v.fs.allocated (Memfs.newNode disk v.fs diskName)).setNode v.fs.nextNode n =
        v.fs.allocated n := Memfs.allocated_setNode n
    have hcreated : (v.fs.allocated (Memfs.newNode disk v.fs diskName)).nodes v.fs.nextNode =
        some (Memfs.newNode disk v.fs diskName) := by
      rw [Memfs.allocated_nodes, if_pos rfl]
    have hnn : (v.fs.allocated n).nodes v.fs.nextNode = some n := by
      rw [Memfs.allocated_nodes, if_pos rfl]
    rw [Memfs.createDisk, Memfs.fileNodeCreate_eq hnode (by decide), Option.bind_eq_bind, Option.bind_some]
    simp only [ne_eq, not_true_eq_false, if_false]
    rw [hcreated, Option.bind_eq_bind, Option.bind_some, ← hn, hset]
    cases hmem : disk.insertOk 1 with
    | false =>
      rw [Memfs.fileNodeMapInsert_failed pathSuffix hnn (hnext ▸ hmem), Option.bind_eq_bind, Option.bind_some]
      refine ⟨v.fs.skipped, ?_, rfl, h.skipped, hs.tree, hs.opens, hs.object⟩
      rw [← Memfs.allocated_delete (n := n) hN]
      rfl
    | true =>
      have hfree : v.fs.lookup diskPath = none := by
        rw [← hs.tree]
        rfl
      obtain ⟨t, ht, htsound, hd, hmap⟩ := Memfs.insert_allocated hsplit h.sound hname (by decide)
        (by rw [hn]; rfl) hfree (hnext ▸ hmem)
      have hheld : Held v.fs.maxFileSize n := by
        rw [hn]
        exact .inr ⟨rfl, rfl, le_rfl, hcapacity⟩
      obtain ⟨r, hr, hrdir⟩ := h.root
      obtain ⟨hinv, hshows⟩ := h.created hs (show diskPath = [] ++ [_] from rfl) hfree hr hrdir
        (by rw [hsize]; exact lt_max_of_lt_right (by decide)) hheld htsound hd hmap
      rw [ht, Option.bind_eq_bind, Option.bind_some]
      refine ⟨t, rfl, by rw [hd.rest]; rfl, ?_⟩
      have hdirectory : n.isDirectory = false := by
        rw [hn]
        show decide (attributeNormal &&& attributeDirectory ≠ 0) = false
        decide
      have hview : n.view = ⟨false, none⟩ := by
        rw [FileNode.view, if_pos (show n.fileName = diskName from hname), hdirectory]
      have htree : NameTree.file (Store.mounted false).tree diskPath 1 = (Store.mounted true).tree := by
        funext ps
        rw [NameTree.file_apply]
        by_cases hps : ps = diskPath
        · rw [if_pos hps, hps]
          rfl
        · rw [if_neg hps]
          simp [Store.mounted, hps]
      have hobject : Function.update (Store.mounted false).object 1 ⟨false, none⟩ = (Store.mounted true).object := by
        funext j
        rw [Function.update_apply]
        split_ifs with hj
        · rw [hj]
          rfl
        · rfl
      have hstore : (⟨(Store.mounted true).tree, (Store.mounted true).object, v.opens⟩ : Store) =
          Store.mounted true := by
        rw [← hs.opens]
        rfl
      rw [hnext, hview] at hshows
      rw [Bool.and_self, ← hstore, ← htree, ← hobject]
      exact ⟨hinv, hshows⟩

/-- **Mounting** fails for want of memory, or gives a volume with the root directory and, if there was
memory for it, the disk file. -/
theorem createFunnel_cases (nls : Nls) (hsplit : Splits pathSuffix) (hcapacity : capacity + 511 < 2 ^ 64)
    (root disk : System) (maxFileNodes maxFileSize : ℕ) (rootSecurity : List Byte) :
    ∃ r : Status × Option (Memfs nls false),
      Memfs.createFunnel pathSuffix root disk maxFileNodes maxFileSize capacity rootSecurity = some r ∧
        ((¬ (root.nodeOk = true ∧ root.securityOk = true ∧ root.insertOk 0 = true) ∧
            r = (.insufficientResources, none)) ∨
          ∃ s, r = (.success, some s) ∧
            (s.maxFileNodes, s.maxFileSize) = (maxFileNodes, roundUp maxFileSize % 2 ^ 32) ∧
          ∀ c seed, Inv ⟨s, c, seed, 0⟩ ∧
            Shows ⟨s, c, seed, 0⟩ (Store.mounted (disk.nodeOk && disk.insertOk 1))) := by
  have hsame : (Memfs.createFunnel pathSuffix root disk maxFileNodes maxFileSize capacity rootSecurity :
      Option (Status × Option (Memfs nls false))) =
      (do
        let s := Memfs.unmounted nls maxFileNodes maxFileSize
        let (status, id, s) ← s.fileNodeCreate root rootName
        if status ≠ .success then some (status, none)
        else if root.securityOk = false then some (.insufficientResources, none)
        else do
          let n ← s.nodes id
          let n := { n with
            fileInfo := { n.fileInfo with fileAttributes := attributeDirectory }
            fileSecurity := rootSecurity }
          let (status, _, s) ← (s.setNode id n).fileNodeMapInsert pathSuffix root id
          if status ≠ .success then some (status, none)
          else do
            let s ← s.createDisk pathSuffix disk capacity rootSecurity
            some (.success, some s)) := rfl
  rw [hsame]
  cases hnode : root.nodeOk with
  | false =>
    refine ⟨_, ?_, .inl ⟨by simp, rfl⟩⟩
    simp only [Memfs.fileNodeCreate, if_pos hnode]
    rfl
  | true =>
    obtain ⟨s, hs⟩ : ∃ s, s = Memfs.unmounted nls maxFileNodes maxFileSize := ⟨_, rfl⟩
    simp only
    rw [← hs, Memfs.fileNodeCreate_eq hnode (by decide), Option.bind_eq_bind, Option.bind_some]
    simp only [ne_eq, not_true_eq_false, if_false]
    cases hsecurity : root.securityOk with
    | false =>
      refine ⟨_, ?_, .inl ⟨by simp, rfl⟩⟩
      rw [if_pos rfl]
    | true =>
      rw [if_neg (by decide), Memfs.allocated_nodes, if_pos rfl, Option.bind_eq_bind, Option.bind_some,
        Memfs.allocated_setNode]
      obtain ⟨n, hn⟩ : ∃ n : FileNode, n = { Memfs.newNode root s rootName with
          fileInfo := { (Memfs.newNode root s rootName).fileInfo with fileAttributes := attributeDirectory }
          fileSecurity := rootSecurity } := ⟨_, rfl⟩
      rw [← hn]
      cases hmem : root.insertOk 0 with
      | false =>
        have hnn : (s.allocated n).nodes s.nextNode = some n := by
          rw [Memfs.allocated_nodes, if_pos rfl]
        refine ⟨_, ?_, .inl ⟨by simp, rfl⟩⟩
        rw [Memfs.fileNodeMapInsert_failed pathSuffix hnn (by rw [hs]; exact hmem)]
        rfl
      | true =>
        have hdir : n.isDirectory = true := by
          rw [hn]
          show decide (attributeDirectory &&& attributeDirectory ≠ 0) = true
          decide
        obtain ⟨t, ht, hsize, hnext, hmax, hroot⟩ := inv_root (n := n) hsplit (by rw [hn]; rfl) (by rw [hn]; rfl)
          hdir (by rw [hn]; rfl) (by rw [hn]; rfl) (by rw [hn]; rfl) hmem nls maxFileNodes maxFileSize
        have hinsert : (s.allocated n).fileNodeMapInsert pathSuffix root s.nextNode = some (.success, true, t) := by
          rw [hs]
          exact ht
        have hdisk := fun c seed => (hroot c seed).1.createDisk (hroot c seed).2 hsize hnext hsplit
          hcapacity disk rootSecurity
        obtain ⟨u, hu, humax, -⟩ := hdisk none 0
        refine ⟨(.success, some u), ?_, .inr ⟨u, rfl, humax.trans hmax, fun c seed => ?_⟩⟩
        · rw [hinsert, Option.bind_eq_bind, Option.bind_some]
          show (t.createDisk pathSuffix disk capacity rootSecurity).bind _ = _
          rw [hu]
          rfl
        · obtain ⟨w, hw, -, hwinv, hwshows⟩ := hdisk c seed
          rw [hu] at hw
          rw [Option.some.inj hw]
          exact ⟨hwinv, hwshows⟩

end Volume

/-! ### Unmounting -/

namespace Memfs

variable {s : Memfs nls false}

theorem deleteEach (ids : List NodeId) (hnodup : ids.Nodup) (hids : ∀ i ∈ ids, s.nodes i ≠ none) :
    ∃ t, ids.foldlM (fun s i => do
        let _ ← s.nodes i
        some (s.fileNodeDelete i)) s = some t ∧
      ∀ j, t.nodes j = if j ∈ ids then none else s.nodes j := by
  induction ids generalizing s with
  | nil => exact ⟨s, rfl, fun j => rfl⟩
  | cons i ids ih =>
    rw [List.nodup_cons] at hnodup
    obtain ⟨n, hn⟩ := Option.ne_none_iff_exists'.mp (hids i (List.mem_cons_self ..))
    have hrest : ∀ j ∈ ids, (s.fileNodeDelete i).nodes j ≠ none := by
      intro j hj
      have hne : j ≠ i := by
        rintro rfl
        exact hnodup.1 hj
      rw [fileNodeDelete_nodes, if_neg hne]
      exact hids j (List.mem_cons_of_mem _ hj)
    obtain ⟨t, ht, hnodes⟩ := ih hnodup.2 hrest
    refine ⟨t, ?_, fun j => ?_⟩
    · rw [List.foldlM_cons, hn]
      exact ht
    · rw [hnodes, fileNodeDelete_nodes]
      simp only [List.mem_cons]
      split_ifs <;> tauto

end Memfs

namespace Volume

/-- **Unmounting** frees every node but those of deleted files that are still open. -/
theorem Inv.fileNodeMapDelete (h : v.Inv) : ∃ t, v.fs.fileNodeMapDelete = some t ∧
    ∀ id, t.nodes id ≠ none ↔ id ∈ v.opens ∧ ¬ v.fs.Mapped id := by
  have hN := h.sound.named
  obtain ⟨t, ht, hnodes⟩ := Memfs.deleteEach (s := v.fs) _ hN.nodup_ids fun i hi =>
    h.sound.allocated_iff.mpr (.inl (hN.mem_ids.mp hi))
  refine ⟨{ t with fileNodeMap := ∅ }, ?_, fun id => ?_⟩
  · rw [Memfs.fileNodeMapDelete, ht]
    rfl
  · show t.nodes id ≠ none ↔ _
    rw [hnodes]
    split_ifs with hmem
    · exact iff_of_false (fun hne => hne rfl) fun hopen => hopen.2 (hN.mem_ids.mp hmem)
    · rw [hN.mem_ids] at hmem
      rw [h.sound.allocated_iff, or_iff_right hmem, and_iff_left hmem]

end Volume

end FtjSsdSim.Vdisk
