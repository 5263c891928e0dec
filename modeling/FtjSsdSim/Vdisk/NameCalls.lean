import Mathlib
import FtjSsdSim.Vdisk.Calls

/-!
# Calls by name

`Open`, `Create` and `GetSecurityByName` look a name up; `Cleanup` with the delete flag takes one away,
and `Close` gives back what `Open` and `Create` gave.
-/

namespace FtjSsdSim.Vdisk

open Std FtjSsdSim.Library FtjSsdSim.Engine

variable {nls : Nls} {v : Volume nls false} {a : Store} {id : NodeId} {n m : FileNode}
  {status : Status} {ps : Path} {pathSuffix : PathSuffix} {hits : FTJController.Hits} {sys : System}

/-- The length of a name is not what is wrong with a name that is missing. -/
theorem Store.missing_ne (a : Store) (ps : Path) : a.missing ps ≠ .objectNameInvalid := by
  rw [Store.missing]
  cases a.tree ps.dropLast with
  | none =>
    intro h
    cases h
  | some p =>
    simp only
    split_ifs <;> decide

namespace Volume

/-! ### Looking up -/

/-- A name that is filed fits its buffer. -/
theorem Inv.lookup_length (h : v.Inv) (hp : v.fs.lookup ps = some id) :
    (pathName ps).length < maxPath := by
  obtain ⟨n, hn, hname⟩ := h.mapped_node hp
  obtain ⟨qs, hqs, hlen⟩ := h.sound.named.node id n hn
  rw [← hname, hqs]
  exact hlen

/-- A node is filed under its own name only. -/
theorem Inv.tree_path (h : v.Inv) (hs : v.Shows a) (hn : v.fs.nodes id = some n)
    (hname : n.fileName = pathName ps) {qs : Path} (hq : a.tree qs = some id) : qs = ps := by
  rw [hs.tree] at hq
  obtain ⟨k, hk, hkname⟩ := h.mapped_node hq
  rw [hn] at hk
  rw [← Option.some.inj hk, hname] at hkname
  exact (pathName_injective hkname).symm

/-- A name that is not filed is not the root's. -/
theorem Inv.exists_parent (h : v.Inv) (hp : v.fs.lookup ps = none) : ∃ qs c, ps = qs ++ [c] := by
  rcases List.eq_nil_or_concat ps with rfl | ⟨qs, c, rfl⟩
  · obtain ⟨id, hid, -⟩ := h.root
    rw [hp] at hid
    cases hid
  · exact ⟨qs, c, List.concat_eq_append⟩

/-- The parent of a name that is not filed: it is there, or the status says why not. -/
theorem Inv.getParent (h : v.Inv) (hs : v.Shows a) (hsplit : Splits pathSuffix)
    (hp : v.fs.lookup ps = none) (hlen : (pathName ps).length < maxPath) :
    (a.missing ps ≠ .objectNameNotFound ∧ a.missing ps ≠ .success ∧
        v.fs.fileNodeMapGetParent pathSuffix (pathName ps) = some (.error (a.missing ps))) ∨
      (a.missing ps = .objectNameNotFound ∧ ∃ qs c parent, ps = qs ++ [c] ∧
        v.fs.lookup qs = some parent ∧ v.fs.IsDir parent ∧
        v.fs.fileNodeMapGetParent pathSuffix (pathName ps) = some (.ok parent)) := by
  obtain ⟨qs, c, rfl⟩ := h.exists_parent hp
  have htree : a.tree (qs ++ [c]).dropLast = v.fs.lookup qs := by
    rw [List.dropLast_concat, hs.tree]
  rcases Memfs.fileNodeMapGetParent_cases hsplit h.sound.named hlen with
    ⟨hlook, heq⟩ | ⟨parent, p, hlook, hpn, heq⟩
  · have hmissing : a.missing (qs ++ [c]) = .objectPathNotFound := by
      rw [Store.missing, htree, hlook]
    rw [hmissing, heq]
    exact .inl ⟨by decide, by decide, rfl⟩
  · have hmissing : a.missing (qs ++ [c]) =
        if p.isDirectory then .objectNameNotFound else .notADirectory := by
      rw [Store.missing, htree, hlook]
      show (if (a.object parent).directory = true then _ else _) = _
      rw [hs.object parent p hpn]
      rfl
    rw [hmissing, heq]
    by_cases hdir : p.isDirectory = true
    · rw [if_pos hdir, if_pos hdir]
      exact .inr ⟨rfl, qs, c, parent, rfl, hlook, ⟨p, hpn, hdir⟩, rfl⟩
    · rw [if_neg hdir, if_neg hdir]
      exact .inl ⟨by decide, by decide, rfl⟩

/-- The status for a name that is not filed. -/
theorem Inv.notFound (h : v.Inv) (hs : v.Shows a) (hsplit : Splits pathSuffix)
    (hp : v.fs.lookup ps = none) (hlen : (pathName ps).length < maxPath) :
    v.fs.notFound pathSuffix (pathName ps) = some (a.missing ps) ∧ a.missing ps ≠ .success := by
  rcases h.getParent hs hsplit hp hlen with ⟨-, hne, heq⟩ | ⟨hmissing, qs, c, parent, -, -, -, heq⟩
  · rw [Memfs.notFound, heq]
    exact ⟨rfl, hne⟩
  · rw [Memfs.notFound, heq, hmissing]
    exact ⟨rfl, by decide⟩

theorem Inv.getSecurityByName (h : v.Inv) (hs : v.Shows a) (hsplit : Splits pathSuffix)
    {fileName : FileName} {size : Option ℕ}
    (hr : (Request.getSecurityByName fileName size).Admitted v) :
    Served a (.getSecurityByName fileName size)
      (v.call pathSuffix hits sys (.getSecurityByName fileName size)) := by
  obtain ⟨ps, rfl, hlen⟩ := hr
  have hget : v.fs.fileNodeMapGet (pathName ps) = v.fs.lookup ps := rfl
  rw [call, Memfs.getSecurityByName, hget]
  cases hp : v.fs.lookup ps with
  | none =>
    simp only
    rw [(h.notFound hs hsplit hp hlen).1]
    refine h.served_same hs rfl ?_
    show if (a.tree (pathOf (pathName ps))).isSome = true then _ else _
    rw [pathOf_pathName, hs.tree, hp]
    rfl
  | some id =>
    obtain ⟨n, hn, -⟩ := h.mapped_node hp
    simp only
    rw [hn, Option.bind_eq_bind, Option.bind_some]
    have hsome : (a.tree (pathOf (pathName ps))).isSome = true := by
      rw [pathOf_pathName, hs.tree, hp]
      rfl
    cases size with
    | none =>
      refine h.served_same hs rfl ?_
      show if (a.tree (pathOf (pathName ps))).isSome = true then _ else _
      rw [if_pos hsome]
      exact .inl rfl
    | some size =>
      refine h.served_same hs rfl ?_
      show if (a.tree (pathOf (pathName ps))).isSome = true then _ else _
      rw [if_pos hsome]
      show (Memfs.copySecurity n size).1 = _ ∨ (Memfs.copySecurity n size).1 = _
      rw [Memfs.copySecurity]
      split_ifs
      · exact .inr rfl
      · exact .inl rfl

/-! ### Opening and closing -/

/-- One more reference is held. -/
theorem Inv.referenced (h : v.Inv) (hn : v.fs.nodes id = some n) :
    Inv { v with fs := v.fs.setNode id (Memfs.referenced n), opens := id ::ₘ v.opens } := by
  have hu : Memfs.Updated CountAndTimes v.fs (v.fs.setNode id (Memfs.referenced n)) :=
    Memfs.updated_setNode .refl hn rfl
  exact h.descends (hu.descends fun _ _ => CountAndTimes.carried) (h.sound.referenced hn) h.closed rfl
    le_rfl

theorem apply_openFile_failed {fileName : FileName} (h : status ≠ .success) :
    a.apply (.openFile fileName) (.opened status id) = a := by
  cases status <;> first | rfl | exact absurd rfl h

theorem Inv.openFile (h : v.Inv) (hs : v.Shows a) (hsplit : Splits pathSuffix) {fileName : FileName}
    (hr : (Request.openFile fileName).Admitted v) :
    Served a (.openFile fileName) (v.call pathSuffix hits sys (.openFile fileName)) := by
  obtain ⟨⟨ps, rfl⟩, -⟩ := hr
  have htree : a.tree (pathOf (pathName ps)) = v.fs.lookup ps := by
    rw [pathOf_pathName, hs.tree]
  -- a refusal leaves everything as it was
  have hrefuse : ∀ status, status = a.openStatus (pathName ps) → status ≠ .success →
      Served a (.openFile (pathName ps)) (some (v.finishOpen (status, 0, v.fs))) := by
    intro status hstatus hne
    have hsame : v.finishOpen (status, 0, v.fs) = (.opened status 0, v) := by
      rw [finishOpen, if_neg hne]
    rw [hsame]
    exact h.served_same hs (apply_openFile_failed hne) ⟨hstatus, fun hok => absurd hok hne⟩
  rw [call, Memfs.openFile]
  by_cases hlen : maxPath ≤ (pathName ps).length
  · rw [if_pos hlen]
    refine hrefuse .objectNameInvalid ?_ (by decide)
    rw [Store.openStatus, if_pos hlen]
  · rw [if_neg hlen, show v.fs.fileNodeMapGet (pathName ps) = v.fs.lookup ps from rfl]
    cases hp : v.fs.lookup ps with
    | none =>
      obtain ⟨heq, hne⟩ := h.notFound hs hsplit hp (Nat.not_le.mp hlen)
      simp only
      rw [heq]
      refine hrefuse _ ?_ hne
      rw [Store.openStatus, if_neg hlen, htree, hp, pathOf_pathName]
      rfl
    | some id =>
      obtain ⟨n, hn, -⟩ := h.mapped_node hp
      simp only
      rw [Memfs.fileNodeReference_eq hn]
      refine ⟨.opened .success id, _, rfl, h.referenced hn, ?_, ?_, fun _ => htree.trans hp⟩
      · have hset := hs.setNode_same (m := Memfs.referenced n) hn rfl
        exact ⟨hset.tree, congrArg (id ::ₘ ·) hs.opens, hset.object⟩
      · rw [Store.openStatus, if_neg hlen, htree, hp]
        rfl

/-- The nodes that are left when names and counts change show the same objects, if they keep their
names. -/
theorem Shows.descends (hs : v.Shows a) {s : Memfs nls false} (opens : Multiset NodeId)
    (hd : Memfs.Descends CountAndTimes v.fs s) :
    Shows { v with fs := s, opens := opens } { a with tree := s.lookup, opens := opens } := by
  refine ⟨rfl, rfl, fun id m hm => ?_⟩
  obtain ⟨n, hn, hcount⟩ := hd.node id m hm
  show a.object id = m.view
  rw [hs.object id n hn, hcount.carried.view hcount.fileName]

theorem Inv.close (h : v.Inv) (hs : v.Shows a) (hr : (Request.close id).Admitted v) :
    Served a (.close id) (v.call pathSuffix hits sys (.close id)) := by
  have hsound := h.sound
  rw [← Multiset.cons_erase hr] at hsound
  obtain ⟨t, ht, htsound, hd, hmap⟩ := Memfs.fileNodeDereference_spec hsound
  have hlook : t.lookup = v.fs.lookup := by
    funext ps
    rw [Memfs.lookup, hmap]
    rfl
  rw [call, Memfs.close, ht]
  refine ⟨.done .success, _, rfl, ?_, ?_, trivial⟩
  · refine h.descends ⟨hd.rest, fun j m hm => ?_⟩ htsound (hlook ▸ h.closed) (congrFun hlook [])
      (by rw [hmap])
    obtain ⟨n, hn, hcount⟩ := hd.node j m hm
    exact ⟨n, hn, hcount.carried⟩
  · have hshows := hs.descends (v.opens.erase id) hd
    show Shows _ { a with opens := a.opens.erase id }
    rw [hs.opens]
    rw [hlook, ← hs.tree] at hshows
    exact hshows

/-! ### Deleting -/

/-- The archive bit is not the directory bit. -/
theorem archive_and_directory (attributes : BitVec 32) :
    (attributes ||| attributeArchive) &&& attributeDirectory = attributes &&& attributeDirectory := by
  rw [BitVec.and_comm, BitVec.and_or_distrib_left,
    show attributeDirectory &&& attributeArchive = 0#32 from rfl, BitVec.or_zero, BitVec.and_comm]

theorem isDirectory_cleanupInfo (sys : System) (n : FileNode) (flags : CleanupFlags) :
    (Memfs.cleanupInfo sys flags n).isDirectory = n.isDirectory := by
  rw [FileNode.isDirectory, FileNode.isDirectory]
  simp only [Memfs.cleanupInfo]
  split_ifs
  · rw [archive_and_directory]
  · rfl

theorem take_roundUp_contents (h : n.fileInfo.fileSize + 511 < 2 ^ 64) :
    n.contents.take (roundUp n.fileInfo.fileSize) = n.contents := by
  refine List.take_of_length_le ?_
  rw [length_contents]
  exact le_roundUp h

/-- `Cleanup` before it deletes changes nothing that shows. -/
theorem Inv.cleanupNode (h : v.Inv) (sys : System) (hn : v.fs.nodes id = some n) (flags : CleanupFlags) :
    ∃ m, (if flags.setAllocationSize then
        (Vdisk.setAllocationSize v.fs.maxFileSize sys (Memfs.cleanupInfo sys flags n)
          (roundUp (Memfs.cleanupInfo sys flags n).fileInfo.fileSize)).2
      else Memfs.cleanupInfo sys flags n) = m ∧ Kept n m ∧ m.isDirectory = n.isDirectory ∧
      Held v.fs.maxFileSize m ∧ m.view = n.view := by
  have hheld : Held v.fs.maxFileSize (Memfs.cleanupInfo sys flags n) :=
    (h.held id n hn).congr (fun hname => hname) rfl rfl le_rfl
  have hdir := isDirectory_cleanupInfo sys n flags
  have hview : (Memfs.cleanupInfo sys flags n).view = n.view := by
    rw [FileNode.view, FileNode.view, hdir]
    rfl
  by_cases hset : flags.setAllocationSize = true
  · rw [if_pos hset]
    obtain ⟨status, m, heq, hsame, hm, hfail, hcontents⟩ := hheld.setAllocationSize sys
      (roundUp (Memfs.cleanupInfo sys flags n).fileInfo.fileSize)
    refine ⟨m, by rw [heq], ⟨hsame.fileName, hsame.refCount⟩, hsame.isDirectory.trans hdir, hm, ?_⟩
    rw [← hview]
    by_cases hstatus : status = .success
    · rw [FileNode.view, FileNode.view, hsame.isDirectory, hsame.fileName]
      split_ifs with hname
      · rfl
      · have hfit := hheld.bounded h.small
        have hfits := hheld.fits
        rw [hcontents hname hstatus, take_roundUp_contents (by omega)]
    · rw [hfail hstatus]
  · rw [if_neg hset]
    exact ⟨_, rfl, ⟨rfl, rfl⟩, hdir, hheld, hview⟩

theorem apply_cleanup_delete {flags : CleanupFlags} {reply : Reply} (hdelete : flags.delete = true)
    (hleaf : ∀ ps, a.tree ps = some id → ¬ a.tree.HasChild ps) :
    a.apply (.cleanup id flags) reply =
      { a with tree := fun ps => if a.tree ps = some id then none else a.tree ps } := if_pos ⟨hdelete, hleaf⟩

theorem apply_cleanup_keep {flags : CleanupFlags} {reply : Reply}
    (h : ¬ (flags.delete = true ∧ ∀ ps, a.tree ps = some id → ¬ a.tree.HasChild ps)) :
    a.apply (.cleanup id flags) reply = a := if_neg h

/-- A node has one name at most. -/
theorem Inv.lookup_iff (h : v.Inv) (hp : v.fs.lookup ps = some id) (qs : Path) :
    v.fs.lookup qs = some id ↔ qs = ps := by
  constructor
  · intro hq
    exact h.sound.named.lookup_inj hq hp
  · rintro rfl
    exact hp

/-- `Cleanup` sets the node, and then removes it by its name if it is to be deleted and has no child. -/
theorem Inv.cleanup_eq (h : v.Inv) (hsplit : Splits pathSuffix) (sys : System) (hn : v.fs.nodes id = some n)
    (hname : n.fileName = pathName ps) (flags : CleanupFlags) :
    ∃ m child, m.fileName = pathName ps ∧ m.view = n.view ∧ Inv { v with fs := v.fs.setNode id m } ∧
      (child = true ↔ NameTree.HasChild v.fs.lookup ps) ∧
      v.fs.cleanup pathSuffix sys id flags =
        if flags.delete then
          if child then some (v.fs.setNode id m)
          else (v.fs.setNode id m).fileNodeMapRemove pathSuffix sys id
        else some (v.fs.setNode id m) := by
  obtain ⟨m, hm, hkept, hdir, hheld, hview⟩ := h.cleanupNode sys hn flags
  have hinv := h.setNode hn hkept hdir hheld
  have hmn : (v.fs.setNode id m).nodes id = some m := by
    rw [Memfs.setNode_nodes, if_pos rfl]
  have hmname : m.fileName = pathName ps := hkept.1.trans hname
  obtain ⟨child, hchild, hiff⟩ := hinv.hasChild hsplit hmn hmname
  refine ⟨m, child, hmname, hview, hinv, hiff, ?_⟩
  rw [Memfs.cleanup, hn, Option.bind_eq_bind, Option.bind_some]
  simp only [hm]
  rw [hchild]
  rfl

theorem Inv.cleanup (h : v.Inv) (hs : v.Shows a) (hsplit : Splits pathSuffix) {flags : CleanupFlags}
    (hr : (Request.cleanup id flags).Admitted v) :
    Served a (.cleanup id flags) (v.call pathSuffix hits sys (.cleanup id flags)) := by
  obtain ⟨hid, hown⟩ := hr
  obtain ⟨n, hn⟩ := h.open_node hid
  obtain ⟨ps, hname, -⟩ := h.sound.named.node id n hn
  obtain ⟨m, child, hmname, hview, hinv, hiff, hcleanup⟩ := h.cleanup_eq hsplit sys hn hname flags
  have hshows := hs.setNode_same hn hview
  have hmn : (v.fs.setNode id m).nodes id = some m := by
    rw [Memfs.setNode_nodes, if_pos rfl]
  rw [call, hcleanup]
  -- without a change of the tree the store stays as it is
  have hsame : (a.apply (.cleanup id flags) (.done .success) = a) →
      Served a (.cleanup id flags) ((some (v.fs.setNode id m)).map fun fs =>
        (.done .success, { v with fs := fs })) := by
    intro happly
    refine ⟨.done .success, _, rfl, hinv, ?_, trivial⟩
    rw [happly]
    exact hshows
  -- nor does it change where the node has no name
  have hunnamed : v.fs.lookup ps ≠ some id → a.apply (.cleanup id flags) (.done .success) = a := by
    intro hne
    have hnone : ∀ qs, a.tree qs ≠ some id := by
      intro qs hq
      rw [hs.tree] at hq
      exact hne ((h.sound.named.mapped_iff hn hname).mp ⟨qs, hq⟩)
    by_cases hdelete : flags.delete = true
    · have htree : (fun qs => if a.tree qs = some id then none else a.tree qs) = a.tree := by
        funext qs
        rw [if_neg (hnone qs)]
      rw [apply_cleanup_delete hdelete fun qs hq => absurd hq (hnone qs), htree]
    · exact apply_cleanup_keep fun hc => hdelete hc.1
  by_cases hdelete : flags.delete = true
  · rw [if_pos hdelete]
    obtain ⟨hroot, howner⟩ := hown hdelete n hn
    cases child with
    | true =>
      refine hsame ?_
      by_cases hp : v.fs.lookup ps = some id
      · refine apply_cleanup_keep ?_
        rintro ⟨-, hleaf⟩
        refine hleaf ps (by rw [hs.tree]; exact hp) ?_
        rw [hs.tree]
        exact hiff.mp rfl
      · exact hunnamed hp
    | false =>
      rw [if_neg Bool.false_ne_true]
      cases hp : v.fs.lookup ps with
      | none =>
        rw [Memfs.fileNodeMapRemove_of_lookup_none sys hmn hmname hp]
        exact hsame (hunnamed (by rw [hp]; simp))
      | some owner =>
        obtain rfl : owner = id := by
          refine howner owner ?_
          rw [hname]
          exact hp
        obtain ⟨t, ht, htsound, hd, hmap⟩ := Memfs.fileNodeMapRemove_spec sys hsplit hinv.sound hmn
          hmname hp (Multiset.mem_cons_self owner v.opens)
        rw [Multiset.erase_cons_head] at htsound
        have hlook : t.lookup = NameTree.unfile v.fs.lookup ps := Memfs.lookup_unfile hmap
        have hleaf : ¬ NameTree.HasChild v.fs.lookup ps := fun hc => Bool.false_ne_true (hiff.mpr hc)
        have hne : ps ≠ [] := by
          rintro rfl
          exact hroot hname
        rw [ht]
        refine ⟨.done .success, _, rfl, ?_, ?_, trivial⟩
        · refine hinv.descends ⟨hd.rest, fun j k hk => ?_⟩ htsound ?_ ?_ ?_
          · obtain ⟨l, hl, hcount⟩ := hd.node j k hk
            exact ⟨l, hl, hcount.carried⟩
          · rw [hlook]
            exact hinv.closed.unfile hleaf
          · rw [hlook, NameTree.unfile_apply, if_neg hne.symm]
            rfl
          · rw [hmap]
            show (v.fs.fileNodeMap.erase (pathName ps)).size ≤ v.fs.fileNodeMap.size
            rw [Memfs.size_erase hp]
            exact Nat.sub_le _ _
        · have happly : a.apply (.cleanup owner flags) (.done .success) =
              { a with tree := t.lookup, opens := v.opens } := by
            have htree : (fun qs => if a.tree qs = some owner then none else a.tree qs) = t.lookup := by
              funext qs
              rw [hlook, NameTree.unfile_apply, hs.tree]
              simp only [h.lookup_iff hp qs]
            rw [apply_cleanup_delete hdelete, htree, hs.opens]
            intro qs hq
            rw [hs.tree] at hq ⊢
            rw [(h.lookup_iff hp qs).mp hq]
            exact hleaf
          rw [happly]
          exact hshows.descends v.opens hd
  · rw [if_neg hdelete]
    exact hsame (apply_cleanup_keep fun hc => hdelete hc.1)

theorem Inv.canDelete (h : v.Inv) (hs : v.Shows a) (hsplit : Splits pathSuffix)
    (hr : (Request.canDelete id).Admitted v) :
    Served a (.canDelete id) (v.call pathSuffix hits sys (.canDelete id)) := by
  obtain ⟨n, hn⟩ := h.open_node hr
  obtain ⟨qs, hname, -⟩ := h.sound.named.node id n hn
  obtain ⟨child, hchild, hiff⟩ := h.hasChild hsplit hn hname
  have hpath : ∀ ps, a.tree ps = some id → ps = qs := fun ps => h.tree_path hs hn hname
  rw [call, Memfs.canDelete, hn, Option.bind_eq_bind, Option.bind_some]
  by_cases hdisk : n.fileName = diskName
  · rw [if_pos hdisk]
    refine h.served_same hs rfl fun ps hp hne => ?_
    rw [hname, ← pathName_diskPath] at hdisk
    exact absurd ((hpath ps hp).trans (pathName_injective hdisk)) hne
  · rw [if_neg hdisk, hchild]
    cases child with
    | true =>
      refine h.served_same hs rfl fun ps hp _ => iff_of_false (by decide) ?_
      rw [not_not, hpath ps hp, hs.tree]
      exact hiff.mp rfl
    | false =>
      refine h.served_same hs rfl fun ps hp _ => iff_of_true rfl ?_
      rw [hpath ps hp, hs.tree]
      exact fun hc => Bool.false_ne_true (hiff.mpr hc)

end Volume

end FtjSsdSim.Vdisk
