import Mathlib
import FtjSsdSim.Vdisk.Directory
import FtjSsdSim.Vdisk.Mounting
import FtjSsdSim.Vdisk.Rename

/-!
# Runs of the volume

`Volume.Reached` are the volumes that mounting and admitted calls lead to, each with the store that its
requests and replies have made.

* `reached_refines` — an admitted call stops the process exactly where the store says so, and else does what
  the store says, and replies as it should;
* `reached_references` — a node is allocated exactly while it is filed or open, and its count, which fits
  32 bits, says how often;
* `reached_unmount` — unmounting leaves the deleted files that are still open, and nothing else;
* `reached_hasChild`, `reached_readPages` — what the enumerations find in any such volume;
* `reached_rename` — all or nothing, or the process stops;
* `reached_cleanup` — which counts go wrong when a file is deleted whose name another one has;
* `reached_volumeInfo` — the sizes of the volume.
-/

namespace FtjSsdSim.Vdisk

open Std FtjSsdSim.Library FtjSsdSim.Engine

variable {nls : Nls} {v : Volume nls false} {a : Store} {id : NodeId} {n : FileNode} {ps : Path}
  {pathSuffix : PathSuffix} {sys : System}

namespace Volume

/-! ### The other calls -/

theorem Inv.setVolumeLabel (h : v.Inv) (hs : v.Shows a) (hits : FTJController.Hits) (sys : System)
    (label : FileName) :
    Served a (.setVolumeLabel label) (v.call pathSuffix hits sys (.setVolumeLabel label)) := by
  refine ⟨_, _, rfl, ?_, ?_, trivial⟩
  · exact ⟨⟨⟨h.sound.named.canonical, h.sound.named.entry, h.sound.named.node, h.sound.named.fresh⟩,
      h.sound.counted, h.sound.live⟩, h.root, h.closed, h.held, h.small, h.size⟩
  · exact ⟨hs.tree, hs.opens, hs.object⟩

/-- **Every callback** serves every request that is admitted, unless the process stops. -/
theorem Inv.served (h : v.Inv) (hs : v.Shows a) (hsplit : Splits pathSuffix) (hits : FTJController.Hits)
    {r : Request} (hr : r.Admitted v) (hgoes : ¬ a.Stops sys r) :
    Served a r (v.call pathSuffix hits sys r) := by
  cases r with
  | getVolumeInfo => exact h.served_same hs rfl trivial
  | setVolumeLabel label => exact h.setVolumeLabel hs hits sys label
  | getSecurityByName fileName size => exact h.getSecurityByName hs hsplit hr
  | create fileName directoryFile fileAttributes securityDescriptor allocationSize =>
    exact h.create hs hsplit hr
  | openFile fileName => exact h.openFile hs hsplit hr
  | overwrite id fileAttributes replaceFileAttributes allocationSize => exact h.overwrite hs hr
  | cleanup id flags => exact h.cleanup hs hsplit hr
  | close id => exact h.close hs hr
  | read id buffer offset length => exact h.read hs hr
  | write id buffer offset length writeToEndOfFile constrainedIo => exact h.write hs hr
  | flush id => exact h.flush hs hr
  | getFileInfo id => exact h.getFileInfo hs hr
  | setBasicInfo id fileAttributes creationTime lastAccessTime lastWriteTime changeTime =>
    exact h.setBasicInfo hs hr
  | setFileSize id newSize setAllocation => exact h.setFileSize hs hr
  | canDelete id => exact h.canDelete hs hsplit hr
  | rename id newFileName replaceIfExists => exact h.rename hs hsplit hr hgoes
  | getSecurity id size => exact h.getSecurity hs hr
  | setSecurity id modify => exact h.setSecurity hs hr
  | readDirectory id marker room => exact h.readDirectory hs hsplit hr
  | getDirInfoByName id fileName => exact h.getDirInfoByName hs hsplit hr
  | control code input outputBufferLength => exact h.served_same hs rfl trivial

/-- Exactly where the store says so, the process stops. -/
theorem Inv.call_eq_none_iff (h : v.Inv) (hs : v.Shows a) (hsplit : Splits pathSuffix)
    (hits : FTJController.Hits) {r : Request} (hr : r.Admitted v) :
    v.call pathSuffix hits sys r = none ↔ a.Stops sys r := by
  constructor
  · intro hnone
    by_contra hgoes
    obtain ⟨reply, w, heq, -⟩ := h.served hs hsplit hits hr hgoes
    rw [hnone] at heq
    cases heq
  · intro hstops
    cases r with
    | rename id newFileName replaceIfExists => exact h.rename_stops hs hr hstops
    | _ => exact hstops.elim

/-- What a call that returns has done. -/
theorem Inv.of_call (h : v.Inv) (hs : v.Shows a) (hsplit : Splits pathSuffix) {hits : FTJController.Hits}
    {r : Request} (hr : r.Admitted v) {reply : Reply} {v' : Volume nls false}
    (hcall : v.call pathSuffix hits sys r = some (reply, v')) :
    v'.Inv ∧ v'.Shows (a.apply r reply) ∧ a.Answers r reply := by
  have hgoes : ¬ a.Stops sys r := by
    intro hstops
    rw [(h.call_eq_none_iff hs hsplit hits hr).mpr hstops] at hcall
    cases hcall
  obtain ⟨reply', w, heq, hserved⟩ := h.served hs hsplit hits hr hgoes
  rw [hcall] at heq
  cases heq
  exact hserved

/-! ### Reached volumes -/

/-- What mounting and admitted calls lead to. -/
inductive Reached (pathSuffix : PathSuffix) : Volume nls false → Store → Prop
  | mounted {root disk : System} {maxFileNodes maxFileSize capacity : ℕ} {rootSecurity : List Byte}
      {s : Memfs nls false} (c : Option FTJController) (seed : Word) (hcapacity : capacity + 511 < 2 ^ 64)
      (hmount : Memfs.createFunnel pathSuffix root disk maxFileNodes maxFileSize capacity rootSecurity =
        some (.success, some s)) :
      Reached pathSuffix ⟨s, c, seed, 0⟩ (Store.mounted (disk.nodeOk && disk.insertOk 1))
  | call {v v' : Volume nls false} {a : Store} {r : Request} {reply : Reply} (hits : FTJController.Hits)
      (sys : System) (h : Reached pathSuffix v a) (hr : r.Admitted v)
      (hcall : v.call pathSuffix hits sys r = some (reply, v')) : Reached pathSuffix v' (a.apply r reply)

/-- The invariant holds throughout. -/
theorem Reached.inv (h : Reached pathSuffix v a) (hsplit : Splits pathSuffix) : v.Inv ∧ v.Shows a := by
  induction h with
  | @mounted root disk maxFileNodes maxFileSize capacity rootSecurity s c seed hcapacity hmount =>
    obtain ⟨r, hr, hcases⟩ := createFunnel_cases nls hsplit hcapacity root disk maxFileNodes
      maxFileSize rootSecurity
    rw [hmount] at hr
    rcases hcases with hfail | ⟨t, hsuccess, -, hinv⟩
    · rw [← Option.some.inj hr] at hfail
      cases hfail.2
    · rw [← Option.some.inj hr] at hsuccess
      cases hsuccess
      exact hinv c seed
  | @call v v' a r reply hits sys h hr hcall ih =>
    obtain ⟨hinv, hshows, -⟩ := ih.1.of_call ih.2 hsplit hr hcall
    exact ⟨hinv, hshows⟩

/-- One call opens a file once at most, and does not open one that is open too often. -/
theorem count_apply_opens (hs : v.Shows a) {r : Request} (hr : r.Admitted v) {reply : Reply}
    (hanswers : a.Answers r reply) (hopen : ∀ id, a.opens.count id + 3 < 2 ^ 31) (id : NodeId) :
    (a.apply r reply).opens.count id + 3 < 2 ^ 31 := by
  unfold Store.apply
  split
  · -- a new file is none of the open ones
    rename_i other
    show (other ::ₘ a.opens).count id + 3 < 2 ^ 31
    rw [Multiset.count_cons]
    split_ifs with heq
    · rw [heq, Multiset.count_eq_zero_of_notMem (hanswers.2 rfl).1]
      norm_num
    · exact hopen id
  · rename_i fileName other
    obtain ⟨⟨ps, rfl⟩, hfew⟩ := hr
    have htree := hanswers.2 rfl
    rw [pathOf_pathName, hs.tree] at htree
    have hfew := hfew other htree
    rw [← hs.opens] at hfew
    show (other ::ₘ a.opens).count id + 3 < 2 ^ 31
    rw [Multiset.count_cons]
    split_ifs with heq
    · rw [heq]
      omega
    · exact hopen id
  · rename_i other
    exact (Nat.add_le_add_right (Multiset.count_le_of_le id (Multiset.erase_le other a.opens)) 3).trans_lt
      (hopen id)
  · exact hopen id
  · split_ifs <;> exact hopen id
  · exact hopen id
  · exact hopen id
  · exact hopen id
  · exact hopen id

/-- No file is open too often. -/
theorem Reached.count_opens (h : Reached pathSuffix v a) (hsplit : Splits pathSuffix) (id : NodeId) :
    v.opens.count id + 3 < 2 ^ 31 := by
  induction h generalizing id with
  | mounted c seed hcapacity hmount =>
    rw [Multiset.count_zero]
    norm_num
  | @call v v' a r reply hits sys h hr hcall ih =>
    obtain ⟨hinv, hs⟩ := h.inv hsplit
    obtain ⟨-, hshows, hanswers⟩ := hinv.of_call hs hsplit hr hcall
    rw [← hshows.opens]
    refine count_apply_opens hs hr hanswers (fun j => ?_) id
    rw [hs.opens]
    exact ih j

end Volume

/-! ### Volumes to start from -/

/-- `FspPathSuffix`: the last component, and what stands before its separators, or the root. -/
def fspPathSuffix : PathSuffix := fun fileName =>
  let rest := fileName.reverse.dropWhile fun c => c ≠ wide '\\'
  let remain := (rest.dropWhile fun c => c = wide '\\').reverse
  (if remain = [] then rootName else remain, (fileName.reverse.takeWhile fun c => c ≠ wide '\\').reverse)

theorem part_ne_backslash (p : Part) {c : WCHAR} (hc : c ∈ p.val) : c ≠ wide '\\' := by
  rintro rfl
  have hsep := p.2.2 _ hc
  rw [isSeparator_backslash] at hsep
  cases hsep

/-- No name of a path but the root's ends with a separator. -/
theorem dropWhile_reverse_pathName (ps : Path) :
    (ps.flatMap fun p => wide '\\' :: p.val).reverse.dropWhile (fun c => c = wide '\\') =
      (ps.flatMap fun p => wide '\\' :: p.val).reverse := by
  rcases List.eq_nil_or_concat ps with rfl | ⟨qs, q, rfl⟩
  · rfl
  · obtain ⟨xs, x, hq⟩ := (List.eq_nil_or_concat q.val).resolve_left q.2.1
    have hx : x ≠ wide '\\' := part_ne_backslash q (by rw [hq, List.concat_eq_append]; simp)
    rw [List.concat_eq_append, List.flatMap_append, List.flatMap_singleton, hq, List.concat_eq_append]
    simp [hx]

theorem fspPathSuffix_splits : Splits fspPathSuffix := by
  intro ps p
  have hrev : (pathName (ps ++ [p])).reverse =
      p.val.reverse ++ wide '\\' :: (ps.flatMap fun p => wide '\\' :: p.val).reverse := by
    rw [pathName_of_ne_nil (by simp), List.flatMap_append, List.flatMap_singleton]
    simp
  have hall : ∀ c ∈ p.val.reverse, (decide (c ≠ wide '\\')) = true := by
    intro c hc
    exact decide_eq_true (part_ne_backslash p (List.mem_reverse.mp hc))
  have hdrop : (pathName (ps ++ [p])).reverse.dropWhile (fun c => c ≠ wide '\\') =
      wide '\\' :: (ps.flatMap fun p => wide '\\' :: p.val).reverse := by
    rw [hrev, List.dropWhile_append_of_pos hall, List.dropWhile_cons_of_neg (by simp)]
  have htake : (pathName (ps ++ [p])).reverse.takeWhile (fun c => c ≠ wide '\\') = p.val.reverse := by
    rw [hrev, List.takeWhile_append_of_pos hall, List.takeWhile_cons_of_neg (by simp), List.append_nil]
  rw [fspPathSuffix, hdrop, htake, List.dropWhile_cons_of_pos (by simp), dropWhile_reverse_pathName,
    List.reverse_reverse, List.reverse_reverse]
  cases ps with
  | nil => rfl
  | cons q qs =>
    rw [if_neg (by simp), pathName_of_ne_nil (List.cons_ne_nil q qs)]

/-- A system that refuses nothing. -/
def willing : System := ⟨0, true, true, true, fun _ => true, fun _ => true, fun _ => 0⟩

/-- A system that has no memory for entries of the map. -/
def unwilling : System := { willing with insertOk := fun _ => false }

def partA : Part := ⟨[wide 'a'], by decide⟩

def partB : Part := ⟨[wide 'b'], by decide⟩

/-- The request for a new file without bytes. -/
def makeFile (ps : Path) : Request := .create (pathName ps) false 0 none 0

/-- The request for a new directory. -/
def makeDirectory (ps : Path) : Request := .create (pathName ps) true attributeDirectory none 0

namespace Volume

/-- A volume as it is mounted, with room for so many nodes. -/
def mounted (maxFileNodes : ℕ) : Volume plainNls false :=
  ⟨((Memfs.createFunnel fspPathSuffix willing willing maxFileNodes 4096 1024 []).bind Prod.snd).getD
    (Memfs.unmounted plainNls 0 0), none, 0, 0⟩

/-- A call on a willing system, without bit flips. -/
def ask (v : Volume plainNls false) (r : Request) : Option (Reply × Volume plainNls false) :=
  v.call fspPathSuffix (fun _ _ _ _ => false) willing r

/-- The volume after a call. -/
def after (v : Volume plainNls false) (r : Request) : Volume plainNls false := ((v.ask r).map Prod.snd).getD v

theorem reached_mounted (maxFileNodes : ℕ) :
    Reached fspPathSuffix (mounted maxFileNodes) (Store.mounted true) := by
  obtain ⟨r, hr, hcases⟩ := createFunnel_cases plainNls fspPathSuffix_splits
    (show 1024 + 511 < 2 ^ 64 by norm_num) willing willing maxFileNodes 4096 []
  rcases hcases with hfail | ⟨s, rfl, -⟩
  · exact absurd ⟨rfl, rfl, rfl⟩ hfail.1
  · rw [mounted, hr]
    exact .mounted none 0 (by norm_num) hr

section

variable {v : Volume plainNls false}

theorem ask_eq {r : Request} {reply : Reply} (h : (v.ask r).map Prod.fst = some reply) :
    v.ask r = some (reply, v.after r) := by
  obtain ⟨x, hx, rfl⟩ := Option.map_eq_some_iff.mp h
  rw [after, hx]
  rfl

theorem Reached.after (h : Reached fspPathSuffix v a) {r : Request} (hr : r.Admitted v) {reply : Reply}
    (hreply : (v.ask r).map Prod.fst = some reply) : Reached fspPathSuffix (v.after r) (a.apply r reply) :=
  h.call _ willing hr (ask_eq hreply)

end

theorem makeFile_admitted (v : Volume plainNls false) (ps : Path) : (makeFile ps).Admitted v :=
  ⟨ps, rfl⟩

theorem makeDirectory_admitted (v : Volume plainNls false) (ps : Path) :
    (makeDirectory ps).Admitted v :=
  ⟨ps, rfl⟩

/-- The replies to one request after another. -/
def replies (v : Volume plainNls false) : List Request → List (Option Reply)
  | [] => []
  | r :: rs => (v.ask r).map Prod.fst :: (v.after r).replies rs

/-- A file in the root, open. -/
def oneFile : Volume plainNls false := (mounted 16).after (makeFile [partA])

/-- Two files in the root, open. -/
def twoFiles : Volume plainNls false := oneFile.after (makeFile [partB])

/-- The request to give the second file the name of the first. -/
def replaceFirst : Request := .rename 3 (pathName [partA]) true

theorem replies_twoFiles : (mounted 16).replies [makeFile [partA], makeFile [partB], .close 3, replaceFirst] =
      [some (.opened .success 2), some (.opened .success 3), some (.done .success), some (.done .success)] ∧
    (twoFiles.ask replaceFirst).map Prod.fst = some (.done .success) ∧
    (twoFiles.call fspPathSuffix (fun _ _ _ _ => false) unwilling replaceFirst).isNone = true ∧
    twoFiles.fs.lookup [partB] = some 3 ∧ 3 ∈ twoFiles.opens ∧
    (twoFiles.after (.close 3)).fs.lookup [partB] = some 3 := by decide

theorem reached_oneFile : Reached fspPathSuffix oneFile
    ((Store.mounted true).apply (makeFile [partA]) (.opened .success 2)) :=
  (reached_mounted 16).after (makeFile_admitted _ _) (List.cons.inj replies_twoFiles.1).1

theorem reached_twoFiles : Reached fspPathSuffix twoFiles
    (((Store.mounted true).apply (makeFile [partA]) (.opened .success 2)).apply (makeFile [partB])
      (.opened .success 3)) :=
  reached_oneFile.after (makeFile_admitted _ _) (List.cons.inj (List.cons.inj replies_twoFiles.1).2).1

/-- The second file may be renamed. -/
theorem replaceFirst_admitted {v : Volume plainNls false} (h : Reached fspPathSuffix v a)
    (hp : v.fs.lookup [partB] = some 3) : replaceFirst.Admitted v :=
  ⟨[partB], [], partA, hp, List.cons_ne_nil _ _, rfl, (h.inv fspPathSuffix_splits).1.root,
    fun hpre => hpre.eq_of_length rfl⟩

/-- A directory in the root with a file in it. -/
def filledDirectory (c : Part) : Volume plainNls false :=
  ((mounted 16).after (makeDirectory [partA])).after (makeFile [partA, c])

/-- A name that comes before `..`. -/
def dashPart : Part := ⟨[wide '-'], by decide⟩

theorem replies_filledDirectory : ∀ c ∈ [partB, dashPart],
    (mounted 16).replies [makeDirectory [partA], makeFile [partA, c]] =
      [some (.opened .success 2), some (.opened .success 3)] := by decide

theorem reached_filledDirectory {c : Part} (hc : c ∈ [partB, dashPart]) :
    Reached fspPathSuffix (filledDirectory c) (((Store.mounted true).apply (makeDirectory [partA])
      (.opened .success 2)).apply (makeFile [partA, c]) (.opened .success 3)) := by
  have hreplies := replies_filledDirectory c hc
  simp only [replies, List.cons.injEq] at hreplies
  exact ((reached_mounted 16).after (makeDirectory_admitted _ _) hreplies.1).after (makeFile_admitted _ _)
    hreplies.2.1

theorem tree_filledDirectory (c : Part) :
    ((((Store.mounted true).apply (makeDirectory [partA]) (.opened .success 2)).apply (makeFile [partA, c])
      (.opened .success 3)).tree [partA] = some 2) ∧
    ∀ d, (((Store.mounted true).apply (makeDirectory [partA]) (.opened .success 2)).apply (makeFile [partA, c])
      (.opened .success 3)).tree ([partA] ++ [d]) ≠ none ↔ d = c := by
  simp only [makeFile, makeDirectory, Store.apply, pathOf_pathName, NameTree.file_apply]
  refine ⟨by simp, fun d => ?_⟩
  have hdisk : [partA, d] ≠ diskPath := fun h => by cases congrArg List.length h
  simp [Store.mounted, hdisk]

/-- The flags with which a file is deleted. -/
def deleting : CleanupFlags := ⟨true, false, false, false, false, false⟩

/-- A file that was opened twice and is deleted. -/
def deletedFile : Volume plainNls false :=
  (oneFile.after (.openFile (pathName [partA]))).after (.cleanup 2 deleting)

theorem replies_deletedFile : oneFile.replies [.openFile (pathName [partA]), .cleanup 2 deleting] =
      [some (.opened .success 2), some (.done .success)] ∧
    oneFile.fs.lookup [partA] = some 2 ∧ oneFile.opens.count 2 = 1 ∧
    (oneFile.after (.openFile (pathName [partA]))).fs.lookup [partA] = some 2 ∧
    2 ∈ (oneFile.after (.openFile (pathName [partA]))).opens ∧ deletedFile.opens.count 2 = 2 ∧
    2 ∉ deletedFile.fs.fileNodeMap.toList.map Prod.snd := by decide

/-- A file that has its name may be deleted. -/
theorem cleanup_admitted {v : Volume plainNls false} (h : Reached fspPathSuffix v a)
    (hp : v.fs.lookup ps = some id) (hps : ps ≠ []) (hid : id ∈ v.opens) (flags : CleanupFlags) : (Request.cleanup id flags).Admitted v := by
  obtain ⟨m, hm, hname⟩ := (h.inv fspPathSuffix_splits).1.mapped_node hp
  refine ⟨hid, fun _ n hn => ?_⟩
  rw [hm] at hn
  rw [← Option.some.inj hn, hname]
  refine ⟨fun hroot => hps (pathName_injective hroot), fun owner howner => ?_⟩
  exact Option.some.inj (howner.symm.trans hp)

theorem reached_deletedFile : ∃ a, Reached fspPathSuffix deletedFile a := by
  obtain ⟨hreplies, hp, honce, hp', hopen, -⟩ := replies_deletedFile
  simp only [replies, List.cons.injEq] at hreplies
  have hadmitted : (Request.openFile (pathName [partA])).Admitted oneFile := by
    refine ⟨⟨_, rfl⟩, fun id hid => ?_⟩
    obtain rfl : 2 = id := Option.some.inj (hp.symm.trans hid)
    rw [honce]
    norm_num
  have h := reached_oneFile.after hadmitted hreplies.1
  exact ⟨_, h.after (cleanup_admitted h hp' (List.cons_ne_nil partA []) hopen deleting) hreplies.2.1⟩

theorem not_mapped_deletedFile : ¬ deletedFile.fs.Mapped 2 := by
  obtain ⟨a, h⟩ := reached_deletedFile
  rw [← (h.inv fspPathSuffix_splits).1.sound.named.mem_ids]
  exact replies_deletedFile.2.2.2.2.2.2

/-! ### Refinement -/

/-- **Reference counts.**  A node is allocated exactly while it is filed or open, and counts its entry in
the map and its open files.  The count fits 32 bits, also with the two references of `Rename`. -/
theorem reached_references (hsplit : Splits pathSuffix) (h : Reached pathSuffix v a) (id : NodeId) :
    (v.fs.nodes id ≠ none ↔ v.fs.Mapped id ∨ id ∈ v.opens) ∧
      ∀ n, v.fs.nodes id = some n → n.refCount = v.fs.mapRefs id + v.opens.count id ∧ 0 < n.refCount ∧
        n.refCount + 2 < 2 ^ 31 := by
  have hsound := (h.inv hsplit).1.sound
  refine ⟨hsound.allocated_iff, fun n hn => ?_⟩
  have hcount := hsound.counted.refCount_eq hn
  have hopens := h.count_opens hsplit id
  have hrefs : v.fs.mapRefs id ≤ 1 := by
    rw [Memfs.mapRefs]
    split_ifs <;> decide
  have hlive := hsound.live id n hn
  have hlong : (2 : ℤ) ^ 31 = (2 ^ 31 : ℕ) := by norm_num
  refine ⟨hcount, hlive, ?_⟩
  rw [hcount]
  omega

theorem reached_references_deletedFile : ¬ deletedFile.fs.Mapped 2 ∧ deletedFile.opens.count 2 = 2 ∧
    (deletedFile.fs.nodes 2 ≠ none ↔ deletedFile.fs.Mapped 2 ∨ 2 ∈ deletedFile.opens) ∧
      ∀ n, deletedFile.fs.nodes 2 = some n → n.refCount = deletedFile.fs.mapRefs 2 + deletedFile.opens.count 2 ∧
        0 < n.refCount ∧ n.refCount + 2 < 2 ^ 31 := by
  obtain ⟨a, h⟩ := reached_deletedFile
  obtain ⟨-, -, -, -, -, htwice, -⟩ := replies_deletedFile
  exact ⟨not_mapped_deletedFile, htwice, reached_references fspPathSuffix_splits h 2⟩

/-! ### Unmounting -/

/-- **Unmounting** touches no freed node, and leaves exactly the deleted files that are still open. -/
theorem reached_unmount (hsplit : Splits pathSuffix) (h : Reached pathSuffix v a) :
    ∃ t, v.fs.fileNodeMapDelete = some t ∧ ∀ id, t.nodes id ≠ none ↔ id ∈ v.opens ∧ ¬ v.fs.Mapped id :=
  (h.inv hsplit).1.fileNodeMapDelete

theorem reached_unmount_deletedFile : ∃ t, deletedFile.fs.fileNodeMapDelete = some t ∧ t.nodes 2 ≠ none ∧
    ∀ id, t.nodes id ≠ none ↔ id ∈ deletedFile.opens ∧ ¬ deletedFile.fs.Mapped id := by
  obtain ⟨a, h⟩ := reached_deletedFile
  obtain ⟨t, ht, hleft⟩ := reached_unmount fspPathSuffix_splits h
  obtain ⟨-, -, -, -, -, htwice, -⟩ := replies_deletedFile
  have hopen : 2 ∈ deletedFile.opens := Multiset.count_pos.mp (by omega)
  exact ⟨t, ht, (hleft 2).mpr ⟨hopen, not_mapped_deletedFile⟩, hleft⟩

/-! ### Enumerating -/

/-- **`MemfsFileNodeMapHasChild`** looks at one entry, and is right about every node. -/
theorem reached_hasChild (hsplit : Splits pathSuffix) (h : Reached pathSuffix v a)
    (hn : v.fs.nodes id = some n) : ∃ ps b, n.fileName = pathName ps ∧
      v.fs.fileNodeMapHasChild pathSuffix id = some b ∧ (b = true ↔ NameTree.HasChild a.tree ps) := by
  obtain ⟨hinv, hs⟩ := h.inv hsplit
  obtain ⟨ps, hname, -⟩ := hinv.sound.named.node id n hn
  obtain ⟨b, hb, hiff⟩ := hinv.hasChild hsplit hn hname
  refine ⟨ps, b, hname, hb, ?_⟩
  rw [hs.tree]
  exact hiff

theorem reached_hasChild_filledDirectory : ∃ ps a b,
    NameTree.HasChild (Store.tree a) ps ∧ (filledDirectory partB).fs.fileNodeMapHasChild fspPathSuffix 2 = some b ∧
      (b = true ↔ NameTree.HasChild a.tree ps) := by
  have h := reached_filledDirectory (c := partB) (by simp)
  obtain ⟨hdir, hnames⟩ := tree_filledDirectory partB
  obtain ⟨hinv, hs⟩ := h.inv fspPathSuffix_splits
  rw [hs.tree] at hdir
  obtain ⟨n, hn, hname⟩ := hinv.mapped_node hdir
  obtain ⟨ps, b, hname', hb, hiff⟩ := reached_hasChild fspPathSuffix_splits h hn
  rw [← pathName_injective (hname.symm.trans hname')] at hiff
  exact ⟨[partA], _, b, ⟨partB, (hnames partB).mpr rfl⟩, hb, hiff⟩

/-- **Reading a directory in pages** lists everything once, whatever the pages have room for, exactly where
every name is behind `..`, or the directory is the root. -/
theorem reached_readPages (hsplit : Splits pathSuffix) (h : Reached pathSuffix v a)
    (hp : a.tree ps = some id) :
    (∀ rooms, (∀ room ∈ rooms, ∀ e, room [] e = true) → (v.fs.listing ps).length < rooms.length →
        v.fs.readPages pathSuffix id rooms none = some ((v.fs.listing ps).map dirInfo, true)) ↔
      (ps ≠ [] → ∀ c, a.tree (ps ++ [c]) ≠ none → compare dotDotPart c = .lt) := by
  obtain ⟨hinv, hs⟩ := h.inv hsplit
  rw [hs.tree] at hp ⊢
  exact hinv.readPages_complete_iff hsplit hp

theorem reached_readPages_filledDirectory :
    (∀ rooms, (∀ room ∈ rooms, ∀ e, room [] e = true) →
        ((filledDirectory partB).fs.listing [partA]).length < rooms.length →
        (filledDirectory partB).fs.readPages fspPathSuffix 2 rooms none =
          some (((filledDirectory partB).fs.listing [partA]).map dirInfo, true)) ∧
    ¬ (∀ rooms, (∀ room ∈ rooms, ∀ e, room [] e = true) →
        ((filledDirectory dashPart).fs.listing [partA]).length < rooms.length →
        (filledDirectory dashPart).fs.readPages fspPathSuffix 2 rooms none =
          some (((filledDirectory dashPart).fs.listing [partA]).map dirInfo, true)) := by
  constructor
  · obtain ⟨hdir, hnames⟩ := tree_filledDirectory partB
    refine (reached_readPages fspPathSuffix_splits (reached_filledDirectory (by simp)) hdir).mpr
      fun _ c hc => ?_
    rw [(hnames c).mp hc]
    decide
  · obtain ⟨hdir, hnames⟩ := tree_filledDirectory dashPart
    intro hall
    have hbehind := (reached_readPages fspPathSuffix_splits (reached_filledDirectory (by simp)) hdir).mp
      hall (List.cons_ne_nil partA []) dashPart ((hnames dashPart).mpr rfl)
    exact absurd hbehind (by decide)

/-! ### Renaming -/

/-- **`Rename` is all or nothing, or stops the process.**  It stops exactly where the store says that memory
runs out.  Otherwise it succeeds exactly where the store allows it; then the whole subtree is found under its
new name, and else every name is where it was. -/
theorem reached_rename (hsplit : Splits pathSuffix) (h : Reached pathSuffix v a) {newFileName : FileName}
    {replaceIfExists : Bool} (hr : (Request.rename id newFileName replaceIfExists).Admitted v)
    (hp : a.tree ps = some id) (sys : System) (hits : FTJController.Hits) :
    (v.call pathSuffix hits sys (.rename id newFileName replaceIfExists) = none ↔
        a.RenameStops sys id ps (pathOf newFileName) replaceIfExists) ∧
      ∀ reply v', v.call pathSuffix hits sys (.rename id newFileName replaceIfExists) = some (reply, v') →
        ∃ status, reply = .done status ∧
          (status = .success ↔ a.Renames id ps (pathOf newFileName) replaceIfExists) ∧
          v'.fs.lookup = (if status = .success then a.tree.move ps (pathOf newFileName) else a.tree) ∧
          v'.opens = v.opens := by
  obtain ⟨hinv, hs⟩ := h.inv hsplit
  have hunique : ∀ rs, a.tree rs = some id ↔ rs = ps := by
    intro rs
    rw [hs.tree] at hp ⊢
    exact hinv.lookup_iff hp rs
  constructor
  · rw [hinv.call_eq_none_iff hs hsplit hits hr]
    constructor
    · rintro ⟨rs, hrs, hstops⟩
      rwa [(hunique rs).mp hrs] at hstops
    · intro hstops
      exact ⟨ps, hp, hstops⟩
  · intro reply v' hcall
    obtain ⟨-, hshows, hanswers⟩ := hinv.of_call hs hsplit hr hcall
    have hdone : ∃ status, reply = .done status ∧ v'.opens = v.opens := by
      obtain ⟨r, -, hrv⟩ := Option.map_eq_some_iff.mp hcall
      cases hrv
      exact ⟨r.1, rfl, rfl⟩
    obtain ⟨status, rfl, hopens⟩ := hdone
    refine ⟨status, rfl, hanswers ps hp, ?_, hopens⟩
    rw [← hshows.tree]
    by_cases hstatus : status = .success
    · obtain ⟨qs, ds, c, -, -, hname, -, -⟩ := hr
      rw [if_pos hstatus, hstatus, hname, apply_rename_moved hunique, pathOf_pathName]
    · rw [if_neg hstatus, apply_rename_failed hstatus]

theorem reached_rename_replaceFirst : ∃ a, Reached fspPathSuffix twoFiles a ∧
    a.RenameStops unwilling 3 [partB] [partA] true ∧ a.Renames 3 [partB] [partA] true ∧
    ∃ v', twoFiles.ask replaceFirst = some (.done .success, v') ∧
      v'.fs.lookup = NameTree.move a.tree [partB] [partA] ∧ v'.opens = twoFiles.opens := by
  obtain ⟨-, hreply, hnone, hp, -⟩ := replies_twoFiles
  have hr := replaceFirst_admitted reached_twoFiles hp
  rw [← (reached_twoFiles.inv fspPathSuffix_splits).2.tree] at hp
  obtain ⟨hstops, -⟩ := reached_rename fspPathSuffix_splits reached_twoFiles hr hp unwilling (fun _ _ _ _ => false)
  obtain ⟨-, hgoes⟩ := reached_rename fspPathSuffix_splits reached_twoFiles hr hp willing (fun _ _ _ _ => false)
  obtain ⟨status, hstatus, hallowed, hlook, hopens⟩ := hgoes _ _ (ask_eq hreply)
  cases hstatus
  rw [pathOf_pathName, if_pos rfl] at hlook
  rw [pathOf_pathName] at hstops hallowed
  exact ⟨_, reached_twoFiles, hstops.mp (Option.isNone_iff_eq_none.mp hnone), hallowed.mp rfl, _, ask_eq hreply,
    hlook, hopens⟩

/-! ### Long names -/

/-- **A name that is too long** ends the process in `GetSecurityByName`, while `Open` refuses it. -/
theorem reached_longName (hsplit : Splits pathSuffix) (h : Reached pathSuffix v a) (ps : Path)
    (size : Option ℕ) :
    (v.fs.getSecurityByName pathSuffix (pathName ps) size = none ↔ maxPath ≤ (pathName ps).length) ∧
      ((v.fs.openFile pathSuffix (pathName ps)).map Prod.fst = some .objectNameInvalid ↔
        maxPath ≤ (pathName ps).length) := by
  obtain ⟨hinv, hs⟩ := h.inv hsplit
  constructor
  · constructor
    · intro hnone
      by_contra hlen
      have hserved : Served a (.getSecurityByName (pathName ps) size)
          (v.call pathSuffix (fun _ _ _ _ => false) willing (.getSecurityByName (pathName ps) size)) :=
        hinv.getSecurityByName hs hsplit ⟨ps, rfl, Nat.not_le.mp hlen⟩
      obtain ⟨reply, v', heq, -⟩ := hserved
      rw [call, hnone] at heq
      cases heq
    · intro hlen
      have hlook : v.fs.lookup ps = none := by
        cases hp : v.fs.lookup ps with
        | none => rfl
        | some j => exact absurd (hinv.lookup_length hp) (Nat.not_lt.mpr hlen)
      rw [Memfs.getSecurityByName, show v.fs.fileNodeMapGet (pathName ps) = v.fs.lookup ps from rfl, hlook]
      simp only
      rw [Memfs.notFound, Memfs.fileNodeMapGetParent, if_pos hlen]
      rfl
  · rw [Memfs.openFile]
    by_cases hlen : maxPath ≤ (pathName ps).length
    · rw [if_pos hlen]
      exact iff_of_true rfl hlen
    · rw [if_neg hlen]
      refine iff_of_false ?_ hlen
      cases hp : v.fs.lookup ps with
      | none =>
        obtain ⟨heq, -⟩ := hinv.notFound hs hsplit hp (Nat.not_le.mp hlen)
        rw [show v.fs.fileNodeMapGet (pathName ps) = v.fs.lookup ps from rfl, hp]
        simp only
        rw [heq]
        exact fun hsame => a.missing_ne ps (Option.some.inj hsame)
      | some j =>
        obtain ⟨k, hk, -⟩ := hinv.mapped_node hp
        rw [show v.fs.fileNodeMapGet (pathName ps) = v.fs.lookup ps from rfl, hp]
        simp only
        rw [Memfs.fileNodeReference_eq hk]
        simp

/-- A component of 600 letters. -/
def longPart : Part :=
  ⟨List.replicate 600 (wide 'a'), List.ne_nil_of_length_pos (by rw [List.length_replicate]; decide),
    fun u hu => by rw [List.eq_of_mem_replicate hu]; decide⟩

theorem length_longPart : maxPath ≤ (pathName [longPart]).length := by
  have hlength : longPart.val.length = 600 := List.length_replicate
  rw [pathName_of_ne_nil (List.cons_ne_nil longPart []), List.flatMap_singleton, List.length_cons, hlength]
  decide

theorem reached_longName_longPart :
    (mounted 16).fs.getSecurityByName fspPathSuffix (pathName [longPart]) none = none ∧
      ((mounted 16).fs.openFile fspPathSuffix (pathName [longPart])).map Prod.fst = some .objectNameInvalid := by
  obtain ⟨hsecurity, hopen⟩ := reached_longName fspPathSuffix_splits (reached_mounted 16) [longPart] none
  exact ⟨hsecurity.mpr length_longPart, hopen.mpr length_longPart⟩

/-! ### Deleting by name -/

/-- **The numbers of `GetVolumeInfo`.**  The root and the disk file are filed without a look at the limit.
The free size is that of the nodes that are left, and wraps around where there are more than the limit.  The
total size that `SetVolumeLabel` returns is the same exactly where it fits 32 bits. -/
theorem reached_volumeInfo (hsplit : Splits pathSuffix) (h : Reached pathSuffix v a)
    (hnodes : v.fs.maxFileNodes < 2 ^ 32) (label : FileName) :
    v.fs.fileNodeMap.size ≤ max v.fs.maxFileNodes 2 ∧
      v.fs.getVolumeInfo.totalSize = v.fs.maxFileNodes * v.fs.maxFileSize ∧
      (v.fs.fileNodeMap.size ≤ v.fs.maxFileNodes → v.fs.getVolumeInfo.freeSize =
        (v.fs.maxFileNodes - v.fs.fileNodeMap.size) * v.fs.maxFileSize) ∧
      (v.fs.maxFileNodes < v.fs.fileNodeMap.size → v.fs.getVolumeInfo.freeSize =
        (2 ^ 64 - (v.fs.fileNodeMap.size - v.fs.maxFileNodes) * v.fs.maxFileSize) % 2 ^ 64) ∧
      ((v.fs.setVolumeLabel label).1.totalSize = v.fs.getVolumeInfo.totalSize ↔
        v.fs.maxFileNodes * v.fs.maxFileSize < 2 ^ 32) := by
  obtain ⟨hinv, -⟩ := h.inv hsplit
  have hsmall := hinv.small
  have hsize := hinv.size
  have htotal : v.fs.maxFileNodes * v.fs.maxFileSize < 2 ^ 64 :=
    (Nat.mul_lt_mul'' hnodes hsmall).trans_eq (by norm_num)
  have hsame : v.fs.getVolumeInfo.totalSize = v.fs.maxFileNodes * v.fs.maxFileSize := Nat.mod_eq_of_lt htotal
  refine ⟨hsize, hsame, fun hle => ?_, fun hlt => ?_, ?_⟩
  · have hleft : v.fs.freeNodes = v.fs.maxFileNodes - v.fs.fileNodeMap.size := by
      rw [Memfs.freeNodes]
      omega
    have hfree : (v.fs.maxFileNodes - v.fs.fileNodeMap.size) * v.fs.maxFileSize < 2 ^ 64 :=
      (Nat.mul_le_mul_right _ (Nat.sub_le _ _)).trans_lt htotal
    show v.fs.freeNodes * v.fs.maxFileSize % 2 ^ 64 = _
    rw [hleft, Nat.mod_eq_of_lt hfree]
  · -- the root or the disk file is beyond the limit
    obtain ⟨d, hd⟩ : ∃ d, d = v.fs.fileNodeMap.size - v.fs.maxFileNodes := ⟨_, rfl⟩
    have hleft : v.fs.freeNodes = 2 ^ 64 - d := by
      rw [Memfs.freeNodes]
      omega
    show v.fs.freeNodes * v.fs.maxFileSize % 2 ^ 64 = _
    have hwrap : d * v.fs.maxFileSize < 2 ^ 64 :=
      (Nat.mul_lt_mul'' (show d < 2 ^ 32 by omega) hsmall).trans_eq (by norm_num)
    rw [← hd, hleft, Nat.sub_mul]
    cases hmax : v.fs.maxFileSize with
    | zero => simp
    | succ k =>
      rw [hmax] at hwrap
      have hterm : 2 ^ 64 * (k + 1) - d * (k + 1) = 2 ^ 64 - d * (k + 1) + 2 ^ 64 * k := by omega
      rw [hterm, Nat.add_mul_mod_self_left]
  · rw [hsame]
    exact Nat.mod_eq_iff_lt (by norm_num)

theorem mounted_oneNode : (mounted 1).fs.maxFileNodes = 1 ∧ (mounted 1).fs.maxFileSize = 4096 ∧
    (mounted 1).fs.fileNodeMap.size = 2 := by decide

theorem reached_volumeInfo_oneNode : (mounted 1).fs.fileNodeMap.size = 2 ∧
    (mounted 1).fs.getVolumeInfo.totalSize = 4096 ∧
    (mounted 1).fs.getVolumeInfo.freeSize = 2 ^ 64 - 4096 ∧
    ((mounted 1).fs.setVolumeLabel []).1.totalSize = 4096 := by
  obtain ⟨hnodes, hmax, hsize⟩ := mounted_oneNode
  obtain ⟨-, htotal, -, hfree, hlabel⟩ := reached_volumeInfo fspPathSuffix_splits (reached_mounted 1)
    (by rw [hnodes]; norm_num) []
  have hfree := hfree (by rw [hnodes, hsize]; decide)
  rw [hnodes, hmax, hsize] at hfree
  rw [hnodes, hmax] at htotal hlabel
  exact ⟨hsize, htotal, hfree, (hlabel.mpr (by norm_num)).trans htotal⟩

end Volume

end FtjSsdSim.Vdisk
