import Mathlib
import FtjSsdSim.Library.Paging
import FtjSsdSim.Vdisk.NameCalls

/-!
# Reading directories

`ReadDirectory` adds entries to a buffer until it is full, and the driver resumes behind the last name
it has got.  Below the root a directory begins with the dot entries, of which the code takes a marker
`.` to be the first one.

* `readDirectory_root`, `readDirectory_below` — one call is one page of what is left behind its marker;
* `readPages_complete_iff` — exactly when resuming lists every child once: it does not where a page ends
  with `..` and a child's name is not behind that in the order of the map.
-/

namespace FtjSsdSim.Vdisk

open Std FtjSsdSim.Library FtjSsdSim.Engine

variable {nls : Nls} {v : Volume nls false} {a : Store} {id : NodeId} {n : FileNode} {ps : Path}
  {pathSuffix : PathSuffix} {hits : FTJController.Hits} {sys : System}

/-- `.` as a component of a path. -/
def dotPart : Part := ⟨Memfs.dot, by decide⟩

/-- `..` as a component of a path. -/
def dotDotPart : Part := ⟨Memfs.dotDot, by decide⟩

theorem compare_dot_dotDot : compare dotPart dotDotPart = .lt := by decide

/-- The entry of a name. -/
def dirInfo (e : Part × FileInfo) : DirInfo := ⟨e.1.val, e.2⟩

namespace Memfs

variable {s : Memfs nls false} {room : List DirInfo → DirInfo → Bool} {marker : Option Part}

/-! ### The buffer -/

theorem addDirInfos_append (room : List DirInfo → DirInfo → Bool) (buffer xs ys : List DirInfo) :
    addDirInfos room buffer (xs ++ ys) =
      if (addDirInfos room buffer xs).2 = false then ((addDirInfos room buffer xs).1, false)
      else addDirInfos room (addDirInfos room buffer xs).1 ys := by
  induction xs generalizing buffer with
  | nil => rfl
  | cons x xs ih =>
    rw [List.cons_append, addDirInfos, addDirInfos]
    by_cases hroom : room buffer x = true
    · rw [if_pos hroom, if_pos hroom, ih]
    · rw [if_neg hroom, if_neg hroom]
      rfl

/-- A first part of the entries is added. -/
theorem addDirInfos_first (room : List DirInfo → DirInfo → Bool) (es buffer : List DirInfo) :
    ∃ page last, addDirInfos room buffer es = (buffer ++ page, last) ∧ page <+: es ∧
      (last = true ↔ page = es) := by
  induction es generalizing buffer with
  | nil => exact ⟨[], true, by rw [addDirInfos, List.append_nil], List.nil_prefix, iff_of_true rfl rfl⟩
  | cons e es ih =>
    rw [addDirInfos]
    by_cases he : room buffer e = true
    · obtain ⟨page, last, heq, hpre, hlast⟩ := ih (buffer ++ [e])
      rw [if_pos he, heq]
      refine ⟨e :: page, last, by rw [List.append_assoc, List.singleton_append], ?_, ?_⟩
      · exact (List.prefix_cons_inj e).mpr hpre
      · rw [hlast, List.cons_inj_right]
    · rw [if_neg he]
      exact ⟨[], false, by rw [List.append_nil], List.nil_prefix, iff_of_false (by decide) (by simp)⟩

/-- The flag says whether all were added. -/
theorem addDirInfos_all {es : List DirInfo} (h : (addDirInfos room [] es).2 = true) :
    (addDirInfos room [] es).1 = es := by
  obtain ⟨page, last, heq, -, hlast⟩ := addDirInfos_first room es []
  rw [heq] at h ⊢
  exact hlast.mp h

/-- A buffer that has room for one entry gets a page. -/
theorem addDirInfos_isPage (hroom : ∀ e, room [] e = true) (es : List DirInfo) :
    IsPage es (addDirInfos room [] es).1 (addDirInfos room [] es).2 := by
  obtain ⟨page, last, heq, hpre, hlast⟩ := addDirInfos_first room es []
  refine ⟨by rw [heq]; exact hpre, by rw [heq]; exact hlast, fun hne => ?_⟩
  cases es with
  | nil => exact absurd rfl hne
  | cons e es =>
    obtain ⟨page', last', heq', -⟩ := addDirInfos_first room es [e]
    rw [addDirInfos, if_pos (hroom e), List.nil_append, heq']
    simp

/-! ### The entries -/

/-- The children of a directory with their file information, in the order of the map. -/
noncomputable def entriesBelow (s : Memfs nls false) (ps : Path) : List (Part × FileInfo) :=
  (children s.fileNodeMap ps).filterMap fun c => (s.nodes c.2).map fun n => (c.1, n.fileInfo)

/-- The entry of a node under some name. -/
def entryAs (s : Memfs nls false) (name : Part) (ps : Path) : Option (Part × FileInfo) := do
  let id ← s.lookup ps
  let n ← s.nodes id
  some (name, n.fileInfo)

/-- All entries of a directory: the dot entries, if it is not the root, and the children. -/
noncomputable def listing (s : Memfs nls false) (ps : Path) : List (Part × FileInfo) :=
  (if ps = [] then []
    else (s.entryAs dotPart ps).toList ++ (s.entryAs dotDotPart ps.dropLast).toList) ++ s.entriesBelow ps

theorem mem_children (h : s.Named) {c : Part × NodeId} :
    c ∈ children s.fileNodeMap ps ↔ s.lookup (ps ++ [c.1]) = some c.2 := by
  rw [children, List.mem_filterMap, lookup, h.canonical.getElem?_eq_some]
  constructor
  · rintro ⟨e, he, heq⟩
    obtain ⟨d, hd, rfl⟩ := Option.map_eq_some_iff.mp heq
    show (pathName (ps ++ [d]), e.2) ∈ s.fileNodeMap.toList
    rw [← childOf_eq_some.mp hd, h.canonical e he]
    exact he
  · intro hmem
    refine ⟨_, hmem, ?_⟩
    rw [pathOf_pathName, childOf_eq_some.mpr rfl]
    rfl

theorem children_sorted (h : s.Named) (ps : Path) : SortedBy Prod.fst (children s.fileNodeMap ps) := by
  refine List.Pairwise.filterMap _ ?_ h.canonical.ascending
  intro x y hlt c hc d hd
  obtain ⟨p, hp, rfl⟩ := Option.map_eq_some_iff.mp hc
  obtain ⟨q, hq, rfl⟩ := Option.map_eq_some_iff.mp hd
  simp only at hlt ⊢
  rw [childOf_eq_some.mp hp, childOf_eq_some.mp hq, compare_append_append, List.compare_cons_cons] at hlt
  revert hlt
  cases compare p q <;> decide

theorem entriesBelow_sorted (h : s.Named) (ps : Path) : SortedBy Prod.fst (s.entriesBelow ps) := by
  refine List.Pairwise.filterMap _ ?_ (children_sorted h ps)
  intro x y hlt c hc d hd
  obtain ⟨n, -, rfl⟩ := Option.map_eq_some_iff.mp hc
  obtain ⟨m, -, rfl⟩ := Option.map_eq_some_iff.mp hd
  exact hlt

theorem mem_entriesBelow (h : s.Named) (c : Part) :
    (∃ e ∈ s.entriesBelow ps, e.1 = c) ↔ s.lookup (ps ++ [c]) ≠ none := by
  constructor
  · rintro ⟨e, he, rfl⟩
    obtain ⟨d, hd, heq⟩ := List.mem_filterMap.mp he
    obtain ⟨n, -, rfl⟩ := Option.map_eq_some_iff.mp heq
    rw [(mem_children h).mp hd]
    simp
  · intro hne
    obtain ⟨j, hj⟩ := Option.ne_none_iff_exists'.mp hne
    obtain ⟨n, hn, -⟩ := h.entry _ j hj
    exact ⟨(c, n.fileInfo), List.mem_filterMap.mpr ⟨(c, j), (mem_children h).mpr hj, by rw [hn]; rfl⟩, rfl⟩

/-! ### One call -/

theorem childInfos_map (hsplit : Splits pathSuffix) {l : List (Part × NodeId)}
    (hnodes : ∀ c ∈ l, ∃ n, s.nodes c.2 = some n) :
    s.childInfos pathSuffix (l.map fun c => (pathName (ps ++ [c.1]), c.2)) =
      some ((l.filterMap fun c => (s.nodes c.2).map fun n => (c.1, n.fileInfo)).map dirInfo) := by
  induction l with
  | nil => rfl
  | cons c l ih =>
    obtain ⟨n, hn⟩ := hnodes c (List.mem_cons_self ..)
    have htail := ih fun d hd => hnodes d (List.mem_cons_of_mem _ hd)
    rw [List.map_cons, childInfos, hn, Option.bind_eq_bind, Option.bind_some, htail, Option.bind_eq_bind,
      Option.bind_some, List.filterMap_cons_some (b := (c.1, n.fileInfo)) (by rw [hn]; rfl), List.map_cons]
    show some (DirInfo.mk (pathSuffix (pathName (ps ++ [c.1]))).2 n.fileInfo :: _) = _
    rw [hsplit]
    rfl

/-- The entries of the enumeration are those behind its marker. -/
theorem enumerate_infos (hsplit : Splits pathSuffix) (h : s.Named) (hn : s.nodes id = some n)
    (hname : n.fileName = pathName ps)
    (hshort : ∀ p ∈ marker, (pathName (ps ++ [p])).length < maxPath + 256) :
    ((s.fileNodeMapEnumerateChildren pathSuffix id (marker.map Subtype.val)).bind fun entries =>
      s.childInfos pathSuffix entries) = some ((behind Prod.fst marker (s.entriesBelow ps)).map dirInfo) := by
  rw [fileNodeMapEnumerateChildren_spec hsplit h.canonical hn hname hshort, Option.bind_some,
    childInfos_map hsplit]
  · refine congrArg (fun l => some (List.map dirInfo l)) ?_
    rw [entriesBelow, behind, List.filterMap_filter, List.filter_filterMap]
    refine List.filterMap_congr ?_
    intro c _
    cases s.nodes c.2 with
    | none => simp
    | some n => 
      simp only [Option.map_some, Option.filter_some]
  · intro c hc
    obtain ⟨m, hm, -⟩ := h.entry _ c.2 ((mem_children h).mp (List.mem_of_mem_filter hc))
    exact ⟨m, hm⟩

theorem length_rootName_ne_one_iff (hname : n.fileName = pathName ps) : n.fileName.length ≠ 1 ↔ ps ≠ [] := by
  rw [hname]
  cases ps with
  | nil => exact iff_of_false (by decide) (by simp)
  | cons p ps =>
    refine iff_of_true ?_ (List.cons_ne_nil p ps)
    have hpos := List.length_pos_of_ne_nil p.2.1
    rw [pathName_of_ne_nil (List.cons_ne_nil p ps), List.flatMap_cons, List.length_append, List.length_cons]
    omega

/-- **One page of the root.** -/
theorem readDirectory_root (hsplit : Splits pathSuffix) (h : s.Named) (hn : s.nodes id = some n)
    (hname : n.fileName = pathName []) (room : List DirInfo → DirInfo → Bool)
    (hshort : ∀ p ∈ marker, (pathName ([] ++ [p])).length < maxPath + 256) :
    s.readDirectory pathSuffix id (marker.map Subtype.val) room =
      some (.success, addDirInfos room [] ((behind Prod.fst marker (s.entriesBelow [])).map dirInfo)) := by
  have henum := enumerate_infos hsplit h hn hname hshort
  obtain ⟨entries, hentries, hinfos⟩ := Option.bind_eq_some_iff.mp henum
  rw [readDirectory, hn, Option.bind_eq_bind, Option.bind_some,
    if_neg (not_not.mpr (by rw [hname]; rfl)), hentries, Option.bind_eq_bind, Option.bind_some, hinfos]
  rfl

/-- What is left of a directory below the root behind a marker. -/
noncomputable def leftBelow (s : Memfs nls false) (ps : Path) (n parent : FileNode) :
    Option Part → List (Part × FileInfo)
  | none => (dotPart, n.fileInfo) :: (dotDotPart, parent.fileInfo) :: s.entriesBelow ps
  | some m =>
    if m = dotPart then (dotDotPart, parent.fileInfo) :: s.entriesBelow ps
    else behind Prod.fst (some m) (s.entriesBelow ps)

theorem mem_leftBelow_none {parent : FileNode} {c : Part} :
    (∃ e ∈ s.leftBelow ps n parent none, e.1 = c) ↔
      (∃ e ∈ s.entriesBelow ps, e.1 = c) ∨ c.val = dot ∨ c.val = dotDot := by
  constructor
  · rintro ⟨e, he, rfl⟩
    rcases List.mem_cons.mp he with rfl | he
    · exact .inr (.inl rfl)
    · rcases List.mem_cons.mp he with rfl | he
      · exact .inr (.inr rfl)
      · exact .inl ⟨e, he, rfl⟩
  · rintro (⟨e, he, rfl⟩ | hc | hc)
    · exact ⟨e, List.mem_cons_of_mem _ (List.mem_cons_of_mem _ he), rfl⟩
    · exact ⟨_, List.mem_cons_self .., Subtype.ext hc.symm⟩
    · exact ⟨_, List.mem_cons_of_mem _ (List.mem_cons_self ..), Subtype.ext hc.symm⟩

/-- **One page of another directory.** -/
theorem readDirectory_below (hsplit : Splits pathSuffix) (h : s.Named) (hn : s.nodes id = some n)
    (hname : n.fileName = pathName ps) (hps : ps ≠ []) {j : NodeId} {parent : FileNode}
    (hget : s.fileNodeMapGetParent pathSuffix n.fileName = some (.ok j)) (hj : s.nodes j = some parent)
    (room : List DirInfo → DirInfo → Bool)
    (hshort : ∀ p ∈ marker, (pathName (ps ++ [p])).length < maxPath + 256) :
    s.readDirectory pathSuffix id (marker.map Subtype.val) room =
      some (.success, addDirInfos room [] ((s.leftBelow ps n parent marker).map dirInfo)) := by
  -- the dot entries, and the marker that is left for the children
  obtain ⟨dots, marker', hdots, hshort', hleft⟩ : ∃ dots marker',
      dotEntries n parent (marker.map Subtype.val) = (dots.map dirInfo, marker'.map Subtype.val) ∧
        (∀ p ∈ marker', (pathName (ps ++ [p])).length < maxPath + 256) ∧
        s.leftBelow ps n parent marker = dots ++ behind Prod.fst marker' (s.entriesBelow ps) := by
    cases marker with
    | none =>
      refine ⟨[(dotPart, n.fileInfo), (dotDotPart, parent.fileInfo)], none, rfl, ?_, ?_⟩
      · intro p hp
        cases hp
      · rw [behind_none]
        rfl
    | some m =>
      rw [leftBelow]
      by_cases hm : m = dotPart
      · refine ⟨[(dotDotPart, parent.fileInfo)], none, by rw [hm]; rfl, ?_, ?_⟩
        · intro p hp
          cases hp
        · rw [if_pos hm, behind_none]
          rfl
      · refine ⟨[], some m, ?_, hshort, ?_⟩
        · have hval : (some m).map Subtype.val ≠ some dot := fun h => hm (Subtype.ext (Option.some.inj h))
          rw [dotEntries, if_neg (by simp), if_neg hval]
          rfl
        · rw [if_neg hm]
          rfl
  have henum := enumerate_infos hsplit h hn hname hshort'
  obtain ⟨entries, hentries, hinfos⟩ := Option.bind_eq_some_iff.mp henum
  rw [readDirectory, hn, Option.bind_eq_bind, Option.bind_some,
    if_pos ((length_rootName_ne_one_iff hname).mpr hps), hget, Option.bind_eq_bind, Option.bind_some]
  simp only
  rw [hj, Option.bind_some, hdots, hleft, List.map_append, addDirInfos_append]
  simp only
  split_ifs with hfull
  · rfl
  · rw [hentries, Option.bind_eq_bind, Option.bind_some, hinfos]
    rfl

end Memfs

namespace Volume

/-! ### The calls -/

/-- A marker fits the buffer in which its name is built. -/
theorem Inv.marker_short (h : v.Inv) (hn : v.fs.nodes id = some n) (hname : n.fileName = pathName ps) {p : Part}
    (hp : p.val.length < 256) : (pathName (ps ++ [p])).length < maxPath + 256 := by
  obtain ⟨qs, hqs, hlen⟩ := h.sound.named.node id n hn
  rw [hname] at hqs
  rw [← hqs] at hlen
  have hsep : (if pathName ps = rootName then ([] : FileName) else [wide '\\']).length ≤ 1 := by
    split_ifs <;> decide
  rw [← Memfs.prevFileName_pathName, Memfs.prevFileName, List.length_append, List.length_append]
  omega

/-- The names of a page that reached the end. -/
theorem mem_names {L : List (Part × FileInfo)} {c : Part} :
    c.val ∈ (L.map dirInfo).map DirInfo.fileName ↔ ∃ e ∈ L, e.1 = c := by
  rw [List.map_map, List.mem_map]
  exact exists_congr fun e => and_congr_right fun _ => Subtype.ext_iff.symm

theorem Inv.readDirectory (h : v.Inv) (hs : v.Shows a) (hsplit : Splits pathSuffix) {marker : Option FileName}
    {room : List DirInfo → DirInfo → Bool} (hr : (Request.readDirectory id marker room).Admitted v) :
    Served a (.readDirectory id marker room)
      (v.call pathSuffix hits sys (.readDirectory id marker room)) := by
  obtain ⟨hid, hmarker⟩ := hr
  obtain ⟨n, hn⟩ := h.open_node hid
  obtain ⟨ps, hname, hlen⟩ := h.sound.named.node id n hn
  have hN := h.sound.named
  obtain ⟨m, rfl, hm⟩ : ∃ m : Option Part, marker = m.map Subtype.val ∧ ∀ p ∈ m, p.val.length < 256 := by
    cases marker with
    | none =>
      refine ⟨none, rfl, fun p hp => ?_⟩
      cases hp
    | some name =>
      obtain ⟨hshort, p, rfl⟩ := hmarker name rfl
      refine ⟨some p, rfl, fun q hq => ?_⟩
      rw [← Option.some.inj hq]
      exact hshort
  have hshort : ∀ p ∈ m, (pathName (ps ++ [p])).length < maxPath + 256 := fun p hp =>
    h.marker_short hn hname (hm p hp)
  have hpath : ∀ qs, a.tree qs = some id → qs = ps := fun qs => h.tree_path hs hn hname
  have hbelow : ∀ c, (∃ e ∈ v.fs.entriesBelow ps, e.1 = c) ↔ (a.tree (ps ++ [c])).isSome = true := by
    intro c
    rw [Memfs.mem_entriesBelow hN, hs.tree, Option.isSome_iff_ne_none]
  rw [call]
  by_cases hps : ps = []
  · subst hps
    rw [Memfs.readDirectory_root hsplit hN hn hname room hshort]
    refine h.served_same hs rfl fun qs hq => ⟨rfl, fun hnone hlast c => ?_⟩
    obtain rfl : m = none := Option.map_eq_none_iff.mp hnone
    rw [Memfs.addDirInfos_all hlast, behind_none, mem_names, hbelow, hpath qs hq]
    exact (or_iff_left fun hne => hne.1 rfl).symm
  · obtain ⟨ds, c, hds⟩ : ∃ ds c, ps = ds ++ [c] := by
      obtain ⟨ds, c, hc⟩ := (List.eq_nil_or_concat ps).resolve_left hps
      exact ⟨ds, c, by rw [hc, List.concat_eq_append]⟩
    have hrefuse : ∀ status, v.fs.fileNodeMapGetParent pathSuffix n.fileName = some (.error status) →
        (∀ qs, a.tree qs ≠ some id) → Served a (.readDirectory id (m.map Subtype.val) room)
          ((v.fs.readDirectory pathSuffix id (m.map Subtype.val) room).map fun r =>
            (.directory r.1 r.2.1 r.2.2, v)) := by
      intro status hget hnone
      rw [Memfs.readDirectory, hn, Option.bind_eq_bind, Option.bind_some,
        if_pos ((Memfs.length_rootName_ne_one_iff hname).mpr hps), hget]
      exact h.served_same hs rfl fun qs hq => absurd hq (hnone qs)
    have hfiled : ∀ qs, a.tree qs = some id → ∃ p, v.fs.lookup ds = some p ∧ v.fs.IsDir p := by
      intro qs hq
      rw [hpath qs hq, hs.tree, hds] at hq
      exact h.closed ds c id hq
    have hcases := Memfs.fileNodeMapGetParent_cases (c := c) hsplit hN (hds ▸ hlen)
    rw [← hds, ← hname] at hcases
    rcases hcases with ⟨hlook, hget⟩ | ⟨j, parent, hlook, hj, hget⟩
    · refine hrefuse _ hget fun qs hq => ?_
      obtain ⟨p, hp, -⟩ := hfiled qs hq
      rw [hlook] at hp
      cases hp
    · by_cases hdir : parent.isDirectory = true
      · rw [if_pos hdir] at hget
        rw [Memfs.readDirectory_below hsplit hN hn hname hps hget hj room hshort]
        refine h.served_same hs rfl fun qs hq => ⟨rfl, fun hnone hlast d => ?_⟩
        obtain rfl : m = none := Option.map_eq_none_iff.mp hnone
        rw [Memfs.addDirInfos_all hlast, mem_names, hpath qs hq, ← hbelow, Memfs.mem_leftBelow_none]
        exact or_congr_right (and_iff_right hps).symm
      · rw [if_neg hdir] at hget
        refine hrefuse _ hget fun qs hq => ?_
        obtain ⟨p, hp, k, hk, hkdir⟩ := hfiled qs hq
        rw [hlook] at hp
        rw [← Option.some.inj hp, hj] at hk
        rw [← Option.some.inj hk] at hkdir
        exact hdir hkdir

theorem Inv.getDirInfoByName (h : v.Inv) (hs : v.Shows a) (hsplit : Splits pathSuffix) {fileName : FileName}
    (hr : (Request.getDirInfoByName id fileName).Admitted v) :
    Served a (.getDirInfoByName id fileName) (v.call pathSuffix hits sys (.getDirInfoByName id fileName)) := by
  obtain ⟨hid, c, rfl⟩ := hr
  obtain ⟨n, hn⟩ := h.open_node hid
  obtain ⟨ps, hname, -⟩ := h.sound.named.node id n hn
  have hfull : n.fileName ++ (if 1 < n.fileName.length then [wide '\\'] else []) ++ c.val =
      pathName (ps ++ [c]) := by
    have hone := Memfs.length_rootName_ne_one_iff hname
    have hpos : 0 < n.fileName.length := by
      rw [hname]
      cases ps with
      | nil => decide
      | cons p ps =>
        rw [pathName_of_ne_nil (List.cons_ne_nil p ps)]
        simp
    have hroot : n.fileName = rootName ↔ ps = [] := by
      rw [hname, show rootName = pathName [] from rfl, pathName_inj]
    rw [← Memfs.prevFileName_pathName, ← hname, Memfs.prevFileName]
    by_cases hps : ps = []
    · rw [if_pos (hroot.mpr hps), if_neg]
      have := mt hone.mp (not_not.mpr hps)
      omega
    · rw [if_neg (mt hroot.mp hps), if_pos]
      have := hone.mpr hps
      omega
  have hpath : ∀ qs, a.tree qs = some id → qs = ps := fun qs => h.tree_path hs hn hname
  have hmiss : v.fs.lookup (ps ++ [c]) = none →
      a.Answers (.getDirInfoByName id c.val) (.entry .objectNameNotFound none) := by
    intro hlook qs d hq hd
    rw [hpath qs hq, ← Subtype.ext hd, hs.tree, hlook]
    refine ⟨iff_of_false (by decide) (by simp), fun i hi => ?_⟩
    cases hi
  rw [call, Memfs.getDirInfoByName, hn, Option.bind_eq_bind, Option.bind_some]
  simp only
  rw [hfull]
  by_cases hlen : maxPath ≤ (pathName (ps ++ [c])).length
  · rw [if_pos hlen]
    refine h.served_same hs rfl (hmiss ?_)
    by_contra hne
    obtain ⟨j, hj⟩ := Option.ne_none_iff_exists'.mp hne
    exact absurd (h.lookup_length hj) (Nat.not_lt.mpr hlen)
  · rw [if_neg hlen, show v.fs.fileNodeMapGet (pathName (ps ++ [c])) = v.fs.lookup (ps ++ [c]) from rfl]
    cases hlook : v.fs.lookup (ps ++ [c]) with
    | none => exact h.served_same hs rfl (hmiss hlook)
    | some child =>
      obtain ⟨m, hm, hmname⟩ := h.mapped_node hlook
      simp only
      rw [hm, Option.bind_some, hmname, hsplit]
      refine h.served_same hs rfl fun qs d hq hd => ?_
      rw [hpath qs hq, ← Subtype.ext hd, hs.tree, hlook]
      refine ⟨iff_of_true rfl rfl, fun i hi => ?_⟩
      rw [← Option.some.inj hi]

end Volume

/-! ### Reading on -/

namespace Memfs

/-- How the driver reads a directory: each call resumes behind the last name that it has got. -/
def readPages {caseInsensitive : Bool} (pathSuffix : PathSuffix) (s : Memfs nls caseInsensitive) (id : NodeId) :
    List (List DirInfo → DirInfo → Bool) → Option FileName → Option (List DirInfo × Bool)
  | [], _ => some ([], false)
  | room :: rooms, marker => do
    let (_, page, last) ← s.readDirectory pathSuffix id marker room
    if last then some (page, true)
    else do
      let (rest, done) ← s.readPages pathSuffix id rooms ((page.getLast?.map DirInfo.fileName).or marker)
      some (page ++ rest, done)

variable {s : Memfs nls false} {marker : Option Part}

/-- Where each call adds a page of what is left behind its marker, reading on gets everything. -/
theorem readPages_eq {L : List (Part × FileInfo)} (hL : SortedBy Prod.fst L)
    (hread : ∀ marker room, (∀ m ∈ marker, ∃ e ∈ L, e.1 = m) →
      s.readDirectory pathSuffix id (marker.map Subtype.val) room =
        some (.success, addDirInfos room [] ((behind Prod.fst marker L).map dirInfo)))
    (rooms : List (List DirInfo → DirInfo → Bool)) (hrooms : ∀ room ∈ rooms, ∀ e, room [] e = true)
    (marker : Option Part) (hmarker : ∀ m ∈ marker, ∃ e ∈ L, e.1 = m)
    (hlen : (behind Prod.fst marker L).length < rooms.length) :
    s.readPages pathSuffix id rooms (marker.map Subtype.val) =
      some ((behind Prod.fst marker L).map dirInfo, true) := by
  induction rooms generalizing marker with
  | nil => cases hlen
  | cons room rooms ih =>
    have hpage := addDirInfos_isPage (hrooms room (List.mem_cons_self ..))
      ((behind Prod.fst marker L).map dirInfo)
    obtain ⟨page, hmap, hpage⟩ := hpage.of_map
    rw [readPages, hread marker room hmarker, Option.bind_eq_bind, Option.bind_some]
    simp only
    by_cases hlast : (addDirInfos room [] ((behind Prod.fst marker L).map dirInfo)).2 = true
    · rw [if_pos hlast, hmap, hpage.all.mp hlast]
    · -- the page ends with some entry, behind which the next one starts
      have hne : page ≠ [] := by
        refine hpage.progress fun hnil => hlast (hpage.all.mpr ?_)
        have hfirst := hpage.first
        rw [hnil] at hfirst
        rw [List.prefix_nil.mp hfirst, hnil]
      obtain ⟨x, hx⟩ : ∃ x, page.getLast? = some x := ⟨_, List.getLast?_eq_some_getLast hne⟩
      have hrest := hpage.behind_eq hL hx
      have hxL : x ∈ L := mem_behind (hpage.first.subset (List.mem_of_getLast? hx))
      have hnext : ((page.map dirInfo).getLast?.map DirInfo.fileName).or (marker.map Subtype.val) =
          (some x.1).map Subtype.val := by
        rw [List.getLast?_map, hx]
        rfl
      have hmem : ∀ m ∈ some x.1, ∃ e ∈ L, e.1 = m := by
        intro m hm
        exact ⟨x, hxL, Option.some.inj hm⟩
      have hshorter : (behind Prod.fst (some x.1) L).length < rooms.length := by
        have hpos := List.length_pos_of_ne_nil hne
        rw [hrest, List.length_append, List.length_cons] at hlen
        omega
      rw [if_neg hlast, hmap, hnext,
        ih (fun room hroom => hrooms room (List.mem_cons_of_mem _ hroom)) (some x.1) hmem hshorter, Option.bind_eq_bind,
        Option.bind_some, hrest, List.map_append]

end Memfs

namespace Volume

/-- The names of a directory fit where the name of a marker is built. -/
theorem Inv.listing_short (h : v.Inv) {c : Part} (hc : v.fs.lookup (ps ++ [c]) ≠ none) :
    (pathName (ps ++ [c])).length < maxPath + 256 := by
  obtain ⟨j, hj⟩ := Option.ne_none_iff_exists'.mp hc
  exact (h.lookup_length hj).trans (by decide)

/-- Calls for a directory below the root that is in the map. -/
theorem Inv.readDirectory_below (h : v.Inv) (hsplit : Splits pathSuffix) (hp : v.fs.lookup ps = some id)
    (hps : ps ≠ []) : ∃ n parent, v.fs.listing ps =
        (dotPart, n.fileInfo) :: (dotDotPart, parent.fileInfo) :: v.fs.entriesBelow ps ∧
      ∀ (marker : Option Part) room, (∀ m ∈ marker, (pathName (ps ++ [m])).length < maxPath + 256) →
        v.fs.readDirectory pathSuffix id (marker.map Subtype.val) room =
          some (.success, Memfs.addDirInfos room [] ((v.fs.leftBelow ps n parent marker).map dirInfo)) := by
  have hN := h.sound.named
  obtain ⟨n, hn, hname⟩ := h.mapped_node hp
  obtain ⟨ds, c, hds⟩ := (List.eq_nil_or_concat ps).resolve_left hps
  rw [List.concat_eq_append] at hds
  obtain ⟨j, hj, parent, hparent, hdir⟩ := h.closed ds c id (hds ▸ hp)
  have hget : v.fs.fileNodeMapGetParent pathSuffix n.fileName = some (.ok j) := by
    have hlen := h.lookup_length hp
    rcases Memfs.fileNodeMapGetParent_cases (c := c) hsplit hN (hds ▸ hlen) with
      ⟨hnone, -⟩ | ⟨k, p, hk, hpn, heq⟩
    · rw [hj] at hnone
      cases hnone
    · obtain rfl : j = k := Option.some.inj (hj.symm.trans hk)
      obtain rfl : parent = p := Option.some.inj (hparent.symm.trans hpn)
      rw [hname, hds, heq, if_pos hdir]
  refine ⟨n, parent, ?_, fun marker room hshort =>
    Memfs.readDirectory_below hsplit hN hn hname hps hget hparent room hshort⟩
  have hdot : v.fs.entryAs dotPart ps = some (dotPart, n.fileInfo) := by
    rw [Memfs.entryAs, hp, Option.bind_eq_bind, Option.bind_some, hn]
    rfl
  have hdotDot : v.fs.entryAs dotDotPart ps.dropLast = some (dotDotPart, parent.fileInfo) := by
    rw [Memfs.entryAs, hds, List.dropLast_concat, hj, Option.bind_eq_bind, Option.bind_some, hparent]
    rfl
  rw [Memfs.listing, if_neg hps, hdot, hdotDot]
  rfl

/-- Where every name is behind `..`, each call adds a page of what is left behind its marker. -/
theorem Inv.readDirectory_page (h : v.Inv) (hsplit : Splits pathSuffix) (hp : v.fs.lookup ps = some id)
    (hbehind : ps ≠ [] → ∀ c, v.fs.lookup (ps ++ [c]) ≠ none → compare dotDotPart c = .lt) :
    SortedBy Prod.fst (v.fs.listing ps) ∧
      ∀ (marker : Option Part) room, (∀ m ∈ marker, ∃ e ∈ v.fs.listing ps, e.1 = m) →
        v.fs.readDirectory pathSuffix id (marker.map Subtype.val) room =
          some (.success, Memfs.addDirInfos room [] ((behind Prod.fst marker (v.fs.listing ps)).map dirInfo)) := by
  have hN := h.sound.named
  have hsorted := Memfs.entriesBelow_sorted hN ps
  have hfiled : ∀ e ∈ v.fs.entriesBelow ps, v.fs.lookup (ps ++ [e.1]) ≠ none := fun e he =>
    (Memfs.mem_entriesBelow hN e.1).mp ⟨e, he, rfl⟩
  by_cases hps : ps = []
  · subst hps
    have hlist : v.fs.listing [] = v.fs.entriesBelow [] := rfl
    obtain ⟨n, hn, hname⟩ := h.mapped_node hp
    rw [hlist]
    refine ⟨hsorted, fun marker room hmarker => ?_⟩
    refine Memfs.readDirectory_root hsplit hN hn hname room fun m hm => ?_
    exact h.listing_short ((Memfs.mem_entriesBelow hN m).mp (hmarker m hm))
  obtain ⟨n, parent, hlist, hread⟩ := h.readDirectory_below hsplit hp hps
  have hdots : ∀ e ∈ v.fs.entriesBelow ps, compare dotDotPart e.1 = .lt := fun e he =>
    hbehind hps e.1 (hfiled e he)
  have hdot : ∀ e ∈ v.fs.entriesBelow ps, compare dotPart e.1 = .lt := fun e he =>
    TransCmp.lt_trans compare_dot_dotDot (hdots e he)
  rw [hlist]
  refine ⟨?_, fun marker room hmarker => ?_⟩
  · rw [SortedBy, List.pairwise_cons, List.pairwise_cons]
    refine ⟨fun e he => ?_, hdots, hsorted⟩
    rcases List.mem_cons.mp he with rfl | he
    · exact compare_dot_dotDot
    · exact hdot e he
  -- a marker is none, one of the dot entries, or the name of a child
  · cases marker with
    | none =>
      rw [behind_none]
      refine hread none room fun m hm => ?_
      cases hm
    | some m =>
      obtain ⟨e, he, rfl⟩ := hmarker m rfl
      obtain ⟨k, hk, hkname⟩ := h.mapped_node hp
      have hgt : ∀ {p q : Part}, compare p q = .lt → compare q p ≠ .lt := by
        intro p q hlt
        rw [OrientedOrd.eq_swap, hlt]
        decide
      have hself : ∀ p : Part, compare p p ≠ .lt := by
        intro p
        rw [ReflOrd.compare_self]
        decide
      have hcall : (pathName (ps ++ [e.1])).length < maxPath + 256 →
          v.fs.leftBelow ps n parent (some e.1) = behind Prod.fst (some e.1)
            ((dotPart, n.fileInfo) :: (dotDotPart, parent.fileInfo) :: v.fs.entriesBelow ps) →
          v.fs.readDirectory pathSuffix id ((some e.1).map Subtype.val) room =
            some (.success, Memfs.addDirInfos room [] ((behind Prod.fst (some e.1)
              ((dotPart, n.fileInfo) :: (dotDotPart, parent.fileInfo) :: v.fs.entriesBelow ps)).map dirInfo)) := by
        intro hshort hleft
        rw [← hleft]
        refine hread (some e.1) room fun p hp => ?_
        rw [← Option.some.inj hp]
        exact hshort
      rcases List.mem_cons.mp he with rfl | he
      · refine hcall (h.marker_short hk hkname (p := dotPart) (by decide)) ?_
        rw [Memfs.leftBelow, if_pos rfl, behind_cons_of_ne (hself _), behind_eq_self]
        intro x hx
        rcases List.mem_cons.mp hx with rfl | hx
        · exact compare_dot_dotDot
        · exact hdot x hx
      · rcases List.mem_cons.mp he with rfl | he
        · refine hcall (h.marker_short hk hkname (p := dotDotPart) (by decide)) ?_
          rw [Memfs.leftBelow, if_neg (show dotDotPart ≠ dotPart by decide), behind_cons_of_ne (hgt compare_dot_dotDot),
            behind_cons_of_ne (hself _)]
        · refine hcall (h.listing_short (hfiled e he)) ?_
          have hne : e.1 ≠ dotPart := by
            intro heq
            have hlt := hdot e he
            rw [heq] at hlt
            exact hself dotPart hlt
          rw [Memfs.leftBelow, if_neg hne, behind_cons_of_ne (hgt (hdot e he)),
            behind_cons_of_ne (hgt (hdots e he))]

/-- **Exactly when reading on lists every child once.**  Below the root it needs every name to be behind
`..`, since a page may end there. -/
theorem Inv.readPages_complete_iff (h : v.Inv) (hsplit : Splits pathSuffix) (hp : v.fs.lookup ps = some id) :
    (∀ rooms, (∀ room ∈ rooms, ∀ e, room [] e = true) → (v.fs.listing ps).length < rooms.length →
        v.fs.readPages pathSuffix id rooms none = some ((v.fs.listing ps).map dirInfo, true)) ↔
      (ps ≠ [] → ∀ c, v.fs.lookup (ps ++ [c]) ≠ none → compare dotDotPart c = .lt) := by
  constructor
  · intro hall hps c hc
    -- the first page has room for the dot entries only
    obtain ⟨n, parent, hlist, hread⟩ := h.readDirectory_below hsplit hp hps
    obtain ⟨k, hk, hkname⟩ := h.mapped_node hp
    obtain ⟨e, he, rfl⟩ := (Memfs.mem_entriesBelow h.sound.named c).mpr hc
    obtain ⟨x, below, hbelow⟩ : ∃ x below, v.fs.entriesBelow ps = x :: below :=
      List.exists_cons_of_ne_nil (List.ne_nil_of_mem he)
    have hrest : ∀ es buffer, Memfs.addDirInfos (fun _ _ => true) buffer es = (buffer ++ es, true) := by
      intro es
      induction es with
      | nil =>
        intro buffer
        rw [Memfs.addDirInfos, List.append_nil]
      | cons e es ih =>
        intro buffer
        rw [Memfs.addDirInfos, if_pos rfl, ih, List.append_assoc, List.singleton_append]
    have hfirst := hread none (fun buffer _ => decide (buffer.length < 2)) fun m hm => by cases hm
    have hsecond := hread (some dotDotPart) (fun _ _ => true) fun m hm => by
      rw [← Option.some.inj hm]
      exact h.marker_short hk hkname (by decide)
    rw [Memfs.leftBelow, hbelow] at hfirst
    rw [Memfs.leftBelow, if_neg (by decide), hrest, List.nil_append] at hsecond
    -- the second one has room for all, and starts behind `..`
    have hgot := hall ((fun buffer _ => decide (buffer.length < 2)) ::
      List.replicate ((v.fs.listing ps).length + 1) fun _ _ => true) ?_ (by simp)
    · have hdots : v.fs.readDirectory pathSuffix id none (fun buffer _ => decide (buffer.length < 2)) =
          some (.success, [dirInfo (dotPart, n.fileInfo), dirInfo (dotDotPart, parent.fileInfo)], false) :=
        hfirst
      have hothers : v.fs.readDirectory pathSuffix id (some Memfs.dotDot) (fun _ _ => true) =
          some (.success, (behind Prod.fst (some dotDotPart) (v.fs.entriesBelow ps)).map dirInfo, true) :=
        hsecond
      rw [List.replicate_succ, Memfs.readPages, hdots, Option.bind_eq_bind, Option.bind_some] at hgot
      simp only [Bool.false_eq_true, if_false] at hgot
      have hmarker : (([dirInfo (dotPart, n.fileInfo), dirInfo (dotDotPart, parent.fileInfo)].getLast?.map
          DirInfo.fileName).or none) = some Memfs.dotDot := rfl
      rw [hmarker, Memfs.readPages, hothers, Option.bind_eq_bind, Option.bind_eq_bind, Option.bind_some] at hgot
      simp only [if_true, Option.bind_some] at hgot
      -- so what is missing behind it is what is not behind it
      have hsame : behind Prod.fst (some dotDotPart) (v.fs.entriesBelow ps) = v.fs.entriesBelow ps := by
        have hlen := congrArg (fun r => (r.getD ([], true)).1.length) hgot
        rw [hlist] at hlen
        simp only [Option.getD_some, List.length_append, List.length_map, List.length_cons, List.length_nil] at hlen
        exact List.Sublist.eq_of_length List.filter_sublist (by omega)
      rw [← hsame] at he
      exact beq_iff_eq.mp (List.mem_filter.mp he).2
    · intro room hroom e
      rcases List.mem_cons.mp hroom with rfl | hroom
      · rfl
      · rw [List.eq_of_mem_replicate hroom]
  · intro hbehind rooms hrooms hlen
    obtain ⟨hsorted, hread⟩ := h.readDirectory_page hsplit hp hbehind
    have hpages := Memfs.readPages_eq hsorted hread rooms hrooms none (fun m hm => by cases hm)
      (by rw [behind_none]; exact hlen)
    rw [behind_none] at hpages
    exact hpages

end Volume

end FtjSsdSim.Vdisk
