import Mathlib
import FtjSsdSim.Vdisk.NameCalls

/-!
# Renaming

`Rename` takes a reference to every node of the subtree, takes the node that is replaced out of the map,
and then moves the nodes of the subtree one by one: out of the map, to the new name, and back into the
map.  The order of the map decides the order of the moves.

* `renameNode_spec` — one move: the entry is found at its new place, and all counts are as before;
* `renameLoop_spec` — all of them are `NameTree.moveEach`, which moves the subtree;
* `Volume.Inv.rename`, `Volume.Inv.rename_stops` — the call as a whole, which stops the process where memory
  runs out.
-/

namespace FtjSsdSim.Vdisk

open Std FtjSsdSim.Library FtjSsdSim.Engine

variable {nls : Nls} {v : Volume nls false} {a : Store} {id : NodeId} {n m : FileNode}
  {status : Status} {ps qs : Path} {pathSuffix : PathSuffix} {hits : FTJController.Hits} {sys : System}

/-! ### The new names -/

/-- What `memmove` and `memcpy` make of the name of a descendant. -/
theorem pathName_renamed (hps : ps ≠ []) (hqs : qs ≠ []) (rs : Path) :
    pathName qs ++ (pathName (ps ++ rs)).drop (pathName ps).length = pathName (qs ++ rs) := by
  have hps' : ps ++ rs ≠ [] := fun h => hps (List.append_eq_nil_iff.mp h).1
  have hqs' : qs ++ rs ≠ [] := fun h => hqs (List.append_eq_nil_iff.mp h).1
  rw [pathName_of_ne_nil hps', pathName_of_ne_nil hqs', pathName_of_ne_nil hps, pathName_of_ne_nil hqs,
    List.flatMap_append, List.flatMap_append, List.drop_left]

/-- The length that is checked beforehand is that of the new name. -/
theorem length_renamed (hps : ps ≠ []) (hqs : qs ≠ []) (rs : Path) :
    (pathName (ps ++ rs)).length - (pathName ps).length + (pathName qs).length =
      (pathName (qs ++ rs)).length := by
  rw [← pathName_renamed hps hqs rs, List.length_append, List.length_drop]
  exact Nat.add_comm _ _

/-- Only one path is that of the disk file. -/
theorem pathName_append_ne_diskName (hps : ps ≠ []) {rs : Path} (hrs : rs ≠ []) :
    pathName (ps ++ rs) ≠ diskName := by
  rw [← pathName_diskPath]
  intro h
  have hlen := congrArg List.length (pathName_injective h)
  rw [List.length_append, show diskPath.length = 1 from rfl] at hlen
  have h₁ := List.length_pos_of_ne_nil hps
  have h₂ := List.length_pos_of_ne_nil hrs
  omega

namespace Memfs

variable {s t : Memfs nls false} {held : Multiset NodeId}

/-! ### The references of the loop -/

theorem references (ids : List NodeId) (h : s.Sound held)
    (hids : ∀ i ∈ ids, ∃ n, s.nodes i = some n) :
    ∃ t, ids.foldlM fileNodeReference s = some t ∧ t.Sound (↑ids + held) ∧
      Updated CountAndTimes s t := by
  induction ids generalizing s held with
  | nil =>
    refine ⟨s, rfl, ?_, .refl .refl s⟩
    rw [Multiset.coe_nil, Multiset.zero_add]
    exact h
  | cons i ids ih =>
    obtain ⟨n, hn⟩ := hids i (List.mem_cons_self ..)
    have hu : Updated CountAndTimes s (s.setNode i (referenced n)) := updated_setNode .refl hn rfl
    obtain ⟨t, ht, hsound, hut⟩ := ih (h.referenced hn) fun j hj => by
      obtain ⟨m, hm⟩ := hids j (List.mem_cons_of_mem _ hj)
      obtain ⟨k, hk, -⟩ := hu.node j m hm
      exact ⟨k, hk⟩
    refine ⟨t, ?_, ?_, hu.trans .trans hut⟩
    · rw [List.foldlM_cons, fileNodeReference_eq hn, Option.bind_eq_bind, Option.bind_some]
      exact ht
    · rw [← Multiset.cons_coe, Multiset.cons_add, ← Multiset.add_cons]
      exact hsound

theorem dereferences (ids : List NodeId) (h : s.Sound (↑ids + held)) :
    ∃ t, ids.foldlM fileNodeDereference s = some t ∧ t.Sound held ∧ Descends CountAndTimes s t ∧
      t.fileNodeMap = s.fileNodeMap := by
  induction ids generalizing s with
  | nil =>
    rw [Multiset.coe_nil, Multiset.zero_add] at h
    exact ⟨s, rfl, h, .refl .refl s, rfl⟩
  | cons i ids ih =>
    rw [← Multiset.cons_coe, Multiset.cons_add] at h
    obtain ⟨u, hu, husound, hd, hmap⟩ := fileNodeDereference_spec h
    obtain ⟨t, ht, hsound, hdt, hmapt⟩ := ih husound
    refine ⟨t, ?_, hsound, hd.trans .trans hdt, hmapt.trans hmap⟩
    rw [List.foldlM_cons, hu, Option.bind_eq_bind, Option.bind_some]
    exact ht

/-! ### One move -/

/-- A node that is not in the map may get another name. -/
theorem Named.rename (h : s.Named) (hn : s.nodes id = some n) (hnot : ¬ s.Mapped id)
    (hname : m.fileName = pathName ps) (hlen : (pathName ps).length < maxPath) :
    (s.setNode id m).Named where
  canonical := h.canonical
  entry qs j hq := by
    obtain ⟨k, hk, hkname⟩ := h.entry qs j hq
    refine ⟨k, ?_, hkname⟩
    rw [setNode_nodes, if_neg, hk]
    rintro rfl
    exact hnot ⟨qs, hq⟩
  node j k hk := by
    rw [setNode_nodes] at hk
    split_ifs at hk
    · rw [← Option.some.inj hk]
      exact ⟨ps, hname, hlen⟩
    · exact h.node j k hk
  fresh j k hk := by
    rw [setNode_nodes] at hk
    split_ifs at hk with hj
    · rw [hj]
      exact h.fresh id n hn
    · exact h.fresh j k hk

theorem Sound.rename (h : s.Sound held) (hn : s.nodes id = some n) (hnot : ¬ s.Mapped id)
    (hname : m.fileName = pathName ps) (hlen : (pathName ps).length < maxPath)
    (hcount : m.refCount = n.refCount) : (s.setNode id m).Sound held := by
  refine ⟨h.named.rename hn hnot hname hlen, fun j => ?_, fun j k hk => ?_⟩
  · have hj := h.counted j
    rw [mapRefs_congr (s := s) (t := s.setNode id m) rfl j, setNode_nodes]
    by_cases heq : j = id
    · rw [heq, hn] at hj
      rw [if_pos heq, heq]
      exact hcount.trans hj
    · rw [if_neg heq]
      exact hj
  · rw [setNode_nodes] at hk
    split_ifs at hk
    · rw [← Option.some.inj hk, hcount]
      exact h.live id n hn
    · exact h.live j k hk

/-- The names after one move. -/
def RenamedTo (id : NodeId) (name : FileName) (s t : Memfs nls false) : Prop :=
  ∀ j m, t.nodes j = some m → ∃ n, s.nodes j = some n ∧ CountAndTimes { n with fileName := m.fileName } m ∧
    m.fileName = if j = id then name else n.fileName

/-- **One move.**  The entry at the old name goes, if it is there, and the node is filed under the new
name. -/
theorem renameNode_spec (hsplit : Splits pathSuffix) (h : s.Sound held) (hid : id ∈ held)
    (hn : s.nodes id = some n) (hps : ps ≠ []) (hqs : qs ≠ []) {rs : Path}
    (hname : n.fileName = pathName (ps ++ rs)) (hlen : (pathName (qs ++ rs)).length < maxPath)
    (hown : ∀ owner, s.lookup (ps ++ rs) = some owner → owner = id)
    (hfree : NameTree.unfile s.lookup (ps ++ rs) (qs ++ rs) = none) (hmem : sys.insertOk id = true) :
    ∃ t, s.renameNode pathSuffix sys (pathName qs) (pathName ps).length id = some t ∧ t.Sound held ∧
      RenamedTo id (pathName (qs ++ rs)) s t ∧ t.lookup = NameTree.moveOne ps qs s.lookup (rs, id) ∧
      t = { s with nodes := t.nodes, fileNodeMap := t.fileNodeMap } := by
  -- the node leaves the map, where it may not have been
  have hremove : ∃ u, s.fileNodeMapRemove pathSuffix sys id = some u ∧ u.Sound held ∧
      Descends CountAndTimes s u ∧ u.lookup = NameTree.unfile s.lookup (ps ++ rs) := by
    cases hlook : s.lookup (ps ++ rs) with
    | none =>
      refine ⟨s, fileNodeMapRemove_of_lookup_none sys hn hname hlook, h, .refl .refl s, ?_⟩
      rw [NameTree.unfile_of_none hlook]
    | some owner =>
      obtain rfl := hown owner hlook
      obtain ⟨u, hu, husound, hd, hmap⟩ := fileNodeMapRemove_spec sys hsplit h hn hname hlook
        (Multiset.mem_cons_self owner held)
      rw [Multiset.erase_cons_head] at husound
      exact ⟨u, hu, husound, hd, lookup_unfile hmap⟩
  obtain ⟨u, hu, husound, hd, hulook⟩ := hremove
  obtain ⟨k, hk⟩ := husound.counted.held_pos hid
  obtain ⟨n', hn', hcount⟩ := hd.node id k hk
  obtain rfl : n = n' := Option.some.inj (hn.symm.trans hn')
  have hkname : k.fileName = pathName (ps ++ rs) := hcount.fileName.trans hname
  have hnot : ¬ u.Mapped id := by
    rw [husound.named.mapped_iff hk hkname, hulook, NameTree.unfile_apply, if_pos rfl]
    simp
  -- it gets its new name
  obtain ⟨l, hl⟩ : ∃ l : FileNode, l = { k with fileName := pathName (qs ++ rs) } := ⟨_, rfl⟩
  have hlname : l.fileName = pathName (qs ++ rs) := by rw [hl]
  have hset : { k with fileName := pathName qs ++ k.fileName.drop (pathName ps).length } = l := by
    rw [hl, hkname, pathName_renamed hps hqs]
  have hwsound : (u.setNode id l).Sound held := husound.rename hk hnot hlname hlen (by rw [hl])
  have hln : (u.setNode id l).nodes id = some l := by rw [setNode_nodes, if_pos rfl]
  have hwfree : (u.setNode id l).lookup (qs ++ rs) = none := by
    show u.lookup (qs ++ rs) = none
    rw [hulook]
    exact hfree
  -- and goes back
  obtain ⟨t, ht, htsound, hdt, hmap⟩ := fileNodeMapInsert_sound hsplit (hwsound.referenced hln)
    hwsound.named hln hlname hwfree hmem
  refine ⟨t, ?_, htsound, fun j m hm => ?_, ?_, ?_⟩
  · rw [renameNode, hu, Option.bind_eq_bind, Option.bind_some, hk, Option.bind_eq_bind, Option.bind_some]
    simp only
    rw [hset, ht]
    rfl
  · obtain ⟨w, hw, hwm⟩ := hdt.node j m hm
    rw [setNode_nodes] at hw
    have hmname := hwm.fileName
    by_cases hj : j = id
    · rw [if_pos hj] at hw
      rw [← Option.some.inj hw] at hwm hmname
      have hlcount : CountAndTimes { n with fileName := pathName (qs ++ rs) } l := by
        rw [CountAndTimes, TimesOnly] at hcount ⊢
        rw [hl, hcount]
      refine ⟨n, hj ▸ hn, ?_, ?_⟩
      · rw [hmname, hlname]
        exact hlcount.trans hwm
      · rw [if_pos hj]
        exact hmname.trans hlname
    · rw [if_neg hj] at hw
      obtain ⟨o, ho, how⟩ := hd.node j w hw
      have hboth := how.trans hwm
      refine ⟨o, ho, ?_, ?_⟩
      · rw [hboth.fileName]
        exact hboth
      · rw [if_neg hj]
        exact hboth.fileName
  · rw [lookup_file hmap]
    show NameTree.file u.lookup (qs ++ rs) id = _
    rw [hulook]
    rfl
  · have hrest := hdt.rest
    rw [hd.rest] at hrest
    exact hrest

/-- Without memory for the entry the process stops. -/
theorem renameNode_stops (hmem : sys.insertOk id = false) (newFileName : FileName) (fileNameLen : ℕ)
    (s : Memfs nls false) : s.renameNode pathSuffix sys newFileName fileNameLen id = none := by
  rw [renameNode, Option.bind_eq_bind]
  refine Option.bind_eq_none_iff.mpr fun u _ => ?_
  rw [Option.bind_eq_bind]
  refine Option.bind_eq_none_iff.mpr fun n _ => ?_
  simp only
  rw [fileNodeMapInsert_failed pathSuffix (by rw [setNode_nodes, if_pos rfl]) hmem]
  rfl

/-! ### All moves -/

/-- The names after the moves of a list. -/
def RenamedEach (qs : Path) (l : List (Path × NodeId)) (s t : Memfs nls false) : Prop :=
  ∀ j m, t.nodes j = some m → ∃ n, s.nodes j = some n ∧ CountAndTimes { n with fileName := m.fileName } m ∧
    ((∃ rs, (rs, j) ∈ l ∧ m.fileName = pathName (qs ++ rs)) ∨
      ((∀ rs, (rs, j) ∉ l) ∧ m.fileName = n.fileName))

/-- What each node of the list needs for its move. -/
structure Movable (ps qs : Path) (s : Memfs nls false) (held : Multiset NodeId) (x : Path × NodeId) : Prop where
  held : x.2 ∈ held
  name : ∀ n, s.nodes x.2 = some n → n.fileName = pathName (ps ++ x.1)
  length : (pathName (qs ++ x.1)).length < maxPath
  own : ∀ owner, s.lookup (ps ++ x.1) = some owner → owner = x.2
  free : NameTree.unfile s.lookup (ps ++ x.1) (qs ++ x.1) = none

/-- The move of one node leaves the others as they are. -/
theorem Movable.renameNode {x y : Path × NodeId} (hy : Movable ps qs s held y)
    (hplace : ps = qs ∨ NameTree.Apart ps qs) (hne : y.1 ≠ x.1) (hid : y.2 ≠ x.2)
    (hrenamed : RenamedTo x.2 (pathName (qs ++ x.1)) s t)
    (hlook : t.lookup = NameTree.moveOne ps qs s.lookup x) : Movable ps qs t held y := by
  -- neither of its two places is one of `x`
  have hother : ∀ rs, rs = ps ++ y.1 ∨ rs = qs ++ y.1 → t.lookup rs = s.lookup rs := by
    intro rs hrs
    have hnot : rs ≠ qs ++ x.1 ∧ rs ≠ ps ++ x.1 := by
      rcases hplace with rfl | hapart
      · have hsame : ps ++ y.1 ≠ ps ++ x.1 := fun h => hne (List.append_cancel_left h)
        rcases hrs with rfl | rfl <;> exact ⟨hsame, hsame⟩
      · rcases hrs with rfl | rfl
        · exact ⟨hapart.append_ne _ _, fun h => hne (List.append_cancel_left h)⟩
        · exact ⟨fun h => hne (List.append_cancel_left h), fun h => hapart.append_ne _ _ h.symm⟩
    rw [hlook, NameTree.moveOne, NameTree.file_apply, if_neg hnot.1, NameTree.unfile_apply, if_neg hnot.2]
  refine ⟨hy.held, fun m hm => ?_, hy.length, fun owner howner => ?_, ?_⟩
  · obtain ⟨n, hn, -, hname⟩ := hrenamed y.2 m hm
    rw [hname, if_neg hid]
    exact hy.name n hn
  · rw [hother _ (.inl rfl)] at howner
    exact hy.own owner howner
  · have hfree := hy.free
    rw [NameTree.unfile_apply] at hfree ⊢
    rw [hother _ (.inr rfl)]
    exact hfree

/-- **The loop** moves name by name. -/
theorem renameLoop_spec (hsplit : Splits pathSuffix) (hps : ps ≠ []) (hqs : qs ≠ [])
    (hplace : ps = qs ∨ NameTree.Apart ps qs) {l : List (Path × NodeId)}
    (hmem : ∀ x ∈ l, sys.insertOk x.2 = true) (hnodup : (l.map Prod.fst).Nodup) (h : s.Sound held)
    (hl : ∀ x ∈ l, Movable ps qs s held x) :
    ∃ t, (l.map Prod.snd).foldlM (renameNode pathSuffix sys (pathName qs) (pathName ps).length) s = some t ∧
      t.Sound held ∧ RenamedEach qs l s t ∧ t.lookup = NameTree.moveEach ps qs s.lookup l ∧
      t = { s with nodes := t.nodes, fileNodeMap := t.fileNodeMap } := by
  induction l generalizing s with
  | nil =>
    refine ⟨s, rfl, h, fun j m hm => ⟨m, hm, rfl, .inr ⟨?_, rfl⟩⟩, rfl, rfl⟩
    intro rs hrs
    cases hrs
  | cons x l ih =>
    rw [List.map_cons, List.nodup_cons] at hnodup
    have hx := hl x (List.mem_cons_self ..)
    obtain ⟨n, hn⟩ := h.counted.held_pos hx.held
    have hxname := hx.name n hn
    obtain ⟨u, hu, husound, hrenamed, hulook, hurest⟩ :=
      renameNode_spec hsplit h hx.held hn hps hqs hxname hx.length hx.own hx.free (hmem x (List.mem_cons_self ..))
    -- the rest of the list has other places, so other nodes
    have hdiff : ∀ y ∈ l, y.1 ≠ x.1 ∧ y.2 ≠ x.2 := by
      intro y hy
      have hne : y.1 ≠ x.1 := fun heq => hnodup.1 (heq ▸ List.mem_map_of_mem hy)
      refine ⟨hne, fun heq => hne ?_⟩
      have hyname := (hl y (List.mem_cons_of_mem _ hy)).name n (heq ▸ hn)
      rw [hxname] at hyname
      exact (List.append_cancel_left (pathName_injective hyname)).symm
    have hmem' : ∀ y ∈ l, sys.insertOk y.2 = true := fun y hy => hmem y (List.mem_cons_of_mem _ hy)
    obtain ⟨t, ht, htsound, hrenamedt, htlook, htrest⟩ := ih hmem' hnodup.2 husound fun y hy =>
      (hl y (List.mem_cons_of_mem _ hy)).renameNode hplace (hdiff y hy).1 (hdiff y hy).2 hrenamed hulook
    refine ⟨t, ?_, htsound, fun j m hm => ?_, ?_, ?_⟩
    · rw [List.map_cons, List.foldlM_cons, hu, Option.bind_eq_bind, Option.bind_some]
      exact ht
    · obtain ⟨k, hk, hkm, hcase⟩ := hrenamedt j m hm
      obtain ⟨o, ho, hok, honame⟩ := hrenamed j k hk
      have hom : CountAndTimes { o with fileName := m.fileName } m := by
        rw [CountAndTimes, TimesOnly] at hok hkm ⊢
        rw [hkm, hok]
      refine ⟨o, ho, hom, ?_⟩
      rcases hcase with ⟨rs, hrs, hname⟩ | ⟨hnot, hname⟩
      · exact .inl ⟨rs, List.mem_cons_of_mem _ hrs, hname⟩
      · by_cases hj : j = x.2
        · rw [if_pos hj] at honame
          exact .inl ⟨x.1, hj ▸ List.mem_cons_self .., hname.trans honame⟩
        · rw [if_neg hj] at honame
          refine .inr ⟨fun rs hrs => ?_, hname.trans honame⟩
          rcases List.mem_cons.mp hrs with heq | hrest
          · exact hj (congrArg Prod.snd heq)
          · exact hnot rs hrest
    · rw [htlook, hulook]
      rfl
    · rw [hurest] at htrest
      exact htrest

/-- The loop stops at the first entry for which there is no memory. -/
theorem renameLoop_stops (hmem : sys.insertOk id = false) (newFileName : FileName) (fileNameLen : ℕ)
    {ids : List NodeId} (hid : id ∈ ids) (s : Memfs nls false) :
    ids.foldlM (renameNode pathSuffix sys newFileName fileNameLen) s = none := by
  induction ids generalizing s with
  | nil => cases hid
  | cons i ids ih =>
    rw [List.foldlM_cons, Option.bind_eq_bind]
    refine Option.bind_eq_none_iff.mpr fun t ht => ?_
    rcases List.mem_cons.mp hid with rfl | hrest
    · rw [renameNode_stops hmem] at ht
      cases ht
    · exact ih hrest t

/-- The node that is replaced leaves the map. -/
theorem renameReplace_spec (hsplit : Splits pathSuffix) (h : s.Sound held) (sys : System) (qs : Path) :
    ∃ t, s.renameReplace pathSuffix sys (s.lookup qs) = some t ∧ t.Sound held ∧
      Descends CountAndTimes s t ∧ t.lookup = NameTree.unfile s.lookup qs := by
  cases hlook : s.lookup qs with
  | none =>
    refine ⟨s, rfl, h, .refl .refl s, ?_⟩
    rw [NameTree.unfile_of_none hlook]
  | some new =>
    obtain ⟨n, hn, hname⟩ := h.named.entry qs new hlook
    have hu : Updated CountAndTimes s (s.setNode new (referenced n)) := updated_setNode .refl hn rfl
    have hun : (s.setNode new (referenced n)).nodes new = some (referenced n) := by
      rw [setNode_nodes, if_pos rfl]
    obtain ⟨w, hw, hwsound, hdw, hwmap⟩ := fileNodeMapRemove_spec sys hsplit (h.referenced hn) hun
      (show (referenced n).fileName = pathName qs from hname) hlook (Multiset.mem_cons_self new (new ::ₘ held))
    rw [Multiset.erase_cons_head] at hwsound
    obtain ⟨t, ht, htsound, hdt, htmap⟩ := fileNodeDereference_spec hwsound
    refine ⟨t, ?_, htsound, (hu.descends fun _ _ h => h).trans .trans (hdw.trans .trans hdt), ?_⟩
    · rw [renameReplace, fileNodeReference_eq hn, Option.bind_eq_bind, Option.bind_some, hw]
      exact ht
    · exact lookup_unfile (htmap.trans hwmap)

/-! ### How many names there are -/

/-- A map without other nodes has no more entries. -/
theorem size_le_of_mapped (h : s.Named) (ht : t.Named) (hmapped : ∀ j, t.Mapped j → s.Mapped j) :
    t.fileNodeMap.size ≤ s.fileNodeMap.size := by
  have hsub : t.fileNodeMap.toList.map Prod.snd ⊆ s.fileNodeMap.toList.map Prod.snd := by
    intro j hj
    exact h.mem_ids.mpr (hmapped j (ht.mem_ids.mp hj))
  have hlen := (ht.nodup_ids.subperm hsub).length_le
  rwa [List.length_map, List.length_map, TreeMap.length_toList, TreeMap.length_toList] at hlen

end Memfs

namespace Memfs

variable {s : Memfs nls false} {held : Multiset NodeId}

/-- The nodes of a subtree, with their places in it, as the enumeration finds them. -/
noncomputable def subtree (s : Memfs nls false) (ps : Path) : List (Path × NodeId) :=
  (s.fileNodeMap.toList.filter fun e => ps.isPrefixOf (pathOf e.1)).map fun e =>
    ((pathOf e.1).drop ps.length, e.2)

theorem mem_subtree (h : s.Named) (rs : Path) (j : NodeId) :
    (rs, j) ∈ s.subtree ps ↔ s.lookup (ps ++ rs) = some j := by
  rw [subtree, List.mem_map, lookup, h.canonical.getElem?_eq_some]
  constructor
  · rintro ⟨e, he, heq⟩
    obtain ⟨he, hpre⟩ := List.mem_filter.mp he
    obtain ⟨rfl, rfl⟩ := Prod.mk.inj heq
    rw [← List.prefix_append_drop (List.isPrefixOf_iff_prefix.mp hpre), h.canonical e he]
    exact he
  · intro hmem
    refine ⟨_, List.mem_filter.mpr ⟨hmem, ?_⟩, ?_⟩
    · rw [pathOf_pathName, List.isPrefixOf_iff_prefix]
      exact List.prefix_append ps rs
    · rw [pathOf_pathName, List.drop_left]

theorem nodup_subtree (h : s.Named) (ps : Path) : ((s.subtree ps).map Prod.fst).Nodup := by
  have hsorted := h.canonical.ascending.filter fun e => ps.isPrefixOf (pathOf e.1)
  rw [subtree, List.map_map]
  refine List.Pairwise.map _ (fun _ _ hne => hne) (List.Pairwise.imp_of_mem ?_ hsorted)
  intro x y hx hy hlt heq
  have hx' := List.prefix_append_drop (List.isPrefixOf_iff_prefix.mp (List.mem_filter.mp hx).2)
  have hy' := List.prefix_append_drop (List.isPrefixOf_iff_prefix.mp (List.mem_filter.mp hy).2)
  have hpath : pathOf x.1 = pathOf y.1 := by
    rw [hx', hy']
    exact congrArg (ps ++ ·) heq
  simp only at hlt
  rw [hpath, ReflOrd.compare_self] at hlt
  cases hlt

/-- There is one node for every name of the subtree. -/
theorem ncard_subtree (h : s.Named) (ps : Path) :
    {rs | s.lookup (ps ++ rs) ≠ none}.ncard = ((s.subtree ps).map Prod.snd).length := by
  have hset : {rs | s.lookup (ps ++ rs) ≠ none} = ((s.subtree ps).map Prod.fst).toFinset := by
    ext rs
    rw [Set.mem_ofPred_eq, Finset.mem_coe, List.mem_toFinset, List.mem_map, Option.ne_none_iff_exists']
    constructor
    · intro ⟨j, hj⟩
      exact ⟨(rs, j), (mem_subtree h rs j).mpr hj, rfl⟩
    · rintro ⟨x, hx, rfl⟩
      exact ⟨x.2, (mem_subtree h x.1 x.2).mp hx⟩
  rw [hset, Set.ncard_coe_finset, List.toFinset_card_of_nodup (nodup_subtree h ps), List.length_map,
    List.length_map]

/-- `Rename` of a node that it does not refuse to rename: the list of the nodes, the test of the lengths,
and the moves. -/
theorem rename_eq (pathSuffix : PathSuffix) (h : s.Named) (sys : System) (hn : s.nodes id = some n)
    (hname : n.fileName = pathName ps) (hp : s.lookup ps = some id) (hdisk : n.fileName ≠ diskName) {replaceIfExists : Bool}
    (hgo : s.renameRefused id (pathName qs) replaceIfExists = some none) {ids : List NodeId}
    (hids : ids = (s.subtree ps).map Prod.snd) :
    (ListFails sys ids.length → s.rename pathSuffix sys id (pathName qs) replaceIfExists = none) ∧
    (¬ ListFails sys ids.length → s.rename pathSuffix sys id (pathName qs) replaceIfExists =
      (ids.foldlM fileNodeReference s).bind fun u =>
        if (s.fileNodeMap.toList.filter fun e => ps.isPrefixOf (pathOf e.1)).any fun e =>
            maxPath ≤ e.1.length - (pathName ps).length + (pathName qs).length then
          (ids.foldlM fileNodeDereference u).bind fun t => some (.objectNameInvalid, t)
        else
          (u.renameReplace pathSuffix sys (s.lookup qs)).bind fun w =>
            (ids.foldlM (renameNode pathSuffix sys (pathName qs) (pathName ps).length) w).bind fun x =>
              (ids.foldlM fileNodeDereference x).bind fun t => some (.success, t)) := by
  have hne : ids ≠ [] := by
    have hroot : ([], id) ∈ s.subtree ps := by
      rw [mem_subtree h, List.append_nil]
      exact hp
    rw [hids]
    exact List.ne_nil_of_mem (List.mem_map_of_mem hroot)
  have hmap : (s.fileNodeMap.toList.filter fun e => ps.isPrefixOf (pathOf e.1)).map Prod.snd = ids := by
    rw [hids, subtree, List.map_map]
    rfl
  obtain ⟨hfails, hlists⟩ := enumerate_spec sys hne s
  rw [rename, hn, Option.bind_eq_bind, Option.bind_some, if_neg hdisk, hgo, Option.bind_eq_bind,
    Option.bind_some]
  simp only
  rw [fileNodeMapEnumerateDescendants_spec h.canonical hn hname, Option.bind_eq_bind, Option.bind_some, hmap,
    hname, show s.fileNodeMapGet (pathName qs) = s.lookup qs from rfl]
  constructor
  · intro hfail
    rw [hfails hfail]
    rfl
  · intro hok
    obtain ⟨capacity, heq⟩ := hlists hok
    rw [heq]
    cases ids.foldlM fileNodeReference s with
    | none => rfl
    | some u => rfl

/-- The test of the lengths is about the new names. -/
theorem subtree_length (h : s.Named) (hps : ps ≠ []) (hqs : qs ≠ []) :
    ((s.fileNodeMap.toList.filter fun e => ps.isPrefixOf (pathOf e.1)).any fun e =>
        maxPath ≤ e.1.length - (pathName ps).length + (pathName qs).length) = true ↔
      ∃ rs j, s.lookup (ps ++ rs) = some j ∧ maxPath ≤ (pathName (qs ++ rs)).length := by
  rw [List.any_eq_true]
  constructor
  · rintro ⟨e, he, hlen⟩
    obtain ⟨hmem, hpre⟩ := List.mem_filter.mp he
    obtain ⟨rs, hrs⟩ := List.isPrefixOf_iff_prefix.mp hpre
    have hname : e.1 = pathName (ps ++ rs) := by
      rw [hrs]
      exact (h.canonical e hmem).symm
    refine ⟨rs, e.2, h.canonical.getElem?_eq_some.mpr (by rw [← hname]; exact hmem), ?_⟩
    rw [← length_renamed hps hqs, ← hname]
    exact of_decide_eq_true hlen
  · rintro ⟨rs, j, hlook, hlen⟩
    refine ⟨(pathName (ps ++ rs), j), List.mem_filter.mpr
      ⟨h.canonical.getElem?_eq_some.mp hlook, ?_⟩, decide_eq_true ?_⟩
    · rw [pathOf_pathName, List.isPrefixOf_iff_prefix]
      exact List.prefix_append ps rs
    · show maxPath ≤ (pathName (ps ++ rs)).length - (pathName ps).length + (pathName qs).length
      rw [length_renamed hps hqs]
      exact hlen

/-- `Rename` from the replacement on: the subtree is moved, and the references of the loop are given
back. -/
theorem renameMoves_spec (hsplit : Splits pathSuffix) (h : s.Sound held) (hps : ps ≠ []) (hqs : qs ≠ [])
    (hplace : ps = qs ∨ NameTree.Apart ps qs)
    (hfree : ps ≠ qs → ∀ rs j, s.lookup (qs ++ rs) = some j → rs = [])
    (hlen : ∀ rs j, s.lookup (ps ++ rs) = some j → (pathName (qs ++ rs)).length < maxPath)
    (hmem : ∀ y ∈ s.subtree ps, sys.insertOk y.2 = true) {u : Memfs nls false}
    (hu : u.Sound (↑((s.subtree ps).map Prod.snd) + held)) (hsu : Updated CountAndTimes s u) :
    ∃ w x t, u.renameReplace pathSuffix sys (s.lookup qs) = some w ∧
      ((s.subtree ps).map Prod.snd).foldlM (renameNode pathSuffix sys (pathName qs) (pathName ps).length) w =
        some x ∧
      ((s.subtree ps).map Prod.snd).foldlM fileNodeDereference x = some t ∧ t.Sound held ∧
      RenamedEach qs (s.subtree ps) s t ∧ t.lookup = NameTree.move s.lookup ps qs ∧
      t = { s with nodes := t.nodes, fileNodeMap := t.fileNodeMap } := by
  have hulook : u.lookup = s.lookup := funext hsu.lookup
  obtain ⟨w, hw, hwsound, hdw, hwlook⟩ := renameReplace_spec hsplit hu sys qs
  rw [hulook] at hw hwlook
  have hsw : Descends CountAndTimes s w := (hsu.descends fun _ _ h => h).trans .trans hdw
  -- every node of the subtree is ready for its move
  have hmovable : ∀ y ∈ s.subtree ps,
      Movable ps qs w (↑((s.subtree ps).map Prod.snd) + held) y := by
    intro y hy
    have hlook := (mem_subtree h.named y.1 y.2).mp hy
    refine ⟨Multiset.mem_add.mpr (.inl (List.mem_map_of_mem hy)), fun m hm => ?_, hlen y.1 y.2 hlook,
      fun owner howner => ?_, ?_⟩
    · obtain ⟨n, hn, hnm⟩ := hsw.node y.2 m hm
      obtain ⟨k, hk, hkname⟩ := h.named.entry _ _ hlook
      rw [hn] at hk
      rw [hnm.fileName, Option.some.inj hk]
      exact hkname
    · rw [hwlook, NameTree.unfile_apply] at howner
      split_ifs at howner
      rw [hlook] at howner
      exact (Option.some.inj howner).symm
    · rw [hwlook, NameTree.unfile_apply, NameTree.unfile_apply]
      split_ifs with hold hnew
      · rfl
      · rfl
      · -- nothing else is filed below the new name
        by_cases hpq : ps = qs
        · exact absurd (by rw [hpq]) hold
        · cases hsome : s.lookup (qs ++ y.1) with
          | none => rfl
          | some j => exact absurd (by rw [hfree hpq y.1 j hsome, List.append_nil]) hnew
  obtain ⟨x, hx, hxsound, hrenamed, hxlook, hxrest⟩ :=
    renameLoop_spec hsplit hps hqs hplace hmem (nodup_subtree h.named ps) hwsound hmovable
  obtain ⟨t, ht, htsound, hdt, htmap⟩ := dereferences _ hxsound
  refine ⟨w, x, t, hw, hx, ht, htsound, fun j m hm => ?_, ?_, ?_⟩
  · obtain ⟨k, hk, hkm⟩ := hdt.node j m hm
    obtain ⟨l, hl, hlk, hcase⟩ := hrenamed j k hk
    obtain ⟨n, hn, hnl⟩ := hsw.node j l hl
    have hname := hkm.fileName
    have hall : CountAndTimes { n with fileName := m.fileName } m := by
      rw [hname]
      rw [CountAndTimes, TimesOnly] at hnl hlk hkm ⊢
      rw [hkm, hlk, hnl]
    refine ⟨n, hn, hall, ?_⟩
    rcases hcase with ⟨rs, hrs, hkname⟩ | ⟨hnot, hkname⟩
    · exact .inl ⟨rs, hrs, hname.trans hkname⟩
    · exact .inr ⟨hnot, hname.trans (hkname.trans hnl.fileName)⟩
  · have htlook : t.lookup = x.lookup := by
      funext rs
      rw [lookup, htmap]
      rfl
    rw [htlook, hxlook, hwlook]
    exact NameTree.moveEach_eq_move hplace hfree fun rs j => mem_subtree h.named rs j
  · have hrest := hdt.rest
    rw [hxrest, hsw.rest] at hrest
    exact hrest

end Memfs

namespace Volume

variable {newFileName : FileName} {replaceIfExists : Bool}

theorem apply_rename_failed (h : status ≠ .success) :
    a.apply (.rename id newFileName replaceIfExists) (.done status) = a := by
  cases status <;> first | rfl | exact absurd rfl h

/-- Whether `Rename` goes on. -/
theorem Inv.renameRefused (h : v.Inv) (id : NodeId) (qs : Path) (replaceIfExists : Bool) :
    (∃ status, status ≠ .success ∧
        v.fs.renameRefused id (pathName qs) replaceIfExists = some (some status) ∧
        ∃ other, v.fs.lookup qs = some other ∧ other ≠ id ∧ (replaceIfExists = true → v.fs.IsDir other)) ∨
      (v.fs.renameRefused id (pathName qs) replaceIfExists = some none ∧
        ∀ other, v.fs.lookup qs = some other → other ≠ id → replaceIfExists = true ∧ ¬ v.fs.IsDir other) := by
  rw [Memfs.renameRefused, show v.fs.fileNodeMapGet (pathName qs) = v.fs.lookup qs from rfl]
  cases hlook : v.fs.lookup qs with
  | none =>
    refine .inr ⟨rfl, fun other hother => ?_⟩
    cases hother
  | some new =>
    simp only
    by_cases hself : new = id
    · rw [if_pos hself]
      exact .inr ⟨rfl, fun other hother hne => absurd (Option.some.inj hother ▸ hself) hne⟩
    · rw [if_neg hself]
      cases replaceIfExists with
      | false => exact .inl ⟨.objectNameCollision, by decide, rfl, new, rfl, hself, fun hreplace => by cases hreplace⟩
      | true =>
        obtain ⟨m, hm, -⟩ := h.mapped_node hlook
        rw [if_neg (by decide), hm, Option.bind_eq_bind, Option.bind_some]
        by_cases hdir : m.isDirectory = true
        · rw [if_pos hdir]
          exact .inl ⟨.accessDenied, by decide, rfl, new, rfl, hself, fun _ => ⟨m, hm, hdir⟩⟩
        · rw [if_neg hdir]
          refine .inr ⟨rfl, fun other hother _ => ⟨rfl, fun hother' => hdir ?_⟩⟩
          obtain ⟨k, hk, hkdir⟩ := hother'
          rw [← Option.some.inj hother, hm] at hk
          rw [Option.some.inj hk]
          exact hkdir

open Classical in
/-- The store that shows the moved subtree. -/
theorem apply_rename_moved (htree : ∀ rs, a.tree rs = some id ↔ rs = ps) :
    a.apply (.rename id (pathName qs) replaceIfExists) (.done .success) =
      { a with
        tree := a.tree.move ps qs
        object := Function.update a.object id (Store.renamed qs (a.object id)) } := by
  have hex : ∃ rs, a.tree rs = some id := ⟨ps, (htree ps).mpr rfl⟩
  have hmove : (fun rs => if h : ∃ ps, a.tree ps = some id then
      a.tree.move h.choose (pathOf (pathName qs)) rs else a.tree rs) = a.tree.move ps qs := by
    funext rs
    rw [dif_pos hex, (htree hex.choose).mp hex.choose_spec, pathOf_pathName]
  show ({ a with tree := _, object := _ } : Store) = _
  rw [hmove, pathOf_pathName]

/-- The objects after the moves: only what gets the name of the disk file looks different. -/
theorem Shows.renamed (hs : v.Shows a) (hN : v.fs.Named) {s : Memfs nls false} (hn : v.fs.nodes id = some n)
    (hp : v.fs.lookup ps = some id) (hps : ps ≠ []) (hqs : qs ≠ [])
    (hdisk : n.fileName ≠ diskName) (hrenamed : Memfs.RenamedEach qs (v.fs.subtree ps) v.fs s)
    (hlook : s.lookup = NameTree.move v.fs.lookup ps qs) :
    Shows { v with fs := s } { a with
      tree := a.tree.move ps qs
      object := Function.update a.object id (Store.renamed qs (a.object id)) } := by
  refine ⟨by rw [hlook, hs.tree], hs.opens, fun j m hm => ?_⟩
  obtain ⟨k, hk, hkm, hcase⟩ := hrenamed j m hm
  have hdir : m.isDirectory = k.isDirectory := hkm.carried.isDirectory
  have hcontents : m.contents = k.contents := hkm.carried.contents
  show Function.update a.object id (Store.renamed qs (a.object id)) j = m.view
  rw [Function.update_apply]
  by_cases hj : j = id
  · rw [if_pos hj]
    obtain rfl : n = k := Option.some.inj (hn.symm.trans (hj ▸ hk))
    have hmname : m.fileName = pathName qs := by
      rcases hcase with ⟨rs, hrs, hmname⟩ | ⟨hnot, -⟩
      · have hrs' := (Memfs.mem_subtree hN rs j).mp hrs
        rw [hj] at hrs'
        have heq := hN.lookup_inj hrs' hp
        rw [hmname, List.append_right_eq_self.mp heq, List.append_nil]
      · refine absurd ((Memfs.mem_subtree hN [] j).mpr ?_) (hnot [])
        rw [List.append_nil, hj, hp]
    rw [hs.object id n hn, FileNode.view, FileNode.view, hdir, hcontents, hmname, if_neg hdisk,
      Store.renamed, ← pathName_diskPath]
    simp only [pathName_inj]
    split_ifs <;> rfl
  · rw [if_neg hj, hs.object j k hk, FileNode.view, FileNode.view, hdir, hcontents]
    -- neither the old nor the new name of a descendant is that of the disk file
    have hsame : m.fileName = diskName ↔ k.fileName = diskName := by
      rcases hcase with ⟨rs, hrs, hmname⟩ | ⟨-, hmname⟩
      · have hrs' := (Memfs.mem_subtree hN rs j).mp hrs
        have hne : rs ≠ [] := by
          rintro rfl
          rw [List.append_nil, hp] at hrs'
          exact hj (Option.some.inj hrs').symm
        obtain ⟨l, hl, hlname⟩ := hN.entry _ j hrs'
        rw [hk] at hl
        rw [hmname, Option.some.inj hl, hlname]
        exact iff_of_false (pathName_append_ne_diskName hqs hne) (pathName_append_ne_diskName hps hne)
      · rw [hmname]
    simp only [hsame]

/-- The invariant after the moves. -/
theorem Inv.renamed (h : v.Inv) {s : Memfs nls false} (hn : v.fs.nodes id = some n)
    (hp : v.fs.lookup ps = some id) (hps : ps ≠ []) (hqs : qs ≠ []) (hdisk : n.fileName ≠ diskName)
    (hplace : ps = qs ∨ NameTree.Apart ps qs)
    (hfree : ps ≠ qs → ∀ rs j, v.fs.lookup (qs ++ rs) = some j → rs = [])
    (hparent : ∀ rs c, qs = rs ++ [c] → ∃ p, v.fs.lookup rs = some p ∧ v.fs.IsDir p)
    (hsound : s.Sound v.opens) (hrenamed : Memfs.RenamedEach qs (v.fs.subtree ps) v.fs s)
    (hlook : s.lookup = NameTree.move v.fs.lookup ps qs)
    (hrest : s = { v.fs with nodes := s.nodes, fileNodeMap := s.fileNodeMap }) :
    Inv { v with fs := s } := by
  have hN := h.sound.named
  refine inv_of_descends v.fs h.held ⟨hrest, fun j m hm => ?_⟩ hsound ?_ ?_ h.small ?_
  · obtain ⟨k, hk, hkm, hcase⟩ := hrenamed j m hm
    refine ⟨k, hk, hkm, fun hkname => ?_⟩
    rcases hcase with ⟨rs, hrs, -⟩ | ⟨-, hmname⟩
    · -- the disk file is not in the subtree
      have hrs' := (Memfs.mem_subtree hN rs j).mp hrs
      by_cases hnil : rs = []
      · rw [hnil, List.append_nil, hp] at hrs'
        rw [← Option.some.inj hrs', hn] at hk
        rw [Option.some.inj hk] at hdisk
        exact absurd hkname hdisk
      · obtain ⟨l, hl, hlname⟩ := hN.entry _ j hrs'
        rw [hk] at hl
        rw [Option.some.inj hl, hlname] at hkname
        exact absurd hkname (pathName_append_ne_diskName hps hnil)
    · exact hmname.trans hkname
  · obtain ⟨root, hroot, hrootdir⟩ := h.root
    refine ⟨root, ?_, hrootdir⟩
    rw [hlook, NameTree.move, if_neg (fun hpre => hqs (List.prefix_nil.mp hpre)),
      if_neg (fun hpre => hps (List.prefix_nil.mp hpre)), hroot]
  · rw [hlook]
    exact h.closed.move hplace hfree hparent
  · refine (Memfs.size_le_of_mapped hN hsound.named fun j hj => ?_).trans h.size
    obtain ⟨rs, hrs⟩ := hj
    rw [hlook, NameTree.move] at hrs
    split_ifs at hrs
    · exact ⟨_, hrs⟩
    · exact ⟨rs, hrs⟩

/-- What `Rename` replaces is what the store lets it replace. -/
theorem Inv.replaces_iff (h : v.Inv) (hs : v.Shows a) (id : NodeId) (qs : Path) (replaceIfExists : Bool) :
    (∀ other, a.tree qs = some other → other ≠ id →
        replaceIfExists = true ∧ (a.object other).directory = false) ↔
      ∀ other, v.fs.lookup qs = some other → other ≠ id → replaceIfExists = true ∧ ¬ v.fs.IsDir other := by
  rw [hs.tree]
  refine forall₃_congr fun other hother _ => and_congr_right fun _ => ?_
  obtain ⟨m, hm, -⟩ := h.mapped_node hother
  rw [hs.object other m hm]
  constructor
  · intro hfile ⟨k, hk, hkdir⟩
    rw [hm] at hk
    rw [← Option.some.inj hk] at hkdir
    exact Bool.false_ne_true (hfile.symm.trans hkdir)
  · intro hnot
    exact Bool.eq_false_iff.mpr fun hdir => hnot ⟨m, hm, hdir⟩

/-- **`Rename`** moves the subtree and replaces at most one file. -/
theorem Inv.rename (h : v.Inv) (hs : v.Shows a) (hsplit : Splits pathSuffix)
    (hr : (Request.rename id newFileName replaceIfExists).Admitted v)
    (hgoes : ¬ a.Stops sys (.rename id newFileName replaceIfExists)) :
    Served a (.rename id newFileName replaceIfExists)
      (v.call pathSuffix hits sys (.rename id newFileName replaceIfExists)) := by
  obtain ⟨ps, ds, c, hp, hps, rfl, hdir, hself⟩ := hr
  obtain ⟨qs, hqs⟩ : ∃ qs, qs = ds ++ [c] := ⟨_, rfl⟩
  have hne : qs ≠ [] := by
    rw [hqs]
    simp
  have hN := h.sound.named
  obtain ⟨n, hn, hname⟩ := h.mapped_node hp
  rw [← hqs] at hself hgoes ⊢
  have hpath : ∀ rs, a.tree rs = some id → rs = ps := fun rs => h.tree_path hs hn hname
  have hgoes : ¬ a.RenameStops sys id ps qs replaceIfExists := by
    intro hstops
    refine hgoes ⟨ps, by rw [hs.tree]; exact hp, ?_⟩
    rw [pathOf_pathName]
    exact hstops
  -- refusals
  have hrefuse : ∀ status, status ≠ .success → ¬ a.Renames id ps qs replaceIfExists →
      ∀ s, Inv { v with fs := s } → Shows { v with fs := s } a →
      Served a (.rename id (pathName qs) replaceIfExists) (some (v.finish (status, s))) := by
    intro status hstatus hnot s hinv hshows
    refine ⟨.done status, _, rfl, hinv, ?_, fun rs hrs => ?_⟩
    · rw [apply_rename_failed hstatus]
      exact hshows
    · rw [hpath rs hrs, pathOf_pathName]
      exact iff_of_false hstatus hnot
  by_cases hdisk : n.fileName = diskName
  · rw [call, Memfs.rename, hn, Option.bind_eq_bind, Option.bind_some, if_pos hdisk]
    refine hrefuse .accessDenied (by decide) (fun hok => hok.1 ?_) _ h hs
    rw [hname, ← pathName_diskPath] at hdisk
    rw [hs.tree, ← pathName_injective hdisk, hp]
  have hnotdisk : a.tree diskPath ≠ some id := by
    intro hdiskid
    rw [← hpath _ hdiskid, pathName_diskPath] at hname
    exact hdisk hname
  rcases h.renameRefused id qs replaceIfExists with
    ⟨status, hstatus, heq, other, hother, hotherne, hotherdir⟩ | ⟨heq, hreplace⟩
  · rw [call, Memfs.rename, hn, Option.bind_eq_bind, Option.bind_some, if_neg hdisk, heq]
    refine hrefuse status hstatus (fun hok => ?_) _ h hs
    obtain ⟨hflag, hnot⟩ := (h.replaces_iff hs id qs replaceIfExists).mp hok.2.1 other hother hotherne
    exact hnot (hotherdir hflag)
  have hallowed := (h.replaces_iff hs id qs replaceIfExists).mpr hreplace
  obtain ⟨ids, hids⟩ : ∃ ids, ids = (v.fs.subtree ps).map Prod.snd := ⟨_, rfl⟩
  have hcount : {rs | a.tree (ps ++ rs) ≠ none}.ncard = ids.length := by
    rw [hids, hs.tree]
    exact Memfs.ncard_subtree hN ps
  have hlists : ¬ ListFails sys ids.length := by
    intro hfails
    rw [← hcount] at hfails
    exact hgoes ⟨hnotdisk, hallowed, .inl hfails⟩
  rw [call, (Memfs.rename_eq pathSuffix hN sys hn hname hp hdisk heq hids).2 hlists]
  have hnodes : ∀ j ∈ ids, ∃ n, v.fs.nodes j = some n := by
    intro j hj
    rw [hids] at hj
    obtain ⟨y, hy, rfl⟩ := List.mem_map.mp hj
    obtain ⟨k, hk, -⟩ := hN.entry _ y.2 ((Memfs.mem_subtree hN y.1 y.2).mp hy)
    exact ⟨k, hk⟩
  obtain ⟨u, hu, husound, hsu⟩ := Memfs.references _ h.sound hnodes
  rw [hu, Option.bind_some]
  by_cases hlong : ∃ rs j, v.fs.lookup (ps ++ rs) = some j ∧ maxPath ≤ (pathName (qs ++ rs)).length
  · -- a name is too long: the references are given back
    obtain ⟨t, ht, htsound, hdt, htmap⟩ := Memfs.dereferences _ husound
    have htlook : t.lookup = v.fs.lookup := by
      funext rs
      rw [Memfs.lookup, htmap]
      exact hsu.lookup rs
    have hd : Memfs.Descends CountAndTimes v.fs t := (hsu.descends fun _ _ h => h).trans .trans hdt
    rw [if_pos ((Memfs.subtree_length hN hps hne).mpr hlong), ht, Option.bind_some]
    refine hrefuse .objectNameInvalid (by decide) (fun hok => ?_) t ?_ ?_
    · obtain ⟨rs, j, hj, hle⟩ := hlong
      exact absurd (hok.2.2 rs (by rw [hs.tree, hj]; simp)) (Nat.not_lt.mpr hle)
    · refine h.descends ⟨hd.rest, fun j m hm => ?_⟩ htsound (htlook ▸ h.closed) (congrFun htlook []) ?_
      · obtain ⟨k, hk, hkm⟩ := hd.node j m hm
        exact ⟨k, hk, hkm.carried⟩
      · rw [htmap, hsu.fileNodeMap]
    · have hshows := hs.descends v.opens hd
      rw [htlook, ← hs.tree, ← hs.opens] at hshows
      rw [← hs.opens]
      exact hshows
  -- the moves
  have hnew : ∀ other, v.fs.lookup qs = some other → v.fs.IsDir other → other = id := by
    intro other hother hotherdir
    by_contra hne
    exact (hreplace other hother hne).2 hotherdir
  have hplace : ps = qs ∨ NameTree.Apart ps qs := by
    by_cases hpq : ps = qs
    · exact .inl hpq
    · refine .inr ⟨fun hpre => hpq (hself hpre), ?_⟩
      rintro ⟨rs, rfl⟩
      -- what is above the node is a directory, and is not replaced
      have hrs : rs ≠ [] := by
        rintro rfl
        exact hpq (List.append_nil qs)
      obtain ⟨p, hpd, hpdir⟩ := h.closed.above hrs hp
      rw [hnew p hpd hpdir] at hpd
      exact hpq (hN.lookup_inj hp hpd)
  have hfree : ps ≠ qs → ∀ rs j, v.fs.lookup (qs ++ rs) = some j → rs = [] := by
    intro hpq rs j hj
    refine h.closed.eq_nil_of_not_dir (fun p hpd hpdir => ?_) hj
    rw [hnew p hpd hpdir] at hpd
    exact hpq (hN.lookup_inj hp hpd)
  have hparent : ∀ rs d, qs = rs ++ [d] → ∃ p, v.fs.lookup rs = some p ∧ v.fs.IsDir p := by
    intro rs d hrs
    rw [hqs] at hrs
    rw [← (List.append_inj' hrs rfl).1]
    exact hdir
  have hfits : ∀ rs j, v.fs.lookup (ps ++ rs) = some j → (pathName (qs ++ rs)).length < maxPath :=
    fun rs j hj => Nat.not_le.mp fun hle => hlong ⟨rs, j, hj, hle⟩
  have hfits' : ∀ rs, a.tree (ps ++ rs) ≠ none → (pathName (qs ++ rs)).length < maxPath := by
    intro rs hrs
    rw [hs.tree] at hrs
    obtain ⟨j, hj⟩ := Option.ne_none_iff_exists'.mp hrs
    exact hfits rs j hj
  have hmem : ∀ y ∈ v.fs.subtree ps, sys.insertOk y.2 = true := by
    intro y hy
    by_contra hnot
    refine hgoes ⟨hnotdisk, hallowed, .inr ⟨hfits', y.1, y.2, ?_, Bool.eq_false_iff.mpr hnot⟩⟩
    rw [hs.tree]
    exact (Memfs.mem_subtree hN y.1 y.2).mp hy
  rw [hids] at husound ⊢
  obtain ⟨w, x, t, hw, hx, ht, htsound, hrenamed, htlook, htrest⟩ :=
    Memfs.renameMoves_spec hsplit h.sound hps hne hplace hfree hfits hmem husound hsu
  rw [if_neg (fun hany => hlong ((Memfs.subtree_length hN hps hne).mp hany)), hw,
    Option.bind_some, hx, Option.bind_some, ht, Option.bind_some]
  refine ⟨.done .success, _, rfl,
    h.renamed hn hp hps hne hdisk hplace hfree hparent htsound hrenamed htlook htrest, ?_, fun rs hrs => ?_⟩
  · rw [apply_rename_moved fun rs => by rw [hs.tree]; exact h.lookup_iff hp rs]
    exact hs.renamed hN hn hp hps hne hdisk hrenamed htlook
  rw [hpath rs hrs, pathOf_pathName]
  exact iff_of_true rfl ⟨hnotdisk, hallowed, hfits'⟩

/-- **Where `Rename` stops**, it does not return. -/
theorem Inv.rename_stops (h : v.Inv) (hs : v.Shows a)
    (hr : (Request.rename id newFileName replaceIfExists).Admitted v)
    (hstops : a.Stops sys (.rename id newFileName replaceIfExists)) :
    v.call pathSuffix hits sys (.rename id newFileName replaceIfExists) = none := by
  obtain ⟨ps, ds, c, hp, hps, rfl, -, -⟩ := hr
  obtain ⟨qs, hqs⟩ : ∃ qs, qs = ds ++ [c] := ⟨_, rfl⟩
  have hne : qs ≠ [] := by
    rw [hqs]
    simp
  have hN := h.sound.named
  obtain ⟨n, hn, hname⟩ := h.mapped_node hp
  rw [← hqs] at hstops ⊢
  obtain ⟨rs, hrs, hnotdisk, hallowed, hcase⟩ := hstops
  obtain rfl := h.tree_path hs hn hname hrs
  rw [pathOf_pathName] at hallowed hcase
  have hdisk : n.fileName ≠ diskName := by
    rw [hname, ← pathName_diskPath]
    intro hsame
    exact hnotdisk (by rw [← pathName_injective hsame]; exact hrs)
  have hgo : v.fs.renameRefused id (pathName qs) replaceIfExists = some none := by
    rcases h.renameRefused id qs replaceIfExists with ⟨-, -, -, other, hother, hotherne, hdir⟩ | ⟨heq, -⟩
    · obtain ⟨hflag, hnot⟩ := (h.replaces_iff hs id qs replaceIfExists).mp hallowed other hother hotherne
      exact absurd (hdir hflag) hnot
    · exact heq
  obtain ⟨hfails, hlists⟩ := Memfs.rename_eq pathSuffix hN sys hn hname hp hdisk hgo rfl
  rw [call, Option.map_eq_none_iff]
  rw [hs.tree, Memfs.ncard_subtree hN] at hcase
  by_cases hlist : ListFails sys ((v.fs.subtree rs).map Prod.snd).length
  · exact hfails hlist
  obtain ⟨hfits, qs', j, hj, hmem⟩ := hcase.resolve_left hlist
  have hshort : ¬ ∃ rs' i, v.fs.lookup (rs ++ rs') = some i ∧ maxPath ≤ (pathName (qs ++ rs')).length := by
    rintro ⟨rs', i, hi, hle⟩
    exact absurd (hfits rs' (by rw [hi]; simp)) (Nat.not_lt.mpr hle)
  have hin : j ∈ (v.fs.subtree rs).map Prod.snd :=
    List.mem_map_of_mem ((Memfs.mem_subtree hN qs' j).mpr hj)
  rw [hlists hlist]
  refine Option.bind_eq_none_iff.mpr fun u _ => ?_
  rw [if_neg fun hany => hshort ((Memfs.subtree_length hN hps hne).mp hany)]
  refine Option.bind_eq_none_iff.mpr fun w _ => ?_
  rw [Memfs.renameLoop_stops hmem _ _ hin]
  rfl

end Volume

end FtjSsdSim.Vdisk
