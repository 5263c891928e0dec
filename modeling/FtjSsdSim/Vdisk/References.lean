import Mathlib
import FtjSsdSim.Library.NameTree
import FtjSsdSim.Vdisk.Callbacks

/-!
# Names and reference counts

`Sound s held` is the state the callbacks rely on before they touch a node: the map files every node
under its own name, which is the name of a path and fits its buffer; the count of a node is the number
of its entries in the map and of the references `held` beside it; and nodes whose count has fallen to
zero are freed.

Each primitive has one lemma that says what becomes of `Sound`.  Removing an entry turns the reference
of the map into one that is held, and `MemfsFileNodeDereference` gives a held reference back.
-/

namespace FtjSsdSim.Vdisk

open Std FtjSsdSim.Library

section

variable {nls : Nls} {m : FileNodeMap nls false} {ps qs : Path} {id : NodeId}

theorem getElem?_insert_pathName :
    (m.insert (pathName ps) id)[pathName qs]? = if ps = qs then some id else m[pathName qs]? := by
  rw [TreeMap.getElem?_insert]
  simp only [keyOrder_pathName_eq_iff]

theorem getElem?_erase_pathName :
    (m.erase (pathName ps))[pathName qs]? = if ps = qs then none else m[pathName qs]? := by
  rw [TreeMap.getElem?_erase]
  simp only [keyOrder_pathName_eq_iff]

/-- A map is canonical as soon as its keys are. -/
theorem canonical_iff : Canonical m ↔ ∀ k, m.getKey? k = some k → pathName (pathOf k) = k := by
  constructor
  · intro h k hk
    have hmem : k ∈ m := TreeMap.mem_iff_isSome_getKey?.mpr (by rw [hk]; rfl)
    obtain ⟨v, hv⟩ := Option.isSome_iff_exists.mp (TreeMap.mem_iff_isSome_getElem?.mp hmem)
    exact h (k, v) (TreeMap.mem_toList_iff_getKey?_eq_some_and_getElem?_eq_some.mpr ⟨hk, hv⟩)
  · intro h e he
    exact h e.1 (TreeMap.mem_toList_iff_getKey?_eq_some_and_getElem?_eq_some.mp he).1

theorem Canonical.insert (h : Canonical m) (ps : Path) (id : NodeId) :
    Canonical (m.insert (pathName ps) id) := by
  rw [canonical_iff] at h ⊢
  intro k hk
  rw [TreeMap.getKey?_insert] at hk
  split_ifs at hk
  · rw [← Option.some.inj hk, pathOf_pathName]
  · exact h k hk

theorem Canonical.erase (h : Canonical m) (k : FileName) : Canonical (m.erase k) := by
  rw [canonical_iff] at h ⊢
  intro k hk
  rw [TreeMap.getKey?_erase] at hk
  split_ifs at hk
  exact h k hk

end

/-! ### Changes that keep names and counts -/

/-- The node keeps its name and its count. -/
def Kept (n m : FileNode) : Prop := m.fileName = n.fileName ∧ m.refCount = n.refCount

/-- At most the times of access and change differ. -/
def TimesOnly (n m : FileNode) : Prop :=
  m = { n with fileInfo := { n.fileInfo with
    lastAccessTime := m.fileInfo.lastAccessTime
    lastWriteTime := m.fileInfo.lastWriteTime
    changeTime := m.fileInfo.changeTime } }

theorem TimesOnly.refl (n : FileNode) : TimesOnly n n := rfl

theorem TimesOnly.trans {n m k : FileNode} (h : TimesOnly n m) (h' : TimesOnly m k) :
    TimesOnly n k := by
  rw [TimesOnly] at h h' ⊢
  rw [h', h]

theorem TimesOnly.kept {n m : FileNode} (h : TimesOnly n m) : Kept n m := by
  rw [TimesOnly] at h
  rw [h]
  exact ⟨rfl, rfl⟩

theorem timesOnly_touch (n : FileNode) (now : ℕ) : TimesOnly n (Memfs.touch n now) := rfl

/-- At most the times and the count differ. -/
def CountAndTimes (n m : FileNode) : Prop := TimesOnly { n with refCount := m.refCount } m

theorem CountAndTimes.refl (n : FileNode) : CountAndTimes n n := rfl

theorem CountAndTimes.trans {n m k : FileNode} (h : CountAndTimes n m) (h' : CountAndTimes m k) :
    CountAndTimes n k := by
  rw [CountAndTimes, TimesOnly] at h h' ⊢
  rw [h', h]

theorem TimesOnly.countAndTimes {n m : FileNode} (h : TimesOnly n m) : CountAndTimes n m := by
  have hcount := h.kept.2
  rw [CountAndTimes, hcount]
  exact h

namespace Memfs

variable {nls : Nls} {s t : Memfs nls false} {held : Multiset NodeId} {id : NodeId} {n : FileNode}
  {ps : Path} {pathSuffix : PathSuffix}

/-- `t` is `s` with other nodes at the same addresses, related one by one. -/
structure Updated (R : FileNode → FileNode → Prop) (s t : Memfs nls false) : Prop where
  rest : t = { s with nodes := t.nodes }
  node : ∀ id n, s.nodes id = some n → ∃ m, t.nodes id = some m ∧ R n m
  none : ∀ id, s.nodes id = none → t.nodes id = none

theorem Updated.fileNodeMap {R : FileNode → FileNode → Prop} (h : Updated R s t) :
    t.fileNodeMap = s.fileNodeMap := by rw [h.rest]

theorem Updated.nextNode {R : FileNode → FileNode → Prop} (h : Updated R s t) :
    t.nextNode = s.nextNode := by rw [h.rest]

theorem Updated.maxFileSize {R : FileNode → FileNode → Prop} (h : Updated R s t) :
    t.maxFileSize = s.maxFileSize := by rw [h.rest]

theorem Updated.maxFileNodes {R : FileNode → FileNode → Prop} (h : Updated R s t) :
    t.maxFileNodes = s.maxFileNodes := by rw [h.rest]

theorem Updated.imp {R Q : FileNode → FileNode → Prop} (h : Updated R s t)
    (himp : ∀ n m, R n m → Q n m) : Updated Q s t := by
  refine ⟨h.rest, fun id n hn => ?_, h.none⟩
  obtain ⟨m, hm, hR⟩ := h.node id n hn
  exact ⟨m, hm, himp n m hR⟩

theorem Updated.refl {R : FileNode → FileNode → Prop} (hR : ∀ n, R n n) (s : Memfs nls false) :
    Updated R s s := ⟨rfl, fun _ n hn => ⟨n, hn, hR n⟩, fun _ hn => hn⟩

theorem Updated.trans {R : FileNode → FileNode → Prop} {u : Memfs nls false}
    (hR : ∀ {n m k}, R n m → R m k → R n k) (h : Updated R s t) (h' : Updated R t u) :
    Updated R s u := by
  refine ⟨by rw [h'.rest, h.rest], fun id n hn => ?_, fun id hn => h'.none id (h.none id hn)⟩
  obtain ⟨m, hm, hR₁⟩ := h.node id n hn
  obtain ⟨k, hk, hR₂⟩ := h'.node id m hm
  exact ⟨k, hk, hR hR₁ hR₂⟩

theorem Updated.node' {R : FileNode → FileNode → Prop} (h : Updated R s t)
    (hn : t.nodes id = some n) : ∃ m, s.nodes id = some m ∧ R m n := by
  cases hm : s.nodes id with
  | none =>
    rw [h.none id hm] at hn
    cases hn
  | some m =>
    obtain ⟨k, hk, hR⟩ := h.node id m hm
    rw [hn] at hk
    rw [Option.some.inj hk]
    exact ⟨m, rfl, hR⟩

theorem setNode_nodes (m : FileNode) (j : NodeId) :
    (s.setNode id m).nodes j = if j = id then some m else s.nodes j := Function.update_apply ..

theorem fileNodeDelete_nodes (j : NodeId) :
    (s.fileNodeDelete id).nodes j = if j = id then none else s.nodes j := Function.update_apply ..

/-- Assigning one node is an update. -/
theorem updated_setNode {R : FileNode → FileNode → Prop} (hR : ∀ n, R n n) {m : FileNode}
    (hn : s.nodes id = some n) (h : R n m) : Updated R s (s.setNode id m) := by
  refine ⟨rfl, fun j k hk => ?_, fun j hj => ?_⟩
  · rw [setNode_nodes]
    split_ifs with hid
    · rw [hid, hn] at hk
      exact ⟨m, rfl, by rw [← Option.some.inj hk]; exact h⟩
    · exact ⟨k, hk, hR k⟩
  · rw [setNode_nodes, if_neg, hj]
    rintro rfl
    rw [hn] at hj
    cases hj

@[simp] theorem setNode_fileNodeMap (m : FileNode) : (s.setNode id m).fileNodeMap = s.fileNodeMap := rfl

/-! ### The invariant -/

/-- The node filed under a path. -/
def lookup (s : Memfs nls false) (ps : Path) : Option NodeId := s.fileNodeMap[pathName ps]?

/-- Every entry is found under its path. -/
theorem lookup_pathOf (h : Canonical s.fileNodeMap) {e : FileName × NodeId}
    (he : e ∈ s.fileNodeMap.toList) : s.lookup (pathOf e.1) = some e.2 := by
  refine h.getElem?_eq_some.mpr ?_
  rw [h e he]
  exact he

/-- The map has an entry for the node. -/
def Mapped (s : Memfs nls false) (id : NodeId) : Prop := ∃ ps, s.lookup ps = some id

open Classical in
/-- The references of the map to a node. -/
noncomputable def mapRefs (s : Memfs nls false) (id : NodeId) : ℕ := if s.Mapped id then 1 else 0

/-- Nodes are filed under their own names, which are names of paths and fit their buffers. -/
structure Named (s : Memfs nls false) : Prop where
  canonical : Canonical s.fileNodeMap
  entry : ∀ ps id, s.lookup ps = some id → ∃ n, s.nodes id = some n ∧ n.fileName = pathName ps
  node : ∀ id n, s.nodes id = some n → ∃ ps, n.fileName = pathName ps ∧ (pathName ps).length < maxPath
  fresh : ∀ id n, s.nodes id = some n → id < s.nextNode

/-- The counts are right, where `held` are the references beside those of the map. -/
def Counted (s : Memfs nls false) (held : Multiset NodeId) : Prop :=
  ∀ id, match s.nodes id with
    | some n => n.refCount = s.mapRefs id + held.count id
    | none => held.count id = 0

/-- A node without references has been freed. -/
def Live (s : Memfs nls false) : Prop := ∀ id n, s.nodes id = some n → 0 < n.refCount

/-- What the callbacks rely on. -/
structure Sound (s : Memfs nls false) (held : Multiset NodeId) : Prop where
  named : s.Named
  counted : s.Counted held
  live : s.Live

theorem Named.lookup_inj (h : s.Named) {ps qs : Path} (hp : s.lookup ps = some id)
    (hq : s.lookup qs = some id) : ps = qs := by
  obtain ⟨n, hn, hname⟩ := h.entry ps id hp
  obtain ⟨m, hm, hname'⟩ := h.entry qs id hq
  rw [hn] at hm
  rw [← Option.some.inj hm, hname] at hname'
  exact pathName_injective hname'

/-- A node is mapped exactly if it is filed under its own name. -/
theorem Named.mapped_iff (h : s.Named) (hn : s.nodes id = some n) (hname : n.fileName = pathName ps) :
    s.Mapped id ↔ s.lookup ps = some id := by
  constructor
  · intro ⟨qs, hq⟩
    obtain ⟨m, hm, hname'⟩ := h.entry qs id hq
    rw [hn] at hm
    rw [← Option.some.inj hm, hname] at hname'
    rw [pathName_injective hname']
    exact hq
  · intro hp
    exact ⟨ps, hp⟩

/-- The nodes of the map are listed once each. -/
theorem Named.nodup_ids (h : s.Named) : (s.fileNodeMap.toList.map Prod.snd).Nodup := by
  refine List.Pairwise.map _ (fun _ _ hne => hne) (List.Pairwise.imp_of_mem ?_ h.canonical.ascending)
  intro x y hx hy hlt heq
  have hpath := h.lookup_inj (lookup_pathOf h.canonical hx) (heq ▸ lookup_pathOf h.canonical hy)
  simp only at hlt
  rw [hpath, ReflOrd.compare_self] at hlt
  cases hlt

theorem Named.mem_ids (h : s.Named) : id ∈ s.fileNodeMap.toList.map Prod.snd ↔ s.Mapped id := by
  constructor
  · intro hid
    obtain ⟨e, he, rfl⟩ := List.mem_map.mp hid
    exact ⟨pathOf e.1, lookup_pathOf h.canonical he⟩
  · intro ⟨ps, hp⟩
    exact List.mem_map.mpr ⟨_, h.canonical.getElem?_eq_some.mp hp, rfl⟩

theorem mapRefs_of_mapped (h : s.Mapped id) : s.mapRefs id = 1 := if_pos h

theorem mapRefs_of_not_mapped (h : ¬ s.Mapped id) : s.mapRefs id = 0 := if_neg h

theorem mapRefs_congr {t : Memfs nls false} (h : t.fileNodeMap = s.fileNodeMap) (id : NodeId) :
    t.mapRefs id = s.mapRefs id := by
  have hmapped : t.Mapped id = s.Mapped id := by
    simp only [Mapped, lookup, h]
  rw [mapRefs, mapRefs, hmapped]

theorem Updated.lookup {R : FileNode → FileNode → Prop} (h : Updated R s t) (ps : Path) :
    t.lookup ps = s.lookup ps := by
  rw [Memfs.lookup, h.fileNodeMap]
  rfl

theorem Counted.held_pos (h : s.Counted held) (hid : id ∈ held) : ∃ n, s.nodes id = some n := by
  have hcount := h id
  cases hn : s.nodes id with
  | some n => exact ⟨n, rfl⟩
  | none =>
    rw [hn] at hcount
    exact absurd (Multiset.count_pos.mpr hid) (by rw [hcount]; exact Nat.lt_irrefl 0)

theorem Counted.refCount_eq (h : s.Counted held) (hn : s.nodes id = some n) :
    n.refCount = s.mapRefs id + held.count id := by
  have hcount := h id
  rw [hn] at hcount
  exact hcount

/-- What is allocated is in the map or held. -/
theorem Sound.allocated_iff (h : s.Sound held) : s.nodes id ≠ none ↔ s.Mapped id ∨ id ∈ held := by
  constructor
  · intro hne
    obtain ⟨n, hn⟩ := Option.ne_none_iff_exists'.mp hne
    have hlive := h.live id n hn
    rw [h.counted.refCount_eq hn] at hlive
    by_cases hmapped : s.Mapped id
    · exact .inl hmapped
    · rw [mapRefs_of_not_mapped hmapped] at hlive
      exact .inr (Multiset.count_pos.mp (by omega))
  · rintro (⟨ps, hp⟩ | hid)
    · obtain ⟨n, hn, -⟩ := h.named.entry ps id hp
      rw [hn]
      simp
    · obtain ⟨n, hn⟩ := h.counted.held_pos hid
      rw [hn]
      simp

theorem Named.updated (h : s.Named) (hu : Updated Kept s t) : t.Named where
  canonical := by
    rw [hu.fileNodeMap]
    exact h.canonical
  entry ps id hp := by
    rw [hu.lookup] at hp
    obtain ⟨n, hn, hname⟩ := h.entry ps id hp
    obtain ⟨m, hm, hkept⟩ := hu.node id n hn
    exact ⟨m, hm, hkept.1.trans hname⟩
  node id n hn := by
    obtain ⟨m, hm, hkept⟩ := hu.node' hn
    obtain ⟨ps, hname, hlen⟩ := h.node id m hm
    exact ⟨ps, hkept.1.trans hname, hlen⟩
  fresh id n hn := by
    obtain ⟨m, hm, -⟩ := hu.node' hn
    rw [hu.nextNode]
    exact h.fresh id m hm

theorem Counted.updated (h : s.Counted held) (hu : Updated Kept s t) : t.Counted held := by
  intro id
  have hcount := h id
  cases hn : s.nodes id with
  | some n =>
    obtain ⟨m, hm, hkept⟩ := hu.node id n hn
    rw [hn] at hcount
    rw [hm]
    show m.refCount = t.mapRefs id + held.count id
    rw [hkept.2, mapRefs_congr hu.fileNodeMap]
    exact hcount
  | none =>
    rw [hn] at hcount
    rw [hu.none id hn]
    exact hcount

theorem Live.updated (h : s.Live) (hu : Updated Kept s t) : t.Live := by
  intro id n hn
  obtain ⟨m, hm, hkept⟩ := hu.node' hn
  rw [hkept.2]
  exact h id m hm

theorem Sound.updated (h : s.Sound held) (hu : Updated Kept s t) : t.Sound held :=
  ⟨h.named.updated hu, h.counted.updated hu, h.live.updated hu⟩

/-! ### Entries of the map -/

/-- The state with an entry more. -/
def insertEntry (s : Memfs nls false) (ps : Path) (id : NodeId) : Memfs nls false :=
  { s with fileNodeMap := s.fileNodeMap.insert (pathName ps) id }

/-- The state with an entry less. -/
def eraseEntry (s : Memfs nls false) (ps : Path) : Memfs nls false :=
  { s with fileNodeMap := s.fileNodeMap.erase (pathName ps) }

theorem lookup_insertEntry (ps qs : Path) :
    (s.insertEntry ps id).lookup qs = if ps = qs then some id else s.lookup qs :=
  getElem?_insert_pathName

theorem lookup_eraseEntry (ps qs : Path) :
    (s.eraseEntry ps).lookup qs = if ps = qs then none else s.lookup qs :=
  getElem?_erase_pathName

theorem Named.insertEntry (h : s.Named) (hn : s.nodes id = some n) (hname : n.fileName = pathName ps) :
    (s.insertEntry ps id).Named where
  canonical := h.canonical.insert ps id
  entry qs j hq := by
    rw [lookup_insertEntry] at hq
    split_ifs at hq with heq
    · rw [← Option.some.inj hq, ← heq]
      exact ⟨n, hn, hname⟩
    · exact h.entry qs j hq
  node := h.node
  fresh := h.fresh

theorem Named.eraseEntry (h : s.Named) (ps : Path) : (s.eraseEntry ps).Named where
  canonical := h.canonical.erase _
  entry qs j hq := by
    rw [lookup_eraseEntry] at hq
    split_ifs at hq
    exact h.entry qs j hq
  node := h.node
  fresh := h.fresh

/-- Filing a node under its name makes a held reference one of the map. -/
theorem Counted.insertEntry (h : s.Counted held) (hN : s.Named) (hn : s.nodes id = some n)
    (hname : n.fileName = pathName ps) (hfree : s.lookup ps = none) (hid : id ∈ held) :
    (s.insertEntry ps id).Counted (held.erase id) := by
  have hnot : ¬ s.Mapped id := by
    rw [hN.mapped_iff hn hname, hfree]
    simp
  intro j
  have hcount := h j
  show match s.nodes j with
    | some n => n.refCount = _
    | none => _
  by_cases hj : j = id
  · subst hj
    have hmapped : (s.insertEntry ps j).Mapped j := ⟨ps, by rw [lookup_insertEntry, if_pos rfl]⟩
    rw [hn] at hcount ⊢
    have hpos := Multiset.count_pos.mpr hid
    simp only [mapRefs_of_not_mapped hnot, mapRefs_of_mapped hmapped,
      Multiset.count_erase_self] at hcount ⊢
    omega
  · have hmapped : (s.insertEntry ps id).Mapped j = s.Mapped j := by
      refine propext (exists_congr fun qs => ?_)
      rw [lookup_insertEntry]
      split_ifs with heq
      · rw [← heq, hfree]
        refine iff_of_false ?_ (by simp)
        exact fun h => hj (Option.some.inj h).symm
      · rfl
    rw [mapRefs, hmapped, Multiset.count_erase_of_ne hj]
    exact hcount

/-- Taking an entry out of the map makes the reference of the map a held one. -/
theorem Counted.eraseEntry (h : s.Counted held) (hN : s.Named) {j : NodeId}
    (hlook : s.lookup ps = some j) : (s.eraseEntry ps).Counted (j ::ₘ held) := by
  intro i
  have hcount := h i
  show match s.nodes i with
    | some n => n.refCount = _
    | none => _
  by_cases hi : i = j
  · subst hi
    have hnot : ¬ (s.eraseEntry ps).Mapped i := by
      intro ⟨qs, hq⟩
      rw [lookup_eraseEntry] at hq
      split_ifs at hq with heq
      exact heq (hN.lookup_inj hlook hq)
    obtain ⟨n, hn, -⟩ := hN.entry ps i hlook
    rw [hn] at hcount ⊢
    simp only [mapRefs_of_not_mapped hnot, mapRefs_of_mapped ⟨ps, hlook⟩,
      Multiset.count_cons_self] at hcount ⊢
    omega
  · have hmapped : (s.eraseEntry ps).Mapped i = s.Mapped i := by
      refine propext (exists_congr fun qs => ?_)
      rw [lookup_eraseEntry]
      split_ifs with heq
      · rw [← heq, hlook]
        refine iff_of_false (by simp) ?_
        exact fun h => hi (Option.some.inj h).symm
      · rfl
    rw [mapRefs, hmapped, Multiset.count_cons_of_ne hi]
    exact hcount

/-! ### References -/

/-- The node with one reference more. -/
def referenced (n : FileNode) : FileNode := { n with refCount := n.refCount + 1 }

theorem fileNodeReference_eq (hn : s.nodes id = some n) :
    s.fileNodeReference id = some (s.setNode id (referenced n)) := by
  rw [fileNodeReference, hn]
  rfl

theorem Named.setNode (h : s.Named) (hn : s.nodes id = some n) {m : FileNode}
    (hname : m.fileName = n.fileName) : (s.setNode id m).Named where
  canonical := h.canonical
  entry ps j hp := by
    obtain ⟨k, hk, hk'⟩ := h.entry ps j hp
    rw [setNode_nodes]
    split_ifs with hj
    · rw [hj, hn] at hk
      rw [← Option.some.inj hk] at hk'
      exact ⟨m, rfl, hname.trans hk'⟩
    · exact ⟨k, hk, hk'⟩
  node j k hk := by
    rw [setNode_nodes] at hk
    split_ifs at hk with hj
    · obtain ⟨ps, hps, hlen⟩ := h.node id n hn
      rw [← Option.some.inj hk]
      exact ⟨ps, hname.trans hps, hlen⟩
    · exact h.node j k hk
  fresh j k hk := by
    rw [setNode_nodes] at hk
    split_ifs at hk with hj
    · rw [hj]
      exact h.fresh id n hn
    · exact h.fresh j k hk

theorem Counted.referenced (h : s.Counted held) (hn : s.nodes id = some n) :
    (s.setNode id (referenced n)).Counted (id ::ₘ held) := by
  intro j
  have hcount := h j
  have hrefs := mapRefs_congr (s := s) (t := s.setNode id (Memfs.referenced n)) rfl j
  rw [setNode_nodes, hrefs]
  by_cases hj : j = id
  · subst hj
    rw [hn] at hcount
    rw [if_pos rfl, Multiset.count_cons_self]
    simp only [Memfs.referenced] at hcount ⊢
    push_cast
    omega
  · rw [if_neg hj, Multiset.count_cons_of_ne hj]
    exact hcount

theorem Sound.referenced (h : s.Sound held) (hn : s.nodes id = some n) :
    (s.setNode id (referenced n)).Sound (id ::ₘ held) where
  named := h.named.setNode hn rfl
  counted := h.counted.referenced hn
  live j k hk := by
    rw [setNode_nodes] at hk
    split_ifs at hk with hj
    · rw [← Option.some.inj hk]
      have hlive := h.live id n hn
      show 0 < n.refCount + 1
      omega
    · exact h.live j k hk

theorem Named.fileNodeDelete (h : s.Named) (hnot : ¬ s.Mapped id) : (s.fileNodeDelete id).Named where
  canonical := h.canonical
  entry ps j hp := by
    obtain ⟨k, hk, hk'⟩ := h.entry ps j hp
    refine ⟨k, ?_, hk'⟩
    rw [fileNodeDelete_nodes, if_neg, hk]
    rintro rfl
    exact hnot ⟨ps, hp⟩
  node j k hk := by
    rw [fileNodeDelete_nodes] at hk
    split_ifs at hk
    exact h.node j k hk
  fresh j k hk := by
    rw [fileNodeDelete_nodes] at hk
    split_ifs at hk
    exact h.fresh j k hk

/-- Every node of `t` is one of `s`, related to it, and the limits are the same. -/
structure Descends (R : FileNode → FileNode → Prop) (s t : Memfs nls false) : Prop where
  rest : t = { s with nodes := t.nodes, fileNodeMap := t.fileNodeMap }
  node : ∀ id m, t.nodes id = some m → ∃ n, s.nodes id = some n ∧ R n m

theorem Descends.refl {R : FileNode → FileNode → Prop} (hR : ∀ n, R n n) (s : Memfs nls false) :
    Descends R s s := ⟨rfl, fun _ m hm => ⟨m, hm, hR m⟩⟩

theorem Descends.trans {R : FileNode → FileNode → Prop} {u : Memfs nls false}
    (hR : ∀ {n m k}, R n m → R m k → R n k) (h : Descends R s t) (h' : Descends R t u) :
    Descends R s u := by
  refine ⟨by rw [h'.rest, h.rest], fun id k hk => ?_⟩
  obtain ⟨m, hm, hR₂⟩ := h'.node id k hk
  obtain ⟨n, hn, hR₁⟩ := h.node id m hm
  exact ⟨n, hn, hR hR₁ hR₂⟩

theorem Updated.descends {R Q : FileNode → FileNode → Prop} (h : Updated R s t)
    (himp : ∀ n m, R n m → Q n m) : Descends Q s t := by
  refine ⟨by rw [h.rest], fun id m hm => ?_⟩
  obtain ⟨n, hn, hR⟩ := h.node' hm
  exact ⟨n, hn, himp n m hR⟩

/-- **Giving back a reference** frees the node if it was the last one. -/
theorem fileNodeDereference_spec (h : s.Sound (id ::ₘ held)) :
    ∃ t, s.fileNodeDereference id = some t ∧ t.Sound held ∧ Descends CountAndTimes s t ∧
      t.fileNodeMap = s.fileNodeMap := by
  obtain ⟨n, hn⟩ := h.counted.held_pos (Multiset.mem_cons_self id held)
  have hcount := h.counted.refCount_eq hn
  rw [Multiset.count_cons_self] at hcount
  rw [Memfs.fileNodeDereference, hn, Option.bind_eq_bind, Option.bind_some]
  by_cases hlast : n.refCount - 1 = 0
  · rw [if_pos hlast]
    have hzero : s.mapRefs id = 0 ∧ held.count id = 0 := by
      push_cast at hcount
      omega
    have hnot : ¬ s.Mapped id := by
      intro hmapped
      rw [mapRefs_of_mapped hmapped] at hzero
      cases hzero.1
    refine ⟨_, rfl, ⟨h.named.fileNodeDelete hnot, fun j => ?_, fun j k hk => ?_⟩,
      ⟨rfl, fun j k hk => ?_⟩, rfl⟩
    · have hj := h.counted j
      have hrefs := mapRefs_congr (s := s) (t := s.fileNodeDelete id) rfl j
      rw [hrefs, fileNodeDelete_nodes]
      by_cases heq : j = id
      · rw [if_pos heq, heq]
        exact hzero.2
      · rw [if_neg heq]
        rw [Multiset.count_cons_of_ne heq] at hj
        exact hj
    · rw [fileNodeDelete_nodes] at hk
      split_ifs at hk
      exact h.live j k hk
    · rw [fileNodeDelete_nodes] at hk
      split_ifs at hk
      exact ⟨k, hk, rfl⟩
  · rw [if_neg hlast]
    have hlive := h.live id n hn
    refine ⟨_, rfl, ⟨h.named.setNode hn rfl, fun j => ?_, fun j k hk => ?_⟩,
      ⟨rfl, fun j k hk => ?_⟩, rfl⟩
    · have hj := h.counted j
      rw [mapRefs_congr (s := s) (t := s.setNode id _) rfl j, setNode_nodes]
      by_cases heq : j = id
      · rw [if_pos heq, heq]
        push_cast at hcount
        show n.refCount - 1 = _
        omega
      · rw [if_neg heq]
        rw [Multiset.count_cons_of_ne heq] at hj
        exact hj
    · rw [setNode_nodes] at hk
      split_ifs at hk with heq
      · rw [← Option.some.inj hk]
        show 0 < n.refCount - 1
        omega
      · exact h.live j k hk
    · rw [setNode_nodes] at hk
      split_ifs at hk with heq
      · rw [heq, ← Option.some.inj hk]
        exact ⟨n, hn, rfl⟩
      · exact ⟨k, hk, rfl⟩

/-! ### The parent -/

/-- What `MemfsFileNodeMapGetParent` finds. -/
theorem fileNodeMapGetParent_cases (hsplit : Splits pathSuffix) (hN : s.Named) {ps : Path} {c : Part}
    (hlen : (pathName (ps ++ [c])).length < maxPath) :
    (s.lookup ps = none ∧ s.fileNodeMapGetParent pathSuffix (pathName (ps ++ [c])) =
        some (.error .objectPathNotFound)) ∨
      ∃ parent p, s.lookup ps = some parent ∧ s.nodes parent = some p ∧
        s.fileNodeMapGetParent pathSuffix (pathName (ps ++ [c])) =
          some (if p.isDirectory then .ok parent else .error .notADirectory) := by
  rw [fileNodeMapGetParent, if_neg (by omega), hsplit]
  cases hlook : s.lookup ps with
  | none =>
    refine .inl ⟨rfl, ?_⟩
    rw [show s.fileNodeMap[pathName ps]? = none from hlook]
  | some parent =>
    obtain ⟨p, hp, -⟩ := hN.entry ps parent hlook
    refine .inr ⟨parent, p, rfl, hp, ?_⟩
    rw [show s.fileNodeMap[pathName ps]? = some parent from hlook]
    simp only [hp, Option.bind_eq_bind, Option.bind_some]
    split_ifs <;> rfl

/-- Touching the parent changes its times, if there is a parent. -/
theorem fileNodeMapTouchParent_spec (sys : System) (hsplit : Splits pathSuffix) (hN : s.Named)
    (hn : s.nodes id = some n) :
    ∃ t, s.fileNodeMapTouchParent pathSuffix sys id = some t ∧ Updated TimesOnly s t := by
  obtain ⟨ps, hname, hlen⟩ := hN.node id n hn
  rw [fileNodeMapTouchParent, hn, Option.bind_eq_bind, Option.bind_some]
  by_cases hroot : n.fileName = rootName
  · rw [if_pos hroot]
    exact ⟨s, rfl, .refl .refl s⟩
  · rw [if_neg hroot]
    have hne : ps ≠ [] := by
      rintro rfl
      exact hroot hname
    obtain ⟨qs, c, rfl⟩ : ∃ qs c, ps = qs ++ [c] := by
      obtain ⟨qs, c, h⟩ := (List.eq_nil_or_concat ps).resolve_left hne
      exact ⟨qs, c, by rw [h, List.concat_eq_append]⟩
    rw [hname]
    rcases fileNodeMapGetParent_cases hsplit hN hlen with ⟨-, heq⟩ | ⟨parent, p, -, hp, heq⟩
    · rw [heq]
      exact ⟨s, rfl, .refl .refl s⟩
    · rw [heq]
      by_cases hdir : p.isDirectory = true
      · simp only [hdir, if_true, Option.bind_eq_bind, Option.bind_some, hp]
        exact ⟨_, rfl, updated_setNode .refl hp (timesOnly_touch p sys.now)⟩
      · simp only [hdir, Bool.false_eq_true, if_false, Option.bind_eq_bind, Option.bind_some]
        exact ⟨s, rfl, .refl .refl s⟩

/-! ### Inserting and removing -/

theorem contains_eq (ps : Path) : s.fileNodeMap.contains (pathName ps) = (s.lookup ps).isSome :=
  TreeMap.contains_eq_isSome_getElem?

/-- **Filing a node** under a free name. -/
theorem fileNodeMapInsert_spec {sys : System} (hsplit : Splits pathSuffix) (hN : s.Named) (hn : s.nodes id = some n)
    (hname : n.fileName = pathName ps) (hfree : s.lookup ps = none) (hmem : sys.insertOk id = true) :
    ∃ t, s.fileNodeMapInsert pathSuffix sys id = some (.success, true, t) ∧
      Updated TimesOnly ((s.insertEntry ps id).setNode id (referenced n)) t := by
  have hfree' : s.fileNodeMap.contains n.fileName = false := by
    rw [hname, contains_eq, hfree]
    rfl
  have hN' : ((s.insertEntry ps id).setNode id (referenced n)).Named :=
    (hN.insertEntry hn hname).setNode hn rfl
  have hn' : ((s.insertEntry ps id).setNode id (referenced n)).nodes id = some (referenced n) := by
    rw [setNode_nodes, if_pos rfl]
  obtain ⟨t, ht, hu⟩ := fileNodeMapTouchParent_spec sys hsplit hN' hn'
  refine ⟨t, ?_, hu⟩
  rw [fileNodeMapInsert, hn, Option.bind_eq_bind, Option.bind_some, if_neg (by rw [hmem]; decide),
    if_neg (by rw [hfree']; decide), hname]
  have hentry : (s.insertEntry ps id).nodes id = some n := hn
  show ((s.insertEntry ps id).fileNodeReference id).bind _ = _
  rw [fileNodeReference_eq hentry, Option.bind_some]
  simp only [Option.bind_eq_bind, ht, Option.bind_some]

/-- The same from a state in which the new reference is accounted for. -/
theorem fileNodeMapInsert_sound {sys : System} (hsplit : Splits pathSuffix)
    (h : (s.setNode id (referenced n)).Sound (id ::ₘ held)) (hN : s.Named) (hn : s.nodes id = some n)
    (hname : n.fileName = pathName ps) (hfree : s.lookup ps = none) (hmem : sys.insertOk id = true) :
    ∃ t, s.fileNodeMapInsert pathSuffix sys id = some (.success, true, t) ∧ t.Sound held ∧
      Descends CountAndTimes s t ∧ t.fileNodeMap = s.fileNodeMap.insert (pathName ps) id := by
  obtain ⟨t, ht, hu⟩ := fileNodeMapInsert_spec hsplit hN hn hname hfree hmem
  have hn' : (s.setNode id (referenced n)).nodes id = some (referenced n) := by
    rw [setNode_nodes, if_pos rfl]
  have hcounted := h.counted.insertEntry h.named hn' hname hfree (Multiset.mem_cons_self id held)
  rw [Multiset.erase_cons_head] at hcounted
  have hsound : ((s.insertEntry ps id).setNode id (referenced n)).Sound held :=
    ⟨h.named.insertEntry hn' hname, hcounted, h.live⟩
  refine ⟨t, ht, hsound.updated (hu.imp fun _ _ => TimesOnly.kept), ⟨?_, fun j m hm => ?_⟩, ?_⟩
  · rw [hu.rest]
    rfl
  · obtain ⟨k, hk, hR⟩ := hu.node' hm
    rw [setNode_nodes] at hk
    split_ifs at hk with hj
    · refine ⟨n, hj ▸ hn, CountAndTimes.trans ?_ hR.countAndTimes⟩
      rw [← Option.some.inj hk]
      rfl
    · exact ⟨k, hk, hR.countAndTimes⟩
  · rw [hu.fileNodeMap]
    rfl

/-- Without memory nothing is filed. -/
theorem fileNodeMapInsert_failed {sys : System} (pathSuffix : PathSuffix) (hn : s.nodes id = some n)
    (hmem : sys.insertOk id = false) :
    s.fileNodeMapInsert pathSuffix sys id = some (.insufficientResources, false, s) := by
  rw [fileNodeMapInsert, hn, Option.bind_eq_bind, Option.bind_some, if_pos hmem]

/-- A node whose name is not in the map is not removed. -/
theorem fileNodeMapRemove_of_lookup_none (sys : System) (hn : s.nodes id = some n) (hname : n.fileName = pathName ps)
    (hlook : s.lookup ps = none) : s.fileNodeMapRemove pathSuffix sys id = some s := by
  rw [fileNodeMapRemove, hn, Option.bind_eq_bind, Option.bind_some, hname, contains_eq, hlook]
  rfl

/-- **Removing a node** takes the entry under its name, whosever it is, and gives back a reference to the
node.  So one reference to the owner of the entry is held in exchange for one to the node. -/
theorem fileNodeMapRemove_spec (sys : System) (hsplit : Splits pathSuffix) (h : s.Sound held)
    (hn : s.nodes id = some n) (hname : n.fileName = pathName ps) {owner : NodeId}
    (hlook : s.lookup ps = some owner) (hid : id ∈ owner ::ₘ held) :
    ∃ t, s.fileNodeMapRemove pathSuffix sys id = some t ∧ t.Sound ((owner ::ₘ held).erase id) ∧
      Descends CountAndTimes s t ∧ t.fileNodeMap = s.fileNodeMap.erase (pathName ps) := by
  have herase : (s.eraseEntry ps).Sound (owner ::ₘ held) :=
    ⟨h.named.eraseEntry ps, h.counted.eraseEntry h.named hlook, h.live⟩
  have hn' : (s.eraseEntry ps).nodes id = some n := hn
  obtain ⟨u, hu, htouch⟩ := fileNodeMapTouchParent_spec sys hsplit herase.named hn'
  have hsound : u.Sound (id ::ₘ (owner ::ₘ held).erase id) := by
    rw [Multiset.cons_erase hid]
    exact herase.updated (htouch.imp fun _ _ => TimesOnly.kept)
  obtain ⟨t, ht, htsound, hdesc, hmap⟩ := fileNodeDereference_spec hsound
  refine ⟨t, ?_, htsound, ?_, ?_⟩
  · rw [fileNodeMapRemove, hn, Option.bind_eq_bind, Option.bind_some, hname, contains_eq, hlook,
      if_pos (show (some owner).isSome = true from rfl)]
    show ((s.eraseEntry ps).fileNodeMapTouchParent pathSuffix sys id).bind _ = _
    rw [hu, Option.bind_some]
    exact ht
  · have hfirst : Descends CountAndTimes s u := by
      refine ⟨by rw [htouch.rest]; rfl, fun j m hm => ?_⟩
      obtain ⟨k, hk, hR⟩ := htouch.node' hm
      exact ⟨k, hk, hR.countAndTimes⟩
    exact hfirst.trans .trans hdesc
  · rw [hmap, htouch.fileNodeMap]
    rfl

/-! ### The tree of names -/

theorem lookup_file {m : Memfs nls false} (h : m.fileNodeMap = s.fileNodeMap.insert (pathName ps) id) :
    m.lookup = NameTree.file s.lookup ps id := by
  funext qs
  rw [lookup, h, getElem?_insert_pathName, NameTree.file_apply]
  simp only [eq_comm, lookup]

theorem lookup_unfile {m : Memfs nls false} (h : m.fileNodeMap = s.fileNodeMap.erase (pathName ps)) :
    m.lookup = NameTree.unfile s.lookup ps := by
  funext qs
  rw [lookup, h, getElem?_erase_pathName, NameTree.unfile_apply]
  simp only [eq_comm, lookup]

theorem size_insert (hfree : s.lookup ps = none) :
    (s.fileNodeMap.insert (pathName ps) id).size = s.fileNodeMap.size + 1 := by
  rw [TreeMap.size_insert, if_neg]
  rw [contains_eq, hfree]
  exact Bool.false_ne_true

theorem size_erase (hlook : s.lookup ps = some id) :
    (s.fileNodeMap.erase (pathName ps)).size = s.fileNodeMap.size - 1 := by
  rw [TreeMap.size_erase, if_pos]
  rw [contains_eq, hlook]
  rfl

end Memfs

end FtjSsdSim.Vdisk
