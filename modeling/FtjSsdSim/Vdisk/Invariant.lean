import Mathlib
import FtjSsdSim.Vdisk.Store

/-!
# What every callback keeps

`Volume.Inv` collects what holds between two callbacks: the names and counts are right, every name is
filed in a directory, and every node is backed by a block of its size, apart from the disk file, whose
bytes the controller keeps.  The disk file has the size of the drive and no block (`Unbacked`) until its
size is changed.

* `setFileSizeInternal_eq_none_iff` — exactly when changing the size of a file leaves its block: where
  the rounding of the size wraps around, or where a disk file that was cut grows again within its
  allocation, which writes zeros through a null pointer.
-/

namespace FtjSsdSim.Vdisk

open Std FtjSsdSim.Library

/-! ### The blocks of the nodes -/

/-- The node of the disk file, as it is mounted. -/
structure Unbacked (n : FileNode) : Prop where
  name : n.fileName = diskName
  data : n.fileData = none
  fits : n.fileInfo.fileSize ≤ n.fileInfo.allocationSize
  bounded : n.fileInfo.allocationSize + 511 < 2 ^ 64

/-- A node has its block, or is the disk file. -/
def Held (maxFileSize : ℕ) (n : FileNode) : Prop := Backed maxFileSize n ∨ Unbacked n

section

variable {maxFileSize newSize : ℕ} (sys : System) {n m : FileNode}

theorem Held.backed (h : Held maxFileSize n) (hname : n.fileName ≠ diskName) : Backed maxFileSize n :=
  h.resolve_right fun hu => hname hu.name

theorem Held.fits (h : Held maxFileSize n) : n.fileInfo.fileSize ≤ n.fileInfo.allocationSize := by
  rcases h with hb | hu
  · exact hb.fits
  · exact hu.fits

theorem Held.bounded (h : Held maxFileSize n) (hmax : maxFileSize < 2 ^ 32) :
    n.fileInfo.allocationSize + 511 < 2 ^ 64 := by
  rcases h with hb | hu
  · have hsmall := hb.small
    omega
  · exact hu.bounded

/-- A node with the same block that is no longer than before. -/
theorem Held.congr (h : Held maxFileSize n) (hname : n.fileName = diskName → m.fileName = diskName)
    (hdata : m.fileData = n.fileData) (halloc : m.fileInfo.allocationSize = n.fileInfo.allocationSize)
    (hsize : m.fileInfo.fileSize ≤ n.fileInfo.fileSize) : Held maxFileSize m := by
  have hfits := hsize.trans h.fits
  rw [← halloc] at hfits
  rcases h with hb | hu
  · exact .inl ⟨by rw [hdata, halloc]; exact hb.held, hfits, by rw [halloc]; exact hb.small⟩
  · exact .inr ⟨hname hu.name, hdata.trans hu.data, hfits, by rw [halloc]; exact hu.bounded⟩

theorem SameButData.fileName (h : SameButData n m) : m.fileName = n.fileName := by
  rw [SameButData] at h
  rw [h]

theorem SameButData.refCount (h : SameButData n m) : m.refCount = n.refCount := by
  rw [SameButData] at h
  rw [h]

theorem SameButData.isDirectory (h : SameButData n m) : m.isDirectory = n.isDirectory := by
  rw [SameButData] at h
  rw [h]
  rfl

/-- A disk file that gets another allocation gets a block. -/
theorem Unbacked.setAllocationSize (h : Unbacked n) (maxFileSize newSize : ℕ) :
    ∃ status m, setAllocationSize maxFileSize sys n newSize = (status, m) ∧ SameButData n m ∧
      (status ≠ .success → m = n) ∧
      (status = .success → m.fileInfo.fileSize = min n.fileInfo.fileSize newSize) ∧
      (m = n ∨ Backed maxFileSize m) ∧
      (status = .success → m.fileInfo.allocationSize = newSize) := by
  have hfits := h.fits
  rw [Vdisk.setAllocationSize]
  by_cases hne : n.fileInfo.allocationSize ≠ newSize
  · rw [if_pos hne]
    by_cases hmax : newSize > maxFileSize
    · rw [if_pos hmax]
      exact ⟨_, _, rfl, .refl n, fun _ => rfl, (fun hs => by cases hs), .inl rfl,
        (fun hs => by cases hs)⟩
    · rw [if_neg hmax]
      by_cases hfail : (largeHeapRealloc sys n.fileData newSize).isNone ∧ newSize ≠ 0
      · simp only [if_pos hfail]
        exact ⟨_, _, rfl, .refl n, fun _ => rfl, (fun hs => by cases hs), .inl rfl,
          (fun hs => by cases hs)⟩
      · simp only [if_neg hfail]
        have hsize : (if n.fileInfo.fileSize > newSize then newSize else n.fileInfo.fileSize) =
            min n.fileInfo.fileSize newSize := by
          split_ifs <;> omega
        refine ⟨_, _, rfl, rfl, fun hs => (hs rfl).elim, fun _ => hsize,
          .inr ⟨(largeHeapRealloc_spec hfail).1, ?_, by simpa using hmax⟩, fun _ => rfl⟩
        simp only [hsize]
        omega
  · rw [if_neg hne]
    have heq : n.fileInfo.allocationSize = newSize := not_not.mp hne
    exact ⟨_, _, rfl, .refl n, fun _ => rfl, fun _ => by omega, .inl rfl, fun _ => heq⟩

theorem Held.setAllocationSize (h : Held maxFileSize n) (newSize : ℕ) :
    ∃ status m, setAllocationSize maxFileSize sys n newSize = (status, m) ∧ SameButData n m ∧
      Held maxFileSize m ∧ (status ≠ .success → m = n) ∧
      (n.fileName ≠ diskName → status = .success → m.contents = n.contents.take newSize) := by
  rcases h with hb | hu
  · obtain ⟨status, m, heq, hsame, hm, hfail, hok⟩ := setAllocationSize_spec sys hb newSize
    exact ⟨status, m, heq, hsame, .inl hm, hfail, fun _ hs => (hok hs).2.2⟩
  · obtain ⟨status, m, heq, hsame, hfail, -, hm, -⟩ :=
      hu.setAllocationSize sys maxFileSize newSize
    refine ⟨status, m, heq, hsame, ?_, hfail, fun hname => absurd hu.name hname⟩
    rcases hm with rfl | hm
    · exact .inr hu
    · exact .inl hm

/-- The size wraps around where it is rounded up, or a disk file that was cut is to grow again within its
allocation. -/
def Overruns (n : FileNode) (newSize : ℕ) : Prop :=
  2 ^ 64 ≤ newSize + 511 ∨
    (n.fileData = none ∧ n.fileInfo.fileSize < newSize ∧ newSize ≤ n.fileInfo.allocationSize)

/-- What changing the size of a file comes to. -/
def Resized (maxFileSize : ℕ) (sys : System) (n : FileNode) (newSize : ℕ) : Prop :=
  ∃ status m, setFileSizeInternal maxFileSize sys n newSize false = some (status, m) ∧
    SameButData n m ∧ Held maxFileSize m ∧ (status ≠ .success → m = n) ∧
    (n.fileName ≠ diskName → status = .success → m.contents = resize 0 n.contents newSize)

/-- A disk file grows beyond its allocation: it gets a block, whose end is set to zero. -/
theorem Unbacked.grows (h : Unbacked n) (hgrow : n.fileInfo.allocationSize < newSize)
    (hwrap : newSize + 511 < 2 ^ 64) : Resized maxFileSize sys n newSize := by
  have hfits := h.fits
  have hround := le_roundUp hwrap
  have hname : ∀ {P : Prop}, n.fileName ≠ diskName → P := fun hne => absurd h.name hne
  obtain ⟨status, m, heq, hsame, hfail, hok, hm, halloc⟩ :=
    h.setAllocationSize sys maxFileSize (roundUp newSize)
  rw [Resized, setFileSizeInternal, if_neg Bool.false_ne_true, if_pos (by omega), if_pos hgrow, heq]
  by_cases hs : status = .success
  · have hback : Backed maxFileSize m := by
      rcases hm with rfl | hm
      · have := halloc hs
        omega
      · exact hm
    have hsize := hok hs
    have hroom := halloc hs
    have hheld := hback.held
    have hlt : m.fileInfo.fileSize < newSize := by omega
    obtain ⟨q, hq, hqsize, -⟩ := copyTo_spec m.fileData m.fileInfo.fileSize
      (newSize - m.fileInfo.fileSize) (fun _ => 0) (by omega)
    simp only [hs, ne_eq, not_true_eq_false, if_false, if_pos hlt, hq]
    refine ⟨_, _, rfl, ?_, .inl ⟨hqsize.trans hheld, ?_, hback.small⟩, fun hs => (hs rfl).elim, hname⟩
    · rw [SameButData] at hsame ⊢
      rw [hsame]
    · show newSize ≤ m.fileInfo.allocationSize
      omega
  · simp only [ne_eq, hs, not_false_eq_true, if_true]
    refine ⟨_, _, rfl, hsame, ?_, hfail, hname⟩
    rw [hfail hs]
    exact .inr h

/-- The size of a disk file is changed within its allocation. -/
theorem Unbacked.shrinks (h : Unbacked n) (hle : newSize ≤ n.fileInfo.fileSize) :
    Resized maxFileSize sys n newSize := by
  have hfits := h.fits
  have hname : ∀ {P : Prop}, n.fileName ≠ diskName → P := fun hne => absurd h.name hne
  rw [Resized, setFileSizeInternal, if_neg Bool.false_ne_true]
  by_cases hne : n.fileInfo.fileSize = newSize
  · rw [if_neg (not_not.mpr hne)]
    exact ⟨_, _, rfl, .refl n, .inr h, fun _ => rfl, hname⟩
  · rw [if_pos hne, if_neg (by omega)]
    simp only [ne_eq, not_true_eq_false, if_false]
    rw [if_neg (by omega)]
    refine ⟨_, _, rfl, rfl, .inr ⟨h.name, h.data, ?_, h.bounded⟩, fun hs => (hs rfl).elim, hname⟩
    show newSize ≤ n.fileInfo.allocationSize
    omega

/-- Changing the size of a file works, or fails and changes nothing. -/
theorem Held.resized (h : Held maxFileSize n) (hok : ¬ Overruns n newSize) :
    Resized maxFileSize sys n newSize := by
  rw [Overruns, not_or, Nat.not_le] at hok
  rcases h with hb | hu
  · obtain ⟨status, m, heq, hsame, hm, hfail, hcontents⟩ := setFileSizeInternal_spec sys hb hok.1
    exact ⟨status, m, heq, hsame, .inl hm, hfail, fun _ => hcontents⟩
  · by_cases hgrow : n.fileInfo.allocationSize < newSize
    · exact hu.grows sys hgrow hok.1
    · have hle : newSize ≤ n.fileInfo.fileSize := by
        by_contra hlt
        exact hok.2 ⟨hu.data, by omega, by omega⟩
      exact hu.shrinks sys hle

/-- A rounding that wraps around gives a disk file a block of no bytes, which then is filled up. -/
theorem Unbacked.roundUp_wraps (h : Unbacked n) (hlt : newSize < 2 ^ 64) (hwrap : 2 ^ 64 ≤ newSize + 511) :
    setFileSizeInternal maxFileSize sys n newSize false = none := by
  have hfits := h.fits
  have hbounded := h.bounded
  have hround : roundUp newSize = 0 := by
    rw [roundUp, allocationUnit]
    omega
  obtain ⟨status, m, heq, -, -, hok, hm, halloc⟩ := h.setAllocationSize sys maxFileSize 0
  have hs : status = .success := by
    by_cases hzero : n.fileInfo.allocationSize = 0
    · rw [Vdisk.setAllocationSize, if_neg (by omega)] at heq
      exact (congrArg Prod.fst heq).symm
    · rw [Vdisk.setAllocationSize, if_pos (by omega), if_neg (by omega)] at heq
      simp only [ne_eq, not_true_eq_false, and_false, if_false] at heq
      exact (congrArg Prod.fst heq).symm
  have hblock : blockSize m.fileData = 0 := by
    rcases hm with rfl | hm
    · rw [h.data, blockSize]
    · rw [hm.held, halloc hs]
  have hzero := hok hs
  have hlt' : m.fileInfo.fileSize < newSize := by omega
  have hout : blockSize m.fileData < m.fileInfo.fileSize + (newSize - m.fileInfo.fileSize) := by omega
  rw [setFileSizeInternal, if_neg Bool.false_ne_true, if_pos (by omega), if_pos (by omega), hround, heq]
  simp only [hs, ne_eq, not_true_eq_false, if_false, if_pos hlt',
    copyTo_eq_none _ (Nat.sub_ne_zero_of_lt hlt') hout]
  rfl

/-- **Exactly when changing the size of a file leaves its block.** -/
theorem setFileSizeInternal_eq_none_iff (h : Held maxFileSize n) (hmax : maxFileSize < 2 ^ 32)
    (hnew : newSize < 2 ^ 64) :
    setFileSizeInternal maxFileSize sys n newSize false = none ↔ Overruns n newSize := by
  constructor
  · intro hnone
    by_contra hok
    obtain ⟨status, m, heq, -⟩ := h.resized sys hok
    rw [hnone] at heq
    cases heq
  · rintro (hwrap | ⟨hdata, hlt, hle⟩)
    · rcases h with hb | hu
      · exact setFileSizeInternal_roundUp_wraps sys hb hmax hnew hwrap
      · exact hu.roundUp_wraps sys hnew hwrap
    · -- nothing is allocated, and there is no block to be filled up
      have hout : blockSize n.fileData < n.fileInfo.fileSize + (newSize - n.fileInfo.fileSize) := by
        rw [hdata, blockSize]
        omega
      rw [setFileSizeInternal, if_neg Bool.false_ne_true, if_pos (by omega), if_neg (by omega)]
      simp only [ne_eq, not_true_eq_false, if_false, if_pos hlt,
        copyTo_eq_none _ (Nat.sub_ne_zero_of_lt hlt) hout]
      rfl

end

/-! ### What a node keeps while names and counts change -/

/-- At most the name, the count and the times differ, and the disk file keeps its name. -/
def Carried (n m : FileNode) : Prop :=
  CountAndTimes { n with fileName := m.fileName } m ∧ (n.fileName = diskName → m.fileName = diskName)

section

variable {maxFileSize : ℕ} {n m k : FileNode}

theorem Carried.refl (n : FileNode) : Carried n n := ⟨rfl, id⟩

theorem Carried.trans (h : Carried n m) (h' : Carried m k) : Carried n k := by
  refine ⟨?_, fun hn => h'.2 (h.2 hn)⟩
  have h₁ := h.1
  have h₂ := h'.1
  rw [CountAndTimes, TimesOnly] at h₁ h₂ ⊢
  rw [h₂, h₁]

theorem CountAndTimes.fileName (h : CountAndTimes n m) : m.fileName = n.fileName := by
  rw [CountAndTimes, TimesOnly] at h
  rw [h]

theorem CountAndTimes.carried (h : CountAndTimes n m) : Carried n m := by
  refine ⟨?_, fun hn => h.fileName.trans hn⟩
  rw [h.fileName]
  exact h

theorem TimesOnly.carried (h : TimesOnly n m) : Carried n m := h.countAndTimes.carried

theorem Carried.isDirectory (h : Carried n m) : m.isDirectory = n.isDirectory := by
  have h₁ := h.1
  rw [CountAndTimes, TimesOnly] at h₁
  rw [h₁]
  rfl

theorem Carried.contents (h : Carried n m) : m.contents = n.contents := by
  have h₁ := h.1
  rw [CountAndTimes, TimesOnly] at h₁
  rw [h₁]
  rfl

theorem Carried.fileSize (h : Carried n m) : m.fileInfo.fileSize = n.fileInfo.fileSize := by
  have h₁ := h.1
  rw [CountAndTimes, TimesOnly] at h₁
  rw [h₁]

theorem Carried.allocationSize (h : Carried n m) :
    m.fileInfo.allocationSize = n.fileInfo.allocationSize := by
  have h₁ := h.1
  rw [CountAndTimes, TimesOnly] at h₁
  rw [h₁]

theorem Carried.fileData (h : Carried n m) : m.fileData = n.fileData := by
  have h₁ := h.1
  rw [CountAndTimes, TimesOnly] at h₁
  rw [h₁]

theorem Carried.held (h : Carried n m) (hn : Held maxFileSize n) : Held maxFileSize m :=
  hn.congr h.2 h.fileData h.allocationSize h.fileSize.le

theorem Carried.view (h : Carried n m) (hname : m.fileName = n.fileName) : m.view = n.view := by
  rw [FileNode.view, FileNode.view, h.isDirectory, h.contents, hname]

end

/-! ### The invariant -/

/-- The node is that of a directory. -/
def Memfs.IsDir {nls : Nls} (s : Memfs nls false) (id : NodeId) : Prop :=
  ∃ n, s.nodes id = some n ∧ n.isDirectory = true

/-- What holds between two callbacks. -/
structure Volume.Inv {nls : Nls} (v : Volume nls false) : Prop where
  sound : v.fs.Sound v.opens
  root : ∃ id, v.fs.lookup [] = some id ∧ v.fs.IsDir id
  closed : NameTree.Closed v.fs.IsDir v.fs.lookup
  held : ∀ id n, v.fs.nodes id = some n → Held v.fs.maxFileSize n
  small : v.fs.maxFileSize < 2 ^ 32
  size : v.fs.fileNodeMap.size ≤ max v.fs.maxFileNodes 2

namespace Volume

variable {nls : Nls} {v : Volume nls false} {a : Store} {id : NodeId} {n m : FileNode} {ps : Path}
  {s : Memfs nls false} {opens : Multiset NodeId}

/-- An open file has its node. -/
theorem Inv.open_node (h : v.Inv) (hid : id ∈ v.opens) : ∃ n, v.fs.nodes id = some n :=
  h.sound.counted.held_pos hid

theorem Inv.mapped_node (h : v.Inv) (hp : v.fs.lookup ps = some id) :
    ∃ n, v.fs.nodes id = some n ∧ n.fileName = pathName ps :=
  h.sound.named.entry ps id hp

/-- **Changes of names and counts.**  Nodes that are backed, in a closed tree with a root, make a volume
with what is left of them. -/
theorem inv_of_descends (s₀ : Memfs nls false) (hheld : ∀ id n, s₀.nodes id = some n → Held s₀.maxFileSize n)
    (hd : Memfs.Descends Carried s₀ s) (hs : s.Sound opens)
    (hroot : ∃ id, s.lookup [] = some id ∧ s₀.IsDir id)
    (hclosed : NameTree.Closed s₀.IsDir s.lookup) (hsmall : s₀.maxFileSize < 2 ^ 32)
    (hsize : s.fileNodeMap.size ≤ max s₀.maxFileNodes 2) : Inv { v with fs := s, opens := opens } := by
  have hmax : s.maxFileSize = s₀.maxFileSize := by rw [hd.rest]
  have hcount : s.maxFileNodes = s₀.maxFileNodes := by rw [hd.rest]
  -- what is still filed was a directory only if it is one
  have hdir : ∀ ps id, s.lookup ps = some id → s₀.IsDir id → s.IsDir id := by
    intro ps id hp ⟨n, hn, hdir⟩
    obtain ⟨m, hm, -⟩ := hs.named.entry ps id hp
    obtain ⟨k, hk, hcarried⟩ := hd.node id m hm
    rw [hn] at hk
    refine ⟨m, hm, ?_⟩
    rw [hcarried.isDirectory, ← Option.some.inj hk]
    exact hdir
  refine ⟨hs, ?_, hclosed.mono hdir, fun id m hm => ?_, ?_, ?_⟩
  · obtain ⟨id, hid, hrootdir⟩ := hroot
    exact ⟨id, hid, hdir [] id hid hrootdir⟩
  · obtain ⟨n, hn, hcarried⟩ := hd.node id m hm
    show Held s.maxFileSize m
    rw [hmax]
    exact hcarried.held (hheld id n hn)
  · show s.maxFileSize < 2 ^ 32
    rw [hmax]
    exact hsmall
  · show s.fileNodeMap.size ≤ max s.maxFileNodes 2
    rw [hcount]
    exact hsize

theorem Inv.descends (h : v.Inv) (hd : Memfs.Descends Carried v.fs s) (hs : s.Sound opens)
    (hclosed : NameTree.Closed v.fs.IsDir s.lookup) (hroot : s.lookup [] = v.fs.lookup [])
    (hsize : s.fileNodeMap.size ≤ v.fs.fileNodeMap.size) :
    Inv { v with fs := s, opens := opens } := by
  obtain ⟨id, hid, hdir⟩ := h.root
  exact inv_of_descends v.fs h.held hd hs ⟨id, hroot.trans hid, hdir⟩ hclosed h.small (hsize.trans h.size)

/-- **Changes of one node.** -/
theorem Inv.setNode (h : v.Inv) (hn : v.fs.nodes id = some n) (hkept : Kept n m)
    (hdir : m.isDirectory = n.isDirectory) (hheld : Held v.fs.maxFileSize m) :
    Inv { v with fs := v.fs.setNode id m } := by
  have hu : Memfs.Updated (fun k l => Kept k l ∧ l.isDirectory = k.isDirectory) v.fs
      (v.fs.setNode id m) :=
    Memfs.updated_setNode (fun k => ⟨⟨rfl, rfl⟩, rfl⟩) hn ⟨hkept, hdir⟩
  have hlook : (v.fs.setNode id m).lookup = v.fs.lookup := rfl
  have hstay : ∀ j, v.fs.IsDir j → (v.fs.setNode id m).IsDir j := by
    intro j ⟨k, hk, hkdir⟩
    obtain ⟨l, hl, -, hldir⟩ := hu.node j k hk
    exact ⟨l, hl, hldir.trans hkdir⟩
  refine ⟨h.sound.updated (hu.imp fun _ _ h => h.1), ?_, ?_, fun j l hl => ?_, h.small, h.size⟩
  · obtain ⟨j, hj, hjdir⟩ := h.root
    exact ⟨j, hj, hstay j hjdir⟩
  · rw [hlook]
    exact h.closed.mono fun _ j _ => hstay j
  · rw [Memfs.setNode_nodes] at hl
    split_ifs at hl with hj
    · rw [← Option.some.inj hl]
      exact hheld
    · exact h.held j l hl

/-- The store then has another object there. -/
theorem Shows.setNode (h : v.Shows a) (id : NodeId) {o : Object} (ho : o = m.view) :
    Shows { v with fs := v.fs.setNode id m } { a with object := Function.update a.object id o } := by
  refine ⟨h.tree, h.opens, fun j k hk => ?_⟩
  rw [Memfs.setNode_nodes] at hk
  show Function.update a.object id o j = k.view
  rw [Function.update_apply]
  split_ifs at hk ⊢ with hj
  · rw [ho, Option.some.inj hk]
  · exact h.object j k hk

/-- A change that does not show. -/
theorem Shows.setNode_same (h : v.Shows a) (hn : v.fs.nodes id = some n) (hview : m.view = n.view) :
    Shows { v with fs := v.fs.setNode id m } a := by
  have hsame : Function.update a.object id m.view = a.object := by
    rw [hview, ← h.object id n hn]
    exact Function.update_eq_self id a.object
  have hset := h.setNode id (m := m) rfl
  rw [hsame] at hset
  exact hset

/-- The map holds the parent of each of its paths. -/
theorem Inv.parentClosed (h : v.Inv) :
    ParentClosed (fun e : FileName × NodeId => pathOf e.1) v.fs.fileNodeMap.toList := by
  have hcanon := h.sound.named.canonical
  intro e he ps c hpath
  have hlook : v.fs.lookup (ps ++ [c]) = some e.2 := by
    refine hcanon.getElem?_eq_some.mpr ?_
    rw [← hpath, hcanon e he]
    exact he
  obtain ⟨p, hp, -⟩ := h.closed ps c e.2 hlook
  exact ⟨_, hcanon.getElem?_eq_some.mp hp, pathOf_pathName ps⟩

/-- **`MemfsFileNodeMapHasChild`** is right about every node whose name is the name of a path. -/
theorem Inv.hasChild (h : v.Inv) {pathSuffix : PathSuffix} (hsplit : Splits pathSuffix)
    (hn : v.fs.nodes id = some n) (hname : n.fileName = pathName ps) :
    ∃ b, v.fs.fileNodeMapHasChild pathSuffix id = some b ∧
      (b = true ↔ NameTree.HasChild v.fs.lookup ps) := by
  obtain ⟨b, hb, hiff⟩ := Memfs.fileNodeMapHasChild_spec hsplit h.sound.named.canonical h.parentClosed
    hn hname
  refine ⟨b, hb, hiff.trans (exists_congr fun c => ?_)⟩
  rw [TreeMap.mem_iff_isSome_getElem?, Option.isSome_iff_ne_none]
  rfl

end Volume

end FtjSsdSim.Vdisk
