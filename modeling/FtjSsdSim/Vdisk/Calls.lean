import Mathlib
import FtjSsdSim.Vdisk.Invariant

/-!
# Calls on open files

`Request.Admitted` is the contract between the driver and the callbacks: names are names of paths, nodes
are those of open files, a call does not turn a file into a directory, a file is not opened as often as
its count cannot hold, and is not deleted once another one has its name; and the calls of which
`write_eq_none_iff` and `setFileSizeInternal_eq_none_iff` say that they leave their block are not made.

A request is `Served` if its callback returns, keeps the invariant, and does to the volume what the
store says.  This module serves the requests that concern one node and its bytes.
-/

namespace FtjSsdSim.Vdisk

open FtjSsdSim.Library FtjSsdSim.Engine

variable {nls : Nls}

/-- What the driver promises. -/
def Request.Admitted (v : Volume nls false) : Request → Prop
  | .getVolumeInfo => True
  | .setVolumeLabel _ => True
  | .getSecurityByName fileName _ => ∃ ps, fileName = pathName ps ∧ fileName.length < maxPath
  | .create fileName _ _ _ _ => ∃ ps, fileName = pathName ps
  | .openFile fileName => (∃ ps, fileName = pathName ps) ∧
    ∀ id, v.fs.fileNodeMapGet fileName = some id → v.opens.count id + 4 < 2 ^ 31
  | .overwrite id fileAttributes replaceFileAttributes _ =>
    id ∈ v.opens ∧ ∀ n, v.fs.nodes id = some n →
      (Memfs.overwriteAttributes n.fileInfo.fileAttributes fileAttributes replaceFileAttributes &&&
        attributeDirectory ≠ 0 ↔ n.isDirectory = true)
  | .cleanup id flags =>
    id ∈ v.opens ∧ (flags.delete = true → ∀ n, v.fs.nodes id = some n → n.fileName ≠ rootName ∧
      ∀ owner, v.fs.fileNodeMapGet n.fileName = some owner → owner = id)
  | .close id => id ∈ v.opens
  | .read id _ offset length => id ∈ v.opens ∧ offset < 2 ^ 64 ∧ length < 2 ^ 32
  | .write id _ offset length writeToEndOfFile constrainedIo =>
    id ∈ v.opens ∧ length < 2 ^ 32 ∧ (constrainedIo = false → ∀ n, v.fs.nodes id = some n →
      writeStart n.contents offset writeToEndOfFile constrainedIo + length + 511 < 2 ^ 64)
  | .flush id => ∀ i ∈ id, i ∈ v.opens
  | .getFileInfo id => id ∈ v.opens
  | .setBasicInfo id fileAttributes _ _ _ _ =>
    id ∈ v.opens ∧ ∀ new ∈ fileAttributes, ∀ n, v.fs.nodes id = some n →
      (new &&& attributeDirectory ≠ 0 ↔ n.isDirectory = true)
  | .setFileSize id newSize setAllocation =>
    id ∈ v.opens ∧ (setAllocation = false → ∀ n, v.fs.nodes id = some n → ¬ Overruns n newSize)
  | .canDelete id => id ∈ v.opens
  | .rename id newFileName _ =>
    ∃ ps qs c, v.fs.lookup ps = some id ∧ ps ≠ [] ∧
      newFileName = pathName (qs ++ [c]) ∧ (∃ p, v.fs.lookup qs = some p ∧ v.fs.IsDir p) ∧
      (ps <+: qs ++ [c] → ps = qs ++ [c])
  | .getSecurity id _ => id ∈ v.opens
  | .setSecurity id _ => id ∈ v.opens
  | .readDirectory id marker _ => id ∈ v.opens ∧ ∀ name ∈ marker, name.length < 256 ∧ ∃ p : Part, name = p.val
  | .getDirInfoByName id fileName => id ∈ v.opens ∧ ∃ p : Part, fileName = p.val
  | .control _ _ _ => True

/-- The callback returns, the invariant is kept, and the store is followed. -/
def Served (a : Store) (r : Request) (o : Option (Reply × Volume nls false)) : Prop :=
  ∃ reply v, o = some (reply, v) ∧ v.Inv ∧ v.Shows (a.apply r reply) ∧ a.Answers r reply

namespace Volume

variable {v : Volume nls false} {a : Store} {id : NodeId} {n m : FileNode} {status : Status}
  {pathSuffix : PathSuffix} {hits : FTJController.Hits} {sys : System}

/-- A call that changes nothing. -/
theorem Inv.served_same {r : Request} {reply : Reply} (h : v.Inv) (hs : v.Shows a)
    (happly : a.apply r reply = a) (hanswers : a.Answers r reply) : Served a r (some (reply, v)) := by
  refine ⟨reply, v, rfl, h, ?_, hanswers⟩
  rw [happly]
  exact hs

/-! ### What the store does about failures -/

theorem apply_overwrite_failed {fileAttributes : BitVec 32} {replace : Bool} {allocationSize : ℕ}
    (h : status ≠ .success) :
    a.apply (.overwrite id fileAttributes replace allocationSize) (.done status) = a := by
  cases status <;> first | rfl | exact absurd rfl h

theorem apply_setFileSize_failed {newSize : ℕ} {setAllocation : Bool} (h : status ≠ .success) :
    a.apply (.setFileSize id newSize setAllocation) (.done status) = a := by
  cases status <;> first | rfl | exact absurd rfl h

theorem apply_write_failed {buffer : ℕ → Byte} {offset length count : ℕ} {eof constrained : Bool}
    {bytes : List Byte} (h : status ≠ .success) :
    a.apply (.write id buffer offset length eof constrained) (.transferred status count bytes) = a := by
  cases status <;> first | rfl | exact absurd rfl h

/-! ### Changing bytes -/

/-- An operation that changes the bytes of a node as the store says. -/
theorem Inv.setBytes (h : v.Inv) (hs : v.Shows a) (hn : v.fs.nodes id = some n)
    (hkept : Kept n m) (hdir : m.isDirectory = n.isDirectory) (hheld : Held v.fs.maxFileSize m)
    {f : List Byte → List Byte} (hcontents : n.fileName ≠ diskName → m.contents = f n.contents) :
    Inv { v with fs := v.fs.setNode id m } ∧
      Shows { v with fs := v.fs.setNode id m } (a.setBytes id f) := by
  refine ⟨h.setNode hn hkept hdir hheld, hs.setNode id ?_⟩
  rw [hs.object id n hn, FileNode.view, FileNode.view, hdir, hkept.1]
  split_ifs with hname
  · rfl
  · rw [hcontents hname]
    rfl

theorem view_bytes {file : List Byte} (h : n.view.bytes = some file) :
    n.fileName ≠ diskName ∧ file = n.contents := by
  rw [FileNode.view] at h
  simp only at h
  split_ifs at h with hname
  exact ⟨hname, (Option.some.inj h).symm⟩

theorem Inv.overwrite (h : v.Inv) (hs : v.Shows a) {fileAttributes : BitVec 32} {replace : Bool}
    {allocationSize : ℕ}
    (hr : (Request.overwrite id fileAttributes replace allocationSize).Admitted v) :
    Served a (.overwrite id fileAttributes replace allocationSize)
      (v.call pathSuffix hits sys (.overwrite id fileAttributes replace allocationSize)) := by
  obtain ⟨hid, hkind⟩ := hr
  obtain ⟨n, hn⟩ := h.open_node hid
  obtain ⟨status, m, heq, hsame, hm, hfail, -⟩ :=
    (h.held id n hn).setAllocationSize sys allocationSize
  rw [call, Memfs.overwrite, hn, Option.bind_eq_bind, Option.bind_some, heq]
  by_cases hstatus : status = .success
  · subst hstatus
    have hattr : m.fileInfo.fileAttributes = n.fileInfo.fileAttributes := by
      rw [SameButData] at hsame
      rw [hsame]
    have hbits := hkind n hn
    refine ⟨_, _, rfl, ?_⟩
    rw [← hattr] at hbits
    have hdir : decide (Memfs.overwriteAttributes m.fileInfo.fileAttributes fileAttributes replace &&&
        attributeDirectory ≠ 0) = n.isDirectory := by
      rw [Bool.eq_iff_iff, decide_eq_true_iff]
      exact hbits
    have hset := h.setBytes hs hn (m := Memfs.touch { m with fileInfo := { m.fileInfo with
        fileAttributes := Memfs.overwriteAttributes m.fileInfo.fileAttributes fileAttributes replace
        fileSize := 0 } } sys.now) ⟨hsame.fileName, hsame.refCount⟩ hdir
      (hm.congr (fun hname => hname) rfl rfl (Nat.zero_le _)) (f := fun _ => []) fun _ => rfl
    exact ⟨hset.1, hset.2, trivial⟩
  · rw [hfail hstatus]
    simp only [ne_eq, hstatus, not_false_eq_true, if_true]
    refine ⟨.done status, _, rfl, h.setNode hn ⟨rfl, rfl⟩ rfl (h.held id n hn), ?_, trivial⟩
    rw [apply_overwrite_failed hstatus]
    exact hs.setNode_same hn rfl

theorem Inv.setFileSize (h : v.Inv) (hs : v.Shows a) {newSize : ℕ} {setAllocation : Bool}
    (hr : (Request.setFileSize id newSize setAllocation).Admitted v) :
    Served a (.setFileSize id newSize setAllocation)
      (v.call pathSuffix hits sys (.setFileSize id newSize setAllocation)) := by
  obtain ⟨hid, hok⟩ := hr
  obtain ⟨n, hn⟩ := h.open_node hid
  have hres : ∃ status m,
      setFileSizeInternal v.fs.maxFileSize sys n newSize setAllocation = some (status, m) ∧
        SameButData n m ∧ Held v.fs.maxFileSize m ∧ (status ≠ .success → m = n) ∧
        (n.fileName ≠ diskName → status = .success → m.contents =
          if setAllocation then n.contents.take newSize else resize 0 n.contents newSize) := by
    cases setAllocation with
    | true =>
      obtain ⟨status, m, heq, hres⟩ := (h.held id n hn).setAllocationSize sys newSize
      refine ⟨status, m, ?_, hres⟩
      rw [setFileSizeInternal, if_pos rfl, heq]
    | false => exact (h.held id n hn).resized sys (hok rfl n hn)
  obtain ⟨status, m, heq, hsame, hm, hfail, hcontents⟩ := hres
  rw [call, Memfs.setFileSize, hn, Option.bind_eq_bind, Option.bind_some, heq]
  refine ⟨.done status, _, rfl, ?_⟩
  by_cases hstatus : status = .success
  · subst hstatus
    have hset := h.setBytes hs hn (m := m) ⟨hsame.fileName, hsame.refCount⟩ hsame.isDirectory hm
      (f := fun file => if setAllocation then file.take newSize else resize 0 file newSize)
      fun hname => hcontents hname rfl
    exact ⟨hset.1, hset.2, trivial⟩
  · rw [hfail hstatus]
    refine ⟨h.setNode hn ⟨rfl, rfl⟩ rfl (h.held id n hn), ?_, trivial⟩
    rw [apply_setFileSize_failed hstatus]
    exact hs.setNode_same hn rfl

/-! ### Reading and writing -/

theorem Inv.withDrive (h : v.Inv) (c : Option FTJController) (seed : Word) :
    Inv { v with controller := c, seed := seed } :=
  ⟨h.sound, h.root, h.closed, h.held, h.small, h.size⟩

theorem Shows.withDrive (h : v.Shows a) (c : Option FTJController) (seed : Word) :
    Shows { v with controller := c, seed := seed } a := ⟨h.tree, h.opens, h.object⟩

theorem Inv.read (h : v.Inv) (hs : v.Shows a) {buffer : ℕ → Byte} {offset length : ℕ}
    (hr : (Request.read id buffer offset length).Admitted v) :
    Served a (.read id buffer offset length)
      (v.call pathSuffix hits sys (.read id buffer offset length)) := by
  obtain ⟨hid, -, hlength⟩ := hr
  obtain ⟨n, hn⟩ := h.open_node hid
  rw [call, Volume.read, hn, Option.bind_eq_bind, Option.bind_some]
  by_cases hname : n.fileName = diskName
  · rw [if_pos hname]
    refine ⟨_, _, rfl, h.withDrive _ _, hs.withDrive _ _, fun file hfile => ?_⟩
    rw [hs.object id n hn] at hfile
    exact absurd hname (view_bytes hfile).1
  · have hread : v.fs.read id offset length = n.read offset length := by
      rw [Memfs.read, hn]
      rfl
    have hfile : ∀ file, (a.object id).bytes = some file → file = n.contents := by
      intro file hfile
      rw [hs.object id n hn] at hfile
      exact (view_bytes hfile).2
    rw [if_neg hname, hread, read_spec ((h.held id n hn).backed hname) h.small hlength]
    by_cases hle : n.contents.length ≤ offset
    · rw [if_neg (Nat.not_lt.mpr hle)]
      refine h.served_same hs rfl fun file hbytes => ?_
      rw [hfile file hbytes, if_pos hle]
    · rw [if_pos (Nat.not_le.mp hle)]
      refine h.served_same hs rfl fun file hbytes => ?_
      rw [hfile file hbytes, if_neg hle]
      exact ⟨rfl, rfl, rfl⟩

theorem Inv.write (h : v.Inv) (hs : v.Shows a) {buffer : ℕ → Byte} {offset length : ℕ}
    {eof constrained : Bool} (hr : (Request.write id buffer offset length eof constrained).Admitted v) :
    Served a (.write id buffer offset length eof constrained)
      (v.call pathSuffix hits sys (.write id buffer offset length eof constrained)) := by
  obtain ⟨hid, hlength, hend⟩ := hr
  obtain ⟨n, hn⟩ := h.open_node hid
  rw [call, Volume.write, hn, Option.bind_eq_bind, Option.bind_some]
  by_cases hname : n.fileName = diskName
  · -- the controller has the bytes: the node gets new times at most
    rw [if_pos hname]
    generalize VirtualDisk.write (v.disk n) (some buffer) (.ofNat 64 offset) (.ofNat 32 length) eof
      constrained true (.ofNat 64 sys.now) = answer
    have hstep : ∀ {m : FileNode}, Held v.fs.maxFileSize m → Kept n m →
        m.isDirectory = n.isDirectory → ∀ status count,
        Inv { v with fs := v.fs.setNode id m } ∧
          Shows { v with fs := v.fs.setNode id m } (a.apply
            (.write id buffer offset length eof constrained) (.transferred status count [])) ∧
          a.Answers (.write id buffer offset length eof constrained)
            (.transferred status count []) := by
      intro m hheld hkept hdir status count
      have hset := h.setBytes hs hn hkept hdir hheld
        (f := fun file => written file buffer offset length eof constrained)
        fun hne => absurd hname hne
      refine ⟨hset.1, ?_, fun file hfile => ?_⟩
      · by_cases hstatus : status = .success
        · rw [hstatus]
          exact hset.2
        · rw [apply_write_failed hstatus]
          refine hs.setNode_same hn ?_
          rw [FileNode.view, FileNode.view, hdir, hkept.1, if_pos hname, if_pos hname]
      · rw [hs.object id n hn] at hfile
        exact absurd hname (view_bytes hfile).1
    refine ⟨.transferred (diskStatus answer.status) (diskCount answer) [], _, rfl, ?_⟩
    by_cases hinfo : answer.fileInfo.isSome = true
    · rw [if_pos hinfo]
      have hheld : Held v.fs.maxFileSize { n with fileInfo := { n.fileInfo with
          lastWriteTime := sys.now
          changeTime := sys.now } } := 
        (h.held id n hn).congr (fun hname => hname) rfl rfl le_rfl
      obtain ⟨hinv, hshows, hanswers⟩ := hstep hheld ⟨rfl, rfl⟩ rfl (diskStatus answer.status)
        (diskCount answer)
      exact ⟨hinv.withDrive _ _, hshows.withDrive _ _, hanswers⟩
    · rw [if_neg hinfo]
      obtain ⟨hinv, hshows, hanswers⟩ := hstep (h.held id n hn) ⟨rfl, rfl⟩ rfl
        (diskStatus answer.status) (diskCount answer)
      exact ⟨hinv.withDrive _ _, hshows.withDrive _ _, hanswers⟩
  · obtain ⟨status, count, m, heq, hsame, hb, hfail, hok⟩ :=
      write_spec sys ((h.held id n hn).backed hname) h.small buffer offset eof hlength
        fun hc => hend hc n hn
    have hwrite : v.fs.write sys id buffer offset length eof constrained =
        some (status, count, v.fs.setNode id m) := by
      rw [Memfs.write, hn, Option.bind_eq_bind, Option.bind_some, heq]
      rfl
    rw [if_neg hname, hwrite]
    refine ⟨.transferred status count [], _, rfl, ?_⟩
    by_cases hstatus : status = .success
    · subst hstatus
      obtain ⟨hcontents, hcount⟩ := hok rfl
      have hset := h.setBytes hs hn (m := m) ⟨hsame.fileName, hsame.refCount⟩ hsame.isDirectory
        (.inl hb) (f := fun file => written file buffer offset length eof constrained) fun _ => hcontents
      refine ⟨hset.1, hset.2, fun file hfile _ => ?_⟩
      rw [hs.object id n hn] at hfile
      rw [(view_bytes hfile).2]
      exact hcount
    · rw [(hfail hstatus).1]
      refine ⟨h.setNode hn ⟨rfl, rfl⟩ rfl (h.held id n hn), ?_, fun _ _ hsuccess => absurd hsuccess hstatus⟩
      rw [apply_write_failed hstatus]
      exact hs.setNode_same hn rfl

/-! ### Information -/

theorem Inv.getFileInfo (h : v.Inv) (hs : v.Shows a)
    (hr : (Request.getFileInfo id).Admitted v) :
    Served a (.getFileInfo id) (v.call pathSuffix hits sys (.getFileInfo id)) := by
  obtain ⟨n, hn⟩ := h.open_node hr
  rw [call, Memfs.getFileInfo, hn]
  refine h.served_same hs rfl fun file hfile => ?_
  rw [hs.object id n hn] at hfile
  rw [(view_bytes hfile).2, length_contents]

theorem Inv.flush (h : v.Inv) (hs : v.Shows a) {id : Option NodeId} (hr : (Request.flush id).Admitted v) :
    Served a (.flush id) (v.call pathSuffix hits sys (.flush id)) := by
  cases id with
  | none =>
    refine h.served_same hs rfl fun i hi => ?_
    cases hi
  | some id =>
    obtain ⟨n, hn⟩ := h.open_node (hr id rfl)
    rw [call, Memfs.flush, Memfs.getFileInfo, hn]
    refine h.served_same hs rfl fun i hi => ⟨_, rfl, fun file hfile => ?_⟩
    rw [← Option.some.inj hi, hs.object id n hn] at hfile
    rw [(view_bytes hfile).2, length_contents]

theorem Inv.setBasicInfo (h : v.Inv) (hs : v.Shows a) {fileAttributes : Option (BitVec 32)}
    {creationTime lastAccessTime lastWriteTime changeTime : ℕ}
    (hr : (Request.setBasicInfo id fileAttributes creationTime lastAccessTime lastWriteTime
      changeTime).Admitted v) :
    Served a (.setBasicInfo id fileAttributes creationTime lastAccessTime lastWriteTime changeTime)
      (v.call pathSuffix hits sys
        (.setBasicInfo id fileAttributes creationTime lastAccessTime lastWriteTime changeTime)) := by
  obtain ⟨hid, hkind⟩ := hr
  obtain ⟨n, hn⟩ := h.open_node hid
  have hdir : decide (fileAttributes.getD n.fileInfo.fileAttributes &&& attributeDirectory ≠ 0) =
      n.isDirectory := by
    cases fileAttributes with
    | none => rfl
    | some new =>
      rw [Bool.eq_iff_iff, decide_eq_true_iff]
      exact hkind new rfl n hn
  rw [call, Memfs.setBasicInfo, hn]
  refine ⟨_, _, rfl, h.setNode hn ⟨rfl, rfl⟩ hdir ((h.held id n hn).congr (fun hname => hname) rfl rfl le_rfl),
    hs.setNode_same hn ?_, trivial⟩
  rw [FileNode.view, FileNode.view]
  exact congrArg (Object.mk · _) hdir

theorem Inv.getSecurity (h : v.Inv) (hs : v.Shows a) {size : ℕ}
    (hr : (Request.getSecurity id size).Admitted v) :
    Served a (.getSecurity id size) (v.call pathSuffix hits sys (.getSecurity id size)) := by
  obtain ⟨n, hn⟩ := h.open_node hr
  rw [call, Memfs.getSecurity, hn]
  exact h.served_same hs rfl trivial

theorem Inv.setSecurity (h : v.Inv) (hs : v.Shows a) {modify : List Byte → Except Status (List Byte)}
    (hr : (Request.setSecurity id modify).Admitted v) :
    Served a (.setSecurity id modify) (v.call pathSuffix hits sys (.setSecurity id modify)) := by
  obtain ⟨n, hn⟩ := h.open_node hr
  rw [call, Memfs.setSecurity, hn, Option.bind_eq_bind, Option.bind_some]
  cases modify n.fileSecurity with
  | error status => exact h.served_same hs rfl trivial
  | ok descriptor =>
    cases sys.securityOk with
    | false => exact h.served_same hs rfl trivial
    | true =>
      have hheld : Held v.fs.maxFileSize { n with fileSecurity := descriptor } :=
        (h.held id n hn).congr (fun hname => hname) rfl rfl le_rfl
      exact ⟨_, _, rfl, h.setNode hn ⟨rfl, rfl⟩ rfl hheld, hs.setNode_same hn rfl, trivial⟩

end Volume

end FtjSsdSim.Vdisk
