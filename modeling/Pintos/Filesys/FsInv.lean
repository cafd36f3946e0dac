/-
  Subject:   The invariant of the file system, and the changes of state that keep it.

  A sector of the device belongs to the file whose inode it holds or whose data it is (`Owns`). The
  files that matter are the free map, the root directory, the files named in the root directory and
  those that are open (`Live`): no two of them share a sector, and their sectors are marked in the
  free map. A marked sector that belongs to none of them is lost but harms nobody.

  Each section below takes one kind of change: to an inode on the heap, to the list of open inodes,
  to the free map, to the device, to the directory, to the files.
-/
import Pintos.Filesys.InodeBytes
import Pintos.Lib.Owners
import Mathlib.Data.List.Nodup

namespace Pintos

open Lib Function List Nat

/-! ## 1. What the bytes of the device mean -/

variable (disk : ℕ → ℕ → UInt8)

/-- The inode in sector `σ`. -/
def inodeAt (σ : ℕ) : InodeDisk := inodeDiskOf (disk σ)

/-- Sector `k` is one of the data sectors of `d`. -/
def InData (d : InodeDisk) (k : ℕ) : Prop := d.start ≤ k ∧ k < d.start + bytesToSectors d.length

/-- Sector `k` belongs to the file with its inode in `σ`. -/
def Owns (σ k : ℕ) : Prop := k = σ ∨ InData (inodeAt disk σ) k

/-- The `i`-th entry of the root directory, whose 320 bytes lie in one sector. -/
def entry (i : ℕ) : DirEntry :=
  dirEntryOf fun k => disk (inodeAt disk 1).start (20 * i + k)

/-- The root directory names the file. -/
def Named (σ : ℕ) : Prop :=
  ∃ i < 16, (entry disk i).inUse = true ∧ (entry disk i).inodeSector = σ

variable {cnt f h i j k n offset ofs size start x σ τ : ℕ} {b b' buffer : ℕ → UInt8} {d : InodeDisk}
  {e : DirEntry} {disk : ℕ → ℕ → UInt8} {s' : FileSys}

theorem word_wordByte (hn : n < 2 ^ 32) (hb : ∀ k < 4, b (ofs + k) = wordByte n k) :
    word b ofs = n := by
  have h0 := hb 0 (by omega)
  have h1 := hb 1 (by omega)
  have h2 := hb 2 (by omega)
  have h3 := hb 3 (by omega)
  rw [add_zero] at h0
  unfold word
  rw [h0, h1, h2, h3]
  unfold wordByte
  simp only [UInt8.toNat_ofNat']
  omega

theorem inodeDiskOf_bytes (hs : d.start < 2 ^ 32) (hl : d.length < 2 ^ 32)
    (hb : ∀ k < 512, b k = inodeDiskBytes d k) : inodeDiskOf b = d := by
  have hstart : word b 0 = d.start := word_wordByte hs fun k hk => by
    rw [zero_add, hb k (by omega)]
    unfold inodeDiskBytes
    rw [if_pos hk]
  have hlength : word b 4 = d.length := word_wordByte hl fun k hk => by
    rw [hb (4 + k) (by omega)]
    unfold inodeDiskBytes
    rw [if_neg (by omega), if_pos (by omega), Nat.add_sub_cancel_left]
  unfold inodeDiskOf
  rw [hstart, hlength]

theorem dirEntryOf_bytes (hs : e.inodeSector < 2 ^ 32) (hn : e.name.length = 15)
    (hb : ∀ k < 20, b k = dirEntryBytes e k) : dirEntryOf b = e := by
  have hsector : word b 0 = e.inodeSector := word_wordByte hs fun k hk => by
    rw [zero_add, hb k (by omega)]
    unfold dirEntryBytes
    rw [if_pos hk]
  have hname : (List.range 15).map (fun k => b (4 + k)) = e.name := by
    apply ext_getElem
    · simp [hn]
    · intro k h1 h2
      simp only [getElem_map, getElem_range]
      rw [hb (4 + k) (by omega)]
      unfold dirEntryBytes
      rw [if_neg (by omega), if_pos (by omega), Nat.add_sub_cancel_left]
      simp [h2]
  have huse : (b 19 != 0) = e.inUse := by
    rw [hb 19 (by omega)]
    show ((if e.inUse then 1 else 0 : UInt8) != 0) = e.inUse
    cases e.inUse <;> rfl
  unfold dirEntryOf
  rw [hsector, hname, huse]

/-! ## 2. The invariant -/

namespace FileSys

/-- The file is open. -/
def Opened (s : FileSys) (σ : ℕ) : Prop := ∃ h ∈ s.openInodes, (s.inode h).sector = σ

/-- **The files whose sectors must not be given away.** -/
def Live (s : FileSys) (σ : ℕ) : Prop := σ = 0 ∨ σ = 1 ∨ s.Opened σ ∨ Named s.disk σ

/-- The number of open `struct file`s on an inode. -/
def filesOn (s : FileSys) (h : ℕ) : ℕ := s.openFiles.countP fun f => (s.file f).inode = h

/-- Those that have called `file_deny_write`. -/
def deniersOn (s : FileSys) (h : ℕ) : ℕ :=
  s.openFiles.countP fun f => (s.file f).inode = h ∧ (s.file f).denyWrite = true

/-- `open_cnt`, and 0 for what is not open. -/
def refs (s : FileSys) (h : ℕ) : ℕ := if h ∈ s.openInodes then (s.inode h).openCnt else 0

end FileSys

/-- The inode in `σ` with its data lies on a device of `size` sectors. -/
structure Placed (size : ℕ) (d : InodeDisk) (σ : ℕ) : Prop where
  inside : σ < size
  extent : d.start + bytesToSectors d.length ≤ size
  self : ¬ InData d σ
  length : d.length < 2 ^ 31

structure SectorsOk (s : FileSys) : Prop where
  owners : Owners s.Live (Owns s.disk) fun k => s.freeMap k = true
  placed : ∀ σ, s.Live σ → Placed s.size (inodeAt s.disk σ) σ

structure DirOk (size : ℕ) (disk : ℕ → ℕ → UInt8) : Prop where
  named : ∀ i < 16, (entry disk i).inUse = true →
    (entry disk i).inodeSector ≠ 0 ∧ (entry disk i).inodeSector ≠ 1
  distinct : ∀ i < 16, ∀ j < 16, (entry disk i).inUse = true → (entry disk j).inUse = true →
    (entry disk i).inodeSector = (entry disk j).inodeSector → i = j
  root : (inodeAt disk 1).length = 320
  map : (inodeAt disk 0).length = byteCnt size
  /-- The free map has a bit for every sector. -/
  bits : size ≤ 8 * byteCnt size
  sectors : size < 2 ^ 32

structure HeapOk (s : FileSys) : Prop where
  nodup : s.openInodes.Nodup
  fresh : ∀ h ∈ s.openInodes, h < s.nextInode
  single : ∀ h ∈ s.openInodes, ∀ h' ∈ s.openInodes, (s.inode h).sector = (s.inode h').sector → h = h'
  counted : ∀ h ∈ s.openInodes, 0 < (s.inode h).openCnt
  sema : ∀ h ∈ s.openInodes, (s.inode h).sema = 1
  filesNodup : s.openFiles.Nodup
  filesFresh : ∀ f ∈ s.openFiles, f < s.nextFile
  files : ∀ f ∈ s.openFiles, (s.file f).inode ∈ s.openInodes
  held : ∀ h ∈ s.openInodes, s.filesOn h ≤ (s.inode h).openCnt
  deny : ∀ h ∈ s.openInodes, (s.inode h).denyWriteCnt = s.deniersOn h

/-- `f` is the free map file. -/
structure MapFile (s : FileSys) (f : ℕ) : Prop where
  isMap : s.freeMapFile = some f
  isOpen : f ∈ s.openFiles
  sector : (s.inode (s.file f).inode).sector = 0
  writable : (s.file f).denyWrite = false

structure TieOk (s : FileSys) : Prop where
  cached : ∀ h ∈ s.openInodes, (s.inode h).data = inodeAt s.disk (s.inode h).sector
  /-- A removed file has no name any more. -/
  removed : ∀ h ∈ s.openInodes, (s.inode h).removed = true →
    (s.inode h).sector ≠ 0 ∧ (s.inode h).sector ≠ 1 ∧ ¬ Named s.disk (s.inode h).sector
  mapFile : ∃ f, MapFile s f
  /-- Nobody else has the free map or the root directory open as a file. -/
  ordinary : ∀ f ∈ s.openFiles, (s.inode (s.file f).inode).sector ≠ 1 ∧
    ((s.inode (s.file f).inode).sector = 0 → s.freeMapFile = some f)

/-- **The invariant of the file system.** -/
structure FsOk (s : FileSys) : Prop where
  sectors : SectorsOk s
  dir : DirOk s.size s.disk
  heap : HeapOk s
  tie : TieOk s

theorem DirOk.rootData (h : DirOk size disk) : InData (inodeAt disk 1) (inodeAt disk 1).start := by
  unfold InData
  rw [h.root]
  exact ⟨Nat.le_refl _, Nat.lt_add_of_pos_right (by decide)⟩

section Basics

variable {s : FileSys}

theorem live_map : s.Live 0 := Or.inl rfl

theorem live_root : s.Live 1 := Or.inr (Or.inl rfl)

theorem live_opened (hh : h ∈ s.openInodes) : s.Live (s.inode h).sector :=
  .inr (.inr (.inl ⟨h, hh, rfl⟩))

theorem live_named (hi : i < 16) (hu : (entry s.disk i).inUse = true) :
    s.Live (entry s.disk i).inodeSector :=
  .inr (.inr (.inr ⟨i, hi, hu, rfl⟩))

theorem FileSys.Live.of_opened (hl : s'.Live σ) (hd : s'.disk = s.disk)
    (ho : s'.Opened σ → s.Live σ) : s.Live σ := by
  rcases hl with h0 | h1 | hop | hn
  · exact .inl h0
  · exact .inr (.inl h1)
  · exact ho hop
  · exact .inr (.inr (.inr (hd ▸ hn)))

theorem sectors_of_bytes (hn : n < 2 ^ 31) (hk : k < n) : k / 512 < bytesToSectors n := by
  unfold bytesToSectors
  split <;> omega

theorem Placed.onDevice (h : Placed s.size d σ) : OnDevice s d := by
  intro k hk
  have hsec := sectors_of_bytes h.length hk
  have hext := h.extent
  omega

theorem FsOk.onDevice (hs : FsOk s) (hh : h ∈ s.openInodes) : OnDevice s (s.inode h).data := by
  rw [hs.tie.cached h hh]
  exact (hs.sectors.placed _ (live_opened hh)).onDevice

theorem SectorsOk.notData (hs : SectorsOk s) (hσ : s.Live σ) (hτ : s.Live τ) :
    ¬ InData (inodeAt s.disk σ) τ := by
  intro hd
  have hsame : σ = τ := hs.owners.apart σ τ τ hσ hτ (.inr hd) (.inl rfl)
  subst hsame
  exact (hs.placed σ hσ).self hd

end Basics

/-! ## 3. Inodes on the heap -/

section Inodes

variable {s : FileSys}

theorem SectorsOk.of_live (hs : SectorsOk s) (hsize : s'.size = s.size)
    (hmap : s'.freeMap = s.freeMap) (hdisk : s'.disk = s.disk) (hlive : ∀ σ, s'.Live σ → s.Live σ) :
    SectorsOk s' := by
  refine ⟨?_, fun σ hσ => ?_⟩
  · rw [hmap, hdisk]
    exact hs.owners.shrink hlive
  · rw [hsize, hdisk]
    exact hs.placed σ (hlive σ hσ)

theorem setInode_sector (s : FileSys) {i : Inode} (hi : i.sector = (s.inode h).sector) (x : ℕ) :
    ((s.setInode h i).inode x).sector = (s.inode x).sector := by
  show (update s.inode h i x).sector = _
  by_cases hx : x = h
  · subst hx
    rw [update_self, hi]
  · rw [update_of_ne hx]

theorem live_setInode {i : Inode} (hi : i.sector = (s.inode h).sector)
    (hl : (s.setInode h i).Live σ) : s.Live σ := by
  refine hl.of_opened rfl fun ⟨x, hx, hsec⟩ => ?_
  rw [← hsec, setInode_sector s hi]
  exact live_opened hx

theorem MapFile.setInode {i : Inode} (hm : MapFile s f) (hi : i.sector = (s.inode h).sector) :
    MapFile (s.setInode h i) f where
  __ := hm
  sector := by rw [setInode_sector s hi]; exact hm.sector

theorem FsOk.setInode (hs : FsOk s) {i : Inode} (hsec : i.sector = (s.inode h).sector)
    (hdata : i.data = (s.inode h).data) (hsema : i.sema = (s.inode h).sema)
    (hdeny : i.denyWriteCnt = (s.inode h).denyWriteCnt) (hcnt : 0 < i.openCnt)
    (hheld : s.filesOn h ≤ i.openCnt)
    (hrem : i.removed = true → i.sector ≠ 0 ∧ i.sector ≠ 1 ∧ ¬ Named s.disk i.sector) :
    FsOk (s.setInode h i) := by
  have hself : (s.setInode h i).inode h = i := update_self ..
  have hother : ∀ x, x ≠ h → (s.setInode h i).inode x = s.inode x :=
    fun x hx => update_of_ne hx ..
  refine ⟨hs.sectors.of_live rfl rfl rfl fun σ => live_setInode hsec, hs.dir, ?_, ?_⟩
  · refine { hs.heap with
      single := fun x hx y hy he => ?_, counted := fun x hx => ?_, sema := fun x hx => ?_
      held := fun x hx => ?_, deny := fun x hx => ?_ }
    · rw [setInode_sector s hsec, setInode_sector s hsec] at he
      exact hs.heap.single x hx y hy he
    · by_cases hxh : x = h
      · subst hxh; rw [hself]; exact hcnt
      · rw [hother x hxh]; exact hs.heap.counted x hx
    · by_cases hxh : x = h
      · subst hxh; rw [hself, hsema]; exact hs.heap.sema x hx
      · rw [hother x hxh]; exact hs.heap.sema x hx
    · by_cases hxh : x = h
      · subst hxh; rw [hself]; exact hheld
      · rw [hother x hxh]; exact hs.heap.held x hx
    · by_cases hxh : x = h
      · subst hxh; rw [hself, hdeny]; exact hs.heap.deny x hx
      · rw [hother x hxh]; exact hs.heap.deny x hx
  · obtain ⟨f, hf⟩ := hs.tie.mapFile
    refine ⟨fun x hx => ?_, fun x hx hr => ?_, ⟨f, hf.setInode hsec⟩, fun f hf => ?_⟩
    · rw [setInode_sector s hsec]
      by_cases hxh : x = h
      · subst hxh; rw [hself, hdata]; exact hs.tie.cached x hx
      · rw [hother x hxh]; exact hs.tie.cached x hx
    · by_cases hxh : x = h
      · subst hxh; rw [hself] at hr ⊢; exact hrem hr
      · rw [hother x hxh] at hr ⊢; exact hs.tie.removed x hx hr
    · have hsame : ((s.setInode h i).inode ((s.setInode h i).file f).inode).sector =
          (s.inode (s.file f).inode).sector := setInode_sector s hsec _
      rw [hsame]
      exact hs.tie.ordinary f hf

/-- The last reference to an inode that no file is on is dropped. -/
def FileSys.forget (s : FileSys) (h : ℕ) (i : Inode) : FileSys :=
  { s.setInode h i with openInodes := s.openInodes.erase h }

theorem mem_forget (hs : FsOk s) {i : Inode} :
    x ∈ (s.forget h i).openInodes ↔ x ≠ h ∧ x ∈ s.openInodes :=
  hs.heap.nodup.mem_erase_iff

theorem live_forget (hs : FsOk s) {i : Inode} (hl : (s.forget h i).Live σ) :
    σ = 0 ∨ σ = 1 ∨ (∃ x ∈ s.openInodes, x ≠ h ∧ (s.inode x).sector = σ) ∨ Named s.disk σ := by
  rcases hl with h0 | h1 | ⟨x, hx, hsec⟩ | hn
  · exact .inl h0
  · exact .inr (.inl h1)
  · obtain ⟨hne, hx⟩ := (mem_forget hs).mp hx
    have hsame : (s.forget h i).inode x = s.inode x := update_of_ne hne ..
    rw [hsame] at hsec
    exact .inr (.inr (.inl ⟨x, hx, hne, hsec⟩))
  · exact .inr (.inr (.inr hn))

theorem ne_of_filesOn (h0 : s.filesOn h = 0) (hf : f ∈ s.openFiles) : (s.file f).inode ≠ h := by
  intro he
  have hn := countP_eq_zero.mp h0 f hf
  exact hn (decide_eq_true he)

theorem FsOk.forget (hs : FsOk s) (i : Inode) (h0 : s.filesOn h = 0) : FsOk (s.forget h i) := by
  have hother : ∀ x, x ≠ h → (s.forget h i).inode x = s.inode x :=
    fun x hx => update_of_ne hx ..
  have hmem : ∀ x ∈ (s.forget h i).openInodes, x ≠ h ∧ x ∈ s.openInodes :=
    fun x hx => (mem_forget hs).mp hx
  have hfile : ∀ f ∈ s.openFiles, (s.forget h i).inode (s.file f).inode = s.inode (s.file f).inode :=
    fun f hf => hother _ (ne_of_filesOn h0 hf)
  refine ⟨hs.sectors.of_live rfl rfl rfl fun σ hl => ?_, hs.dir, ?_, ?_⟩
  · refine hl.of_opened rfl fun ⟨x, hx, hsec⟩ => ?_
    rw [← hsec, hother x (hmem x hx).1]
    exact live_opened (hmem x hx).2
  · refine ⟨hs.heap.nodup.erase h, fun x hx => hs.heap.fresh x (hmem x hx).2,
      fun x hx y hy he => ?_, fun x hx => ?_, fun x hx => ?_, hs.heap.filesNodup,
      hs.heap.filesFresh, fun f hf => ?_, fun x hx => ?_, fun x hx => ?_⟩
    · rw [hother x (hmem x hx).1, hother y (hmem y hy).1] at he
      exact hs.heap.single x (hmem x hx).2 y (hmem y hy).2 he
    · rw [hother x (hmem x hx).1]; exact hs.heap.counted x (hmem x hx).2
    · rw [hother x (hmem x hx).1]; exact hs.heap.sema x (hmem x hx).2
    · exact (mem_forget hs).mpr ⟨ne_of_filesOn h0 hf, hs.heap.files f hf⟩
    · rw [hother x (hmem x hx).1]; exact hs.heap.held x (hmem x hx).2
    · rw [hother x (hmem x hx).1]; exact hs.heap.deny x (hmem x hx).2
  · obtain ⟨f, hf⟩ := hs.tie.mapFile
    refine ⟨fun x hx => ?_, fun x hx hr => ?_, ⟨f, { hf with sector := ?_ }⟩, fun f hf => ?_⟩
    · rw [hother x (hmem x hx).1]; exact hs.tie.cached x (hmem x hx).2
    · rw [hother x (hmem x hx).1] at hr ⊢; exact hs.tie.removed x (hmem x hx).2 hr
    · show ((s.forget h i).inode (s.file f).inode).sector = 0
      rw [hfile f hf.isOpen]; exact hf.sector
    · have hsame : (s.forget h i).inode ((s.forget h i).file f).inode = s.inode (s.file f).inode :=
        hfile f hf
      rw [hsame]
      exact hs.tie.ordinary f hf

/-- The inode in sector `σ` is read into a new `struct inode`. -/
def FileSys.newInode (s : FileSys) (σ : ℕ) : FileSys :=
  { s.setInode s.nextInode ⟨σ, 1, false, 0, inodeAt s.disk σ, 1⟩ with
    openInodes := s.nextInode :: s.openInodes
    nextInode := s.nextInode + 1 }

theorem HeapOk.filesOn_next (hs : HeapOk s) : ∀ f ∈ s.openFiles, (s.file f).inode ≠ s.nextInode :=
  fun f hf => Nat.ne_of_lt (hs.fresh _ (hs.files f hf))

theorem newInode_old (hs : HeapOk s) (hx : x ∈ s.openInodes) : (s.newInode σ).inode x = s.inode x :=
  update_of_ne (Nat.ne_of_lt (hs.fresh x hx)) ..

theorem newInode_new (s : FileSys) (σ : ℕ) :
    (s.newInode σ).inode s.nextInode = ⟨σ, 1, false, 0, inodeAt s.disk σ, 1⟩ :=
  update_self ..

theorem live_newInode (hs : HeapOk s) (hσ : s.Live σ) (hl : (s.newInode σ).Live τ) : s.Live τ := by
  refine hl.of_opened rfl fun ⟨x, hx, hsec⟩ => ?_
  rw [← hsec]
  rcases mem_cons.mp hx with rfl | hx
  · rwa [newInode_new]
  · rw [newInode_old hs hx]
    exact live_opened hx

theorem HeapOk.newInode (hs : HeapOk s) (hno : ¬ s.Opened σ) : HeapOk (s.newInode σ) := by
  have hnext : s.nextInode ∉ s.openInodes := fun hm => lt_irrefl _ (hs.fresh _ hm)
  have hzero : s.filesOn s.nextInode = 0 :=
    countP_eq_zero.mpr fun f hf => by simpa using hs.filesOn_next f hf
  have hdeny : s.deniersOn s.nextInode = 0 :=
    countP_eq_zero.mpr fun f hf => by simp [hs.filesOn_next f hf]
  refine { hs with
    nodup := nodup_cons.mpr ⟨hnext, hs.nodup⟩, fresh := fun x hx => ?_
    single := fun x hx y hy he => ?_, counted := fun x hx => ?_, sema := fun x hx => ?_
    files := fun f hf => ?_, held := fun x hx => ?_, deny := fun x hx => ?_ }
  · rcases mem_cons.mp hx with rfl | hx
    · exact lt_succ_self _
    · exact lt_succ_of_lt (hs.fresh x hx)
  · rcases mem_cons.mp hx with rfl | hx
    · rcases mem_cons.mp hy with rfl | hy
      · rfl
      · rw [newInode_new, newInode_old hs hy] at he
        exact absurd ⟨y, hy, he.symm⟩ hno
    · rcases mem_cons.mp hy with rfl | hy
      · rw [newInode_new, newInode_old hs hx] at he
        exact absurd ⟨x, hx, he⟩ hno
      · rw [newInode_old hs hx, newInode_old hs hy] at he
        exact hs.single x hx y hy he
  · rcases mem_cons.mp hx with rfl | hx
    · rw [newInode_new]; exact one_pos
    · rw [newInode_old hs hx]; exact hs.counted x hx
  · rcases mem_cons.mp hx with rfl | hx
    · rw [newInode_new]
    · rw [newInode_old hs hx]; exact hs.sema x hx
  · exact mem_cons_of_mem _ (hs.files f hf)
  · rcases mem_cons.mp hx with rfl | hx
    · show s.filesOn s.nextInode ≤ _
      rw [hzero]; exact zero_le _
    · rw [newInode_old hs hx]; exact hs.held x hx
  · rcases mem_cons.mp hx with rfl | hx
    · rw [newInode_new]; exact hdeny.symm
    · rw [newInode_old hs hx]; exact hs.deny x hx

theorem FsOk.newInode (hs : FsOk s) (hσ : s.Live σ) (hno : ¬ s.Opened σ) : FsOk (s.newInode σ) := by
  have hfile : ∀ f ∈ s.openFiles, (s.newInode σ).inode (s.file f).inode = s.inode (s.file f).inode :=
    fun f hf => newInode_old hs.heap (hs.heap.files f hf)
  refine ⟨hs.sectors.of_live rfl rfl rfl fun τ => live_newInode hs.heap hσ, hs.dir,
    hs.heap.newInode hno, ?_⟩
  obtain ⟨f, hf⟩ := hs.tie.mapFile
  refine ⟨fun x hx => ?_, fun x hx hr => ?_, ⟨f, { hf with sector := ?_ }⟩, fun f hf => ?_⟩
  · rcases mem_cons.mp hx with rfl | hx
    · rw [newInode_new]; rfl
    · rw [newInode_old hs.heap hx]; exact hs.tie.cached x hx
  · rcases mem_cons.mp hx with rfl | hx
    · rw [newInode_new] at hr; cases hr
    · rw [newInode_old hs.heap hx] at hr ⊢; exact hs.tie.removed x hx hr
  · show ((s.newInode σ).inode (s.file f).inode).sector = 0
    rw [hfile f hf.isOpen]; exact hf.sector
  · have hsame : (s.newInode σ).inode ((s.newInode σ).file f).inode = s.inode (s.file f).inode :=
      hfile f hf
    rw [hsame]
    exact hs.tie.ordinary f hf

end Inodes

/-! ## 4. The free map -/

section Map

variable {s : FileSys}

theorem FsOk.setMap (hs : FsOk s) {m : ℕ → Bool}
    (hm : ∀ σ k, s.Live σ → Owns s.disk σ k → s.freeMap k = true → m k = true) :
    FsOk (s.setMap m) where
  sectors := ⟨hs.sectors.owners.unmark hm, hs.sectors.placed⟩
  dir := hs.dir
  heap := { hs.heap with }
  tie := { hs.tie with mapFile := hs.tie.mapFile.imp fun _ hf => { hf with } }

theorem FsOk.mark (hs : FsOk s) (start cnt : ℕ) :
    FsOk (s.setMap (bitmapSetMultiple s.freeMap start cnt true)) :=
  hs.setMap fun σ k _ _ hk => by
    unfold bitmapSetMultiple
    split
    · rfl
    · exact hk

theorem FsOk.clear (hs : FsOk s)
    (hno : ∀ σ k, s.Live σ → start ≤ k → k < start + cnt → ¬ Owns s.disk σ k) :
    FsOk (s.setMap (bitmapSetMultiple s.freeMap start cnt false)) :=
  hs.setMap fun σ k hσ hk hm => by
    unfold bitmapSetMultiple
    rw [if_neg fun hin => hno σ k hσ hin.1 hin.2 hk]
    exact hm

end Map

/-! ## 5. The device -/

section Device

variable {s : FileSys}

/-- **The device may change outside the inodes of live files and the root directory.** -/
theorem FsOk.setDisk (hs : FsOk s) (hlive : ∀ σ, s.Live σ → disk σ = s.disk σ)
    (hroot : disk (inodeAt s.disk 1).start = s.disk (inodeAt s.disk 1).start) :
    FsOk { s with disk := disk } := by
  have hinode : ∀ σ, s.Live σ → inodeAt disk σ = inodeAt s.disk σ := fun σ hσ => by
    unfold inodeAt
    rw [hlive σ hσ]
  have hentry : entry disk = entry s.disk := by
    funext i
    unfold entry
    rw [hinode 1 live_root, hroot]
  have hnamed : Named disk = Named s.disk := by
    unfold Named
    rw [hentry]
  have hl : ∀ σ, FileSys.Live { s with disk := disk } σ → s.Live σ := by
    intro σ hσ
    unfold FileSys.Live at hσ
    rw [hnamed] at hσ
    exact hσ
  refine ⟨⟨?_, fun σ hσ => ?_⟩, ?_, ?_, ?_⟩
  · refine (hs.sectors.owners.shrink hl).congr fun σ k hσ hk => ?_
    unfold Owns at hk ⊢
    rwa [hinode σ (hl σ hσ)] at hk
  · rw [hinode σ (hl σ hσ)]
    exact hs.sectors.placed σ (hl σ hσ)
  · have hd := hs.dir
    refine ⟨?_, ?_, ?_, ?_, hd.bits, hd.sectors⟩
    · rw [hentry]; exact hd.named
    · rw [hentry]; exact hd.distinct
    · rw [hinode 1 live_root]; exact hd.root
    · rw [hinode 0 live_map]; exact hd.map
  · exact { hs.heap with }
  · refine { hs.tie with
      cached := fun h hh => ?_, removed := fun h hh hr => ?_
      mapFile := hs.tie.mapFile.imp fun _ hf => { hf with } }
    · rw [hinode _ (live_opened hh)]
      exact hs.tie.cached h hh
    · rw [hnamed]
      exact hs.tie.removed h hh hr

theorem write_other (hl : d.length < 2 ^ 31) (hn : offset + n ≤ d.length ∨ n = 0)
    (hx : ¬ InData d x) : (s.write d offset n buffer).disk x = s.disk x := by
  rcases hn with hn | rfl
  · refine writeBytes_other hn fun hin => hx ⟨hin.1, ?_⟩
    have hlt := sectors_of_bytes hl hin.2
    rw [Nat.mul_div_cancel_left _ (by omega : 0 < 512)] at hlt
    omega
  · show writeBytes s.disk d offset 0 buffer x = s.disk x
    rw [writeBytes_zero]

theorem FsOk.writeData (hs : FsOk s) (hσ : s.Live σ) (h1 : σ ≠ 1)
    (hn : offset + n ≤ (inodeAt s.disk σ).length ∨ n = 0) :
    FsOk (s.write (inodeAt s.disk σ) offset n buffer) := by
  have hl := (hs.sectors.placed σ hσ).length
  refine hs.setDisk (fun τ hτ => write_other hl hn (hs.sectors.notData hσ hτ)) ?_
  refine write_other hl hn fun hin => h1 ?_
  exact hs.sectors.owners.apart σ 1 _ hσ live_root (.inr hin) (.inr hs.dir.rootData)

end Device

/-! ## 6. The directory -/

section Directory

variable {s : FileSys}

theorem dirEntryOf_congr (h : ∀ k < 20, b k = b' k) : dirEntryOf b = dirEntryOf b' := by
  have hname : (List.range 15).map (fun k => b (4 + k)) = (List.range 15).map fun k => b' (4 + k) :=
    map_congr_left fun k hk => h (4 + k) (by have := mem_range.mp hk; omega)
  unfold dirEntryOf word
  rw [hname, h 0 (by omega), h 1 (by omega), h 2 (by omega), h 3 (by omega), h 19 (by omega)]

theorem DirOk.rootData_iff (h : DirOk size disk) :
    InData (inodeAt disk 1) x ↔ x = (inodeAt disk 1).start := by
  have hone : bytesToSectors 320 = 1 := rfl
  unfold InData
  rw [h.root, hone]
  omega

/-- The state after entry `i` of the root directory has been written. -/
def FileSys.setEntry (s : FileSys) (i : ℕ) (e : DirEntry) : FileSys :=
  s.write (inodeAt s.disk 1) (20 * i) 20 (dirEntryBytes e)

theorem setEntry_disk (hs : FsOk s) (hi : i < 16) (hx : x ≠ (inodeAt s.disk 1).start) :
    (s.setEntry i e).disk x = s.disk x := by
  refine write_other (hs.sectors.placed 1 live_root).length (.inl ?_) ?_
  · rw [hs.dir.root]
    omega
  · rw [hs.dir.rootData_iff]
    exact hx

theorem FsOk.live_ne_root (hs : FsOk s) (hσ : s.Live σ) : σ ≠ (inodeAt s.disk 1).start := by
  intro he
  exact hs.sectors.notData live_root hσ (hs.dir.rootData_iff.mpr he)

theorem setEntry_inodeAt (hs : FsOk s) (hi : i < 16) (hσ : σ ≠ (inodeAt s.disk 1).start) :
    inodeAt (s.setEntry i e).disk σ = inodeAt s.disk σ := by
  unfold inodeAt
  rw [setEntry_disk hs hi hσ]

theorem setEntry_entry (hs : FsOk s) (hi : i < 16) (hsec : e.inodeSector < 2 ^ 32)
    (hname : e.name.length = 15) (hj : j < 16) :
    entry (s.setEntry i e).disk j = if j = i then e else entry s.disk j := by
  have hr : inodeAt (s.setEntry i e).disk 1 = inodeAt s.disk 1 :=
    setEntry_inodeAt hs hi (hs.live_ne_root live_root)
  have hbyte : ∀ k < 20, (s.setEntry i e).disk (inodeAt s.disk 1).start (20 * j + k) =
      if j = i then dirEntryBytes e k else s.disk (inodeAt s.disk 1).start (20 * j + k) := by
    intro k hk
    show writeBytes s.disk (inodeAt s.disk 1) (20 * i) 20 (dirEntryBytes e) _ _ = _
    unfold writeBytes
    rw [Nat.sub_self, Nat.mul_zero, Nat.zero_add]
    by_cases hji : j = i
    · subst hji
      rw [if_pos ⟨by omega, Nat.le_refl _, by omega, by omega⟩, if_pos rfl, Nat.add_sub_cancel_left]
    · rw [if_neg (by omega), if_neg hji]
  unfold entry
  rw [hr]
  by_cases hji : j = i
  · rw [if_pos hji]
    refine dirEntryOf_bytes hsec hname fun k hk => ?_
    rw [hbyte k hk, if_pos hji]
  · rw [if_neg hji]
    refine dirEntryOf_congr fun k hk => ?_
    rw [hbyte k hk, if_neg hji]

/-- A file whose inode and data nobody owns, ready to be named. -/
structure NewFile (s : FileSys) (σ : ℕ) : Prop where
  placed : Placed s.size (inodeAt s.disk σ) σ
  marked : ∀ k, Owns s.disk σ k → s.freeMap k = true
  apart : ∀ τ k, s.Live τ → Owns s.disk σ k → ¬ Owns s.disk τ k

theorem NewFile.notLive (hσ : NewFile s σ) : ¬ s.Live σ :=
  fun hl => hσ.apart σ σ hl (.inl rfl) (.inl rfl)

theorem NewFile.ne_root (hs : FsOk s) (hσ : NewFile s σ) : σ ≠ (inodeAt s.disk 1).start :=
  fun he => hσ.apart 1 σ live_root (.inl rfl) (.inr (hs.dir.rootData_iff.mpr he))

theorem named_setEntry (hs : FsOk s) (hi : i < 16) (hsec : e.inodeSector < 2 ^ 32)
    (hname : e.name.length = 15) (hn : Named (s.setEntry i e).disk σ) :
    Named s.disk σ ∨ (e.inUse = true ∧ e.inodeSector = σ) := by
  obtain ⟨j, hj, hu, he⟩ := hn
  rw [setEntry_entry hs hi hsec hname hj] at hu he
  by_cases hji : j = i
  · rw [if_pos hji] at hu he
    exact .inr ⟨hu, he⟩
  · rw [if_neg hji] at hu he
    exact .inl ⟨j, hj, hu, he⟩

theorem live_setEntry (hs : FsOk s) (hi : i < 16) (hsec : e.inodeSector < 2 ^ 32)
    (hname : e.name.length = 15) (hl : (s.setEntry i e).Live σ) :
    s.Live σ ∨ (e.inUse = true ∧ e.inodeSector = σ) := by
  rcases hl with h0 | h1 | ho | hn
  · exact .inl (.inl h0)
  · exact .inl (.inr (.inl h1))
  · exact .inl (.inr (.inr (.inl ho)))
  · rcases named_setEntry hs hi hsec hname hn with hn | hn
    · exact .inl (.inr (.inr (.inr hn)))
    · exact .inr hn

theorem DirOk.setEntry (hs : FsOk s) (hi : i < 16) (hsec : e.inodeSector < 2 ^ 32)
    (hname : e.name.length = 15) (hnew : e.inUse = true → NewFile s e.inodeSector) :
    DirOk s.size (s.setEntry i e).disk := by
  have hentry : ∀ j < 16, entry (s.setEntry i e).disk j = if j = i then e else entry s.disk j :=
    fun j hj => setEntry_entry hs hi hsec hname hj
  have hclash : ∀ j < 16, (entry s.disk j).inUse = true → e.inUse = true →
      (entry s.disk j).inodeSector ≠ e.inodeSector := fun j hj hu he hsame =>
    (hnew he).notLive (hsame ▸ live_named hj hu)
  refine ⟨fun j hj hu => ?_, fun j hj k hk huj huk he => ?_, ?_, ?_, hs.dir.bits, hs.dir.sectors⟩
  · rw [hentry j hj] at hu ⊢
    by_cases hji : j = i
    · rw [if_pos hji] at hu ⊢
      have hno := (hnew hu).notLive
      exact ⟨fun h0 => hno (h0 ▸ live_map), fun h1 => hno (h1 ▸ live_root)⟩
    · rw [if_neg hji] at hu ⊢
      exact hs.dir.named j hj hu
  · rw [hentry j hj, hentry k hk] at he
    rw [hentry j hj] at huj
    rw [hentry k hk] at huk
    by_cases hji : j = i <;> by_cases hki : k = i
    · rw [hji, hki]
    · rw [if_pos hji] at he huj
      rw [if_neg hki] at he huk
      exact absurd he.symm (hclash k hk huk huj)
    · rw [if_neg hji] at he huj
      rw [if_pos hki] at he huk
      exact absurd he (hclash j hj huj huk)
    · rw [if_neg hji] at he huj
      rw [if_neg hki] at he huk
      exact hs.dir.distinct j hj k hk huj huk he
  · rw [setEntry_inodeAt hs hi (hs.live_ne_root live_root)]
    exact hs.dir.root
  · rw [setEntry_inodeAt hs hi (hs.live_ne_root live_map)]
    exact hs.dir.map

/-- **An entry of the root directory may be cleared, or name a new file.** -/
theorem FsOk.setEntry (hs : FsOk s) (hi : i < 16) (hsec : e.inodeSector < 2 ^ 32)
    (hname : e.name.length = 15) (hnew : e.inUse = true → NewFile s e.inodeSector) :
    FsOk (s.setEntry i e) := by
  have hlive : ∀ σ, (s.setEntry i e).Live σ → s.Live σ ∨ (NewFile s σ ∧ σ = e.inodeSector) := by
    intro σ hσ
    rcases live_setEntry hs hi hsec hname hσ with hl | ⟨hu, he⟩
    · exact .inl hl
    · exact .inr ⟨he ▸ hnew hu, he.symm⟩
  have hsame : ∀ σ, (s.setEntry i e).Live σ →
      inodeAt (s.setEntry i e).disk σ = inodeAt s.disk σ := by
    intro σ hσ
    refine setEntry_inodeAt hs hi ?_
    rcases hlive σ hσ with hl | ⟨hn, _⟩
    · exact hs.live_ne_root hl
    · exact hn.ne_root hs
  have howners : Owners (s.setEntry i e).Live (Owns s.disk) fun k => s.freeMap k = true := by
    by_cases hu : e.inUse = true
    · refine hs.sectors.owners.add (n := e.inodeSector) (fun σ hσ => ?_) (hnew hu).marked
        fun τ k hτ hk => (hnew hu).apart τ k hτ hk
      exact (hlive σ hσ).imp id And.right
    · refine hs.sectors.owners.shrink fun σ hσ => ?_
      rcases live_setEntry hs hi hsec hname hσ with hl | ⟨hu', _⟩
      · exact hl
      · exact absurd hu' hu
  refine ⟨⟨howners.congr fun σ k hσ hk => ?_, fun σ hσ => ?_⟩, DirOk.setEntry hs hi hsec hname hnew,
    ?_, ?_⟩
  · unfold Owns at hk ⊢
    rwa [hsame σ hσ] at hk
  · rw [hsame σ hσ]
    rcases hlive σ hσ with hl | ⟨hn, _⟩
    · exact hs.sectors.placed σ hl
    · exact hn.placed
  · exact { hs.heap with }
  · refine { hs.tie with
      cached := fun h hh => ?_, removed := fun h hh hr => ?_
      mapFile := hs.tie.mapFile.imp fun _ hf => { hf with } }
    · rw [hsame _ (live_opened (s := s.setEntry i e) hh)]
      exact hs.tie.cached h hh
    · obtain ⟨h0, h1, hno⟩ := hs.tie.removed h hh hr
      refine ⟨h0, h1, fun hn => ?_⟩
      rcases named_setEntry hs hi hsec hname hn with hn | ⟨hu, he⟩
      · exact hno hn
      · exact (hnew hu).notLive (he ▸ live_opened hh)

end Directory

/-! ## 7. Files -/

section Files

variable {s : FileSys}

/-- A new `struct file` on inode `h`. -/
def FileSys.openFile (s : FileSys) (h : ℕ) : FileSys :=
  { s.setFile s.nextFile ⟨h, 0, false⟩ with
    openFiles := s.nextFile :: s.openFiles
    nextFile := s.nextFile + 1 }

/-- The `struct file` is freed. -/
def FileSys.closeFile (s : FileSys) (f : ℕ) : FileSys :=
  { s with openFiles := s.openFiles.erase f }

theorem openFile_old (hs : HeapOk s) (hf : f ∈ s.openFiles) : (s.openFile h).file f = s.file f :=
  update_of_ne (Nat.ne_of_lt (hs.filesFresh f hf)) ..

theorem openFile_new (s : FileSys) (h : ℕ) : (s.openFile h).file s.nextFile = ⟨h, 0, false⟩ :=
  update_self ..

theorem countP_openFile (hs : HeapOk s) (p : File → Bool) :
    (s.openFile h).openFiles.countP (fun f => p ((s.openFile h).file f)) =
      s.openFiles.countP (fun f => p (s.file f)) + if p ⟨h, 0, false⟩ then 1 else 0 := by
  show (s.nextFile :: s.openFiles).countP _ = _
  rw [countP_cons, openFile_new]
  congr 1
  refine countP_congr fun f hf => ?_
  rw [openFile_old hs hf]

theorem filesOn_openFile (hs : HeapOk s) (h x : ℕ) :
    (s.openFile h).filesOn x = s.filesOn x + if h = x then 1 else 0 := by
  have hcount := countP_openFile hs (h := h) fun y => decide (y.inode = x)
  simp only [decide_eq_true_eq] at hcount
  exact hcount

theorem deniersOn_openFile (hs : HeapOk s) (h x : ℕ) :
    (s.openFile h).deniersOn x = s.deniersOn x := by
  have hcount := countP_openFile hs (h := h) fun y => decide (y.inode = x ∧ y.denyWrite = true)
  rw [if_neg (by simp)] at hcount
  exact hcount

theorem FsOk.openFile (hs : FsOk s) (hh : h ∈ s.openInodes)
    (hroom : s.filesOn h < (s.inode h).openCnt) (h0 : (s.inode h).sector ≠ 0)
    (h1 : (s.inode h).sector ≠ 1) : FsOk (s.openFile h) := by
  have hsector : ∀ f ∈ s.openFiles, (s.inode ((s.openFile h).file f).inode) =
      s.inode (s.file f).inode := fun f hf => by rw [openFile_old hs.heap hf]
  have hnext : s.nextFile ∉ s.openFiles := fun hm => lt_irrefl _ (hs.heap.filesFresh _ hm)
  refine ⟨⟨hs.sectors.owners, hs.sectors.placed⟩, hs.dir, ?_, ?_⟩
  · refine { hs.heap with
      filesNodup := nodup_cons.mpr ⟨hnext, hs.heap.filesNodup⟩
      filesFresh := fun f hf => ?_, files := fun f hf => ?_, held := fun x hx => ?_
      deny := fun x hx => ?_ }
    · rcases mem_cons.mp hf with rfl | hf
      · exact lt_succ_self _
      · exact lt_succ_of_lt (hs.heap.filesFresh f hf)
    · rcases mem_cons.mp hf with rfl | hf
      · rw [openFile_new]; exact hh
      · rw [openFile_old hs.heap hf]; exact hs.heap.files f hf
    · rw [filesOn_openFile hs.heap]
      have hheld := hs.heap.held x hx
      show _ ≤ (s.inode x).openCnt
      split
      · rename_i hhx
        subst hhx
        omega
      · omega
    · rw [deniersOn_openFile hs.heap]
      exact hs.heap.deny x hx
  · obtain ⟨f, hf⟩ := hs.tie.mapFile
    refine ⟨hs.tie.cached, hs.tie.removed,
      ⟨f, hf.isMap, mem_cons_of_mem _ hf.isOpen, ?_, ?_⟩, fun f hf => ?_⟩
    · show (s.inode ((s.openFile h).file f).inode).sector = 0
      rw [hsector f hf.isOpen]; exact hf.sector
    · rw [openFile_old hs.heap hf.isOpen]; exact hf.writable
    · show (s.inode ((s.openFile h).file f).inode).sector ≠ 1 ∧
        ((s.inode ((s.openFile h).file f).inode).sector = 0 → s.freeMapFile = some f)
      rcases mem_cons.mp hf with rfl | hf
      · rw [openFile_new]
        exact ⟨h1, fun he => absurd he h0⟩
      · rw [hsector f hf]
        exact hs.tie.ordinary f hf

theorem countP_erase_file (hf : f ∈ s.openFiles) (p : ℕ → Bool) :
    s.openFiles.countP p = (s.openFiles.erase f).countP p + if p f then 1 else 0 := by
  rw [← countP_cons]
  exact (perm_cons_erase hf).countP_eq p

theorem filesOn_closeFile (hf : f ∈ s.openFiles) (x : ℕ) :
    s.filesOn x = (s.closeFile f).filesOn x + if (s.file f).inode = x then 1 else 0 := by
  have hcount := countP_erase_file hf fun y => decide ((s.file y).inode = x)
  simp only [decide_eq_true_eq] at hcount
  exact hcount

theorem FsOk.closeFile (hs : FsOk s) (hf : f ∈ s.openFiles) (hmap : s.freeMapFile ≠ some f)
    (hdeny : (s.file f).denyWrite = false) : FsOk (s.closeFile f) := by
  have hmem : ∀ g ∈ (s.closeFile f).openFiles, g ∈ s.openFiles := fun g hg => mem_of_mem_erase hg
  refine ⟨⟨hs.sectors.owners, hs.sectors.placed⟩, hs.dir, ?_, ?_⟩
  · refine { hs.heap with
      filesNodup := hs.heap.filesNodup.erase f
      filesFresh := fun g hg => hs.heap.filesFresh g (hmem g hg)
      files := fun g hg => hs.heap.files g (hmem g hg), held := fun x hx => ?_
      deny := fun x hx => ?_ }
    · have hheld := hs.heap.held x hx
      have hcount := filesOn_closeFile hf x
      show (s.closeFile f).filesOn x ≤ (s.inode x).openCnt
      omega
    · have hcount := countP_erase_file hf fun y =>
        decide ((s.file y).inode = x ∧ (s.file y).denyWrite = true)
      rw [if_neg (by simp [hdeny])] at hcount
      have hsame : s.deniersOn x = (s.closeFile f).deniersOn x := hcount
      rw [← hsame]
      exact hs.heap.deny x hx
  · obtain ⟨g, hg⟩ := hs.tie.mapFile
    have hne : g ≠ f := fun he => hmap (he ▸ hg.isMap)
    exact { hs.tie with
      mapFile := ⟨g, { hg with isOpen := (mem_erase_of_ne hne).mpr hg.isOpen }⟩
      ordinary := fun y hy => hs.tie.ordinary y (hmem y hy) }

/-- **The files may change their positions and their claims to deny writes**, if the counts of the
    inodes follow. -/
theorem FsOk.setFiles (hs : FsOk s) {F : ℕ → File} {I : ℕ → Inode}
    (hf : ∀ f, (F f).inode = (s.file f).inode)
    (hmap : ∀ f, s.freeMapFile = some f → (F f).denyWrite = false)
    (hi : ∀ h, I h = { s.inode h with denyWriteCnt := (I h).denyWriteCnt })
    (hdeny : ∀ h ∈ s.openInodes, (I h).denyWriteCnt =
      s.openFiles.countP fun f => (F f).inode = h ∧ (F f).denyWrite = true) :
    FsOk { s with file := F, inode := I } := by
  have hsector : ∀ h, (I h).sector = (s.inode h).sector := fun h => by rw [hi h]
  have hlive : ∀ σ, FileSys.Live { s with file := F, inode := I } σ → s.Live σ := by
    intro σ hσ
    refine hσ.of_opened rfl fun ⟨x, hx, hsec⟩ => ?_
    exact .inr (.inr (.inl ⟨x, hx, (hsector x).symm.trans hsec⟩))
  refine ⟨hs.sectors.of_live rfl rfl rfl hlive, hs.dir, ?_, ?_⟩
  · refine { hs.heap with
      single := fun x hx y hy he => ?_, counted := fun x hx => ?_, sema := fun x hx => ?_
      files := fun f hm => ?_, held := fun x hx => ?_, deny := hdeny }
    · exact hs.heap.single x hx y hy ((hsector x).symm.trans (he.trans (hsector y)))
    · show 0 < (I x).openCnt
      rw [hi x]; exact hs.heap.counted x hx
    · show (I x).sema = 1
      rw [hi x]; exact hs.heap.sema x hx
    · rw [hf f]; exact hs.heap.files f hm
    · show (s.openFiles.countP fun f => (F f).inode = x) ≤ (I x).openCnt
      rw [hi x]
      simp only [hf]
      exact hs.heap.held x hx
  · obtain ⟨g, hg⟩ := hs.tie.mapFile
    refine ⟨fun x hx => ?_, fun x hx hr => ?_, ⟨g, hg.isMap, hg.isOpen, ?_, hmap g hg.isMap⟩,
      fun f hm => ?_⟩
    · show (I x).data = inodeAt s.disk (I x).sector
      rw [hi x]; exact hs.tie.cached x hx
    · have hr' : (I x).removed = true := hr
      rw [hi x] at hr'
      rw [hsector x]; exact hs.tie.removed x hx hr'
    · rw [hf g, hsector]; exact hg.sector
    · rw [hf f, hsector]; exact hs.tie.ordinary f hm

theorem FsOk.setPos (hs : FsOk s) (f pos : ℕ) :
    FsOk (s.setFile f { s.file f with pos := pos }) := by
  have hsame : ∀ g, ((s.setFile f { s.file f with pos := pos }).file g).inode = (s.file g).inode ∧
      ((s.setFile f { s.file f with pos := pos }).file g).denyWrite = (s.file g).denyWrite := by
    intro g
    show (update s.file f _ g).inode = _ ∧ (update s.file f _ g).denyWrite = _
    by_cases hg : g = f
    · subst hg
      rw [update_self]
      exact ⟨rfl, rfl⟩
    · rw [update_of_ne hg]
      exact ⟨rfl, rfl⟩
  refine hs.setFiles (F := (s.setFile f { s.file f with pos := pos }).file) (fun g => (hsame g).1)
    (fun g hg => ?_) (fun h => rfl) fun h hh => ?_
  · obtain ⟨y, hy⟩ := hs.tie.mapFile
    have hgy : g = y := Option.some.inj (hg.symm.trans hy.isMap)
    rw [(hsame g).2, hgy]
    exact hy.writable
  · simp only [hsame]
    exact hs.heap.deny h hh

/-- A file that is not the free map denies writes, or allows them again. -/
theorem FsOk.setDeny (hs : FsOk s) {b : Bool} (hf : f ∈ s.openFiles) (hmap : s.freeMapFile ≠ some f)
    (hb : (s.file f).denyWrite = !b)
    (hn : n + (if b then 0 else 1) = (s.inode (s.file f).inode).denyWriteCnt + if b then 1 else 0) :
    FsOk ((s.setFile f { s.file f with denyWrite := b }).setInode (s.file f).inode
      { s.inode (s.file f).inode with denyWriteCnt := n }) := by
  let F := update s.file f { s.file f with denyWrite := b }
  let I := update s.inode (s.file f).inode
    { s.inode (s.file f).inode with denyWriteCnt := n }
  have hself : F f = { s.file f with denyWrite := b } := update_self ..
  have hother : ∀ g, g ≠ f → F g = s.file g := fun g hg => update_of_ne hg ..
  have hiself : I (s.file f).inode = { s.inode (s.file f).inode with denyWriteCnt := n } :=
    update_self ..
  have hiother : ∀ x, x ≠ (s.file f).inode → I x = s.inode x :=
    fun x hx => update_of_ne hx ..
  have hcount : ∀ x, (s.openFiles.countP fun g => (F g).inode = x ∧ (F g).denyWrite = true) +
      (if (s.file f).inode = x ∧ b = false then 1 else 0) =
      s.deniersOn x + if (s.file f).inode = x ∧ b = true then 1 else 0 := by
    intro x
    have hrest : ((s.openFiles.erase f).countP fun g => (F g).inode = x ∧ (F g).denyWrite = true) =
        (s.openFiles.erase f).countP fun g => (s.file g).inode = x ∧ (s.file g).denyWrite = true :=
      countP_congr fun g hg => by
        rw [hother g fun he => hs.heap.filesNodup.not_mem_erase (he ▸ hg)]
    unfold FileSys.deniersOn
    rw [countP_erase_file hf, countP_erase_file hf fun g => _, hrest, hself]
    cases b <;> simp [hb]
  refine hs.setFiles (F := F) (I := I) (fun g => ?_) (fun g hg => ?_) (fun x => ?_) fun x hx => ?_
  · by_cases hg : g = f
    · subst hg; rw [hself]
    · rw [hother g hg]
  · obtain ⟨y, hy⟩ := hs.tie.mapFile
    have hgy : g = y := Option.some.inj (hg.symm.trans hy.isMap)
    rw [hother g fun he => hmap (he ▸ hg), hgy]
    exact hy.writable
  · by_cases hx : x = (s.file f).inode
    · subst hx; rw [hiself]
    · rw [hiother x hx]
  · have hdeny := hs.heap.deny x hx
    have hc := hcount x
    by_cases hxf : x = (s.file f).inode
    · subst hxf
      rw [hiself]
      show n = _
      cases b with
      | true =>
        rw [if_neg (by simp), if_pos ⟨rfl, rfl⟩] at hc
        rw [if_pos rfl, if_pos rfl] at hn
        omega
      | false =>
        rw [if_pos ⟨rfl, rfl⟩, if_neg (by simp)] at hc
        rw [if_neg (by simp), if_neg (by simp)] at hn
        omega
    · rw [hiother x hxf, hdeny]
      rw [if_neg fun h => hxf h.1.symm, if_neg fun h => hxf h.1.symm] at hc
      omega

end Files

end Pintos
