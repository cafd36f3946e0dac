/-
  Subject:   Formatting: after `filesys_init (true)` the invariant holds.

  Formatting works on a file system that is not one yet, so the invariant is of no use until the end.
  The stages are

  * `Fresh`: after `free_map_init`; the free map in memory has the first two sectors marked;
  * `MapMade`: after `free_map_create`; the free map file is open and written;
  * `Formatted`: after `do_format`; the root directory is there, nothing is open.

  A refused allocation or a device that is too small ends in a `PANIC`, so each lemma starts from a
  run that returns.
-/
import Pintos.Filesys.FsCalls

namespace Pintos

open Lib Function List

/-! ## 1. The free map in memory -/

/-- After `free_map_init`. -/
structure Fresh (s : FileSys) : Prop where
  sectors : s.size < 2 ^ 32
  bytes : byteCnt s.size ≠ 0
  inodes : s.openInodes = []
  files : s.openFiles = []
  noMap : s.freeMapFile = none
  map : ∀ y < s.size, s.freeMap y = true ↔ y < 2

variable {f i k size x σ : ℕ} {t : FileSys}

section Fresh

variable {s : FileSys} {Q : Unit → FileSys → Prop}

theorem byteCnt_bits (hsize : size < 2 ^ 32) (hb : byteCnt size ≠ 0) : size ≤ 8 * byteCnt size := by
  unfold byteCnt at hb ⊢
  omega

theorem byteCnt_lt (size : ℕ) : byteCnt size < 2 ^ 31 := by
  unfold byteCnt
  omega

theorem freeMapInit_inv (hsize : s.size < 2 ^ 32) (hi : s.openInodes = []) (hf : s.openFiles = [])
    (hm : s.freeMapFile = none) (h : Runs freeMapInit s Q) : ∃ s', Fresh s' ∧ s'.size = s.size ∧
      (s.allocs = [] → s'.allocs = []) ∧ Q () s' := by
  unfold freeMapInit at h
  simp only [runs_bind, runs_malloc, runs_get, runs_ite, runs_set, runs_stop] at h
  split at h
  · rename_i hg
    split at h
    · cases h
    · rename_i h0
      have hbytes : byteCnt s.size ≠ 0 := by
        rcases hg.2 with hg | hg
        · exact hg.2
        · exact absurd hg h0
      refine ⟨s.pop.pop.setMap (bitmapSetMultiple (bitmapSetMultiple s.freeMap 0 s.size false) 0 2
        true), ⟨hsize, hbytes, hi, hf, hm, fun y hy => ?_⟩, rfl, fun ha => ?_, h⟩
      · have hlt : y < s.size := hy
        show bitmapSetMultiple (bitmapSetMultiple s.freeMap 0 s.size false) 0 2 true y = true ↔ _
        unfold bitmapSetMultiple
        by_cases h2 : y < 2
        · rw [if_pos ⟨Nat.zero_le _, by omega⟩]
          exact ⟨fun _ => h2, fun _ => rfl⟩
        · rw [if_neg (by omega), if_pos ⟨Nat.zero_le _, by omega⟩]
          exact ⟨fun h => absurd h Bool.false_ne_true, fun h => absurd h h2⟩
      · show s.allocs.tail.tail = []
        rw [ha]
        rfl
  · cases h

end Fresh

/-! ## 2. The free map file -/

/-- After `free_map_create`: the free map file `f` on the inode `x` is all that is open, its data is
    behind the first two sectors, and what is on the device is what is in memory. -/
structure MapMade (s : FileSys) (x f : ℕ) : Prop where
  ready : MapReady s f
  inodes : s.openInodes = [x]
  inode : s.inode x = ⟨0, 1, false, 0, inodeAt s.disk 0, 1⟩
  files : s.openFiles = [f]
  file : s.file f = ⟨x, 0, false⟩
  behind : ∀ y, InData (inodeAt s.disk 0) y → 2 ≤ y
  map : ∀ y < s.size, s.freeMap y = true ↔ y < 2 ∨ InData (inodeAt s.disk 0) y
  sectors : s.size < 2 ^ 32

section MapFile

variable {s : FileSys} {Q : Unit → FileSys → Prop}

theorem freeMapAllocate_first (hm : s.freeMapFile = none) (cnt : ℕ) :
    (freeMapAllocate cnt).run s = .ok (bitmapScan s.size s.freeMap cnt,
      match bitmapScan s.size s.freeMap cnt with
      | none => s
      | some k => s.setMap (bitmapSetMultiple s.freeMap k cnt true)) := by
  apply Runs.run_eq
  unfold freeMapAllocate
  cases hscan : bitmapScan s.size s.freeMap cnt with
  | none => simp [hscan]
  | some k => simp [hscan, hm]

/-- `inode_open` and `file_open` of the free map, when nothing is open: either both allocations are
    granted or there is no file. -/
theorem openMap_inv {P : Option ℕ → FileSys → Prop} (hi : s.openInodes = []) (hsize : 0 < s.size)
    (hnone : ∀ s', ¬ P none s') (h : Runs (inodeOpen 0) s fun r s₁ => Runs (fileOpen r) s₁ P) :
    P (some s.nextFile) ((s.pop.newInode 0).pop.openFile s.nextInode) := by
  have hfind : (s.openInodes.find? fun h => (s.inode h).sector == 0) = none := by
    rw [hi]
    rfl
  cases hg : s.granted with
  | false =>
    rw [runs_of_run (inodeOpen_refused hfind hg)] at h
    unfold fileOpen inodeClose at h
    simp only [runs_bind, runs_malloc, runs_pure] at h
    exact absurd h (hnone _)
  | true =>
    rw [runs_of_run (inodeOpen_new hfind hsize hg)] at h
    unfold fileOpen at h
    rw [runs_bind, runs_malloc] at h
    cases hg' : (s.pop.newInode 0).granted with
    | true =>
      rw [hg'] at h
      simp only [runs_bind, runs_get, runs_set, runs_pure] at h
      exact h
    | false =>
      rw [hg'] at h
      simp only [runs_bind, runs_pure] at h
      obtain ⟨_, s', _, h'⟩ := h
      exact absurd h' (hnone s')

/-- The state after the free map has been opened, when nothing is open. -/
def FileSys.openMap (s : FileSys) : FileSys :=
  { s with
    inode := update s.inode s.nextInode ⟨0, 1, false, 0, inodeAt s.disk 0, 1⟩
    openInodes := s.nextInode :: s.openInodes
    nextInode := s.nextInode + 1
    file := update s.file s.nextFile ⟨s.nextInode, 0, false⟩
    openFiles := s.nextFile :: s.openFiles
    nextFile := s.nextFile + 1
    freeMapFile := some s.nextFile
    allocs := s.allocs.tail.tail }

theorem openMap_eq (s : FileSys) :
    { (s.pop.newInode 0).pop.openFile s.nextInode with freeMapFile := some s.nextFile } =
      s.openMap := by
  simp only [FileSys.openMap, FileSys.openFile, FileSys.setFile, FileSys.pop, FileSys.newInode,
    FileSys.setInode]

section OpenMap

variable (s)

theorem openMap_inode : s.openMap.inode s.nextInode = ⟨0, 1, false, 0, inodeAt s.disk 0, 1⟩ :=
  update_self ..

theorem openMap_file : s.openMap.file s.nextFile = ⟨s.nextInode, 0, false⟩ := update_self ..

theorem openMap_size : s.openMap.size = s.size := rfl

theorem openMap_disk : s.openMap.disk = s.disk := rfl

theorem openMap_freeMap : s.openMap.freeMap = s.freeMap := rfl

end OpenMap

theorem MapReady.openMap (hp : Placed s.size (inodeAt s.disk 0) 0)
    (hl : (inodeAt s.disk 0).length = byteCnt s.size) (hb : s.size ≤ 8 * byteCnt s.size) :
    MapReady s.openMap s.nextFile := by
  refine ⟨rfl, ?_, ?_, ?_, ?_, ?_, ?_⟩
  · rw [openMap_file, openMap_inode, openMap_disk]
  · rw [openMap_file, openMap_inode]
    exact Nat.one_pos
  · rw [openMap_file, openMap_inode]
  · rw [openMap_size, openMap_disk]
    exact hp
  · rw [openMap_size, openMap_disk]
    exact hl
  · rw [openMap_size]
    exact hb

theorem MapMade.open (hi : s.openInodes = []) (hf : s.openFiles = []) (hs : s.size < 2 ^ 32)
    (hb : byteCnt s.size ≠ 0) (hat : inodeAt s.disk 0 = ⟨k, byteCnt s.size⟩)
    (hext : k + bytesToSectors (byteCnt s.size) ≤ s.size)
    (hout : ∀ y, k ≤ y → y < k + bytesToSectors (byteCnt s.size) → 2 ≤ y)
    (hmap : ∀ y < s.size, s.freeMap y = true ↔
      y < 2 ∨ (k ≤ y ∧ y < k + bytesToSectors (byteCnt s.size))) :
    MapMade s.openMap s.nextInode s.nextFile := by
  have hpos : 0 < s.size := by
    unfold byteCnt at hb
    omega
  have hdata : ∀ y, InData (inodeAt s.disk 0) y ↔
      k ≤ y ∧ y < k + bytesToSectors (byteCnt s.size) := fun y => by
    unfold InData
    rw [hat]
  have hplaced : Placed s.size (inodeAt s.disk 0) 0 := by
    refine ⟨hpos, ?_, fun hin => ?_, ?_⟩
    · rw [hat]
      exact hext
    · have h0 := (hdata 0).mp hin
      exact absurd (hout 0 h0.1 h0.2) (by omega)
    · rw [hat]
      exact byteCnt_lt _
  have hready : MapReady s.openMap s.nextFile :=
    .openMap hplaced (by rw [hat]) (byteCnt_bits hs hb)
  refine ⟨hready, ?_, ?_, ?_, openMap_file s, fun y hy => ?_, fun y hy => ?_, ?_⟩
  · show s.nextInode :: s.openInodes = [s.nextInode]
    rw [hi]
  · rw [openMap_inode, openMap_disk]
  · show s.nextFile :: s.openFiles = [s.nextFile]
    rw [hf]
  · rw [openMap_disk] at hy
    have hin := (hdata y).mp hy
    exact hout y hin.1 hin.2
  · rw [openMap_size] at hy
    rw [openMap_freeMap, openMap_disk, hdata]
    exact hmap y hy
  · rw [openMap_size]
    exact hs

theorem MapMade.saveMap (hm : MapMade s x f) : MapMade s.saveMap x f := by
  have hat := saveMap_inodeAt hm.ready
  refine ⟨hm.ready.saveMap, ?_, ?_, ?_, ?_, fun y hy => ?_, fun y hy => ?_, ?_⟩
  · rw [saveMap_eq]
    exact hm.inodes
  · rw [hat, saveMap_eq]
    exact hm.inode
  · rw [saveMap_eq]
    exact hm.files
  · rw [saveMap_eq]
    exact hm.file
  · rw [hat] at hy
    exact hm.behind y hy
  · rw [saveMap_size] at hy
    rw [hat, saveMap_freeMap]
    exact hm.map y hy
  · rw [saveMap_size]
    exact hm.sectors

theorem Fresh.layOut (hs : Fresh s) (hext : k + bytesToSectors (byteCnt s.size) ≤ s.size)
    (hfree : ∀ x, k ≤ x → x < k + bytesToSectors (byteCnt s.size) → s.freeMap x = false)
    (hod : OnlyDisk s t)
    (ht : t.disk = (s.layOut 0 k (bytesToSectors (byteCnt s.size)) ⟨k, byteCnt s.size⟩).disk)
    (hmap : t.freeMap = bitmapSetMultiple s.freeMap k (bytesToSectors (byteCnt s.size)) true) :
    MapMade t.openMap t.nextInode t.nextFile := by
  have hsize : t.size = s.size := by rw [hod]
  have hsectors := hs.sectors
  -- the first two sectors are marked, so the data is behind them
  have hout : ∀ y, k ≤ y → y < k + bytesToSectors (byteCnt s.size) → 2 ≤ y := fun y h1 h2 => by
    have hclear : ¬ s.freeMap y = true := by
      rw [hfree y h1 h2]
      exact Bool.false_ne_true
    rw [hs.map y (by omega)] at hclear
    omega
  have hat : inodeAt t.disk 0 = ⟨k, byteCnt t.size⟩ := by
    rw [ht, hsize]
    refine layOut_inodeAt (fun h0 => absurd (hout 0 h0.1 h0.2) (by omega)) ?_ ?_
    · show k < 2 ^ 32
      omega
    · exact Nat.lt_trans (byteCnt_lt s.size) (by omega)
  refine MapMade.open (k := k) (by rw [hod]; exact hs.inodes) (by rw [hod]; exact hs.files) ?_ ?_ hat
    ?_ ?_ fun y hy => ?_
  · rw [hsize]
    exact hs.sectors
  · rw [hsize]
    exact hs.bytes
  · rw [hsize]
    exact hext
  · rw [hsize]
    exact hout
  · rw [hsize] at hy ⊢
    rw [hmap]
    unfold bitmapSetMultiple
    by_cases hin : k ≤ y ∧ y < k + bytesToSectors (byteCnt s.size)
    · rw [if_pos hin]
      exact ⟨fun _ => .inr hin, fun _ => rfl⟩
    · rw [if_neg hin, hs.map y hy]
      exact ⟨.inl, fun h => h.resolve_right hin⟩

theorem freeMapCreate_inv (hs : Fresh s) (h : Runs freeMapCreate s Q) :
    ∃ s' x f, MapMade s' x f ∧ s'.size = s.size ∧ (∀ y < s'.size, mapBit s'.disk y = s'.freeMap y) ∧
      (s.allocs = [] → s'.allocs = []) ∧ Q () s' := by
  unfold freeMapCreate at h
  simp only [runs_bind, runs_get] at h
  have hlen : (0 : Int) ≤ byteCnt s.size := Int.natCast_nonneg _
  have hnat : ((byteCnt s.size : Int)).toNat = byteCnt s.size := Int.toNat_natCast _
  have hpos : 0 < s.size := by
    have hb := hs.bytes
    unfold byteCnt at hb
    omega
  let n := bytesToSectors (byteCnt s.size)
  cases hg : s.granted with
  | false =>
    rw [runs_of_run (inodeCreate_refused hlen hg)] at h
    exact absurd h runs_stop
  | true =>
    have hrun := freeMapAllocate_first (s := s.pop) hs.noMap n
    cases hscan : bitmapScan s.pop.size s.pop.freeMap n with
    | none =>
      rw [hscan] at hrun
      rw [runs_of_run (inodeCreate_none hlen hg (by rw [hnat]; exact hrun))] at h
      exact absurd h runs_stop
    | some k =>
      rw [hscan] at hrun
      obtain ⟨hext, hfree⟩ := bitmapScan_some hscan
      let s₁ := s.pop.setMap (bitmapSetMultiple s.freeMap k n true)
      let t := s₁.layOut 0 k n ⟨k, byteCnt s.size⟩
      have hod1 : OnlyDisk s s₁ := (OnlyAllocs.pop s).onlyDisk.trans rfl
      have hsize1 : s₁.size = s.size := by rw [hod1]
      have hod : OnlyDisk s t := hod1.trans rfl
      have hsize : t.size = s.size := by rw [hod]
      have hmap : (freeMapAllocate (bytesToSectors (Int.toNat (byteCnt s.size)))).run s.pop =
          .ok (some k, s₁) := by
        rw [hnat]
        exact hrun
      have hcreate := inodeCreate_some (σ := 0) hlen hg hmap (by rw [hsize1]; exact hpos)
        (by rw [hnat, hsize1]; exact hext)
      rw [hnat] at hcreate
      rw [runs_of_run hcreate, if_pos rfl] at h
      have hmade := hs.layOut hext hfree hod rfl rfl
      simp only [runs_bind, runs_modify] at h
      have hopen := openMap_inv (s := t) (by rw [hod]; exact hs.inodes) (by rw [hsize]; exact hpos)
        (fun s' hn => runs_stop hn) h
      simp only [openMap_eq, runs_bind] at hopen
      rw [runs_of_run (bitmapWrite_run hmade.ready)] at hopen
      cases hsv : t.openMap.saved with
      | false =>
        rw [hsv] at hopen
        exact absurd hopen runs_stop
      | true =>
        rw [hsv] at hopen
        refine ⟨_, _, _, hmade.saveMap, ?_, fun y hy => ?_, fun ha => ?_, runs_pure.mp hopen⟩
        · rw [saveMap_size]
          exact hsize
        · rw [saveMap_size] at hy
          rw [saveMap_freeMap]
          exact hmade.ready.saveMap_synced hsv hy
        · refine saveMap_allocs ?_
          show s.allocs.tail.tail.tail = []
          rw [ha]
          rfl

end MapFile

/-! ## 3. The root directory -/

/-- After `do_format`: the free map and the root directory are on the device, nothing is open. -/
structure Formatted (s : FileSys) (r : ℕ) : Prop where
  inodes : s.openInodes = []
  files : s.openFiles = []
  sectors : s.size < 2 ^ 32
  bits : s.size ≤ 8 * byteCnt s.size
  map : Placed s.size (inodeAt s.disk 0) 0
  mapLength : (inodeAt s.disk 0).length = byteCnt s.size
  root : inodeAt s.disk 1 = ⟨r, 320⟩
  rootInside : r < s.size
  rootBehind : 2 ≤ r
  behind : ∀ y, InData (inodeAt s.disk 0) y → 2 ≤ y ∧ y ≠ r
  zero : ∀ j < 512, s.disk r j = 0
  marked : ∀ y < s.size, y < 2 ∨ InData (inodeAt s.disk 0) y ∨ y = r → s.freeMap y = true
  synced : ∀ y < s.size, mapBit s.disk y = s.freeMap y

section Root

variable {s : FileSys} {Q : Unit → FileSys → Prop}

theorem closeMap_run (hf : s.file f = ⟨x, 0, false⟩) (hc : (s.inode x).openCnt = 1)
    (hr : (s.inode x).removed = false) :
    (fileClose (some f)).run s = .ok ((), (s.closeFile f).forget x (s.inode x).less) := by
  have hallow : (fileAllowWrite (some f)).run s = .ok ((), s) := by
    apply Runs.run_eq
    unfold fileAllowWrite
    simp [hf]
  apply Runs.run_eq
  unfold fileClose
  rw [runs_bind, runs_of_run hallow]
  simp only [runs_bind, runs_get, runs_set, hf]
  have hkept : ¬ ((s.closeFile f).inode x).removed = true := by
    show ¬ (s.inode x).removed = true
    rw [hr]
    exact Bool.false_ne_true
  refine (inodeClose_last (s := s.closeFile f) (by exact hc)).mpr ?_
  rw [if_neg hkept]
  exact ⟨trivial, rfl⟩

/-- The sectors of the root directory are written, the free map having been written before. -/
theorem MapMade.root (hm : MapMade s x f) {r : ℕ} (hscan : bitmapScan s.size s.freeMap 1 = some r)
    (hsv : s.saved = true) (hod : OnlyDisk s t)
    (ht : t.disk = ((s.take r 1).layOut 1 r 1 ⟨r, 320⟩).disk)
    (hmap : t.freeMap = bitmapSetMultiple s.freeMap r 1 true) :
    Formatted ((t.closeFile f).forget x (t.inode x).less) r := by
  obtain ⟨hin, hfree⟩ := bitmapScan_some hscan
  have hsize : t.size = s.size := by rw [hod]
  have hsectors := hm.sectors
  have hready := hm.ready.setMap (bitmapSetMultiple s.freeMap r 1 true)
  have hr : ¬ (r < 2 ∨ InData (inodeAt s.disk 0) r) := by
    rw [← hm.map r hin, hfree r (Nat.le_refl r) (Nat.lt_succ_self r)]
    exact Bool.false_ne_true
  have hother : ∀ y, y ≠ 1 → y ≠ r → t.disk y = (s.take r 1).disk y := fun y h1 h2 => by
    rw [ht]
    exact layOut_other h1 (by omega)
  have htake : ∀ y, ¬ InData (inodeAt s.disk 0) y → (s.take r 1).disk y = s.disk y :=
    fun y hy => hready.saveMap_disk hy
  have hat : inodeAt t.disk 0 = inodeAt s.disk 0 := by
    unfold inodeAt
    rw [hother 0 (by omega) (by omega), htake 0 hm.ready.placed.self]
  have hroot : inodeAt t.disk 1 = ⟨r, 320⟩ := by
    rw [ht]
    exact layOut_inodeAt (by omega) (by show r < 2 ^ 32; omega) (by show 320 < 2 ^ 32; omega)
  -- what is left of the state when all is closed
  let u := (t.closeFile f).forget x (t.inode x).less
  have husize : u.size = s.size := hsize
  have hudisk : u.disk = t.disk := rfl
  have humap : u.freeMap = t.freeMap := rfl
  have hinodes : t.openInodes = [x] := by rw [hod]; exact hm.inodes
  have hfiles : t.openFiles = [f] := by rw [hod]; exact hm.files
  refine ⟨?_, ?_, ?_, ?_, ?_, ?_, ?_, ?_, ?_, fun y hy => ?_, fun j hj => ?_, fun y hy hown => ?_,
    fun y hy => ?_⟩
  · show t.openInodes.erase x = []
    rw [hinodes]
    simp
  · show t.openFiles.erase f = []
    rw [hfiles]
    simp
  · rw [husize]
    exact hm.sectors
  · rw [husize]
    exact hm.ready.bits
  · rw [husize, hudisk, hat]
    exact hm.ready.placed
  · rw [husize, hudisk, hat]
    exact hm.ready.length
  · rw [hudisk]
    exact hroot
  · rw [husize]
    exact hin
  · omega
  · rw [hudisk, hat] at hy
    exact ⟨hm.behind y hy, fun he => hr (.inr (he ▸ hy))⟩
  · rw [hudisk, ht]
    exact if_pos ⟨⟨Nat.le_refl r, Nat.lt_succ_self r⟩, hj⟩
  · rw [husize] at hy
    rw [hudisk, hat] at hown
    rw [humap, hmap]
    unfold bitmapSetMultiple
    split
    · rfl
    · rename_i hne
      rcases hown with h2 | hd | he
      · exact (hm.map y hy).mpr (.inl h2)
      · exact (hm.map y hy).mpr (.inr hd)
      · omega
  · rw [husize] at hy
    rw [hudisk, humap, hmap]
    refine Eq.trans ?_ (hready.saveMap_synced hsv hy)
    have hmapfile : ∀ z, Owns (s.take r 1).disk 0 z → z ≠ 1 ∧ z ≠ r := fun z hz => by
      have hz' : z = 0 ∨ InData (inodeAt s.disk 0) z := by
        unfold Owns FileSys.take at hz
        rw [saveMap_inodeAt hready] at hz
        exact hz
      rcases hz' with h0 | hd
      · omega
      · have h2 := hm.behind z hd
        exact ⟨by omega, fun he => hr (.inr (he ▸ hd))⟩
    exact mapBit_congr hready.saveMap (fun z hz => hother z (hmapfile z hz).1 (hmapfile z hz).2)
      (by rw [saveMap_size]; exact hy)

theorem doFormat_inv (hs : Fresh s) (h : Runs doFormat s Q) :
    ∃ s' r, Formatted s' r ∧ s'.size = s.size ∧ (s.allocs = [] → s'.allocs = []) ∧ Q () s' := by
  unfold doFormat at h
  rw [runs_bind] at h
  obtain ⟨s₁, x, f, hm, hsize1, _, ha1, h⟩ := freeMapCreate_inv hs h
  rw [runs_bind] at h
  have hlen : (0 : Int) ≤ 16 * 20 := by decide
  cases hg : s₁.granted with
  | false =>
    rw [runs_of_run (inodeCreate_refused hlen hg)] at h
    exact absurd h runs_stop
  | true =>
    have hmp : MapMade s₁.pop x f := ⟨⟨hm.ready.isMap, hm.ready.data, hm.ready.sema, hm.ready.writable,
      hm.ready.placed, hm.ready.length, hm.ready.bits⟩, hm.inodes, hm.inode, hm.files, hm.file,
      hm.behind, hm.map, hm.sectors⟩
    have hrun := freeMapAllocate_run hmp.ready 1
    cases hscan : bitmapScan s₁.pop.size s₁.pop.freeMap 1 with
    | none =>
      rw [hscan] at hrun
      rw [runs_of_run (inodeCreate_none hlen hg hrun)] at h
      exact absurd h runs_stop
    | some r =>
      rw [hscan] at hrun
      simp only at hrun
      cases hsv : s₁.pop.saved with
      | false =>
        rw [hsv, if_neg Bool.false_ne_true] at hrun
        rw [runs_of_run (inodeCreate_none hlen hg hrun)] at h
        exact absurd h runs_stop
      | true =>
        rw [hsv, if_pos rfl] at hrun
        obtain ⟨hin, _⟩ := bitmapScan_some hscan
        let t := (s₁.pop.take r 1).layOut 1 r 1 ⟨r, 320⟩
        have hod1 : OnlyDisk s₁.pop (s₁.pop.take r 1) := OnlyDisk.save s₁.pop _
        have hsizet : (s₁.pop.take r 1).size = s₁.size := by rw [hod1]; rfl
        have hod : OnlyDisk s₁.pop t := hod1.trans rfl
        have hfmt := hmp.root hscan hsv hod rfl (saveMap_freeMap _)
        have hcreate : (inodeCreate 1 (16 * 20)).run s₁ = .ok (true, t) :=
          inodeCreate_some hlen hg hrun (by
          have h2 := hfmt.rootBehind
          rw [hsizet]
          exact Nat.lt_of_lt_of_le h2 (Nat.le_of_lt hin)) (by rw [hsizet]; exact hin)
        rw [runs_of_run hcreate, if_pos rfl] at h
        have hmap : t.freeMapFile = some f := by rw [hod]; exact hmp.ready.isMap
        have hfile : t.file f = ⟨x, 0, false⟩ := by rw [hod]; exact hmp.file
        have hinode : t.inode x = ⟨0, 1, false, 0, inodeAt s₁.disk 0, 1⟩ := by
          rw [hod]
          exact hmp.inode
        unfold freeMapClose at h
        rw [runs_bind, runs_get, hmap, runs_of_run (closeMap_run hfile (by rw [hinode])
          (by rw [hinode]))] at h
        refine ⟨_, r, hfmt, ?_, fun ha => ?_, h⟩
        · exact hsizet.trans hsize1
        · exact saveMap_allocs ((Calm.pop s₁).allocs (ha1 ha))

end Root

/-! ## 4. Mounting -/

section Mount

variable {s : FileSys} {Q : Unit → FileSys → Prop}

/-- The bits that `bitmap_read` takes from the bytes of the free map file. -/
theorem bitmapRead_run (hm : MapReady s f) : (bitmapRead f).run s =
    .ok (s.saved, (s.bounced (byteCnt s.size) 0).setMap (bitmapSetMultiple (fun k =>
      if k / 8 < s.moved (byteCnt s.size) 0 then mapBit s.disk k else s.freeMap k)
      s.size (8 * byteCnt s.size - s.size) false)) := by
  have hread := inodeReadAt_run (s := s) (h := (s.file f).inode) (byteCnt s.size : Int) 0 (by
    rw [hm.data]
    exact hm.placed.onDevice)
  have hcount : count (inodeAt s.disk 0) (byteCnt s.size : Int).toNat 0 = byteCnt s.size := by
    unfold count
    rw [hm.length, Int.toNat_natCast, Nat.sub_zero, Nat.min_self]
  rw [hm.data, hcount] at hread
  have hsame := SameDisk.bounced s (byteCnt s.size) 0
  have hsize := (FsKeeps.bounced s (byteCnt s.size) 0).size
  apply Runs.run_eq
  unfold bitmapRead
  simp only [runs_bind, runs_get]
  rw [runs_of_run hread]
  simp only [runs_modify, runs_pure, bytesAt_length]
  refine ⟨rfl, ?_⟩
  rw [hsize, hsame.freeMap]
  congr 2
  funext k
  split
  · rename_i hk
    rw [getD_eq_getElem?_getD, List.getElem?_eq_getElem (by rw [bytesAt_length]; exact hk),
      Option.getD_some]
    simp [bytesAt, mapBit]
  · rfl

section Formatted

variable {r : ℕ}

section

variable (hs : Formatted s r)

include hs

theorem Formatted.rootData (y : ℕ) : InData (inodeAt s.disk 1) y ↔ y = r := by
  have hone : bytesToSectors 320 = 1 := rfl
  unfold InData
  rw [hs.root]
  show r ≤ y ∧ y < r + bytesToSectors 320 ↔ y = r
  rw [hone]
  omega

theorem Formatted.unused (hi : i < 16) : (entry s.disk i).inUse = false := by
  show (s.disk (inodeAt s.disk 1).start (20 * i + 19) != 0) = false
  rw [hs.root, hs.zero _ (by omega)]
  rfl

theorem Formatted.live (hσ : s.openMap.Live σ) : σ = 0 ∨ σ = 1 := by
  rcases hσ with h0 | h1 | ho | hn
  · exact .inl h0
  · exact .inr h1
  · obtain ⟨x, hx, hsec⟩ := ho
    have hx' : x ∈ s.nextInode :: s.openInodes := hx
    rw [hs.inodes, mem_singleton] at hx'
    rw [hx', openMap_inode] at hsec
    exact .inl hsec.symm
  · obtain ⟨i, hi, hu, _⟩ := hn
    rw [openMap_disk, hs.unused hi] at hu
    cases hu

theorem Formatted.sectorsOk : SectorsOk s.openMap := by
  have h1 := hs.rootBehind
  have hin := hs.rootInside
  have howns : ∀ y, (Owns s.disk 0 y → y = 0 ∨ (2 ≤ y ∧ y ≠ r)) ∧ (Owns s.disk 1 y → y = 1 ∨ y = r) :=
    fun y => ⟨fun h => h.imp_right (hs.behind y), fun h => h.imp_right (hs.rootData y).mp⟩
  have hinside : ∀ y, InData (inodeAt s.disk 0) y → y < s.size := fun y hy =>
    Nat.lt_of_lt_of_le hy.2 hs.map.extent
  refine ⟨⟨fun i j k hi hj hik hjk => ?_, fun i k hi hik => ?_⟩, fun σ hσ => ?_⟩
  · rw [openMap_disk] at hik hjk
    obtain ⟨h0, h1⟩ := howns k
    rcases hs.live hi with rfl | rfl
    · rcases hs.live hj with rfl | rfl
      · rfl
      · have ha := h0 hik
        have hb := h1 hjk
        omega
    · rcases hs.live hj with rfl | rfl
      · have ha := h0 hjk
        have hb := h1 hik
        omega
      · rfl
  · rw [openMap_freeMap]
    rw [openMap_disk] at hik
    rcases hs.live hi with rfl | rfl
    · rcases hik with rfl | hd
      · exact hs.marked 0 (by omega) (.inl (by omega))
      · exact hs.marked k (hinside k hd) (.inr (.inl hd))
    · rcases hik with rfl | hd
      · exact hs.marked 1 (by omega) (.inl (by omega))
      · have hk := (hs.rootData k).mp hd
        exact hs.marked k (by omega) (.inr (.inr hk))
  · rw [openMap_size, openMap_disk]
    rcases hs.live hσ with rfl | rfl
    · exact hs.map
    · refine ⟨by omega, ?_, fun hd => ?_, ?_⟩
      · have hone : bytesToSectors 320 = 1 := rfl
        rw [hs.root]
        rw [hone]
        exact hin
      · have h1r := (hs.rootData 1).mp hd
        omega
      · rw [hs.root]
        show 320 < 2 ^ 31
        omega

theorem Formatted.heapOk : HeapOk s.openMap := by
  have hinodes : s.openMap.openInodes = [s.nextInode] := by
    show s.nextInode :: s.openInodes = [s.nextInode]
    rw [hs.inodes]
  have hfiles : s.openMap.openFiles = [s.nextFile] := by
    show s.nextFile :: s.openFiles = [s.nextFile]
    rw [hs.files]
  have hx : ∀ x ∈ s.openMap.openInodes, x = s.nextInode := fun x hx => by
    rwa [hinodes, mem_singleton] at hx
  have hf : ∀ f ∈ s.openMap.openFiles, f = s.nextFile := fun f hf => by
    rwa [hfiles, mem_singleton] at hf
  refine ⟨?_, fun x h => ?_, fun x h y h' _ => ?_, fun x h => ?_, fun x h => ?_, ?_, fun f h => ?_,
    fun f h => ?_, fun x h => ?_, fun x h => ?_⟩
  · rw [hinodes]
    exact nodup_singleton _
  · rw [hx x h]
    exact Nat.lt_succ_self _
  · rw [hx x h, hx y h']
  · rw [hx x h, openMap_inode]
    exact Nat.one_pos
  · rw [hx x h, openMap_inode]
  · rw [hfiles]
    exact nodup_singleton _
  · rw [hf f h]
    exact Nat.lt_succ_self _
  · rw [hf f h, openMap_file, hinodes]
    exact mem_singleton_self _
  · rw [hx x h, openMap_inode]
    unfold FileSys.filesOn
    rw [hfiles]
    simp [openMap_file]
  · rw [hx x h, openMap_inode]
    unfold FileSys.deniersOn
    rw [hfiles]
    simp [openMap_file]

/-- **A formatted file system whose free map is open is in order.** -/
theorem Formatted.ok : FsOk s.openMap := by
  refine ⟨hs.sectorsOk, ?_, hs.heapOk, ?_⟩
  · rw [openMap_size, openMap_disk]
    refine ⟨fun i hi hu => ?_, fun i hi j hj hu _ _ => ?_, ?_, hs.mapLength, hs.bits, hs.sectors⟩
    · rw [hs.unused hi] at hu
      cases hu
    · rw [hs.unused hi] at hu
      cases hu
    · rw [hs.root]
  · have hx : ∀ x ∈ s.openMap.openInodes, x = s.nextInode := fun x hx => by
      have hx' : x ∈ s.nextInode :: s.openInodes := hx
      rwa [hs.inodes, mem_singleton] at hx'
    have hf : ∀ f ∈ s.openMap.openFiles, f = s.nextFile := fun f hf => by
      have hf' : f ∈ s.nextFile :: s.openFiles := hf
      rwa [hs.files, mem_singleton] at hf'
    refine ⟨fun x h => ?_, fun x h hrem => ?_, ⟨s.nextFile, rfl, mem_cons_self, ?_, ?_⟩,
      fun f h => ?_⟩
    · rw [hx x h, openMap_inode, openMap_disk]
    · rw [hx x h, openMap_inode] at hrem
      cases hrem
    · rw [openMap_file, openMap_inode]
    · rw [openMap_file]
    · rw [hf f h, openMap_file, openMap_inode]
      exact ⟨Nat.zero_ne_one, fun _ => rfl⟩

end

end Formatted

theorem freeMapOpen_inv {r : ℕ} (hs : Formatted s r) (h : Runs freeMapOpen s Q) :
    ∃ s', FsOk s' ∧ s'.size = s.size ∧ (s.allocs = [] → Steady s') ∧ Q () s' := by
  unfold freeMapOpen at h
  simp only [runs_bind, runs_modify] at h
  have hpos : 0 < s.size := hs.map.inside
  have hopen := openMap_inv hs.inodes hpos (fun s' hn => runs_stop hn) h
  have hready : MapReady s.openMap s.nextFile := .openMap hs.map hs.mapLength hs.bits
  simp only [openMap_eq, runs_bind] at hopen
  rw [runs_of_run (bitmapRead_run hready)] at hopen
  cases hsv : s.openMap.saved with
  | false =>
    rw [hsv] at hopen
    exact absurd hopen runs_stop
  | true =>
    rw [hsv] at hopen
    have hmoved : s.openMap.moved (byteCnt s.openMap.size) 0 = byteCnt s.openMap.size := by
      simpa [FileSys.saved] using hsv
    rw [hmoved, openMap_size, openMap_disk] at hopen
    let m := bitmapSetMultiple (fun k =>
      if k / 8 < byteCnt s.size then mapBit s.disk k else s.openMap.freeMap k) s.size
      (8 * byteCnt s.size - s.size) false
    let t := (s.openMap.bounced (byteCnt s.size) 0).setMap m
    have hq : Q () t := runs_pure.mp hopen
    have hok := hs.ok.bounced (byteCnt s.size) 0
    have hsame := SameDisk.bounced s.openMap (byteCnt s.size) 0
    have hk := FsKeeps.bounced s.openMap (byteCnt s.size) 0
    have hsize : t.size = s.size := hk.size
    have hbits := hs.bits
    -- the bits below `size` are those of the file; the mask is above
    have hbit : ∀ k < s.size, m k = mapBit s.disk k := fun k hlt => by
      have hout : ¬(s.size ≤ k ∧ k < s.size + (8 * byteCnt s.size - s.size)) := by omega
      exact (if_neg hout).trans (if_pos (by omega))
    refine ⟨t, hok.setMap fun σ k hσ hown hm => ?_, hsize, fun ha => ⟨?_, fun k hlt => ?_⟩, hq⟩
    · have hplaced := hok.sectors.placed σ hσ
      rw [hk.size, openMap_size] at hplaced
      have hlt : k < s.size := by
        rcases hown with rfl | hd
        · exact hplaced.inside
        · exact Nat.lt_of_lt_of_le hd.2 hplaced.extent
      rw [hbit k hlt, hs.synced k hlt]
      rw [hsame.freeMap, openMap_freeMap] at hm
      exact hm
    · refine hk.calm.allocs ?_
      show s.allocs.tail.tail = []
      rw [ha]
      rfl
    · rw [hsize] at hlt
      show mapBit (s.openMap.bounced (byteCnt s.size) 0).disk k = m k
      rw [hsame.disk, openMap_disk]
      exact (hbit k hlt).symm

/-- **After formatting, the file system is in order**, and the free map on the device is the one in
    memory. -/
theorem filesysInit_format {disk : ℕ → ℕ → UInt8} {heap : ℕ → Bool} {allocs : List Bool}
    (hsize : size < 2 ^ 32) (h : Runs (filesysInit true) (powerOn size disk heap allocs) Q) :
    ∃ s, FsOk s ∧ s.locked = false ∧ (allocs = [] → Steady s) ∧ Q () s := by
  unfold filesysInit at h
  simp only [runs_bind, runs_modify, if_true] at h
  obtain ⟨s₁, hs1, _, ha1, h⟩ := freeMapInit_inv (by exact hsize) rfl rfl rfl h
  obtain ⟨s₂, r, hs2, _, ha2, h⟩ := doFormat_inv hs1 h
  obtain ⟨s₃, hs3, _, hst, h⟩ := freeMapOpen_inv hs2 h
  refine ⟨_, hs3.setLocked false, rfl, fun ha => ?_, h⟩
  have hst3 := hst (ha2 (ha1 ha))
  exact ⟨hst3.granted, hst3.synced⟩

end Mount

end Pintos
