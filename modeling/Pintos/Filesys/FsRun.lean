/-
  Subject:   The functions of free-map.c and inode.c keep the invariant of the file system.

  One lemma for each function, `…_spec`: started where the invariant holds, the function RETURNS (so no
  assertion fails and no sector outside the device is touched), the invariant holds again, and what
  else a caller wants to know. When an allocation is refused the write of the free map can fail, so that
  the map on the device is the one in memory (`Steady`) is kept where none is refused.
-/
import Pintos.Filesys.FsInv

namespace Pintos

open Lib Function List Nat

/-! ## 1. The free map on the device -/

/-- The bit of sector `k` in the free map file. -/
def mapBit (disk : ℕ → ℕ → UInt8) (k : ℕ) : Bool :=
  (byteAt disk (inodeAt disk 0) (k / 8)).toNat.testBit (k % 8)

/-- No allocation is refused, and the free map on the device is the one in memory. -/
structure Steady (s : FileSys) : Prop where
  granted : s.allocs = []
  synced : ∀ k < s.size, mapBit s.disk k = s.freeMap k

theorem mapByte_testBit (m : ℕ → Bool) (k : ℕ) {i : ℕ} (hi : i < 8) :
    (mapByte m k).toNat.testBit i = m (8 * k + i) := by
  have hbits : ∀ b0 b1 b2 b3 b4 b5 b6 b7 : Bool, ∀ i : Fin 8,
      (UInt8.ofNat ([if b0 then 1 else 0, if b1 then 2 else 0, if b2 then 4 else 0,
        if b3 then 8 else 0, if b4 then 16 else 0, if b5 then 32 else 0, if b6 then 64 else 0,
        if b7 then 128 else 0].sum)).toNat.testBit i =
      [b0, b1, b2, b3, b4, b5, b6, b7][i] := by
    decide +kernel
  have hfin := hbits (m (8 * k + 0)) (m (8 * k + 1)) (m (8 * k + 2)) (m (8 * k + 3)) (m (8 * k + 4))
    (m (8 * k + 5)) (m (8 * k + 6)) (m (8 * k + 7)) ⟨i, hi⟩
  have hcases : i = 0 ∨ i = 1 ∨ i = 2 ∨ i = 3 ∨ i = 4 ∨ i = 5 ∨ i = 6 ∨ i = 7 := by omega
  rcases hcases with rfl | rfl | rfl | rfl | rfl | rfl | rfl | rfl <;> exact hfin

/-! ## 2. What is kept -/

/-- Where no allocation is refused there is none that is after it, and the free map on the device stays
    up to date. -/
structure Calm (s s' : FileSys) : Prop where
  allocs : s.allocs = [] → s'.allocs = []
  steady : Steady s → Steady s'

theorem Calm.refl (s : FileSys) : Calm s s := ⟨id, id⟩

variable {s'' s₀ s₁ s₂ : FileSys} {cnt h size x : ℕ} {m : ℕ → Bool} {disk : ℕ → ℕ → UInt8}
  {i : Inode} {len : Int}

theorem Calm.trans (h1 : Calm s₀ s₁) (h2 : Calm s₁ s₂) : Calm s₀ s₂ :=
  ⟨fun h => h2.allocs (h1.allocs h), fun h => h2.steady (h1.steady h)⟩

/-- **What the functions of free-map.c and inode.c never touch**: the size of the device, the lock, the
    files, the sector of an inode. And they keep the free map on the device up to date. -/
structure FsKeeps (s s' : FileSys) : Prop where
  size : s'.size = s.size
  locked : s'.locked = s.locked
  mapFile : s'.freeMapFile = s.freeMapFile
  file : s'.file = s.file
  openFiles : s'.openFiles = s.openFiles
  nextFile : s'.nextFile = s.nextFile
  next : s.nextInode ≤ s'.nextInode
  sector : ∀ h < s.nextInode, (s'.inode h).sector = (s.inode h).sector
  calm : Calm s s'

theorem FsKeeps.refl (s : FileSys) : FsKeeps s s :=
  ⟨rfl, rfl, rfl, rfl, rfl, rfl, Nat.le_refl _, fun _ _ => rfl, .refl s⟩

theorem FsKeeps.trans (h1 : FsKeeps s₀ s₁) (h2 : FsKeeps s₁ s₂) : FsKeeps s₀ s₂ where
  size := h2.size.trans h1.size
  locked := h2.locked.trans h1.locked
  mapFile := h2.mapFile.trans h1.mapFile
  file := h2.file.trans h1.file
  openFiles := h2.openFiles.trans h1.openFiles
  nextFile := h2.nextFile.trans h1.nextFile
  next := le_trans h1.next h2.next
  sector h hh := (h2.sector h (lt_of_lt_of_le hh h1.next)).trans (h1.sector h hh)
  calm := h1.calm.trans h2.calm

theorem FsKeeps.filesOn {s s' : FileSys} (hk : FsKeeps s s') (h : ℕ) : s'.filesOn h = s.filesOn h := by
  unfold FileSys.filesOn
  rw [hk.openFiles, hk.file]

/-- The device and the free map are as before. -/
structure SameDisk (s s' : FileSys) : Prop where
  disk : s'.disk = s.disk
  freeMap : s'.freeMap = s.freeMap

theorem SameDisk.trans (h1 : SameDisk s₀ s₁) (h2 : SameDisk s₁ s₂) : SameDisk s₀ s₂ :=
  ⟨h2.disk.trans h1.disk, h2.freeMap.trans h1.freeMap⟩

/-- Every allocation made on the way from `s` to `s'` was granted. -/
def Granted (s s' : FileSys) : Prop := ∃ n, s.allocs = List.replicate n true ++ s'.allocs

theorem Granted.refl (s : FileSys) : Granted s s := ⟨0, rfl⟩

theorem Granted.trans (h1 : Granted s₀ s₁) (h2 : Granted s₁ s₂) : Granted s₀ s₂ := by
  obtain ⟨m, hm⟩ := h1
  obtain ⟨n, hn⟩ := h2
  refine ⟨m + n, ?_⟩
  rw [hm, hn, replicate_add, append_assoc]

/-! ## 3. Allocations -/

section Alloc

variable {s : FileSys}

theorem FsOk.setAllocs (hs : FsOk s) (a : List Bool) : FsOk { s with allocs := a } where
  sectors := { hs.sectors with }
  dir := hs.dir
  heap := { hs.heap with }
  tie := { hs.tie with mapFile := hs.tie.mapFile.imp fun _ hf => { hf with } }

theorem Calm.pop (s : FileSys) : Calm s s.pop := by
  have htail : s.allocs = [] → s.allocs.tail = [] := fun ha => by rw [ha]; rfl
  exact ⟨htail, fun hs => ⟨htail hs.granted, hs.synced⟩⟩

theorem FsKeeps.pop (s : FileSys) : FsKeeps s s.pop :=
  ⟨rfl, rfl, rfl, rfl, rfl, rfl, Nat.le_refl _, fun _ _ => rfl, .pop s⟩

theorem Granted.pop (hg : s.granted = true) : Granted s s.pop := by
  unfold FileSys.granted at hg
  cases ha : s.allocs with
  | nil => exact ⟨0, by show s.allocs = s.allocs.tail; rw [ha]; rfl⟩
  | cons b l =>
    rw [ha] at hg
    have hb : b = true := hg
    exact ⟨1, by show s.allocs = [true] ++ s.allocs.tail; rw [ha, hb]; rfl⟩

theorem bounced_eq (s : FileSys) (n offset : ℕ) :
    s.bounced n offset = s ∨ s.bounced n offset = s.pop := by
  unfold FileSys.bounced
  split
  · exact .inr rfl
  · exact .inl rfl

theorem FsOk.bounced (hs : FsOk s) (n offset : ℕ) : FsOk (s.bounced n offset) := by
  rcases bounced_eq s n offset with h | h
  · rw [h]; exact hs
  · rw [h]; exact hs.setAllocs _

theorem FsKeeps.bounced (s : FileSys) (n offset : ℕ) : FsKeeps s (s.bounced n offset) := by
  rcases bounced_eq s n offset with h | h
  · rw [h]; exact FsKeeps.refl s
  · rw [h]; exact FsKeeps.pop s

theorem SameDisk.bounced (s : FileSys) (n offset : ℕ) : SameDisk s (s.bounced n offset) := by
  rcases bounced_eq s n offset with h | h <;> rw [h] <;> exact ⟨rfl, rfl⟩

end Alloc

/-! ## 4. The free map -/

namespace FileSys

/-- The state after `bitmap_write`. -/
def saveMap (s : FileSys) : FileSys :=
  (s.bounced (byteCnt s.size) 0).write (inodeAt s.disk 0) 0 (s.moved (byteCnt s.size) 0)
    (mapByte s.freeMap)

/-- `bitmap_write` writes all of the free map. -/
def saved (s : FileSys) : Bool := s.moved (byteCnt s.size) 0 == byteCnt s.size

end FileSys

section FreeMap

variable {s : FileSys}

theorem FsOk.map_writable (hs : FsOk s) {f : ℕ} (hf : MapFile s f) :
    (s.inode (s.file f).inode).denyWriteCnt = 0 := by
  rw [hs.heap.deny _ (hs.heap.files f hf.isOpen)]
  refine countP_eq_zero.mpr fun g hg => ?_
  simp only [decide_eq_true_eq, not_and]
  intro he
  have hsec : (s.inode (s.file g).inode).sector = 0 := by rw [he]; exact hf.sector
  have hgf : g = f := Option.some.inj (((hs.tie.ordinary g hg).2 hsec).symm.trans hf.isMap)
  rw [hgf, hf.writable]
  decide

/-- The free map file `f` can be written. -/
structure MapReady (s : FileSys) (f : ℕ) : Prop where
  isMap : s.freeMapFile = some f
  data : (s.inode (s.file f).inode).data = inodeAt s.disk 0
  sema : 0 < (s.inode (s.file f).inode).sema
  writable : (s.inode (s.file f).inode).denyWriteCnt = 0
  placed : Placed s.size (inodeAt s.disk 0) 0
  length : (inodeAt s.disk 0).length = byteCnt s.size
  bits : s.size ≤ 8 * byteCnt s.size

theorem FsOk.mapReady (hs : FsOk s) : ∃ f, MapReady s f := by
  obtain ⟨f, hf⟩ := hs.tie.mapFile
  have hh := hs.heap.files f hf.isOpen
  refine ⟨f, hf.isMap, ?_, ?_, hs.map_writable hf, hs.sectors.placed 0 live_map, hs.dir.map,
    hs.dir.bits⟩
  · rw [hs.tie.cached _ hh, hf.sector]
  · rw [hs.heap.sema _ hh]
    exact one_pos

theorem MapReady.setMap {f : ℕ} (hm : MapReady s f) (m : ℕ → Bool) : MapReady (s.setMap m) f :=
  { hm with }

section Ready

variable {f : ℕ}

theorem bitmapWrite_run (hm : MapReady s f) : (bitmapWrite f).run s = .ok (s.saved, s.saveMap) := by
  have hrun := inodeWriteAt_run (mapByte s.freeMap) (byteCnt s.size) 0 hm.data hm.placed.onDevice
    hm.sema hm.writable
  have hcount : count (inodeAt s.disk 0) (byteCnt s.size : Int).toNat 0 = byteCnt s.size := by
    unfold count
    rw [hm.length, Int.toNat_natCast, Nat.sub_zero, Nat.min_self]
  rw [hcount] at hrun
  apply Runs.run_eq
  unfold bitmapWrite
  simp only [runs_bind, runs_get]
  rw [runs_of_run hrun]
  simp only [runs_pure]
  exact ⟨rfl, rfl⟩

theorem MapReady.saveMap_disk (hm : MapReady s f) (hx : ¬ InData (inodeAt s.disk 0) x) :
    s.saveMap.disk x = s.disk x := by
  have hd := (SameDisk.bounced s (byteCnt s.size) 0).disk
  unfold FileSys.saveMap
  rw [write_other hm.placed.length (.inl ?_) hx, hd]
  rw [hm.length, zero_add]
  exact s.moved_le _ _

end Ready

theorem FsOk.saveMap (hs : FsOk s) : FsOk s.saveMap := by
  have hd := (SameDisk.bounced s (byteCnt s.size) 0).disk
  have hb := hs.bounced (byteCnt s.size) 0
  have hn : 0 + s.moved (byteCnt s.size) 0 ≤ (inodeAt s.disk 0).length := by
    rw [hs.dir.map, zero_add]
    exact s.moved_le _ _
  unfold FileSys.saveMap
  rw [← hd] at hn ⊢
  exact hb.writeData live_map (by decide) (.inl hn)

theorem saveMap_eq (s : FileSys) :
    s.saveMap = { s with disk := s.saveMap.disk, allocs := s.saveMap.allocs } := by
  unfold FileSys.saveMap
  rcases bounced_eq s (byteCnt s.size) 0 with h | h <;> rw [h] <;> rfl

theorem saveMap_size (s : FileSys) : s.saveMap.size = s.size := by rw [saveMap_eq]

theorem saveMap_freeMap (s : FileSys) : s.saveMap.freeMap = s.freeMap := by rw [saveMap_eq]

theorem saveMap_inodeAt {f : ℕ} (hm : MapReady s f) : inodeAt s.saveMap.disk 0 = inodeAt s.disk 0 := by
  unfold inodeAt
  rw [hm.saveMap_disk hm.placed.self]

theorem MapReady.saveMap {f : ℕ} (hm : MapReady s f) : MapReady s.saveMap f := by
  have hat := saveMap_inodeAt hm
  refine ⟨?_, ?_, ?_, ?_, ?_, ?_, ?_⟩
  · rw [saveMap_eq]
    exact hm.isMap
  · rw [hat, saveMap_eq]
    exact hm.data
  · rw [saveMap_eq]
    exact hm.sema
  · rw [saveMap_eq]
    exact hm.writable
  · rw [hat, saveMap_size]
    exact hm.placed
  · rw [hat, saveMap_size]
    exact hm.length
  · rw [saveMap_size]
    exact hm.bits

theorem saveMap_allocs (ha : s.allocs = []) : s.saveMap.allocs = [] := by
  show (s.bounced (byteCnt s.size) 0).allocs = []
  rcases bounced_eq s (byteCnt s.size) 0 with h | h
  · rw [h, ha]
  · rw [h]
    show s.allocs.tail = []
    rw [ha]
    rfl

theorem saved_of_granted (ha : s.allocs = []) : s.saved = true := by
  unfold FileSys.saved FileSys.moved FileSys.granted
  rw [ha]
  simp

theorem MapReady.saveMap_synced {f : ℕ} (hm : MapReady s f) (hsv : s.saved = true) {k : ℕ}
    (hk : k < s.size) : mapBit s.saveMap.disk k = s.freeMap k := by
  have hmoved : s.moved (byteCnt s.size) 0 = byteCnt s.size := by simpa [FileSys.saved] using hsv
  have hbits := hm.bits
  unfold mapBit
  rw [saveMap_inodeAt hm]
  show (byteAt (writeBytes _ _ _ _ _) _ _).toNat.testBit _ = s.freeMap k
  rw [byteAt_writeBytes, if_pos ⟨Nat.zero_le _, by rw [hmoved]; omega⟩, Nat.sub_zero,
    mapByte_testBit _ _ (mod_lt _ (by omega)), div_add_mod]

theorem MapReady.saveMap_steady {f : ℕ} (hm : MapReady s f) (ha : s.allocs = []) :
    Steady s.saveMap := by
  refine ⟨saveMap_allocs ha, fun k hk => ?_⟩
  rw [saveMap_size] at hk
  rw [saveMap_freeMap]
  exact hm.saveMap_synced (saved_of_granted ha) hk

theorem Calm.save {f : ℕ} (hm : MapReady s f) (m : ℕ → Bool) : Calm s (s.setMap m).saveMap :=
  ⟨fun ha => saveMap_allocs ha, fun hst => (hm.setMap m).saveMap_steady hst.granted⟩

/-- Only the device, the free map and the allocations to come have changed. -/
def OnlyDisk (s s' : FileSys) : Prop :=
  s' = { s with disk := s'.disk, freeMap := s'.freeMap, allocs := s'.allocs }

theorem OnlyDisk.refl (s : FileSys) : OnlyDisk s s := rfl

theorem OnlyDisk.trans (h1 : OnlyDisk s₀ s₁) (h2 : OnlyDisk s₁ s₂) : OnlyDisk s₀ s₂ := by
  unfold OnlyDisk at h1 h2 ⊢
  rw [h2, h1]

theorem OnlyDisk.keeps {s s' : FileSys} (h : OnlyDisk s s') (hc : Calm s s') : FsKeeps s s' := by
  refine ⟨?_, ?_, ?_, ?_, ?_, ?_, ?_, fun x hx => ?_, hc⟩ <;> rw [h]

theorem OnlyDisk.refs {s s' : FileSys} (h : OnlyDisk s s') : s'.refs = s.refs := by
  rw [h]
  rfl

/-- Outside the data of the free map the device has not changed. -/
def MapOnly (s s' : FileSys) : Prop := ∀ x, ¬ InData (inodeAt s.disk 0) x → s'.disk x = s.disk x

/-- **The live files are spared**: of the sectors that they own, only the data of the free map has
    changed. -/
def Spares (s s' : FileSys) : Prop :=
  ∀ σ x, s.Live σ → Owns s.disk σ x → ¬ InData (inodeAt s.disk 0) x → s'.disk x = s.disk x

theorem bitmapScan_some {k : ℕ} (h : bitmapScan size m cnt = some k) :
    k + cnt ≤ size ∧ ∀ x, k ≤ x → x < k + cnt → m x = false := by
  unfold bitmapScan at h
  split at h
  · rename_i hle
    have hmem := mem_of_find?_eq_some h
    have hp := List.find?_some h
    have hk : k < size - cnt + 1 := mem_range.mp hmem
    refine ⟨by omega, fun x hx hlt => ?_⟩
    have hnot : bitmapContains m k cnt true = false := by simpa using hp
    unfold bitmapContains at hnot
    have hx' := any_eq_false.mp hnot (x - k) (mem_range.mpr (by omega))
    rw [Nat.add_sub_cancel' hx] at hx'
    simpa using hx'
  · cases h

theorem bitmap_undo {k : ℕ} (h : ∀ x, k ≤ x → x < k + cnt → m x = false) :
    bitmapSetMultiple (bitmapSetMultiple m k cnt true) k cnt false = m := by
  funext x
  unfold bitmapSetMultiple
  split
  · rename_i hx
    exact (h x hx.1 hx.2).symm
  · rfl

theorem bitmap_undo_one {σ k : ℕ} (hσ : m σ = false) (hk : ¬(k ≤ σ ∧ σ < k + cnt)) :
    bitmapSetMultiple (bitmapSetMultiple (bitmapSetMultiple m σ 1 true) k cnt true) σ 1 false =
      bitmapSetMultiple m k cnt true := by
  funext x
  unfold bitmapSetMultiple
  by_cases hx : x = σ
  · subst hx
    rw [if_pos ⟨le_refl _, lt_succ_self _⟩, if_neg hk, hσ]
  · have hout : ¬(σ ≤ x ∧ x < σ + 1) := by omega
    rw [if_neg hout, if_neg hout]

/-- Sectors `k`, …, `k + cnt - 1` are taken and the free map is written back. -/
def FileSys.take (s : FileSys) (k cnt : ℕ) : FileSys :=
  (s.setMap (bitmapSetMultiple s.freeMap k cnt true)).saveMap

theorem freeMapAllocate_run {f : ℕ} (hm : MapReady s f) (cnt : ℕ) : (freeMapAllocate cnt).run s =
      match bitmapScan s.size s.freeMap cnt with
      | none => .ok (none, s)
      | some k => if s.saved then .ok (some k, s.take k cnt)
          else .ok (none, (s.take k cnt).setMap s.freeMap) := by
  cases hscan : bitmapScan s.size s.freeMap cnt with
  | none =>
    apply Runs.run_eq
    unfold freeMapAllocate
    simp [hscan]
  | some k =>
    have hrun := bitmapWrite_run (hm.setMap (bitmapSetMultiple s.freeMap k cnt true))
    have hundo := bitmap_undo (bitmapScan_some hscan).2
    have hmap : (s.take k cnt).freeMap = bitmapSetMultiple s.freeMap k cnt true := saveMap_freeMap _
    have hsaved : (s.setMap (bitmapSetMultiple s.freeMap k cnt true)).saved = s.saved := rfl
    rw [hsaved] at hrun
    simp only
    split
    · rename_i hsv
      apply Runs.run_eq
      unfold freeMapAllocate
      simp only [runs_bind, runs_get, hscan, runs_set, hm.isMap]
      rw [runs_of_run hrun, hsv]
      simp only [if_true, runs_pure]
      exact ⟨trivial, rfl⟩
    · rename_i hsv
      apply Runs.run_eq
      unfold freeMapAllocate
      simp only [runs_bind, runs_get, hscan, runs_set, hm.isMap]
      rw [runs_of_run hrun]
      simp only [hsv, if_false, runs_bind, runs_modify, runs_pure, Bool.false_eq_true]
      refine ⟨trivial, ?_⟩
      show (s.take k cnt).setMap (bitmapSetMultiple (s.take k cnt).freeMap k cnt false) = _
      rw [hmap, hundo]

theorem OnlyDisk.save (s : FileSys) (m : ℕ → Bool) : OnlyDisk s (s.setMap m).saveMap := by
  unfold OnlyDisk
  rw [saveMap_eq]
  rfl

theorem FsOk.root_not_map (hs : FsOk s) : ¬ InData (inodeAt s.disk 0) (inodeAt s.disk 1).start := by
  intro hin
  have hsame : (0 : ℕ) = 1 :=
    hs.sectors.owners.apart 0 1 _ live_map live_root (.inr hin) (.inr hs.dir.rootData)
  cases hsame

theorem FsOk.setDisk_map (hs : FsOk s)
    (hd : ∀ x, ¬ InData (inodeAt s.disk 0) x → disk x = s.disk x) : FsOk { s with disk := disk } :=
  hs.setDisk (fun σ hσ => hd σ (hs.sectors.notData live_map hσ)) (hd _ hs.root_not_map)

/-- **`free_map_allocate`**: it fails if there is no room or the free map cannot be written; otherwise
    the sectors it gives were free. -/
theorem freeMapAllocate_spec (hs : FsOk s) (cnt : ℕ) :
    Runs (freeMapAllocate cnt) s fun r s' => FsOk s' ∧ OnlyDisk s s' ∧ Calm s s' ∧
      MapOnly s s' ∧ match r with
      | none => s'.freeMap = s.freeMap ∧
          (s.allocs = [] → bitmapScan s.size s.freeMap cnt = none)
      | some k => bitmapScan s.size s.freeMap cnt = some k ∧
          s'.freeMap = bitmapSetMultiple s.freeMap k cnt true := by
  obtain ⟨f, hready⟩ := hs.mapReady
  have hrun := freeMapAllocate_run hready cnt
  cases hscan : bitmapScan s.size s.freeMap cnt with
  | none =>
    rw [hscan] at hrun
    rw [runs_of_run hrun]
    exact ⟨hs, .refl s, .refl s, fun _ _ => rfl, rfl, fun _ => rfl⟩
  | some k =>
    rw [hscan] at hrun
    have hm : FsOk (s.setMap (bitmapSetMultiple s.freeMap k cnt true)) := hs.mark k cnt
    have htake : FsOk (s.take k cnt) := hm.saveMap
    have hmap : (s.take k cnt).freeMap = bitmapSetMultiple s.freeMap k cnt true := saveMap_freeMap _
    have honly : OnlyDisk s (s.take k cnt) := OnlyDisk.save s _
    have hdisk : MapOnly s (s.take k cnt) := fun x hx => (hready.setMap _).saveMap_disk hx
    have hcalm : Calm s (s.take k cnt) := Calm.save hready _
    have hallocs : s.allocs = [] → s.saved = true := saved_of_granted
    simp only at hrun
    split at hrun
    · rw [runs_of_run hrun]
      exact ⟨htake, honly, hcalm, hdisk, rfl, hmap⟩
    · rename_i hsv
      rw [runs_of_run hrun]
      have heq : (s.take k cnt).setMap s.freeMap =
          { s with disk := (s.take k cnt).disk, allocs := (s.take k cnt).allocs } := by
        unfold OnlyDisk at honly
        rw [honly]
        rfl
      rw [heq]
      exact ⟨(hs.setDisk_map hdisk).setAllocs _, rfl,
        ⟨hcalm.allocs, fun hst => absurd (hallocs hst.granted) hsv⟩, hdisk, rfl,
        fun ha => absurd (hallocs ha) hsv⟩

theorem freeMapRelease_run {f : ℕ} (hm : MapReady s f) {k : ℕ} (hin : k + cnt ≤ s.size)
    (hset : ∀ x, k ≤ x → x < k + cnt → s.freeMap x = true) : (freeMapRelease k cnt).run s =
      .ok ((), (s.setMap (bitmapSetMultiple s.freeMap k cnt false)).saveMap) := by
  have hall : bitmapContains s.freeMap k cnt false = false := by
    unfold bitmapContains
    refine any_eq_false.mpr fun i hi => ?_
    have hlt := mem_range.mp hi
    rw [hset (k + i) (by omega) (by omega)]
    decide
  apply Runs.run_eq
  unfold freeMapRelease
  simp only [runs_bind, runs_get, assert, hall, runs_ite, runs_set, runs_pure, hm.isMap]
  rw [if_pos (by simpa using ⟨le_trans (le_add_right k cnt) hin, hin⟩), if_pos (by decide),
    runs_of_run (bitmapWrite_run (hm.setMap _))]
  exact ⟨trivial, rfl⟩

/-- **`free_map_release`** of marked sectors that no live file owns. -/
theorem freeMapRelease_spec (hs : FsOk s) {k : ℕ} (hin : k + cnt ≤ s.size)
    (hset : ∀ x, k ≤ x → x < k + cnt → s.freeMap x = true)
    (hno : ∀ σ x, s.Live σ → k ≤ x → x < k + cnt → ¬ Owns s.disk σ x) :
    Runs (freeMapRelease k cnt) s fun _ s' => FsOk s' ∧ OnlyDisk s s' ∧ Calm s s' ∧
      MapOnly s s' ∧ s'.freeMap = bitmapSetMultiple s.freeMap k cnt false := by
  obtain ⟨f, hready⟩ := hs.mapReady
  have hm : FsOk (s.setMap (bitmapSetMultiple s.freeMap k cnt false)) := hs.clear hno
  rw [runs_of_run (freeMapRelease_run hready hin hset)]
  exact ⟨hm.saveMap, OnlyDisk.save s _, Calm.save hready _,
    fun x hx => (hready.setMap _).saveMap_disk hx, saveMap_freeMap _⟩

section Spares

variable {s' : FileSys}

theorem MapOnly.spares (h : MapOnly s s') : Spares s s' := fun _ x _ _ hx => h x hx

theorem Spares.of_same (h : SameDisk s s') : Spares s s' := fun _ _ _ _ _ => by rw [h.disk]

theorem Spares.inodeAt (hs : FsOk s) (hm : Spares s s') {σ : ℕ} (hσ : s.Live σ) :
    inodeAt s'.disk σ = inodeAt s.disk σ := by
  unfold Pintos.inodeAt
  rw [hm σ σ hσ (.inl rfl) (hs.sectors.notData live_map hσ)]

theorem Spares.entry (hs : FsOk s) (hm : Spares s s') : entry s'.disk = entry s.disk := by
  funext i
  unfold Pintos.entry
  rw [hm.inodeAt hs live_root, hm 1 _ live_root (.inr hs.dir.rootData) hs.root_not_map]

theorem Spares.live (hs : FsOk s) (hm : Spares s s') (ho : OnlyDisk s s') : s'.Live = s.Live := by
  have hentry := hm.entry hs
  have hopen : s'.openInodes = s.openInodes := by rw [ho]
  have hinode : s'.inode = s.inode := by rw [ho]
  unfold FileSys.Live FileSys.Opened Named
  rw [hentry, hopen, hinode]

theorem Spares.owns (hs : FsOk s) (hm : Spares s s') {σ : ℕ} (hσ : s.Live σ) :
    Owns s'.disk σ x ↔ Owns s.disk σ x := by
  unfold Owns
  rw [hm.inodeAt hs hσ]

theorem Spares.trans (hs : FsOk s) (h1 : Spares s s') (hl : ∀ σ, s.Live σ → s'.Live σ)
    (h2 : Spares s' s'') : Spares s s'' := by
  intro σ x hσ hx hno
  have hno' : ¬ InData (Pintos.inodeAt s'.disk 0) x := by
    rw [h1.inodeAt hs live_map]
    exact hno
  exact (h2 σ x (hl σ hσ) ((h1.owns hs hσ).mpr hx) hno').trans (h1 σ x hσ hx hno)

theorem Spares.trans_disk (hs : FsOk s) (h1 : Spares s s') (ho : OnlyDisk s s')
    (h2 : Spares s' s'') : Spares s s'' :=
  h1.trans hs (fun σ hσ => by rw [h1.live hs ho]; exact hσ) h2

theorem MapOnly.trans (hs : FsOk s) (h1 : MapOnly s s') (h2 : MapOnly s' s'') : MapOnly s s'' := by
  intro x hx
  refine (h2 x ?_).trans (h1 x hx)
  rw [h1.spares.inodeAt hs live_map]
  exact hx

end Spares

end FreeMap

/-! ## 5. Opening and closing inodes -/

section OpenClose

variable {s : FileSys}

/-- One reference more to `h`. -/
def bump (r : ℕ → ℕ) (h : ℕ) : ℕ → ℕ := update r h (r h + 1)

/-- One reference less. -/
def unbump (r : ℕ → ℕ) (h : ℕ) : ℕ → ℕ := update r h (r h - 1)

@[simp]
theorem unbump_bump (r : ℕ → ℕ) (h : ℕ) : unbump (bump r h) h = r := by
  unfold unbump bump
  rw [update_self, Nat.add_sub_cancel, update_idem, update_eq_self]

theorem unbump_bump_bump (r : ℕ → ℕ) (h x : ℕ) : unbump (bump (bump r h) x) h = bump r x := by
  funext y
  unfold unbump bump
  by_cases hx : x = h
  · subst hx
    simp
  · by_cases hy : y = h
    · subst hy
      simp [Ne.symm hx]
    · rw [update_of_ne hy, update_of_ne hx]
      by_cases hyx : y = x
      · subst hyx
        simp
      · simp [hyx, hy]

theorem le_bump (r : ℕ → ℕ) (h x : ℕ) : r x ≤ bump r h x := by
  unfold bump
  by_cases hx : x = h
  · subst hx
    rw [update_self]
    exact le_succ _
  · rw [update_of_ne hx]

theorem refs_of_mem (hh : h ∈ s.openInodes) : s.refs h = (s.inode h).openCnt := if_pos hh

theorem mem_of_refs (hr : 0 < s.refs h) : h ∈ s.openInodes := by
  unfold FileSys.refs at hr
  split at hr
  · assumption
  · cases hr

theorem HeapOk.filesOn_le_refs (hs : HeapOk s) (h : ℕ) : s.filesOn h ≤ s.refs h := by
  by_cases hh : h ∈ s.openInodes
  · rw [refs_of_mem hh]
    exact hs.held h hh
  · have hzero : s.filesOn h = 0 := countP_eq_zero.mpr fun f hf => by
      rw [decide_eq_true_eq]
      exact fun he => hh (he ▸ hs.files f hf)
    rw [hzero]
    exact zero_le _

theorem refs_setInode (hh : h ∈ s.openInodes) (i : Inode) :
    (s.setInode h i).refs = update s.refs h i.openCnt := by
  funext x
  show (if x ∈ s.openInodes then (update s.inode h i x).openCnt else 0) = _
  by_cases hx : x = h
  · subst hx
    rw [if_pos hh, update_self, update_self]
  · rw [update_of_ne hx, update_of_ne hx]
    rfl

theorem refs_newInode (hs : HeapOk s) (σ : ℕ) : (s.newInode σ).refs = bump s.refs s.nextInode := by
  have hnext : s.nextInode ∉ s.openInodes := fun hm => lt_irrefl _ (hs.fresh _ hm)
  have hzero : s.refs s.nextInode = 0 := if_neg hnext
  funext x
  unfold bump
  show (if x ∈ s.nextInode :: s.openInodes then ((s.newInode σ).inode x).openCnt else 0) = _
  by_cases hx : x = s.nextInode
  · subst hx
    rw [if_pos mem_cons_self, newInode_new, update_self, hzero]
  · rw [update_of_ne hx]
    by_cases hm : x ∈ s.openInodes
    · rw [if_pos (mem_cons_of_mem _ hm), newInode_old hs hm, refs_of_mem hm]
    · rw [if_neg (by simp [hx, hm])]
      exact (if_neg hm).symm

theorem refs_forget (hs : FsOk s) (i : Inode) (h1 : s.refs h = 1) :
    (s.forget h i).refs = unbump s.refs h := by
  funext x
  unfold unbump
  by_cases hx : x = h
  · subst hx
    rw [update_self, h1]
    exact if_neg fun hm => ((mem_forget hs).mp hm).1 rfl
  · rw [update_of_ne hx]
    have hsame : (s.forget h i).inode x = s.inode x := update_of_ne hx ..
    unfold FileSys.refs
    rw [hsame]
    by_cases hm : x ∈ s.openInodes
    · rw [if_pos ((mem_forget hs).mpr ⟨hx, hm⟩), if_pos hm]
    · rw [if_neg fun hm' => hm ((mem_forget hs).mp hm').2, if_neg hm]

theorem FsKeeps.setInode (hi : i.sector = (s.inode h).sector) : FsKeeps s (s.setInode h i) :=
  ⟨rfl, rfl, rfl, rfl, rfl, rfl, Nat.le_refl _, fun x _ => setInode_sector s hi x,
    id, fun hst => ⟨hst.granted, hst.synced⟩⟩

theorem inodeOpen_found {σ : ℕ}
    (hf : (s.openInodes.find? fun h => (s.inode h).sector == σ) = some h) : (inodeOpen σ).run s =
      .ok (some h, s.setInode h { s.inode h with openCnt := (s.inode h).openCnt + 1 }) := by
  apply Runs.run_eq
  unfold inodeOpen inodeReopen
  simp [hf]

theorem inodeOpen_new {σ : ℕ} (hf : (s.openInodes.find? fun h => (s.inode h).sector == σ) = none)
    (hσ : σ < s.size) (hg : s.granted = true) :
    (inodeOpen σ).run s = .ok (some s.nextInode, s.pop.newInode σ) := by
  apply Runs.run_eq
  unfold inodeOpen
  simp only [runs_bind, runs_get, hf, runs_malloc, hg, if_true, runs_modify]
  rw [runs_blockRead (by exact hσ)]
  simp only [runs_pure]
  refine ⟨trivial, ?_⟩
  unfold FileSys.newInode FileSys.setInode
  simp only [update_self, update_idem]
  rfl

theorem inodeOpen_refused {σ : ℕ}
    (hf : (s.openInodes.find? fun h => (s.inode h).sector == σ) = none) (hg : s.granted = false) :
    (inodeOpen σ).run s = .ok (none, s.pop) := by
  apply Runs.run_eq
  unfold inodeOpen
  simp [hf, hg]

theorem inodeOpen_spec (hs : FsOk s) {σ : ℕ} (hσ : s.Live σ) :
    Runs (inodeOpen σ) s fun r s' => FsOk s' ∧ FsKeeps s s' ∧ SameDisk s s' ∧ match r with
      | none => s'.refs = s.refs ∧ s.allocs ≠ []
      | some h => h ∈ s'.openInodes ∧ (s'.inode h).sector = σ ∧ s'.refs = bump s.refs h ∧
          Granted s s' := by
  cases hf : s.openInodes.find? fun h => (s.inode h).sector == σ with
  | some h =>
    have hh : h ∈ s.openInodes := mem_of_find?_eq_some hf
    have hsec : (s.inode h).sector = σ := by simpa using List.find?_some hf
    rw [runs_of_run (inodeOpen_found hf)]
    refine ⟨hs.setInode rfl rfl rfl rfl (succ_pos _)
      (le_succ_of_le (hs.heap.held h hh)) fun hr => hs.tie.removed h hh hr, ?_, ⟨rfl, rfl⟩, hh,
      ?_, ?_, Granted.refl s⟩
    · exact FsKeeps.setInode (by rfl)
    · exact (setInode_sector s (by rfl) h).trans hsec
    · rw [refs_setInode hh]
      unfold bump
      rw [refs_of_mem hh]
  | none =>
    have hno : ¬ s.pop.Opened σ := by
      intro ho
      obtain ⟨h, hh, hsec⟩ := ho
      exact List.find?_eq_none.mp hf h hh (beq_iff_eq.mpr hsec)
    have hpop : FsOk s.pop := hs.setAllocs _
    cases hg : s.granted with
    | true =>
      rw [runs_of_run (inodeOpen_new hf (hs.sectors.placed σ hσ).inside hg)]
      refine ⟨hpop.newInode hσ hno, ?_, ⟨rfl, rfl⟩, mem_cons_self, ?_,
        refs_newInode hpop.heap σ, Granted.pop hg⟩
      · refine (FsKeeps.pop s).trans ⟨rfl, rfl, rfl, rfl, rfl, rfl, le_succ _,
          fun x hx => ?_, id, fun hst => ⟨hst.granted, hst.synced⟩⟩
        have hx' : (s.pop.newInode σ).inode x = s.pop.inode x :=
          update_of_ne (Nat.ne_of_lt hx) ..
        rw [hx']
      · exact congrArg Inode.sector (newInode_new s.pop σ)
    | false =>
      rw [runs_of_run (inodeOpen_refused hf hg)]
      refine ⟨hpop, FsKeeps.pop s, ⟨rfl, rfl⟩, rfl, fun ha => ?_⟩
      unfold FileSys.granted at hg
      rw [ha] at hg
      cases hg

/-- The inode with one reference less. -/
def Inode.less (i : Inode) : Inode := { i with openCnt := i.openCnt - 1 }

theorem inodeClose_more (hc : (s.inode h).openCnt ≠ 1) :
    (inodeClose (some h)).run s = .ok ((), s.setInode h (s.inode h).less) := by
  apply Runs.run_eq
  unfold inodeClose
  simp [hc, Inode.less]

theorem inodeClose_last {Q : Unit → FileSys → Prop} (hc : (s.inode h).openCnt = 1) :
    Runs (inodeClose (some h)) s Q ↔
      if (s.inode h).removed then
        Runs (freeMapRelease (s.inode h).sector 1) (s.forget h (s.inode h).less) fun _ s' =>
          Runs (freeMapRelease (s.inode h).data.start (bytesToSectors (s.inode h).data.length)) s' Q
      else Q () (s.forget h (s.inode h).less) := by
  unfold inodeClose
  simp only [runs_bind, runs_get, runs_set, runs_ite]
  rw [if_pos hc]
  simp only [runs_modify, runs_pure]
  rfl

/-- A file without a name whose last reference is gone is not live any more. -/
theorem forget_unowned (hs : FsOk s) (hh : h ∈ s.openInodes) (hr : (s.inode h).removed = true)
    {σ : ℕ} (hσ : (s.forget h i).Live σ) (hx : Owns s.disk (s.inode h).sector x) :
    ¬ Owns s.disk σ x := by
  intro hx'
  obtain ⟨h0, h1, hn⟩ := hs.tie.removed h hh hr
  have hσs : s.Live σ := by
    rcases live_forget hs hσ with h0 | h1 | ⟨y, hy, _, rfl⟩ | hn
    · exact .inl h0
    · exact .inr (.inl h1)
    · exact live_opened hy
    · exact .inr (.inr (.inr hn))
  have hsame : σ = (s.inode h).sector :=
    hs.sectors.owners.apart σ _ x hσs (live_opened hh) hx' hx
  subst hsame
  rcases live_forget hs hσ with h0' | h1' | ⟨y, hy, hne, hsec⟩ | hn'
  · exact h0 h0'
  · exact h1 h1'
  · exact hne (hs.heap.single y hy h hh hsec)
  · exact hn hn'

/-- What closing an inode does to the device: the free map file is written, and sectors become free. -/
structure Releases (s s' : FileSys) : Prop where
  disk : MapOnly s s'
  freeMap : ∀ k, s'.freeMap k = true → s.freeMap k = true

theorem Releases.of_same {s' : FileSys} (h : SameDisk s s') : Releases s s' :=
  ⟨fun x _ => by rw [h.disk], fun k hk => by rwa [h.freeMap] at hk⟩

/-- The last reference to a removed file is closed and its sectors are given back. -/
theorem releaseFile_spec (hs : FsOk s) (hh : h ∈ s.openInodes) (hr : (s.inode h).removed = true)
    (h0 : s.filesOn h = 0) (i : Inode) :
    Runs (freeMapRelease (s.inode h).sector 1) (s.forget h i) fun _ s' =>
      Runs (freeMapRelease (s.inode h).data.start (bytesToSectors (s.inode h).data.length)) s'
        fun _ s'' => FsOk s'' ∧ OnlyDisk (s.forget h i) s'' ∧
          Calm (s.forget h i) s'' ∧ Releases (s.forget h i) s'' := by
  have hplaced := hs.sectors.placed _ (live_opened hh)
  have hmarked : ∀ x, Owns s.disk (s.inode h).sector x → s.freeMap x = true :=
    fun x hx => hs.sectors.owners.marked _ x (live_opened hh) hx
  have hf : FsOk (s.forget h i) := hs.forget i h0
  have hone : ∀ x, (s.inode h).sector ≤ x → x < (s.inode h).sector + 1 →
      Owns s.disk (s.inode h).sector x := fun x h1 h2 => .inl (by omega)
  refine (freeMapRelease_spec hf hplaced.inside (fun x h1 h2 => hmarked x (hone x h1 h2))
    fun σ x hσ h1 h2 => forget_unowned hs hh hr hσ (hone x h1 h2)).mono fun _ s' hs' => ?_
  obtain ⟨hok, hod, hst, hmo, hmap⟩ := hs'
  rw [hs.tie.cached h hh]
  have hsize : s'.size = s.size := by rw [hod]; rfl
  have hdata : ∀ x, (inodeAt s.disk (s.inode h).sector).start ≤ x →
      x < (inodeAt s.disk (s.inode h).sector).start +
        bytesToSectors (inodeAt s.disk (s.inode h).sector).length →
      Owns s.disk (s.inode h).sector x := fun x h1 h2 => .inr ⟨h1, h2⟩
  refine (freeMapRelease_spec hok (by rw [hsize]; exact hplaced.extent) (fun x h1 h2 => ?_)
    fun σ x hσ h1 h2 => ?_).mono fun _ s'' hs'' => ?_
  · rw [hmap]
    unfold bitmapSetMultiple
    rw [if_neg fun hin => ?_]
    · exact hmarked x (hdata x h1 h2)
    · have hxs : x = (s.inode h).sector := by omega
      have hin : InData (inodeAt s.disk (s.inode h).sector) x := ⟨h1, h2⟩
      rw [hxs] at hin
      exact hplaced.self hin
  · rw [hmo.spares.live hf hod] at hσ
    rw [hmo.spares.owns hf hσ]
    exact forget_unowned hs hh hr hσ (hdata x h1 h2)
  · obtain ⟨hok', hod', hst', hmo', hmap'⟩ := hs''
    refine ⟨hok', hod.trans hod', hst.trans hst', hmo.trans hf hmo', fun k hk => ?_⟩
    rw [hmap', hmap] at hk
    unfold bitmapSetMultiple at hk
    split at hk
    · cases hk
    · split at hk
      · cases hk
      · exact hk

/-- **`inode_close`** of a reference that no file holds: the count goes down, and with the last
    reference a removed file gives its sectors back. -/
theorem inodeClose_spec (hs : FsOk s) (hroom : s.filesOn h < s.refs h) :
    Runs (inodeClose (some h)) s fun _ s' => FsOk s' ∧ FsKeeps s s' ∧ s'.refs = unbump s.refs h ∧
      Releases s s' ∧
      ((s.inode h).removed = false ∨ (s.inode h).openCnt ≠ 1 → SameDisk s s' ∧ s'.allocs = s.allocs) := by
  have hh : h ∈ s.openInodes := mem_of_refs (lt_of_le_of_lt (zero_le _) hroom)
  have hcnt := refs_of_mem hh
  by_cases hc : (s.inode h).openCnt = 1
  · have h0 : s.filesOn h = 0 := by omega
    have hf : FsOk (s.forget h (s.inode h).less) := hs.forget _ h0
    have hk : FsKeeps s (s.forget h (s.inode h).less) :=
      ⟨rfl, rfl, rfl, rfl, rfl, rfl, le_refl _, fun x _ => setInode_sector s (by rfl) x,
        id, fun hst => ⟨hst.granted, hst.synced⟩⟩
    have hr : (s.forget h (s.inode h).less).refs = unbump s.refs h :=
      refs_forget hs _ (hcnt.trans hc)
    rw [inodeClose_last hc]
    split
    · rename_i hrem
      refine (releaseFile_spec hs hh hrem h0 (s.inode h).less).mono fun _ s' hs' =>
        hs'.mono fun _ s'' hs'' => ?_
      obtain ⟨hok, hod, hst, hrel⟩ := hs''
      refine ⟨hok, hk.trans (hod.keeps hst), hod.refs.trans hr, ⟨hrel.disk, hrel.freeMap⟩, fun hno => ?_⟩
      rcases hno with hno | hno
      · rw [hno] at hrem
        cases hrem
      · exact absurd hc hno
    · exact ⟨hf, hk, hr, .of_same ⟨rfl, rfl⟩, fun _ => ⟨⟨rfl, rfl⟩, rfl⟩⟩
  · rw [runs_of_run (inodeClose_more hc)]
    refine ⟨hs.setInode (by rfl) (by rfl) (by rfl) (by rfl) ?_ ?_ fun hr => hs.tie.removed h hh hr,
      FsKeeps.setInode (by rfl), ?_, .of_same ⟨rfl, rfl⟩, fun _ => ⟨⟨rfl, rfl⟩, rfl⟩⟩
    · show 0 < (s.inode h).openCnt - 1
      omega
    · show s.filesOn h ≤ (s.inode h).openCnt - 1
      omega
    · rw [refs_setInode hh]
      unfold unbump
      rw [hcnt]
      rfl

end OpenClose

/-! ## 6. Creating inodes -/

section Create

variable {s : FileSys}

/-- Sectors `k`, …, `k + n - 1` are filled with zeros. -/
def FileSys.zero (s : FileSys) (k n : ℕ) : FileSys :=
  { s with disk := fun x j => if (k ≤ x ∧ x < k + n) ∧ j < 512 then 0 else s.disk x j }

theorem zero_disk {k n : ℕ} (hx : ¬(k ≤ x ∧ x < k + n)) : (s.zero k n).disk x = s.disk x := by
  funext j
  exact if_neg fun h => hx h.1

theorem zeroSectors_run {k n : ℕ} (h : k + n ≤ s.size) :
    (zeroSectors k n).run s = .ok ((), s.zero k n) := by
  induction n generalizing k s with
  | zero =>
    have hzero : s.zero k 0 = s := by
      unfold FileSys.zero
      have hdisk : (fun x j => if (k ≤ x ∧ x < k + 0) ∧ j < 512 then 0 else s.disk x j) = s.disk := by
        funext x j
        rw [if_neg (by omega)]
      rw [hdisk]
    rw [hzero]
    rfl
  | succ n ih =>
    apply Runs.run_eq
    unfold zeroSectors
    rw [runs_bind, runs_blockWrite (by omega)]
    have hrest := ih (s := s.setDisk k fun _ => 0) (k := k + 1) (by
      show k + 1 + n ≤ s.size
      omega)
    rw [runs_of_run hrest]
    refine ⟨rfl, ?_⟩
    unfold FileSys.zero FileSys.setDisk
    congr
    funext x j
    show (if (k + 1 ≤ x ∧ x < k + 1 + n) ∧ j < 512 then 0
      else if x = k ∧ j < 512 then 0 else s.disk x j) = _
    by_cases hj : (k ≤ x ∧ x < k + (n + 1)) ∧ j < 512
    · rw [if_pos hj]
      by_cases hx : x = k
      · rw [if_neg (by omega), if_pos ⟨hx, hj.2⟩]
      · rw [if_pos (by omega)]
    · rw [if_neg hj, if_neg (by omega), if_neg (by omega)]

/-- No live file owns sector `x`. -/
def Unowned (s : FileSys) (x : ℕ) : Prop := ∀ σ, s.Live σ → ¬ Owns s.disk σ x

theorem Unowned.spares {s' : FileSys} (hs : FsOk s) (hu : Unowned s x) (hm : Spares s s')
    (ho : OnlyDisk s s') : Unowned s' x := by
  intro σ hσ
  rw [hm.live hs ho] at hσ
  rw [hm.owns hs hσ]
  exact hu σ hσ

theorem FsOk.unowned_of_free (hs : FsOk s) (hx : s.freeMap x = false) : Unowned s x :=
  fun σ hσ => hs.sectors.owners.unowned hσ (by rw [hx]; exact Bool.false_ne_true)

theorem FsOk.setDisk_unowned (hs : FsOk s) (hd : ∀ x, ¬ Unowned s x → disk x = s.disk x) :
    FsOk { s with disk := disk } :=
  hs.setDisk (fun σ hσ => hd σ fun hu => hu σ hσ (.inl rfl))
    (hd _ fun hu => hu 1 live_root (.inr hs.dir.rootData))

theorem mapBit_congr {f : ℕ} (hm : MapReady s f) (hd : ∀ x, Owns s.disk 0 x → disk x = s.disk x)
    {k : ℕ} (hk : k < s.size) : mapBit disk k = mapBit s.disk k := by
  have hinode : inodeAt disk 0 = inodeAt s.disk 0 := by
    unfold inodeAt
    rw [hd 0 (.inl rfl)]
  have hbits := hm.bits
  have hsec : InData (inodeAt s.disk 0) ((inodeAt s.disk 0).start + k / 8 / 512) := by
    have hlt : k / 8 < (inodeAt s.disk 0).length := by
      rw [hm.length]
      omega
    exact ⟨Nat.le_add_right _ _, Nat.add_lt_add_left (sectors_of_bytes hm.placed.length hlt) _⟩
  unfold mapBit byteAt
  rw [hinode, hd _ (.inr hsec)]

theorem Steady.setDisk (hst : Steady s) (hs : FsOk s)
    (hd : ∀ x, Owns s.disk 0 x → disk x = s.disk x) : Steady { s with disk := disk } := by
  obtain ⟨f, hm⟩ := hs.mapReady
  exact ⟨hst.granted, fun k hk => (mapBit_congr hm hd hk).trans (hst.synced k hk)⟩

/-- The inode in `σ` and its data, `n` sectors from `k` on, are written. -/
def FileSys.layOut (s : FileSys) (σ k n : ℕ) (d : InodeDisk) : FileSys :=
  (s.setDisk σ (inodeDiskBytes d)).zero k n

section LayOut

variable {σ k n : ℕ} {d : InodeDisk}

theorem layOut_other (hx : x ≠ σ) (hk : ¬(k ≤ x ∧ x < k + n)) :
    (s.layOut σ k n d).disk x = s.disk x := by
  refine (zero_disk hk).trans ?_
  funext j
  exact if_neg fun h => hx h.1

theorem layOut_inodeAt (hσ : ¬(k ≤ σ ∧ σ < k + n)) (hs : d.start < 2 ^ 32) (hl : d.length < 2 ^ 32) :
    inodeAt (s.layOut σ k n d).disk σ = d := by
  unfold inodeAt FileSys.layOut
  rw [zero_disk hσ]
  exact inodeDiskOf_bytes hs hl fun j hj => if_pos ⟨rfl, hj⟩

theorem FsOk.layOut (hs : FsOk s) (hσ : Unowned s σ) (hk : ∀ x, k ≤ x → x < k + n → Unowned s x) :
    FsOk (s.layOut σ k n d) ∧ Spares s (s.layOut σ k n d) ∧
      Calm s (s.layOut σ k n d) := by
  have hd : ∀ x, ¬ Unowned s x → (s.layOut σ k n d).disk x = s.disk x := fun x hx =>
    layOut_other (fun he => hx (he ▸ hσ)) fun hin => hx (hk x hin.1 hin.2)
  exact ⟨hs.setDisk_unowned hd, fun τ x hτ hx _ => hd x fun hu => hu τ hτ hx,
    id, fun hst => hst.setDisk hs fun x hx => hd x fun hu => hu 0 live_map hx⟩

theorem NewFile.layOut (hs : FsOk s) (hσ : Unowned s σ) (hk : ∀ x, k ≤ x → x < k + n → Unowned s x)
    (hd : d.start = k) (hn : bytesToSectors d.length = n) (hl : d.length < 2 ^ 31)
    (hin : σ < s.size) (hext : k + n ≤ s.size) (hself : ¬(k ≤ σ ∧ σ < k + n))
    (hm : s.freeMap σ = true) (hmk : ∀ x, k ≤ x → x < k + n → s.freeMap x = true) :
    NewFile (s.layOut σ k n d) σ := by
  have hsize := hs.dir.sectors
  have hat : inodeAt (s.layOut σ k n d).disk σ = d := layOut_inodeAt hself (by omega) (by omega)
  have hdata : ∀ x, InData d x ↔ k ≤ x ∧ x < k + n := fun x => by
    unfold InData
    rw [hd, hn]
  have hown : ∀ x, Owns (s.layOut σ k n d).disk σ x → x = σ ∨ (k ≤ x ∧ x < k + n) := fun x hx => by
    unfold Owns at hx
    rwa [hat, hdata] at hx
  refine ⟨?_, fun x hx => ?_, fun τ x hτ hx hx' => ?_⟩
  · rw [hat]
    refine ⟨hin, ?_, fun h => hself ((hdata σ).mp h), hl⟩
    rw [hd, hn]
    exact hext
  · rcases hown x hx with rfl | hx
    · exact hm
    · exact hmk x hx.1 hx.2
  · have hsp := (hs.layOut (d := d) hσ hk).2.1
    rw [hsp.live hs (by rfl)] at hτ
    rw [hsp.owns hs hτ] at hx'
    rcases hown x hx with rfl | hx
    · exact hσ τ hτ hx'
    · exact hk x hx.1 hx.2 τ hτ hx'

end LayOut

/-- `inode_create`, by the outcomes of the allocation and of `free_map_allocate`. -/
theorem inodeCreate_refused {σ : ℕ} (h0 : 0 ≤ len) (hg : s.granted = false) :
    (inodeCreate σ len).run s = .ok (false, s.pop) := by
  apply Runs.run_eq
  unfold inodeCreate
  simp [hg, h0]

theorem inodeCreate_none {σ : ℕ} (h0 : 0 ≤ len) (hg : s.granted = true)
    (hrun : (freeMapAllocate (bytesToSectors len.toNat)).run s.pop = .ok (none, s₁)) :
    (inodeCreate σ len).run s = .ok (false, s₁) := by
  apply Runs.run_eq
  unfold inodeCreate
  simp only [runs_bind, runs_assert, runs_malloc, hg, if_true]
  rw [runs_of_run hrun]
  simp [h0]

theorem inodeCreate_some {σ k : ℕ} (h0 : 0 ≤ len) (hg : s.granted = true)
    (hrun : (freeMapAllocate (bytesToSectors len.toNat)).run s.pop = .ok (some k, s₁))
    (hin : σ < s₁.size) (hext : k + bytesToSectors len.toNat ≤ s₁.size) :
    (inodeCreate σ len).run s =
      .ok (true, s₁.layOut σ k (bytesToSectors len.toNat) ⟨k, len.toNat⟩) := by
  apply Runs.run_eq
  unfold inodeCreate
  simp only [runs_bind, runs_assert, runs_malloc, hg, if_true]
  rw [runs_of_run hrun]
  simp only [runs_bind]
  rw [runs_blockWrite hin, runs_of_run (zeroSectors_run (by exact hext)), runs_pure]
  exact ⟨decide_eq_true h0, rfl, rfl⟩

theorem inodeCreate_spec (hs : FsOk s) {σ : ℕ} (h0 : 0 ≤ len) (hlen : len < 2 ^ 31)
    (hin : σ < s.size) (hm : s.freeMap σ = true) (hσ : Unowned s σ) :
    Runs (inodeCreate σ len) s fun r s' => FsOk s' ∧ OnlyDisk s s' ∧ Calm s s' ∧
      Spares s s' ∧ match r with
      | false => s'.freeMap = s.freeMap ∧
          (s.allocs = [] → bitmapScan s.size s.freeMap (bytesToSectors len.toNat) = none)
      | true => NewFile s' σ ∧
          ∃ k, bitmapScan s.size s.freeMap (bytesToSectors len.toNat) = some k ∧
            s'.freeMap = bitmapSetMultiple s.freeMap k (bytesToSectors len.toNat) true := by
  have hpop : FsOk s.pop := hs.setAllocs _
  have hodp : OnlyDisk s s.pop := rfl
  have hstp : Calm s s.pop := .pop s
  cases hg : s.granted with
  | false =>
    rw [runs_of_run (inodeCreate_refused h0 hg)]
    refine ⟨hpop, hodp, hstp, .of_same ⟨rfl, rfl⟩, rfl, fun ha => ?_⟩
    unfold FileSys.granted at hg
    rw [ha] at hg
    cases hg
  | true =>
    obtain ⟨r, s₁, hrun, hok, hod, hst, hmo, hr⟩ :=
      freeMapAllocate_spec hpop (bytesToSectors len.toNat)
    have hsize : s₁.size = s.size := by rw [hod]; rfl
    have hun : ∀ x, Unowned s x → Unowned s₁ x := fun x hx => hx.spares hpop hmo.spares hod
    cases r with
    | none =>
      rw [runs_of_run (inodeCreate_none h0 hg hrun)]
      exact ⟨hok, hodp.trans hod, hstp.trans hst, hmo.spares, hr.1,
        fun ha => hr.2 (hstp.allocs ha)⟩
    | some k =>
      obtain ⟨hscan, hmap⟩ := hr
      obtain ⟨hext, hfree⟩ := bitmapScan_some hscan
      have hk : ∀ x, k ≤ x → x < k + bytesToSectors len.toNat → Unowned s₁ x :=
        fun x h1 h2 => hun x (hs.unowned_of_free (hfree x h1 h2))
      have hself : ¬(k ≤ σ ∧ σ < k + bytesToSectors len.toNat) := fun h => by
        have hf : s.freeMap σ = false := hfree σ h.1 h.2
        rw [hm] at hf
        cases hf
      have hmk : ∀ x, k ≤ x → x < k + bytesToSectors len.toNat → s₁.freeMap x = true :=
        fun x h1 h2 => by rw [hmap]; exact if_pos ⟨h1, h2⟩
      have hmσ : s₁.freeMap σ = true := by
        rw [hmap]
        exact (if_neg hself).trans hm
      have hlay := hok.layOut (d := ⟨k, len.toNat⟩) (hun σ hσ) hk
      have hsp : Spares s.pop (s₁.layOut σ k (bytesToSectors len.toNat) ⟨k, len.toNat⟩) :=
        hmo.spares.trans_disk hpop hod hlay.2.1
      rw [runs_of_run (inodeCreate_some h0 hg hrun (by rw [hsize]; exact hin)
        (by rw [hsize]; exact hext))]
      refine ⟨hlay.1, (hodp.trans hod).trans rfl, (hstp.trans hst).trans hlay.2.2, hsp, ?_, k,
        hscan, hmap⟩
      exact NewFile.layOut hok (hun σ hσ) hk rfl rfl (by show len.toNat < 2 ^ 31; omega)
        (by rw [hsize]; exact hin) (by rw [hsize]; exact hext) hself hmσ hmk

end Create

end Pintos
