/-
  Subject:   A directory is a map from names to sectors, with room for as many names as `dir_create`
             was asked for (directory.c).

  **`directory_refines_map`**: every sequence of calls, on a directory made by `dir_create` with a
  capacity whose size in bytes is a 32-bit number. `dir_create` multiplies without looking for overflow.
-/
import Pintos.Lib.Run
import Pintos.Filesys.DirWorld

namespace Pintos

open Lib List

/-! ## 1. The source -/

/-- `dir_create`. The product is one of unsigned words, and `inode_create` takes it for an `off_t`. -/
def dirCreate (sector entryCnt : ℕ) : FsM Bool :=
  inodeCreate sector (BitVec.ofNat 32 (entryCnt * 20)).toInt

/-! ## 2. A new directory -/

/-- **A mounted file system** in which sector `σ` has been allocated for an inode. -/
structure Mounted (f σ : ℕ) (s : FileSys) : Prop where
  granted : s.allocs = []
  map : MapReady s f
  mapSector : (s.inode (s.file f).inode).sector = 0
  mapOld : (s.file f).inode < s.nextInode
  mapMarked : ∀ k, Owns s.disk 0 k → s.freeMap k = true
  size : s.size < 2 ^ 32
  nodup : s.openInodes.Nodup
  counted : ∀ x ∈ s.openInodes, x < s.nextInode ∧ 0 < (s.inode x).openCnt
  inside : σ < s.size
  marked : s.freeMap σ = true
  unowned : ¬ Owns s.disk 0 σ
  closed : ∀ x ∈ s.openInodes, (s.inode x).sector ≠ σ

variable {s₁ s₂ : FileSys} {h length start x : ℕ}

section Create

variable {f σ c k : ℕ} {s : FileSys}

/-- The state after `dir_create`, with the data of the directory from sector `k` on. -/
def FileSys.withDir (s : FileSys) (σ c k : ℕ) : FileSys :=
  (s.take k (bytesToSectors (20 * c))).layOut σ k (bytesToSectors (20 * c)) ⟨k, 20 * c⟩

theorem withDir_eq (s : FileSys) (σ c k : ℕ) : s.withDir σ c k = { s with
      disk := (s.withDir σ c k).disk
      freeMap := bitmapSetMultiple s.freeMap k (bytesToSectors (20 * c)) true
      allocs := (s.withDir σ c k).allocs } := by
  unfold FileSys.withDir FileSys.layOut FileSys.take
  rw [saveMap_eq]
  rfl

theorem length_of_small (hc : c * 20 < 2 ^ 32) (h0 : 0 ≤ (BitVec.ofNat 32 (c * 20)).toInt) :
    (BitVec.ofNat 32 (c * 20)).toInt = (20 * c : ℕ) ∧ 20 * c < 2 ^ 31 := by
  rw [BitVec.toInt_eq_toNat_cond, BitVec.toNat_ofNat, Nat.mod_eq_of_lt hc] at h0 ⊢
  split at h0 <;> omega

theorem dirCreate_inv (hm : Mounted f σ s) (hc : c * 20 < 2 ^ 32)
    (hrun : (dirCreate σ c).run s = .ok (true, s₁)) : 20 * c < 2 ^ 31 ∧
      ∃ k, bitmapScan s.size s.freeMap (bytesToSectors (20 * c)) = some k ∧
        s₁ = s.withDir σ c k := by
  have hruns : Runs (dirCreate σ c) s fun _ _ => True := ⟨_, _, hrun, trivial⟩
  have h0 : 0 ≤ (BitVec.ofNat 32 (c * 20)).toInt := by
    unfold dirCreate inodeCreate at hruns
    rw [runs_bind, runs_assert] at hruns
    exact of_decide_eq_true hruns.1
  obtain ⟨hlen, hshort⟩ := length_of_small hc h0
  have hgranted : s.granted = true := by
    unfold FileSys.granted
    rw [hm.granted]
    rfl
  have halloc := freeMapAllocate_run hm.map (bytesToSectors (20 * c))
  rw [saved_of_granted hm.granted, ← pop_granted hm.granted] at halloc
  unfold dirCreate at hrun
  rw [hlen] at hrun
  refine ⟨hshort, ?_⟩
  cases hscan : bitmapScan s.size s.freeMap (bytesToSectors (20 * c)) with
  | none =>
    rw [pop_granted hm.granted, hscan] at halloc
    rw [inodeCreate_none (Int.natCast_nonneg _) hgranted (by
      rw [pop_granted hm.granted]; exact halloc)] at hrun
    cases hrun
  | some k =>
    have hin := (bitmapScan_some hscan).1
    have hsize : (s.take k (bytesToSectors (20 * c))).size = s.size := saveMap_size _
    rw [pop_granted hm.granted, hscan] at halloc
    rw [inodeCreate_some (Int.natCast_nonneg _) hgranted (by
      rw [pop_granted hm.granted]; exact halloc) (by rw [hsize]; exact hm.inside)
      (by rw [hsize]; exact hin)] at hrun
    cases hrun
    exact ⟨k, rfl, rfl⟩

theorem withDir_empty (s : FileSys) (σ k : ℕ) (hl : 20 * c < 2 ^ 31) :
    bindings (s.withDir σ c k).disk ⟨k, 20 * c⟩ c = [] := by
  refine flat_eq_nil fun i hi => binding_free ?_
  have hsec := sectors_of_bytes (k := 20 * i + 19) hl (by omega)
  have hzero : byteAt (s.withDir σ c k).disk ⟨k, 20 * c⟩ (20 * i + 19) = 0 := by
    unfold byteAt FileSys.withDir FileSys.layOut FileSys.zero
    exact if_pos ⟨⟨Nat.le_add_right _ _, Nat.add_lt_add_left hsec k⟩, Nat.mod_lt _ (by decide)⟩
  show (byteAt (s.withDir σ c k).disk ⟨k, 20 * c⟩ (20 * i + 19) != 0) = false
  rw [hzero]
  rfl

section Fresh

variable (hm : Mounted f σ s)

include hm

theorem Mounted.withDir_disk (hσ : x ≠ σ) (hx : ¬ InData (inodeAt s.disk 0) x)
    (hk : ¬(k ≤ x ∧ x < k + bytesToSectors (20 * c))) : (s.withDir σ c k).disk x = s.disk x :=
  (layOut_other hσ hk).trans
    ((hm.map.setMap (bitmapSetMultiple s.freeMap k (bytesToSectors (20 * c)) true)).saveMap_disk hx)

theorem Mounted.withDir_allocs : (s.withDir σ c k).allocs = [] :=
  saveMap_allocs (s := s.setMap _) hm.granted

variable (hscan : bitmapScan s.size s.freeMap (bytesToSectors (20 * c)) = some k)

include hscan

omit hm in
theorem notNew_of_marked (hx : s.freeMap x = true) :
    ¬(k ≤ x ∧ x < k + bytesToSectors (20 * c)) := by
  intro hin
  rw [(bitmapScan_some hscan).2 x hin.1 hin.2] at hx
  cases hx

theorem Mounted.withDir_map : inodeAt (s.withDir σ c k).disk 0 = inodeAt s.disk 0 := by
  unfold inodeAt
  rw [hm.withDir_disk (fun h0 => hm.unowned (.inl h0.symm)) hm.map.placed.self
    (notNew_of_marked hscan (hm.mapMarked 0 (.inl rfl)))]

theorem Mounted.withDir_inode (hl : 20 * c < 2 ^ 31) :
    inodeAt (s.withDir σ c k).disk σ = ⟨k, 20 * c⟩ := by
  have hin := (bitmapScan_some hscan).1
  have hsize := hm.size
  exact layOut_inodeAt (notNew_of_marked hscan hm.marked) (by show k < 2 ^ 32; omega)
    (by show 20 * c < 2 ^ 32; omega)

theorem Mounted.withDir_owners (hl : 20 * c < 2 ^ 31) :
    Owners (Kept σ []) (Owns (s.withDir σ c k).disk)
      fun x => bitmapSetMultiple s.freeMap k (bytesToSectors (20 * c)) true x = true := by
  have howns0 : ∀ x, Owns (s.withDir σ c k).disk 0 x → Owns s.disk 0 x := fun x hx => by
    unfold Owns at hx ⊢
    rwa [hm.withDir_map hscan] at hx
  have hownsσ : ∀ x, Owns (s.withDir σ c k).disk σ x → x = σ ∨
      (k ≤ x ∧ x < k + bytesToSectors (20 * c)) := fun x hx => by
    unfold Owns at hx
    rwa [hm.withDir_inode hscan hl] at hx
  have hapart : ∀ x, Owns (s.withDir σ c k).disk σ x → ¬ Owns (s.withDir σ c k).disk 0 x := by
    intro x hx h0
    have hmark := hm.mapMarked x (howns0 x h0)
    rcases hownsσ x hx with rfl | hx
    · exact hm.unowned (howns0 x h0)
    · exact notNew_of_marked hscan hmark hx
  have hmarked : ∀ x, s.freeMap x = true →
      bitmapSetMultiple s.freeMap k (bytesToSectors (20 * c)) true x = true := fun x hx => by
    unfold bitmapSetMultiple
    split
    · rfl
    · exact hx
  refine ⟨fun i j x hi hj hix hjx => ?_, fun i x hi hix => ?_⟩
  · rcases hi with rfl | rfl | ⟨_, hi⟩
    · rcases hj with rfl | rfl | ⟨_, hj⟩
      · rfl
      · exact absurd hix (hapart x hjx)
      · cases hj
    · rcases hj with rfl | rfl | ⟨_, hj⟩
      · exact absurd hjx (hapart x hix)
      · rfl
      · cases hj
    · cases hi
  · rcases hi with rfl | rfl | ⟨_, hi⟩
    · exact hmarked x (hm.mapMarked x (howns0 x hix))
    · rcases hownsσ x hix with rfl | hx
      · exact hmarked x hm.marked
      · exact if_pos hx
    · cases hi

theorem Mounted.world (hl : 20 * c < 2 ^ 31) :
    DirWorld s.nextInode c f ((s.withDir σ c k).newInode σ) [] := by
  have hat0 := hm.withDir_map hscan
  have hatσ := hm.withDir_inode hscan hl
  have heq := withDir_eq s σ c k
  have hnext : (s.withDir σ c k).nextInode = s.nextInode := by rw [heq]
  have hself : ((s.withDir σ c k).newInode σ).inode s.nextInode =
      ⟨σ, 1, false, 0, ⟨k, 20 * c⟩, 1⟩ := by
    rw [← hatσ, ← hnext]
    exact newInode_new _ σ
  have hold : ∀ x, x < s.nextInode → ((s.withDir σ c k).newInode σ).inode x = s.inode x := by
    intro x hx
    have hsame : (s.withDir σ c k).inode x = s.inode x := by rw [heq]
    rw [← hsame]
    exact Function.update_of_ne (by rw [hnext]; exact Nat.ne_of_lt hx) ..
  have hsize : ((s.withDir σ c k).newInode σ).size = s.size := by
    show (s.withDir σ c k).size = s.size
    rw [heq]
  have hfile : ((s.withDir σ c k).newInode σ).file = s.file := by
    show (s.withDir σ c k).file = s.file
    rw [heq]
  have hopen : ((s.withDir σ c k).newInode σ).openInodes = s.nextInode :: s.openInodes := by
    show (s.withDir σ c k).nextInode :: (s.withDir σ c k).openInodes = _
    rw [heq]
  have hmapf : ((s.withDir σ c k).newInode σ).freeMapFile = s.freeMapFile := by
    show (s.withDir σ c k).freeMapFile = s.freeMapFile
    rw [heq]
  have hfm : ((s.withDir σ c k).newInode σ).freeMap =
      bitmapSetMultiple s.freeMap k (bytesToSectors (20 * c)) true := by
    show (s.withDir σ c k).freeMap = _
    rw [heq]
  have hdisk : ((s.withDir σ c k).newInode σ).disk = (s.withDir σ c k).disk := rfl
  have hnxt : ((s.withDir σ c k).newInode σ).nextInode = s.nextInode + 1 := by
    show (s.withDir σ c k).nextInode + 1 = _
    rw [hnext]
  have hplacedσ : Placed s.size ⟨k, 20 * c⟩ σ :=
    ⟨hm.inside, (bitmapScan_some hscan).1, notNew_of_marked hscan hm.marked, hl⟩
  exact {
    file := {
      granted := hm.withDir_allocs
      length := by rw [hself]
      onDevice := by
        rw [hself]
        intro j hj
        rw [hsize]
        exact hplacedσ.onDevice (s := s) j hj
      sema := by
        rw [hself]
        exact Nat.one_pos
      writable := by rw [hself] }
    map := {
      isMap := hmapf.trans hm.map.isMap
      data := by
        rw [hfile, hold _ hm.mapOld, hdisk, hat0]
        exact hm.map.data
      sema := by
        rw [hfile, hold _ hm.mapOld]
        exact hm.map.sema
      writable := by
        rw [hfile, hold _ hm.mapOld]
        exact hm.map.writable
      placed := by
        rw [hsize, hdisk, hat0]
        exact hm.map.placed
      length := by
        rw [hsize, hdisk, hat0]
        exact hm.map.length
      bits := by
        rw [hsize]
        exact hm.map.bits }
    mapSector := by
      rw [hfile, hold _ hm.mapOld]
      exact hm.mapSector
    mapOld := by
      rw [hfile, hnxt]
      exact Nat.lt_succ_of_lt hm.mapOld
    size := by
      rw [hsize]
      exact hm.size
    data := by
      rw [hself, hdisk]
      exact hatσ.symm
    old := by
      rw [hnxt]
      exact Nat.lt_succ_self _
    nodup := by
      rw [hopen]
      exact nodup_cons.mpr ⟨fun hmem => Nat.lt_irrefl _ (hm.counted _ hmem).1, hm.nodup⟩
    counted := by
      rw [hopen, hnxt]
      intro x hx
      rcases mem_cons.mp hx with rfl | hx
      · rw [hself]
        exact ⟨Nat.lt_succ_self _, Nat.one_pos⟩
      · rw [hold x (hm.counted x hx).1]
        exact ⟨Nat.lt_succ_of_lt (hm.counted x hx).1, (hm.counted x hx).2⟩
    owners := by
      rw [hself, hdisk, hfm]
      exact hm.withDir_owners hscan hl
    placed := by
      rw [hself, hdisk, hsize]
      intro τ hτ
      rcases hτ with rfl | rfl | ⟨_, hτ⟩
      · rw [hat0]
        exact hm.map.placed
      · rw [hatσ]
        exact hplacedσ
      · cases hτ
    once := by
      rw [hself]
      have hσ0 : σ ≠ 0 := fun h0 => hm.unowned (.inl h0)
      exact nodup_cons.mpr ⟨fun hmem => hσ0 (mem_singleton.mp hmem).symm, nodup_singleton σ⟩
    names := ⟨nodup_nil, fun x hx => absurd hx not_mem_nil⟩
    used := by rw [hself, hdisk, withDir_empty s σ k hl] }

omit hscan in
theorem Mounted.openDir : (inodeOpen σ >>= dirOpen).run (s.withDir σ c k) =
    .ok (some s.nextInode, (s.withDir σ c k).newInode σ) := by
  have heq := withDir_eq s σ c k
  have hnext : (s.withDir σ c k).nextInode = s.nextInode := by rw [heq]
  have hallocs : (s.withDir σ c k).allocs = [] := hm.withDir_allocs
  have hclosed : ((s.withDir σ c k).openInodes.find? fun x =>
      ((s.withDir σ c k).inode x).sector == σ) = none := by
    rw [heq]
    exact List.find?_eq_none.mpr fun x hx he => hm.closed x hx (by simpa using he)
  have hgr : (s.withDir σ c k).granted = true := by
    unfold FileSys.granted
    rw [hallocs]
    rfl
  have hrun := inodeOpen_new hclosed (by rw [heq]; exact hm.inside) hgr
  rw [pop_granted hallocs, hnext] at hrun
  rw [Prog.run_bind_ok hrun]
  apply Runs.run_eq
  unfold dirOpen
  have hgr' : ((s.withDir σ c k).newInode σ).granted = true := hgr
  simp only [runs_bind, runs_malloc, hgr', runs_pure]
  exact ⟨trivial, pop_granted hallocs⟩

end Fresh

end Create

/-! ## 3. Sequences of calls -/

structure DirRun where
  fs : FileSys
  /-- `pos` of the `struct dir`. -/
  pos : ℕ
  /-- What the calls that returned true have added and not removed. -/
  map : NameMap

inductive DirOp where
  | add (name : CString) (sector : ℕ)
  | remove (name : CString)
  | lookup (name : CString)
  | readdir

/-- One call, if it returns. -/
def dirOp (h : ℕ) (r : DirRun) : DirOp → Option DirRun
  | .add name σ => match (dirAdd h name σ).run r.fs with
      | .ok (b, fs) => some ⟨fs, r.pos, if b then (name.val, σ) :: r.map else r.map⟩
      | .error _ => none
  | .remove name => match (dirRemove h name).run r.fs with
      | .ok (b, fs) => some ⟨fs, r.pos, if b then r.map.without name.val else r.map⟩
      | .error _ => none
  | .lookup name => match (dirLookup h name).run r.fs with
      | .ok (_, fs) => some ⟨fs, r.pos, r.map⟩
      | .error _ => none
  | .readdir => match (dirReaddir h r.pos).run r.fs with
      | .ok ((_, pos), fs) => some ⟨fs, pos, r.map⟩
      | .error _ => none

/-- Only allocated inodes are added. -/
def DirOpOk (h : ℕ) (r : DirRun) : DirOp → Prop
  | .add _ σ => NewInode h r.fs r.map σ
  | _ => True

/-- **The directory is the map.** -/
structure DirIsMap (h c : ℕ) (r : DirRun) : Prop where
  /-- The entries in use are the pairs of the map. -/
  used : (bindings r.fs.disk (r.fs.inode h).data c).Perm r.map
  names : r.map.Ok
  add : ∀ (name : CString) (σ : ℕ), NewInode h r.fs r.map σ → ∃ b s',
    (dirAdd h name σ).run r.fs = .ok (b, s') ∧
    (b = true ↔ ValidName name ∧ name.val ∉ r.map.map Prod.fst ∧ r.map.length < c) ∧
    (bindings s'.disk (s'.inode h).data c).Perm (if b then (name.val, σ) :: r.map else r.map)
  remove : ∀ name : CString, ∃ b s', (dirRemove h name).run r.fs = .ok (b, s') ∧
    (b = true ↔ name.val ∈ r.map.map Prod.fst) ∧
    (bindings s'.disk (s'.inode h).data c).Perm (r.map.without name.val)
  lookup : ∀ name : CString, ∃ o s', (dirLookup h name).run r.fs = .ok (o, s') ∧
    (o.isSome = true ↔ name.val ∈ r.map.map Prod.fst) ∧
    (∀ x, o = some x → (name.val, (s'.inode x).sector) ∈ r.map) ∧
    (bindings s'.disk (s'.inode h).data c).Perm r.map
  readdir : ∃ names, (readdirPass h (c + 1) 0).run r.fs = .ok (names, r.fs) ∧
    names.Perm (r.map.map Prod.fst)

theorem NameMap.without_absent {l : NameMap} {name : List UInt8} (h : name ∉ l.map Prod.fst) :
    l.without name = l :=
  filter_eq_self.mpr fun x hx =>
    decide_eq_true fun he => h (mem_map.mpr ⟨x, hx, he⟩)

variable {r r' : DirRun}

variable {c f : ℕ}

theorem DirWorld.isMap (hw : DirWorld h c f r.fs r.map) : DirIsMap h c r where
  used := hw.used
  names := hw.names
  add name σ hnew := by
    obtain ⟨b, s', hrun, hb, hw'⟩ := hw.dirAdd name hnew
    exact ⟨b, s', hrun, hb, hw'.used⟩
  remove name := by
    obtain ⟨b, s', hrun, hb, hw'⟩ := hw.dirRemove name
    refine ⟨b, s', hrun, hb, ?_⟩
    cases b with
    | true => exact hw'.used
    | false =>
      rw [NameMap.without_absent fun hmem => Bool.false_ne_true (hb.mpr hmem)]
      exact hw'.used
  lookup name := by
    obtain ⟨o, s', hrun, hw', ho, hx⟩ := hw.dirLookup name
    exact ⟨o, s', hrun, ho, hx, hw'.used⟩
  readdir := hw.readdirPass

/-- One call keeps the invariant; `pos` stays at the beginning of an entry. -/
theorem dirOp_world {e : DirOp} (hw : DirWorld h c f r.fs r.map ∧ ∃ i ≤ c, r.pos = 20 * i)
    (hok : DirOpOk h r e) (hs : dirOp h r e = some r') :
    DirWorld h c f r'.fs r'.map ∧ ∃ i ≤ c, r'.pos = 20 * i := by
  obtain ⟨hw, i, hi, hpos⟩ := hw
  cases e with
  | add name σ =>
    obtain ⟨b, s', hrun, -, hw'⟩ := hw.dirAdd name hok
    simp only [dirOp, hrun] at hs
    cases hs
    exact ⟨hw', i, hi, hpos⟩
  | remove name =>
    obtain ⟨b, s', hrun, -, hw'⟩ := hw.dirRemove name
    simp only [dirOp, hrun] at hs
    cases hs
    exact ⟨hw', i, hi, hpos⟩
  | lookup name =>
    obtain ⟨o, s', hrun, hw', -⟩ := hw.dirLookup name
    simp only [dirOp, hrun] at hs
    cases hs
    exact ⟨hw', i, hi, hpos⟩
  | readdir =>
    have hrun := hw.file.readdir hi
    simp only [dirOp, hpos, hrun] at hs
    cases hfirst : firstFrom (fun j => (entryAt r.fs.disk (r.fs.inode h).data j).inUse) c i with
    | none =>
      rw [hfirst] at hs
      cases hs
      exact ⟨hw, c, Nat.le_refl c, rfl⟩
    | some j =>
      rw [hfirst] at hs
      cases hs
      exact ⟨hw, j + 1, (firstFrom_some hfirst).2.1, rfl⟩

/-- **A directory is a map with room for `c` names**, if the size of `c` entries is a 32-bit
    number. -/
theorem directory_refines_map {f σ c h : ℕ} {s₀ s₁ s₂ : FileSys} {r : DirRun} (hm : Mounted f σ s₀)
    (hc : c * 20 < 2 ^ 32) (hcreate : (dirCreate σ c).run s₀ = .ok (true, s₁))
    (hopen : (inodeOpen σ >>= dirOpen).run s₁ = .ok (some h, s₂))
    (hr : Reach (dirOp h) (DirOpOk h) ⟨s₂, 0, []⟩ r) : DirIsMap h c r := by
  obtain ⟨hl, k, hscan, rfl⟩ := dirCreate_inv hm hc hcreate
  rw [hm.openDir] at hopen
  cases hopen
  have hw : DirWorld s₀.nextInode c f r.fs r.map ∧ ∃ i ≤ c, r.pos = 20 * i :=
    hr.invariant (I := fun r => DirWorld s₀.nextInode c f r.fs r.map ∧ ∃ i ≤ c, r.pos = 20 * i)
      ⟨hm.world hscan hl, 0, Nat.zero_le c, rfl⟩
      fun r e r' hi hok hs => dirOp_world hi hok hs
  exact hw.1.isMap

/-- A device of 16 sectors: the free map file has its inode in sector 0 and its data in sector 2, a
    file lies in sectors 6 and 7, and sector 3 has been allocated for a directory. -/
def sixteen : FileSys :=
  { powerOn 16 (fun x => if x = 0 then inodeDiskBytes ⟨2, 4⟩ else
        if x = 6 then inodeDiskBytes ⟨7, 10⟩ else fun _ => 0)
      (fun k => decide (k ∈ [0, 2, 3, 6, 7])) [] with
    freeMapFile := some 0
    inode := fun _ => ⟨0, 1, false, 0, ⟨2, 4⟩, 1⟩
    openInodes := [0]
    nextInode := 1
    openFiles := [0]
    nextFile := 1 }

theorem sixteen_map : inodeAt sixteen.disk 0 = ⟨2, 4⟩ := by decide

theorem inData_one (h : bytesToSectors length = 1) (k : ℕ) :
    InData ⟨start, length⟩ k ↔ k = start := by
  unfold InData
  simp only [h]
  omega

theorem mounted_sixteen : Mounted 0 3 sixteen := by
  have hmap := sixteen_map
  have hdata : ∀ k, InData ⟨2, 4⟩ k ↔ k = 2 := inData_one rfl
  refine ⟨rfl, ⟨rfl, hmap.symm, by decide, rfl, ?_, ?_, by decide⟩, rfl, by decide, fun k hk => ?_,
    by decide, by decide, fun x hx => ?_, by decide, by decide, fun hk => ?_, fun x hx => ?_⟩
  · rw [hmap]
    exact ⟨by decide, by decide, fun h => absurd ((hdata 0).mp h) (by decide), by decide⟩
  · rw [hmap]
    decide
  · unfold Owns at hk
    rw [hmap, hdata] at hk
    rcases hk with rfl | rfl <;> decide
  · rw [mem_singleton.mp hx]
    decide
  · unfold Owns at hk
    rw [hmap, hdata] at hk
    omega
  · rw [mem_singleton.mp hx]
    decide

/-- The directory with room for `c` entries, made in sector 3 and opened: what `dir_create` returns, the
    directory, and the two states. -/
def madeDir (c : ℕ) : Option (Bool × Option ℕ × FileSys × FileSys) :=
  match (dirCreate 3 c).run sixteen with
  | .ok (b, s₁) => match (inodeOpen 3 >>= dirOpen).run s₁ with
      | .ok (h, s₂) => some (b, h, s₁, s₂)
      | .error _ => none
  | .error _ => none

theorem madeDir_run (hmade : madeDir c = some (true, some h, s₁, s₂)) :
    (dirCreate 3 c).run sixteen = .ok (true, s₁) ∧
      (inodeOpen 3 >>= dirOpen).run s₁ = .ok (some h, s₂) := by
  unfold madeDir at hmade
  split at hmade
  · rename_i b t hcreate
    split at hmade
    · rename_i h' t' hopen
      cases hmade
      exact ⟨hcreate, hopen⟩
    · cases hmade
  · cases hmade

/-- What the file in sector 6 owns belongs to neither the free map nor a directory of one sector. -/
theorem newInode_six (h0 : inodeAt s₂.disk 0 = ⟨2, 4⟩) (hdir : (s₂.inode 1).sector = 3)
    (h3 : inodeAt s₂.disk 3 = ⟨1, length⟩) (hone : bytesToSectors length = 1)
    (h6 : inodeAt s₂.disk 6 = ⟨7, 10⟩) (hsize : s₂.size = 16) (hm6 : s₂.freeMap 6 = true)
    (hm7 : s₂.freeMap 7 = true) : NewInode 1 s₂ [] 6 := by
  have hfour : bytesToSectors 4 = 1 := rfl
  have hten : bytesToSectors 10 = 1 := rfl
  have hown : ∀ k, Owns s₂.disk 6 k → k = 6 ∨ k = 7 := fun k hk => by
    unfold Owns at hk
    rwa [h6, inData_one hten] at hk
  refine ⟨?_, fun k hk => ?_, fun τ k hτ hk hk' => ?_⟩
  · rw [h6, hsize]
    refine ⟨by decide, by decide, fun hd => ?_, by decide⟩
    exact absurd hd.1 (by decide)
  · rcases hown k hk with rfl | rfl
    · exact hm6
    · exact hm7
  · have hk67 := hown k hk
    unfold Owns at hk'
    rw [hdir] at hτ
    rcases hτ with rfl | rfl | ⟨_, hτ⟩
    · rw [h0, inData_one hfour] at hk'
      omega
    · rw [h3, inData_one hone] at hk'
      omega
    · cases hτ

/-- A directory for two names: the file in sector 6 is added under the name `a` and removed again. -/
theorem directory_refines_map_two : Mounted 0 3 sixteen ∧ ∃ s₁ s₂ r₁ r₂,
    (dirCreate 3 2).run sixteen = .ok (true, s₁) ∧
    (inodeOpen 3 >>= dirOpen).run s₁ = .ok (some 1, s₂) ∧ NewInode 1 s₂ [] 6 ∧
    dirOp 1 ⟨s₂, 0, []⟩ (.add ⟨[97], by decide⟩ 6) = some r₁ ∧ r₁.map = [([97], 6)] ∧
    DirIsMap 1 2 r₁ ∧ dirOp 1 r₁ (.remove ⟨[97], by decide⟩) = some r₂ ∧ r₂.map = [] ∧
    DirIsMap 1 2 r₂ := by
  have hobs : (madeDir 2).map (fun x => (x.1, x.2.1)) = some (true, some 1) := by decide
  have hlayout : (madeDir 2).map (fun x => (inodeAt x.2.2.2.disk 0, (x.2.2.2.inode 1).sector,
      inodeAt x.2.2.2.disk 3, inodeAt x.2.2.2.disk 6)) = some (⟨2, 4⟩, 3, ⟨1, 40⟩, ⟨7, 10⟩) := by
    decide
  have hbits : (madeDir 2).map (fun x => (x.2.2.2.size, x.2.2.2.freeMap 6,
      x.2.2.2.freeMap 7)) = some (16, true, true) := by decide
  have hruns : ((madeDir 2).bind fun x => (dirOp 1 ⟨x.2.2.2, 0, []⟩ (.add ⟨[97], by decide⟩ 6)).bind
      fun r => (dirOp 1 r (.remove ⟨[97], by decide⟩)).map fun r' => (r.map, r'.map)) =
      some ([([97], 6)], []) := by decide +kernel
  obtain ⟨⟨b, h, s₁, s₂⟩, hmade, hx⟩ := Option.map_eq_some_iff.mp hobs
  rw [hmade] at hlayout hbits
  rw [hmade, Option.bind_some] at hruns
  simp only [Option.map_some, Option.some.injEq, Prod.mk.injEq] at hx hlayout hbits
  obtain ⟨rfl, rfl⟩ := hx
  obtain ⟨h0, hdir, h3, h6⟩ := hlayout
  obtain ⟨hsize, hm6, hm7⟩ := hbits
  obtain ⟨hcreate, hopen⟩ := madeDir_run hmade
  obtain ⟨r₁, hadd, hruns⟩ := Option.bind_eq_some_iff.mp hruns
  obtain ⟨r₂, hremove, hmaps⟩ := Option.map_eq_some_iff.mp hruns
  simp only [Prod.mk.injEq] at hmaps
  have hnew : NewInode 1 s₂ [] 6 := newInode_six h0 hdir h3 rfl h6 hsize hm6 hm7
  have hr₁ : Reach (dirOp 1) (DirOpOk 1) ⟨s₂, 0, []⟩ r₁ :=
    .step (.start _) (e := .add ⟨[97], by decide⟩ 6) hnew hadd
  have hr₂ : Reach (dirOp 1) (DirOpOk 1) ⟨s₂, 0, []⟩ r₂ :=
    .step hr₁ (e := .remove ⟨[97], by decide⟩) trivial hremove
  exact ⟨mounted_sixteen, s₁, s₂, r₁, r₂, hcreate, hopen, hnew, hadd, hmaps.1,
    directory_refines_map mounted_sixteen (by decide) hcreate hopen hr₁, hremove, hmaps.2,
    directory_refines_map mounted_sixteen (by decide) hcreate hopen hr₂⟩

/-- **A directory for 214748365 names takes none**: their size in bytes is 4 modulo `2 ^ 32`. -/
theorem directory_too_large : ∃ s₁ s₂ s₃, (dirCreate 3 214748365).run sixteen = .ok (true, s₁) ∧
    (inodeOpen 3 >>= dirOpen).run s₁ = .ok (some 1, s₂) ∧ NewInode 1 s₂ [] 6 ∧
    ValidName ⟨[97], by decide⟩ ∧ (dirAdd 1 ⟨[97], by decide⟩ 6).run s₂ = .ok (false, s₃) := by
  have hobs : (madeDir 214748365).map (fun x => (x.1, x.2.1, ((dirAdd 1 ⟨[97], by decide⟩ 6).run
      x.2.2.2).toOption.map Prod.fst)) = some (true, some 1, some false) := by decide
  have hlayout : (madeDir 214748365).map (fun x => (inodeAt x.2.2.2.disk 0, (x.2.2.2.inode 1).sector,
      inodeAt x.2.2.2.disk 3, inodeAt x.2.2.2.disk 6)) = some (⟨2, 4⟩, 3, ⟨1, 4⟩, ⟨7, 10⟩) := by
    decide
  have hbits : (madeDir 214748365).map (fun x => (x.2.2.2.size, x.2.2.2.freeMap 6,
      x.2.2.2.freeMap 7)) = some (16, true, true) := by decide
  obtain ⟨⟨b, h, s₁, s₂⟩, hmade, hx⟩ := Option.map_eq_some_iff.mp hobs
  rw [hmade] at hlayout hbits
  simp only [Option.map_some, Option.some.injEq, Prod.mk.injEq] at hx hlayout hbits
  obtain ⟨rfl, rfl, hadd⟩ := hx
  obtain ⟨h0, hdir, h3, h6⟩ := hlayout
  obtain ⟨hsize, hm6, hm7⟩ := hbits
  obtain ⟨hcreate, hopen⟩ := madeDir_run hmade
  obtain ⟨⟨b, s₃⟩, hs3, rfl⟩ := Option.map_eq_some_iff.mp hadd
  refine ⟨s₁, s₂, s₃, hcreate, hopen, newInode_six h0 hdir h3 rfl h6 hsize hm6 hm7,
    ⟨by decide, by decide⟩, ?_⟩
  cases hrun : (dirAdd 1 ⟨[97], by decide⟩ 6).run s₂ with
  | ok x =>
    rw [hrun] at hs3
    cases hs3
    rfl
  | error e =>
    rw [hrun] at hs3
    cases hs3

end Pintos
