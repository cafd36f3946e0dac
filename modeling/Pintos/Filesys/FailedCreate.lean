/-
  Subject:   What a `filesys_create` that returns false leaves behind.

  `filesys_create` takes a sector for the inode, then `inode_create` takes the data sectors, then
  `dir_add` looks for a slot; the single undo gives the sector of the inode back and nothing else. So
  a failure of `dir_add` after `inode_create` loses the data sectors of the file.

  The half that needs an outcome to fail on feeds the allocations one by one: `Feeds m s r s'` says
  that some outcomes lead `m` from `s` to `s'` and leave any given outcomes for what follows.
-/
import Pintos.Filesys.Ownership

namespace Pintos

open Lib

/-! ## 1. Outcomes -/

/-- The state with other outcomes of the allocations to come. -/
def FileSys.feed (s : FileSys) (a : List Bool) : FileSys := { s with allocs := a }

/-- Some outcomes lead from `s` to `s'` and leave the given ones. -/
def Feeds {α : Type} (m : FsM α) (s : FileSys) (r : α) (s' : FileSys) : Prop :=
  ∀ rest, ∃ a, m.run (s.feed a) = .ok (r, s'.feed rest)

variable {size : Int}

section Feeds

variable {s : FileSys}

theorem FsOk.feed (hs : FsOk s) (a : List Bool) : FsOk (s.feed a) := hs.setAllocs a

theorem feeds_dirOpenRoot (hs : FsOk s) : ∃ h s₁, Feeds dirOpenRoot s (some h) s₁ := by
  cases hf : s.openInodes.find? fun h => (s.inode h).sector == 1 with
  | some h =>
    let s₁ := s.setInode h { s.inode h with openCnt := (s.inode h).openCnt + 1 }
    refine ⟨h, s₁, fun rest => ⟨true :: rest, ?_⟩⟩
    refine (Prog.run_bind_ok (inodeOpen_found (s := s.feed (true :: rest)) hf)).trans ?_
    rfl
  | none =>
    refine ⟨s.nextInode, s.newInode 1, fun rest => ⟨true :: true :: rest, ?_⟩⟩
    have hin : 1 < s.size := (hs.sectors.placed 1 live_root).inside
    refine (Prog.run_bind_ok (inodeOpen_new (s := s.feed (true :: true :: rest)) hf hin rfl)).trans ?_
    rfl

/-- What a specification says of `m` holds of the state it is led to. -/
theorem Feeds.post {α : Type} {m : FsM α} {r : α} {s₁ : FileSys}
    {Q : List Bool → α → FileSys → Prop} (h : Feeds m s r s₁)
    (hQ : ∀ a, Runs m (s.feed a) (Q a)) : ∃ a, Q a r s₁ := by
  obtain ⟨a, hrun⟩ := h s₁.allocs
  exact ⟨a, (runs_of_run hrun).mp (hQ a)⟩

/-- The outcomes that let the free map be written and leave `rest`. -/
def mapOutcomes (size : ℕ) (rest : List Bool) : List Bool :=
  if bounceNeeded (byteCnt size) 0 then true :: rest else rest

theorem saved_feed (s : FileSys) (rest : List Bool) :
    (s.feed (mapOutcomes s.size rest)).saved = true := by
  unfold FileSys.saved FileSys.moved FileSys.granted FileSys.feed mapOutcomes
  cases bounceNeeded (byteCnt s.size) 0 <;> simp

theorem take_feed (s : FileSys) (k cnt : ℕ) (rest : List Bool) :
    (s.feed (mapOutcomes s.size rest)).take k cnt = ((s.feed []).take k cnt).feed rest := by
  unfold FileSys.take FileSys.saveMap FileSys.bounced FileSys.moved FileSys.granted FileSys.feed
    FileSys.setMap FileSys.pop mapOutcomes
  cases bounceNeeded (byteCnt s.size) 0 <;> simp [FileSys.write]

variable {cnt h k σ : ℕ}

theorem feeds_freeMapAllocate (hs : FsOk s) (hscan : bitmapScan s.size s.freeMap cnt = some k) :
    Feeds (freeMapAllocate cnt) s (some k) ((s.feed []).take k cnt) := by
  intro rest
  refine ⟨mapOutcomes s.size rest, ?_⟩
  obtain ⟨f, hm⟩ := (hs.feed (mapOutcomes s.size rest)).mapReady
  have hrun := freeMapAllocate_run hm cnt
  have hscan' : bitmapScan (s.feed (mapOutcomes s.size rest)).size
      (s.feed (mapOutcomes s.size rest)).freeMap cnt = some k := hscan
  rw [hscan'] at hrun
  simp only [saved_feed, if_true, take_feed] at hrun
  exact hrun

theorem layOut_feed (s : FileSys) (σ k n : ℕ) (d : InodeDisk) (a : List Bool) :
    (s.feed a).layOut σ k n d = (s.layOut σ k n d).feed a := rfl

theorem feeds_inodeCreate (hs : FsOk s) (h0 : 0 ≤ size) (hin : σ < s.size)
    (hscan : bitmapScan s.size s.freeMap (bytesToSectors size.toNat) = some k) :
    ∃ s₁, Feeds (inodeCreate σ size) s true s₁ := by
  obtain ⟨hext, _⟩ := bitmapScan_some hscan
  refine ⟨((s.feed []).take k (bytesToSectors size.toNat)).layOut σ k (bytesToSectors size.toNat)
    ⟨k, size.toNat⟩, fun rest => ?_⟩
  obtain ⟨a, hrun⟩ := feeds_freeMapAllocate hs hscan rest
  have hsize : (((s.feed []).take k (bytesToSectors size.toNat)).feed rest).size = s.size :=
    saveMap_size _
  have hpop : (s.feed (true :: a)).pop = s.feed a := rfl
  rw [← hpop] at hrun
  have hcreate := inodeCreate_some (σ := σ) h0 rfl hrun (by rw [hsize]; exact hin)
    (by rw [hsize]; exact hext)
  rw [layOut_feed] at hcreate
  exact ⟨true :: a, hcreate⟩

theorem dirAdd_starved (name : CString) (hs : FsOk s) (hr : IsRoot s h) (σ : ℕ) :
    ∃ s', (dirAdd h name σ).run (s.feed [false, false, false]) = .ok (false, s') := by
  suffices hruns : Runs (dirAdd h name σ) (s.feed [false, false, false]) fun r _ => r = false by
    obtain ⟨r, s', hrun, rfl⟩ := hruns
    exact ⟨s', hrun⟩
  have hroot : ∀ a, IsRoot (s.feed a) h := fun _ => ⟨hr.isOpen, hr.sector⟩
  have hread : ∀ a, (readEntry h (20 * 0)).run (s.feed (false :: a)) = .ok (none, s.feed a) :=
    fun a => readEntry_run (hs.feed _) (hroot _) (by omega)
  unfold dirAdd
  rw [runs_ite]
  split
  · rw [runs_pure]
  · rw [runs_bind]
    unfold lookup
    rw [runs_bind, runs_get]
    unfold lookupLoop
    rw [runs_bind, runs_of_run (hread _)]
    simp only [runs_pure, runs_bind, runs_get]
    unfold slotLoop
    rw [runs_bind, runs_of_run (hread _)]
    simp only [runs_pure]
    rw [runs_of_run (writeEntry_run (hs.feed _) (hroot _) (i := 0) (by omega) _)]
    rfl

/-- **Some outcomes make `dir_add` fail** after `inode_create` has taken the sectors of the data. -/
theorem create_leaks (name : CString) (h0 : 0 ≤ size) (hlen : size < 2 ^ 31) (hs : FsOk s)
    (hroom : Room s (bytesToSectors size.toNat) σ k) :
    ∃ a s', (filesysCreate name size).run (s.feed a) = .ok (false, s') ∧
      s'.freeMap = bitmapSetMultiple s.freeMap k (bytesToSectors size.toNat) true := by
  obtain ⟨h, s₁, hf1⟩ := feeds_dirOpenRoot hs
  obtain ⟨b₁, hs1, hk1, hd1, hr1, _⟩ := hf1.post fun a => dirOpenRoot_spec (hs.feed a)
  have hsize1 : s₁.size = s.size := hk1.size
  have hmap1 : s₁.freeMap = s.freeMap := hd1.freeMap
  rw [← Room.congr hsize1 hmap1] at hroom
  rw [← hmap1]
  clear hd1 hk1 hmap1
  obtain ⟨hin, hfree, hun, hne⟩ := scan_one hs1 hroom.inode
  -- the sector of the inode
  have hf2 := feeds_freeMapAllocate hs1 hroom.inode
  obtain ⟨b₂, hs2, hod2, _, hmo2, _, hmap2⟩ := hf2.post fun a => freeMapAllocate_spec (hs1.feed a) 1
  generalize (s₁.feed []).take σ 1 = s₂ at *
  have hsize2 : s₂.size = s₁.size := by rw [hod2]; rfl
  have hself : s₂.freeMap σ = true := by
    rw [hmap2]
    exact if_pos ⟨Nat.le_refl σ, Nat.lt_succ_self σ⟩
  have hun2 : Unowned s₂ σ := Unowned.spares (s := s₁.feed b₂) (hs1.feed b₂) hun hmo2.spares hod2
  have hdata : bitmapScan s₂.size s₂.freeMap (bytesToSectors size.toNat) = some k := by
    rw [hsize2, hmap2]
    exact hroom.data
  -- the sectors of the data
  obtain ⟨s₃, hf3⟩ := feeds_inodeCreate hs2 h0 (hsize2 ▸ hin) hdata
  obtain ⟨b₃, hs3, hod3, _, hsp3, hnew, k', hk', hmap3⟩ := hf3.post fun a =>
    inodeCreate_spec (hs2.feed a) h0 hlen (by exact hsize2 ▸ hin) (by exact hself) (by exact hun2)
  have hkk : k' = k := Option.some.inj (hk'.symm.trans hdata)
  subst hkk
  have hr3 : IsRoot s₃ h := (hr1.onlyDisk hod2).onlyDisk hod3
  have hun3 : Unowned s₃ σ := Unowned.spares (s := s₂.feed b₃) (hs2.feed b₃) hun2 hsp3 hod3
  -- `dir_add` fails, and the sector of the inode is given back
  obtain ⟨s₄, hrun4⟩ := dirAdd_starved name hs3 hr3 σ
  have hadd := dirAdd_spec name (hs3.feed [false, false, false]) (h := h) (σ := σ)
    ⟨hr3.isOpen, hr3.sector⟩ ⟨hnew.placed, hnew.marked, hnew.apart⟩
  obtain ⟨hs4, hod4, _, hmap4, hdisk4, _⟩ := (runs_of_run hrun4).mp hadd
  have hun4 : Unowned s₄ σ := Unowned.spares (hs3.feed _) (by exact hun3)
    (.of_same ⟨hdisk4, hmap4⟩) hod4
  have hsize4 : s₄.size = s₁.size := by
    rw [hod4, FileSys.feed, hod3, FileSys.feed]
    exact hsize2
  have hr4 : IsRoot s₄ h := IsRoot.onlyDisk (s := s₃.feed [false, false, false])
    ⟨hr3.isOpen, hr3.sector⟩ hod4
  obtain ⟨_, s₅, hrun5, rfl, _, _, _, _, hmap5⟩ := createEnd_false hs4 hr4 hne (hsize4 ▸ hin)
    (by rw [hmap4]; exact hnew.marked σ (.inl rfl)) hun4
  obtain ⟨a₃, hrun3⟩ := hf3 [false, false, false]
  obtain ⟨a₂, hrun2⟩ := hf2 a₃
  obtain ⟨a₁, hrun1⟩ := hf1 a₂
  refine ⟨a₁, s₅, ?_, ?_⟩
  · exact (Prog.run_bind_ok hrun1).trans ((Prog.run_bind_ok hrun2).trans
      ((Prog.run_bind_ok hrun3).trans ((Prog.run_bind_ok hrun4).trans hrun5)))
  · rw [hmap5, hmap4]
    show bitmapSetMultiple s₃.freeMap σ 1 false = _
    rw [hmap3]
    show bitmapSetMultiple (bitmapSetMultiple s₂.freeMap _ _ true) σ 1 false = _
    rw [hmap2]
    refine bitmap_undo_one hfree fun hin => ?_
    have hclear := (bitmapScan_some hdata).2 σ hin.1 hin.2
    rw [hself] at hclear
    cases hclear

end Feeds

/-! ## 2. Atomic failure -/

/-- Nothing that a failed `filesys_create` should leave alone has changed: the used sectors, the
    entries of the root directory, and every file but that of the free map itself. -/
structure Unchanged (s s' : FileSys) : Prop where
  freeMap : ∀ k < s.size, s'.freeMap k = s.freeMap k
  entries : ∀ i < 16, entry s'.disk i = entry s.disk i
  files : ∀ σ x, s.Live σ → σ ≠ 0 → Owns s.disk σ x → s'.disk x = s.disk x

/-- If `filesys_create` fails, then nothing has changed. -/
def AtomicFailure (s : FileSys) (name : CString) (size : Int) : Prop :=
  ∀ s', (filesysCreate name size).run s = .ok (false, s') → Unchanged s s'

section Atomic

variable {s s' : FileSys} {name : CString} {n σ k : ℕ}

theorem Spares.unchanged (hs : FsOk s) (hsp : Spares s s') (hmap : s'.freeMap = s.freeMap) :
    Unchanged s s' where
  freeMap k _ := by rw [hmap]
  entries i _ := by rw [hsp.entry hs]
  files τ x hτ h0 hx := hsp τ x hτ hx fun hin =>
    h0 (hs.sectors.owners.apart τ 0 x hτ live_map hx (.inr hin))

theorem Room.changed (hr : Room s n σ k) (hmap : s'.freeMap = bitmapSetMultiple s.freeMap k n true)
    (hn : 0 < n) : ¬ Unchanged s s' := by
  intro hu
  obtain ⟨hext, hfree⟩ := bitmapScan_some hr.data
  have hk : k ≤ k ∧ k < k + n := ⟨Nat.le_refl k, Nat.lt_add_of_pos_right hn⟩
  have hbit := hfree k hk.1 hk.2
  have hsame := hu.freeMap k (by omega)
  rw [hmap] at hsame
  unfold bitmapSetMultiple at hsame hbit
  rw [if_pos hk] at hsame
  split at hbit
  · cases hbit
  · rw [hbit] at hsame
    cases hsame

/-- With every allocation granted, a name that was added is not one that `dir_add` refuses. -/
theorem Created.not_refuses {i : ℕ} {e : DirEntry} (hc : Created s s' name n σ i e)
    (ha : s.allocs = []) : ¬ Refuses s.disk name := by
  obtain ⟨hslot, hno⟩ := hc.granted ha
  rintro (hv | ⟨j, hj, hm⟩ | hfull)
  · exact hv hc.valid
  · exact hno j hj hm
  · have hfree := hslot.free hc.inside
    rw [hfull i hc.inside] at hfree
    cases hfree

theorem bytesToSectors_pos (h0 : 0 ≤ size) (hne : size ≠ 0) : 0 < bytesToSectors size.toNat := by
  unfold bytesToSectors
  split <;> omega

/-- Without data, without room, or where the name can be added, a failure changes nothing. -/
theorem atomicFailure_of (h0 : 0 ≤ size) (hlen : size < 2 ^ 31) (hs : FsOk s)
    (h : size = 0 ∨ (¬ ∃ σ k, Room s (bytesToSectors size.toNat) σ k) ∨
      (s.allocs = [] ∧ ¬ Refuses s.disk name)) : AtomicFailure s name size := by
  intro s' hrun
  obtain ⟨_, _, _, _, hsp, hres⟩ := (runs_of_run hrun).mp (filesysCreate_spec name h0 hlen hs)
  rcases hres with hun | ⟨σ, k, hl⟩
  · exact hsp.unchanged hs hun.freeMap
  · rcases h with rfl | hno | ⟨ha, hno⟩
    · refine hsp.unchanged hs (hl.freeMap.trans (funext fun x => if_neg ?_))
      show ¬(k ≤ x ∧ x < k + 0)
      omega
    · exact absurd ⟨σ, k, hl.room⟩ hno
    · exact absurd (hl.granted ha) hno

/-- With every allocation granted a file with data, room and a name that `dir_add` refuses is lost. -/
theorem not_atomicFailure (h0 : 0 ≤ size) (hlen : size < 2 ^ 31) (hs : FsOk s) (ha : s.allocs = [])
    (hne : size ≠ 0) (hr : Room s (bytesToSectors size.toNat) σ k) (href : Refuses s.disk name) :
    ¬ AtomicFailure s name size := by
  intro hat
  obtain ⟨r, s', hrun, _, _, _, hc⟩ := filesysCreate_spec name h0 hlen hs
  cases r with
  | true =>
    obtain ⟨_, σ', i, e, hc⟩ := hc
    exact hc.not_refuses ha href
  | false =>
    obtain ⟨_, _, hun | ⟨σ', k', hl⟩⟩ := hc
    · exact hun.granted ha ⟨σ, k, hr⟩
    · exact hl.room.changed hl.freeMap (bytesToSectors_pos h0 hne) (hat s' hrun)

/-- **When a failure is atomic.** Whatever the outcomes of the allocations, exactly if the file has no
    data or there is no room for it; with every allocation granted also if the name can be added. -/
theorem failed_create_atomic_iff (name : CString) {size : Int} (h0 : 0 ≤ size) (hlen : size < 2 ^ 31)
    (hs : FsOk s) : ((∀ a, AtomicFailure (s.feed a) name size) ↔
      size = 0 ∨ ¬ ∃ σ k, Room s (bytesToSectors size.toNat) σ k) ∧
    (AtomicFailure (s.feed []) name size ↔
      size = 0 ∨ (¬ ∃ σ k, Room s (bytesToSectors size.toNat) σ k) ∨ ¬ Refuses s.disk name) := by
  have hroom : ∀ a, (∃ σ k, Room (s.feed a) (bytesToSectors size.toNat) σ k) ↔
      ∃ σ k, Room s (bytesToSectors size.toNat) σ k := fun a =>
    exists_congr fun σ => exists_congr fun k => Room.congr (by rfl) (by rfl)
  refine ⟨⟨fun hall => ?_, fun h a => ?_⟩, ⟨fun hat => ?_, fun h => ?_⟩⟩
  · by_contra hcon
    simp only [not_or, not_not] at hcon
    obtain ⟨hne, σ, k, hr⟩ := hcon
    obtain ⟨a, s', hrun, hmap⟩ := create_leaks name h0 hlen hs hr
    have hr' : Room (s.feed a) _ σ k := ⟨hr.inode, hr.data⟩
    exact hr'.changed hmap (bytesToSectors_pos h0 hne) (hall a s' hrun)
  · refine atomicFailure_of h0 hlen (hs.feed a) (h.imp id fun hno => .inl ?_)
    rwa [hroom a]
  · by_contra hcon
    simp only [not_or, not_not] at hcon
    obtain ⟨hne, ⟨σ, k, hr⟩, href⟩ := hcon
    exact not_atomicFailure h0 hlen (hs.feed []) rfl hne ⟨hr.inode, hr.data⟩ href hat
  · refine atomicFailure_of h0 hlen (hs.feed []) (h.imp id fun h' => ?_)
    rw [hroom []]
    exact h'.imp id fun hno => ⟨rfl, hno⟩

end Atomic

/-! ## 3. A name that is there -/

theorem one_offT : -2 ^ 31 ≤ (1 : Int) ∧ (1 : Int) < 2 ^ 31 := by decide

/-- A device of eight sectors on which "a" has been created with one byte. -/
def createdFile : Option FileSys :=
  smallDisk.bind fun s => runList fsStep s [.create nameA ⟨1, one_offT⟩]

theorem createdFile_ok {s : FileSys} (h : createdFile = some s) : FsOk s := by
  obtain ⟨s₀, h0, hrun⟩ := Option.bind_eq_some_iff.mp h
  obtain ⟨hs0, hl0, _⟩ := fsReach_ok (smallDisk_reach h0)
  simp only [runList, Option.bind_eq_some_iff, Option.some.injEq] at hrun
  obtain ⟨s₁, hstep, rfl⟩ := hrun
  exact (fsStep_ok (c := .create nameA ⟨1, by decide⟩) hs0 hl0 trivial hstep).ok

/-- An empty file may fail to be created without a trace. -/
theorem failed_create_atomic_empty : ∃ s, createdFile = some s ∧
    ∀ a, AtomicFailure (s.feed a) nameA 0 := by
  obtain ⟨s, hs⟩ : ∃ s, createdFile = some s := Option.isSome_iff_exists.mp (by decide)
  exact ⟨s, hs, (failed_create_atomic_iff nameA (by decide) (by decide) (createdFile_ok hs)).1.mpr
    (.inl rfl)⟩

/-- What becomes of sector 7 when "a" is created for the second time: the result, and the bit of the
    sector before and after. -/
def createdTwice : Option (Bool × ℕ × Bool × Bool) :=
  createdFile.bind fun s => match (filesysCreate nameA 1).run s with
    | .ok (r, s') => some (r, s.size, s.freeMap 7, s'.freeMap 7)
    | .error _ => none

/-- **The second creation fails and keeps a sector**, which was free before it. -/
theorem failed_create_leaks : createdTwice = some (false, 8, false, true) ∧
    ∃ s, createdFile = some s ∧ FsOk s ∧ ¬ AtomicFailure s nameA 1 := by
  have htwice : createdTwice = some (false, 8, false, true) := by decide
  refine ⟨htwice, ?_⟩
  obtain ⟨s, hs, hrun⟩ := Option.bind_eq_some_iff.mp htwice
  refine ⟨s, hs, createdFile_ok hs, fun hat => ?_⟩
  split at hrun
  · rename_i r s' he
    simp only [Option.some.injEq, Prod.mk.injEq] at hrun
    obtain ⟨rfl, hsize, hbefore, hafter⟩ := hrun
    have hsame := (hat s' he).freeMap 7 (by omega)
    rw [hbefore, hafter] at hsame
    cases hsame
  · cases hrun

end Pintos
