/-
  Subject:   Sequences of calls on a freshly formatted file system: who owns which sector.

  The machine takes one call after the other, with any outcome of the allocations. A call gets a file
  that `filesys_open` has given and that has not been closed (`FsCall.Valid`).

  A call RETURNS and keeps the invariant; the exceptions are an assertion on a negative size
  (`inode_create`) and one on a root directory that cannot be opened (`lookup`).

  * **`sectors_owned_once`**: the live files own disjoint, marked sectors;
  * **`contents_kept`**: a run that does not write to a file leaves its bytes on the device alone;
  * **`tables_agree`**: the open inodes and files agree with the device and with each other;
  * **`remount_same_map`**: with every allocation granted, `Steady` holds after every call, and mounting
    again gives the free map in memory.
-/
import Pintos.Filesys.Format
import Pintos.Lib.Run

namespace Pintos

open Lib

/-! ## 1. Calls -/

/-- `off_t`. -/
abbrev OffT := { z : Int // -2 ^ 31 ≤ z ∧ z < 2 ^ 31 }

inductive FsCall where
  | create (name : CString) (initialSize : OffT)
  | openName (name : CString)
  | remove (name : CString)
  | lookupFile (name : CString)
  | close (file : Option ℕ)
  | read (file : ℕ) (size : OffT)
  | write (file : ℕ) (buffer : ℕ → UInt8) (size : OffT)
  | denyWrite (file : ℕ)
  | allowWrite (file : ℕ)

/-- What a call returns. -/
inductive FsResult where
  | unit
  | bool (b : Bool)
  | file (f : Option ℕ)
  | bytes (l : List UInt8)
  | count (n : ℕ)
  deriving DecidableEq, Repr

def FsCall.run : FsCall → FsM FsResult
  | .create name size => .bool <$> filesysCreate name size
  | .openName name => .file <$> filesysOpen name
  | .remove name => .bool <$> filesysRemove name
  | .lookupFile name => .bool <$> dirLookupFile name
  | .close f => (fun _ => .unit) <$> fileClose f
  | .read f size => .bytes <$> fileRead (some f) size
  | .write f buffer size => .count <$> fileWrite (some f) buffer size
  | .denyWrite f => (fun _ => .unit) <$> fileDenyWrite (some f)
  | .allowWrite f => (fun _ => .unit) <$> fileAllowWrite (some f)

/-- `f` was returned by `filesys_open` and has not been closed. -/
structure FileSys.Has (s : FileSys) (f : ℕ) : Prop where
  isOpen : f ∈ s.openFiles
  notMap : s.freeMapFile ≠ some f

def FsCall.Valid (s : FileSys) : FsCall → Prop
  | .create _ _ | .openName _ | .remove _ | .lookupFile _ | .close none => True
  | .close (some f) | .read f _ | .write f _ _ | .denyWrite f | .allowWrite f => s.Has f

/-- The call writes to the file with its inode in `σ`. -/
def FsCall.Writes (s : FileSys) (σ : ℕ) : FsCall → Prop
  | .write f _ _ => (s.inode (s.file f).inode).sector = σ
  | _ => False

/-- The machine: one call. It stops for good when an assertion fails. -/
def fsStep (s : FileSys) (c : FsCall) : Option FileSys :=
  match c.run.run s with
  | .ok (_, s') => some s'
  | .error _ => none

/-- `s` is reached from a file system that has just been formatted. -/
def FsReach (allocs : List Bool) (s : FileSys) : Prop :=
  ∃ size disk heap s₀, size < 2 ^ 32 ∧
    (filesysInit true).run (powerOn size disk heap allocs) = .ok ((), s₀) ∧
    Reach fsStep (fun s c => c.Valid s) s₀ s

/-! ## 2. One call -/

/-- What every call keeps. -/
structure CallOk (s s' : FileSys) : Prop where
  ok : FsOk s'
  unlocked : s'.locked = false
  calm : Calm s s'
  /-- The inodes of the live files are not written. -/
  inodes : ∀ σ, s.Live σ → s'.disk σ = s.disk σ

/-- The call leaves every file alone that it does not write to, the two system files apart. -/
def FsCall.Spares (c : FsCall) (s s' : FileSys) : Prop :=
  ∀ σ x, s.Live σ → σ ≠ 0 → σ ≠ 1 → ¬ c.Writes s σ → Owns s.disk σ x → s'.disk x = s.disk x

variable {s' : FileSys} {f k σ : ℕ}

section Call

variable {s : FileSys}

theorem CallOk.keeps (hl : s.locked = false) (hs' : FsOk s') (hk : FsKeeps s s')
    (hi : ∀ σ, s.Live σ → s'.disk σ = s.disk σ) : CallOk s s' :=
  ⟨hs', hk.locked.trans hl, hk.calm, hi⟩

theorem CallOk.same (hl : s.locked = false) (hs' : FsOk s') (hk : CallKeeps s s')
    (hd : s'.disk = s.disk) : CallOk s s' :=
  ⟨hs', hk.locked.trans hl, hk.calm, fun _ _ => by rw [hd]⟩

theorem LeavesFiles.spares {c : FsCall} (h : LeavesFiles s s') : c.Spares s s' :=
  fun σ x hσ h0 h1 _ => h.data σ x hσ h0 h1

theorem FsCall.Spares.same {c : FsCall} (h : s'.disk = s.disk) : c.Spares s s' :=
  fun _ x _ _ _ _ _ => congrFun h x

theorem dirLookupFile_spec (name : CString) (hs : FsOk s) :
    Runs (dirLookupFile name) s (fun _ s' => FsOk s' ∧ FsKeeps s s' ∧ SameDisk s s' ∧
      ∃ h, s'.refs = bump s.refs h) ∨
      (dirLookupFile name).run s = .error (.stopped (.assertion "dir != NULL")) := by
  obtain ⟨r, s₁, hrun, hs1, hk1, hd1, hres⟩ := dirOpenRoot_spec hs
  have hopen : (dirLookupFile name).run s = _ := Prog.run_bind_ok hrun
  cases r with
  | none => exact .inr hopen
  | some h =>
    obtain ⟨hr, hrefs, _⟩ := hres
    obtain ⟨r, s₂, hrun2, hoa, ha, _⟩ := lookup_spec name hs1 hr
    have hk := hk1.trans (hoa.onlyDisk.keeps (hoa.calm ha))
    refine .inl ⟨r.isSome, s₂, hopen.trans (Prog.run_bind_ok hrun2), hoa.ok hs1, hk,
      hd1.trans hoa.sameDisk, h, ?_⟩
    rw [hoa.onlyDisk.refs, hrefs]

/-- The assertions that a call can run into: the size of a new file is negative, or `dir_lookup_file`
    cannot open the root directory. -/
def FsCall.Asserts (s : FileSys) : FsCall → Prop
  | .create name size => size.val < 0 ∧
      (FsCall.create name size).run.run s = .error (.stopped (.assertion "length >= 0"))
  | .lookupFile name =>
    (FsCall.lookupFile name).run.run s = .error (.stopped (.assertion "dir != NULL"))
  | _ => False

theorem FsOk.data_not_inode (hs : FsOk s) (hf : f ∈ s.openFiles) (hσ : s.Live σ) :
    ¬ InData (s.inode (s.file f).inode).data σ := by
  have hh := hs.heap.files f hf
  rw [hs.tie.cached _ hh]
  exact hs.sectors.notData (live_opened hh) hσ

theorem fileDenyWrite_spec (hs : FsOk s) (hf : s.Has f) :
    Runs (fileDenyWrite (some f)) s fun _ s' => FsOk s' ∧ CallKeeps s s' ∧ s'.disk = s.disk := by
  cases hd : (s.file f).denyWrite with
  | false =>
    obtain ⟨hrun, hs'⟩ := fileDenyWrite_run hs hf.isOpen hf.notMap hd
    rw [runs_of_run hrun]
    exact ⟨hs', .setDeny hs hf.isOpen _ _, rfl⟩
  | true =>
    have hrun : (fileDenyWrite (some f)).run s = .ok ((), s) := by
      apply Runs.run_eq
      unfold fileDenyWrite
      simp [hd]
    rw [runs_of_run hrun]
    exact ⟨hs, .refl s, rfl⟩

/-- **What a call does**, unless one of the two assertions fails. -/
theorem FsCall.effect (c : FsCall) (hs : FsOk s) (hl : s.locked = false) (hv : c.Valid s) :
    Runs c.run s (fun _ s' => CallOk s s' ∧ c.Spares s s') ∨ c.Asserts s := by
  cases c with
  | create name size =>
    rcases Int.lt_or_le size.val 0 with hneg | h0
    · rcases filesysCreate_negative name hneg 0 hs with hrun | herr
      · exact .inl (runs_map.mpr (hrun.mono fun _ _ h =>
          ⟨.keeps hl h.ok h.keeps h.creates.1.inode, h.creates.1.spares⟩))
      · exact .inr ⟨hneg, Prog.run_map_error herr⟩
    · exact .inl (runs_map.mpr ((filesysCreate_spec name h0 size.property.2 hs).mono
        fun _ _ h => ⟨.keeps hl h.ok h.keeps h.creates.1.inode, h.creates.1.spares⟩))
  | openName name =>
    refine .inl (runs_map.mpr ((filesysOpen_spec name hs hl).mono fun r s' h => ?_))
    obtain ⟨hs', hres⟩ := h
    cases r with
    | none => exact ⟨.keeps hl hs' hres.1 fun _ _ => by rw [hres.2.1.disk], .same hres.2.1.disk⟩
    | some f =>
      obtain ⟨x, s₁, ho⟩ := hres
      have hst : s' = s₁.openFile x := ho.state
      subst hst
      refine ⟨⟨hs', ho.keeps.locked.trans hl, ?_, fun σ hσ => congrFun ho.disk.disk σ⟩,
        .same ho.disk.disk⟩
      exact ho.keeps.calm.trans ⟨id, fun hst => ⟨hst.granted, hst.synced⟩⟩
  | remove name =>
    refine .inl (runs_map.mpr ((filesysRemove_spec name hs).mono fun r s' h => ?_))
    obtain ⟨hs', hk, _, hres⟩ := h
    cases r with
    | false => exact ⟨.keeps hl hs' hk fun _ _ => by rw [hres.1.disk], .same hres.1.disk⟩
    | true => exact ⟨.keeps hl hs' hk (hres.1.leaves hs).inode, (hres.1.leaves hs).spares⟩
  | lookupFile name =>
    rcases dirLookupFile_spec name hs with hrun | herr
    · refine .inl (runs_map.mpr (hrun.mono fun _ s' h => ?_))
      obtain ⟨hs', hk, hd, _⟩ := h
      exact ⟨.keeps hl hs' hk fun _ _ => by rw [hd.disk], .same hd.disk⟩
    · exact .inr (Prog.run_map_error herr)
  | close file =>
    refine .inl (runs_map.mpr ?_)
    cases file with
    | none => exact runs_pure.mpr ⟨⟨hs, hl, .refl s, fun _ _ => rfl⟩, .same rfl⟩
    | some f =>
      refine (fileClose_spec hs hv.isOpen hv.notMap).mono fun _ s' h => ?_
      obtain ⟨hs', hc⟩ := h
      have hleaves := hc.releases.disk.system.leaves hs
      exact ⟨⟨hs', hc.locked.trans hl, hc.calm, hleaves.inode⟩, hleaves.spares⟩
  | read f size =>
    refine .inl (runs_map.mpr ((fileRead_spec hs hv.isOpen size).mono fun _ s' h => ?_))
    obtain ⟨hs', hk, hd, _⟩ := h
    exact ⟨.same hl hs' hk hd.disk, .same hd.disk⟩
  | write f buffer size =>
    refine .inl (runs_map.mpr ((fileWrite_spec hs hv.isOpen hv.notMap buffer size).mono
      fun _ s' h => ?_))
    obtain ⟨hs', hk, _, _, hd⟩ := h
    refine ⟨⟨hs', hk.locked.trans hl, hk.calm, fun σ hσ => hd σ (hs.data_not_inode hv.isOpen hσ)⟩,
      fun σ x hσ _ _ hw hx => hd x fun hin => hw ?_⟩
    have hh := hs.heap.files f hv.isOpen
    rw [hs.tie.cached _ hh] at hin
    exact hs.sectors.owners.apart _ σ x (live_opened hh) hσ (.inr hin) hx
  | denyWrite f =>
    refine .inl (runs_map.mpr ((fileDenyWrite_spec hs hv).mono fun _ s' h => ?_))
    obtain ⟨hs', hk, hd⟩ := h
    exact ⟨.same hl hs' hk hd, .same hd⟩
  | allowWrite f =>
    obtain ⟨hrun, hs', hk⟩ := fileAllowWrite_run hs hv.isOpen hv.notMap
    have hd := (allow_disk s f).disk
    exact .inl (runs_map.mpr ((runs_of_run hrun).mpr ⟨.same hl hs' hk hd, .same hd⟩))

/-- **A call returns and keeps the invariant, or one of the two assertions fails.** -/
theorem FsCall.spec (c : FsCall) (hs : FsOk s) (hl : s.locked = false) (hv : c.Valid s) :
    Runs c.run s (fun _ s' => CallOk s s') ∨ c.Asserts s :=
  (c.effect hs hl hv).imp_left fun h => h.mono fun _ _ h => h.1

theorem fsStep_effect {c : FsCall} (hs : FsOk s) (hl : s.locked = false) (hv : c.Valid s)
    (h : fsStep s c = some s') : CallOk s s' ∧ c.Spares s s' := by
  unfold fsStep at h
  rcases c.effect hs hl hv with hrun | herr
  · obtain ⟨r, t, he, hok⟩ := hrun
    rw [he] at h
    cases h
    exact hok
  · cases c with
    | create name size =>
      rw [herr.2] at h
      cases h
    | lookupFile name =>
      have hrun : (FsCall.lookupFile name).run.run s = _ := herr
      rw [hrun] at h
      cases h
    | _ => exact absurd herr id

theorem fsStep_ok {c : FsCall} (hs : FsOk s) (hl : s.locked = false) (hv : c.Valid s)
    (h : fsStep s c = some s') : CallOk s s' :=
  (fsStep_effect hs hl hv h).1

/-- **The invariant holds in every state reached.** -/
theorem fsReach_ok {allocs : List Bool} (h : FsReach allocs s) :
    FsOk s ∧ s.locked = false ∧ (allocs = [] → Steady s) := by
  obtain ⟨size, disk, heap, s₀, hsize, hinit, hr⟩ := h
  obtain ⟨s₁, hs1, hl1, hst1, rfl⟩ := filesysInit_format (Q := fun _ s => s = s₀) hsize
    ⟨(), s₀, hinit, rfl⟩
  refine hr.invariant (I := fun s => FsOk s ∧ s.locked = false ∧ (allocs = [] → Steady s))
    ⟨hs1, hl1, hst1⟩ fun s c s' hi hv hstep => ?_
  have hok := fsStep_ok hi.1 hi.2.1 hv hstep
  exact ⟨hok.ok, hok.unlocked, fun ha => hok.calm.steady (hi.2.2 ha)⟩

end Call

/-! ## 3. Ownership -/

variable {s : FileSys}

theorem CallOk.owns (h : CallOk s s') (hσ : s.Live σ) (hk : Owns s.disk σ k) :
    Owns s'.disk σ k := by
  unfold Owns inodeAt at hk ⊢
  rwa [h.inodes σ hσ]

/-- **Sector ownership.** In every state reached from a freshly formatted file system, whatever the
    outcomes of the allocations: no two live files share a sector, a file's inode is not in its own
    data, every sector of a live file is on the device and marked; every call returns, unless it is
    given a negative size or `dir_lookup_file` cannot open the root directory; and a call frees a
    sector of a file only if the file is neither open nor named after it. -/
theorem sectors_owned_once {allocs : List Bool} {s : FileSys} (h : FsReach allocs s) :
    (∀ σ τ k, s.Live σ → s.Live τ → Owns s.disk σ k → Owns s.disk τ k → σ = τ) ∧
    (∀ σ, s.Live σ → ¬ InData (inodeAt s.disk σ) σ) ∧
    (∀ σ k, s.Live σ → Owns s.disk σ k → k < s.size ∧ s.freeMap k = true) ∧
    (∀ c : FsCall, c.Valid s → (∃ r s', c.run.run s = .ok (r, s')) ∨ c.Asserts s) ∧
    ∀ (c : FsCall) s', c.Valid s → fsStep s c = some s' →
      ∀ σ k, s.Live σ → Owns s.disk σ k → s'.freeMap k = false → ¬ s'.Live σ := by
  obtain ⟨hs, hl, _⟩ := fsReach_ok h
  refine ⟨hs.sectors.owners.apart, fun σ hσ => (hs.sectors.placed σ hσ).self,
    fun σ k hσ hk => ⟨?_, hs.sectors.owners.marked σ k hσ hk⟩, fun c hv => ?_,
    fun c s' hv hstep σ k hσ hk hfree hσ' => ?_⟩
  · have hplaced := hs.sectors.placed σ hσ
    rcases hk with rfl | hd
    · exact hplaced.inside
    · exact Nat.lt_of_lt_of_le hd.2 hplaced.extent
  · rcases c.spec hs hl hv with hrun | herr
    · obtain ⟨r, s', he, _⟩ := hrun
      exact .inl ⟨r, s', he⟩
    · exact .inr herr
  · have hok := fsStep_ok hs hl hv hstep
    have hmarked := hok.ok.sectors.owners.marked σ k hσ' (hok.owns hσ hk)
    rw [hfree] at hmarked
    cases hmarked

/-- The name "a". -/
def nameA : CString := ⟨[97], by decide⟩

/-- A device of eight sectors after formatting. -/
def smallDisk : Option FileSys :=
  match (filesysInit true).run (powerOn 8 (fun _ _ => 0) (fun _ => false) []) with
  | .ok (_, s) => some s
  | .error _ => none

/-- A file is created with three bytes, opened and removed. -/
def removedFile : Option FileSys :=
  smallDisk.bind fun s => runList fsStep s
    [.create nameA ⟨3, by decide⟩, .openName nameA, .remove nameA]

theorem removedFile_exists : ∃ s, removedFile = some s :=
  Option.isSome_iff_exists.mp (by decide)

theorem smallDisk_reach (h : smallDisk = some s) : FsReach [] s := by
  unfold smallDisk at h
  split at h
  · rename_i u s' he
    cases h
    exact ⟨8, _, _, s, by decide, he, .start s⟩
  · cases h

theorem removedFile_reach (h : removedFile = some s) : FsReach [] s := by
  obtain ⟨s₀, h0, hrun⟩ := Option.bind_eq_some_iff.mp h
  obtain ⟨size, disk, heap, s₁, hsize, hinit, hr⟩ := smallDisk_reach h0
  refine ⟨size, disk, heap, s₁, hsize, hinit, hr.trans (reach_runList _ (fun s c hc => ?_) hrun)⟩
  simp only [List.mem_cons, List.not_mem_nil, or_false] at hc
  rcases hc with rfl | rfl | rfl <;> exact trivial

/-- The file that has been removed while open keeps its sectors marked. -/
theorem sectors_owned_once_removed : ∃ s, removedFile = some s ∧ FsReach [] s ∧
    ∀ σ k, s.Live σ → Owns s.disk σ k → k < s.size ∧ s.freeMap k = true := by
  obtain ⟨s, hs⟩ := removedFile_exists
  have hr := removedFile_reach hs
  exact ⟨s, hs, hr, (sectors_owned_once hr).2.2.1⟩

/-! ## 4. What a run leaves alone -/

/-- **Files keep their contents**: in every run from a reachable state, as long as the file is open
    or named and no call writes to it, its inode and its data stay as they are on the device. -/
theorem contents_kept {allocs : List Bool} {s s' : FileSys} (h : FsReach allocs s) (h0 : σ ≠ 0)
    (h1 : σ ≠ 1) (hr : Reach fsStep (fun s c => c.Valid s ∧ s.Live σ ∧ ¬ c.Writes s σ) s s') :
    ∀ x, Owns s.disk σ x → s'.disk x = s.disk x := by
  obtain ⟨hs, hl, _⟩ := fsReach_ok h
  refine (hr.invariant (I := fun t => FsOk t ∧ t.locked = false ∧
    ∀ x, Owns s.disk σ x → t.disk x = s.disk x) ⟨hs, hl, fun _ _ => rfl⟩
    fun t c t' hi hv hstep => ?_).2.2
  obtain ⟨ht, hlt, hd⟩ := hi
  obtain ⟨hv, hσ, hw⟩ := hv
  obtain ⟨hok, hsp⟩ := fsStep_effect ht hlt hv hstep
  refine ⟨hok.ok, hok.unlocked, fun x hx => ?_⟩
  have hx' : Owns t.disk σ x := by
    unfold Owns inodeAt at hx ⊢
    rwa [hd σ (.inl rfl)]
  exact (hsp σ x hσ h0 h1 hw hx').trans (hd x hx)

/-- The removed file, which is still open, survives the creation of another one under its name. -/
theorem contents_kept_removed : ∃ s s', removedFile = some s ∧ s.Has 2 ∧
    fsStep s (.create nameA ⟨3, by decide⟩) = some s' ∧
    ∀ x, Owns s.disk (s.inode (s.file 2).inode).sector x → s'.disk x = s.disk x := by
  have hrun : removedFile.map (fun s => (s.openFiles, s.freeMapFile,
      (fsStep s (.create nameA ⟨3, by decide⟩)).isSome)) = some ([2, 1], some 1, true) := by decide
  obtain ⟨s, hs, he⟩ := Option.map_eq_some_iff.mp hrun
  simp only [Prod.mk.injEq] at he
  obtain ⟨s', hstep⟩ := Option.isSome_iff_exists.mp he.2.2
  have hf : s.Has 2 := ⟨by simp [he.1], by simp [he.2.1]⟩
  have hok := (fsReach_ok (removedFile_reach hs)).1
  obtain ⟨h0, h1⟩ := hok.ordinary_sector hf.isOpen hf.notMap
  exact ⟨s, s', hs, hf, hstep, contents_kept (removedFile_reach hs) h0 h1 ((Reach.start s).step
    (e := .create nameA _) ⟨trivial, live_opened (hok.heap.files 2 hf.isOpen), id⟩ hstep)⟩

/-- **The tables in memory agree with each other and with the device**, in every state reached: an
    inode is open once and holds what is in its sector; `deny_write_cnt` counts the files that deny
    writes and is not above `open_cnt`; an open file's inode is open; a removed file has no name; no
    two entries name one file. -/
theorem tables_agree {allocs : List Bool} {s : FileSys} (h : FsReach allocs s) :
    (∀ h ∈ s.openInodes, (s.inode h).data = inodeAt s.disk (s.inode h).sector ∧
      (s.inode h).denyWriteCnt = s.deniersOn h ∧ (s.inode h).denyWriteCnt ≤ (s.inode h).openCnt ∧
      s.filesOn h ≤ (s.inode h).openCnt ∧
      ((s.inode h).removed = true → ¬ Named s.disk (s.inode h).sector) ∧
      ∀ h' ∈ s.openInodes, (s.inode h).sector = (s.inode h').sector → h = h') ∧
    (∀ f ∈ s.openFiles, (s.file f).inode ∈ s.openInodes) ∧
    ∀ i < 16, ∀ j < 16, (entry s.disk i).inUse = true → (entry s.disk j).inUse = true →
      (entry s.disk i).inodeSector = (entry s.disk j).inodeSector → i = j := by
  obtain ⟨hs, _, _⟩ := fsReach_ok h
  refine ⟨fun h hh => ⟨hs.tie.cached h hh, hs.heap.deny h hh, ?_, hs.heap.held h hh,
    fun hr => (hs.tie.removed h hh hr).2.2, hs.heap.single h hh⟩, hs.heap.files, hs.dir.distinct⟩
  have hle : s.deniersOn h ≤ s.filesOn h := List.countP_mono_left fun f _ hf => by simp_all
  rw [hs.heap.deny h hh]
  exact hle.trans (hs.heap.held h hh)

theorem tables_agree_removed : ∃ s, removedFile = some s ∧
    ∀ f ∈ s.openFiles, (s.file f).inode ∈ s.openInodes := by
  obtain ⟨s, hs⟩ := removedFile_exists
  exact ⟨s, hs, (tables_agree (removedFile_reach hs)).2.1⟩

/-! ## 5. Mounting again -/

section Mount

variable {s : FileSys}

theorem granted_of_nil (ha : s.allocs = []) : s.granted = true := by
  unfold FileSys.granted
  rw [ha]
  rfl

theorem openMap_runs {P : Option ℕ → FileSys → Prop} (hi : s.openInodes = []) (hsize : 0 < s.size)
    (ha : s.allocs = []) (h : P (some s.nextFile) ((s.pop.newInode 0).pop.openFile s.nextInode)) :
    Runs (inodeOpen 0) s fun r s₁ => Runs (fileOpen r) s₁ P := by
  have hfind : (s.openInodes.find? fun h => (s.inode h).sector == 0) = none := by
    rw [hi]
    rfl
  have hnil : (s.pop.newInode 0).allocs = [] := by
    show s.allocs.tail = []
    rw [ha]
    rfl
  rw [runs_of_run (inodeOpen_new hfind hsize (granted_of_nil ha))]
  unfold fileOpen
  rw [runs_bind, runs_malloc, granted_of_nil hnil]
  simp only [runs_bind, runs_get, runs_set, runs_pure]
  exact h

theorem freeMapOpen_runs (hi : s.openInodes = []) (ha : s.allocs = [])
    (hp : Placed s.size (inodeAt s.disk 0) 0) (hlen : (inodeAt s.disk 0).length = byteCnt s.size)
    (hb : s.size ≤ 8 * byteCnt s.size) :
    Runs freeMapOpen s fun _ s' => ∀ k < s.size, s'.freeMap k = mapBit s.disk k := by
  have hready : MapReady s.openMap s.nextFile := .openMap hp hlen hb
  have hnil : s.openMap.allocs = [] := by
    show s.allocs.tail.tail = []
    rw [ha]
    rfl
  have hsv := saved_of_granted hnil
  have hmoved : s.openMap.moved (byteCnt s.openMap.size) 0 = byteCnt s.openMap.size := by
    simpa [FileSys.saved] using hsv
  unfold freeMapOpen
  simp only [runs_bind, runs_modify]
  refine openMap_runs hi hp.inside ha ?_
  simp only [openMap_eq, runs_bind]
  rw [runs_of_run (bitmapRead_run hready), hsv]
  refine runs_pure.mpr fun k hk => ?_
  rw [hmoved, openMap_size, openMap_disk]
  have hout : ¬(s.size ≤ k ∧ k < s.size + (8 * byteCnt s.size - s.size)) := by omega
  exact (if_neg hout).trans (if_pos (by omega))

theorem freeMapInit_run (ha : s.allocs = []) (h0 : s.size ≠ 0) (hb : byteCnt s.size ≠ 0) :
    freeMapInit.run s = .ok ((), s.pop.pop.setMap (bitmapSetMultiple
      (bitmapSetMultiple s.freeMap 0 s.size false) 0 2 true)) := by
  have hnil : s.pop.allocs = [] := by
    show s.allocs.tail = []
    rw [ha]
    rfl
  apply Runs.run_eq
  unfold freeMapInit
  simp only [runs_bind, runs_malloc, runs_get, runs_ite, runs_set, granted_of_nil ha,
    granted_of_nil hnil]
  rw [if_pos ⟨trivial, .inl ⟨trivial, hb⟩⟩, if_neg (by exact h0)]
  exact ⟨trivial, rfl⟩

/-- **Mounting again**: the free map is the one that was in memory. -/
theorem mount_same (hs : FsOk s) (hst : Steady s) (heap : ℕ → Bool) :
    Runs (filesysInit false) (powerOn s.size s.disk heap []) fun _ s' =>
      ∀ k < s.size, s'.freeMap k = s.freeMap k := by
  have hp := hs.sectors.placed 0 live_map
  have hpos : s.size ≠ 0 := Nat.ne_of_gt (Nat.zero_lt_of_lt hp.inside)
  have hbits := hs.dir.bits
  have hbytes : byteCnt s.size ≠ 0 := by omega
  let s₀ := powerOn s.size s.disk heap []
  have hinit : freeMapInit.run s₀ = _ := freeMapInit_run rfl hpos hbytes
  unfold filesysInit
  simp only [runs_bind, runs_modify, Bool.false_eq_true, if_false]
  refine (runs_of_run hinit).mpr (Runs.mono (freeMapOpen_runs rfl rfl hp hs.dir.map hbits)
    fun _ s' h k hk => ?_)
  exact (h k hk).trans (hst.synced k hk)

end Mount

/-- **Remount sees the same free map.** With every allocation granted, in every state reached from a
    freshly formatted file system, mounting the device again succeeds and gives the free map in memory,
    bit for bit; and a write to a file leaves the sectors of the free map file as they are. -/
theorem remount_same_map {s : FileSys} (h : FsReach [] s) :
    (∀ heap, ∃ s', (filesysInit false).run (powerOn s.size s.disk heap []) = .ok ((), s') ∧
      ∀ k < s.size, s'.freeMap k = s.freeMap k) ∧
    ∀ f buffer size s', (FsCall.write f buffer size).Valid s →
      fsStep s (.write f buffer size) = some s' → ∀ x, Owns s.disk 0 x → s'.disk x = s.disk x := by
  obtain ⟨hs, hl, hst⟩ := fsReach_ok h
  refine ⟨fun heap => ?_, fun f buffer size s' hv hstep x hx => ?_⟩
  · obtain ⟨_, s', hrun, hsame⟩ := mount_same hs (hst rfl) heap
    exact ⟨s', hrun, hsame⟩
  · obtain ⟨n, s₁, hrun, _, _, _, _, hother⟩ := fileWrite_spec hs hv.isOpen hv.notMap buffer size
    have hstep' : fsStep s (.write f buffer size) = some s₁ := by
      unfold fsStep
      rw [show (FsCall.write f buffer size).run.run s = .ok (.count n, s₁) from
        Prog.run_bind_ok hrun]
    rw [hstep'] at hstep
    cases hstep
    refine hother x fun hin => ?_
    have hh := hs.heap.files f hv.isOpen
    rw [hs.tie.cached _ hh] at hin
    exact (hs.ordinary_sector hv.isOpen hv.notMap).1
      (hs.sectors.owners.apart _ 0 x (live_opened hh) live_map (.inr hin) hx)

/-- The device on which a file was removed while open. -/
theorem remount_same_map_removed : ∃ s, removedFile = some s ∧ FsReach [] s ∧
    ∀ heap, ∃ s', (filesysInit false).run (powerOn s.size s.disk heap []) = .ok ((), s') ∧
      ∀ k < s.size, s'.freeMap k = s.freeMap k := by
  obtain ⟨s, hs⟩ := removedFile_exists
  have hr := removedFile_reach hs
  exact ⟨s, hs, hr, (remount_same_map hr).1⟩

end Pintos
