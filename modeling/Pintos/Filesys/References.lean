/-
  Subject:   References to inodes across the calls: who takes one, and who gives it back.

  `dir_open` and `file_open` take over the reference they are given, `dir_close` and `file_close` drop
  it, on success and on failure; `dir_lookup_file` opens the root directory and never closes it.

  **`references_balanced_iff`**: in every state reached, whatever the outcomes of the allocations, every
  call but `dir_lookup_file` leaves the counts as it should; `dir_lookup_file` does so only where it does
  not return at all, because the root directory cannot be opened.
-/
import Pintos.Filesys.Ownership

namespace Pintos

open Lib Function

/-! ## 1. Opening the root directory -/

/-- An allocation that `dir_open_root` needs is refused: the `struct inode` where the root directory
    is not open yet, the `struct dir` in any case. -/
def FileSys.rootRefused (s : FileSys) : Bool :=
  match s.openInodes.find? fun h => (s.inode h).sector == 1 with
  | some _ => !s.granted
  | none => !(s.granted && s.pop.granted)

section Root

variable {s : FileSys}

variable {inode r : Option ℕ} {s' : FileSys}

theorem dirOpen_result (h : (dirOpen inode).run s = .ok (r, s')) :
    r = if s.granted then inode else none := by
  obtain ⟨granted, s₁, hm, h⟩ := Prog.run_bind_inv h
  have hg : granted = s.granted := by
    have hruns : Runs malloc s fun g _ => g = s.granted := runs_malloc.mpr rfl
    exact (runs_of_run hm).mp hruns
  subst hg
  cases inode with
  | none =>
    obtain ⟨_, _, _, h⟩ := Prog.run_bind_inv h
    cases h
    rw [ite_self]
  | some h' =>
    cases hg : s.granted with
    | true =>
      rw [hg] at h
      cases h
      rfl
    | false =>
      rw [hg] at h
      obtain ⟨_, _, _, h⟩ := Prog.run_bind_inv h
      cases h
      rfl

/-- `dir_open_root` fails exactly if an allocation it needs is refused. -/
theorem dirOpenRoot_none_iff (hs : FsOk s) (h : dirOpenRoot.run s = .ok (r, s')) :
    r = none ↔ s.rootRefused = true := by
  obtain ⟨inode, s₁, ho, h⟩ := Prog.run_bind_inv h
  have hr := dirOpen_result h
  unfold FileSys.rootRefused
  cases hf : s.openInodes.find? fun h => (s.inode h).sector == 1 with
  | some x =>
    rw [inodeOpen_found hf] at ho
    cases ho
    subst hr
    show (if s.granted then some x else none) = none ↔ (!s.granted) = true
    cases s.granted <;> simp
  | none =>
    cases hg : s.granted with
    | true =>
      rw [inodeOpen_new hf (hs.sectors.placed 1 live_root).inside hg] at ho
      cases ho
      subst hr
      show (if s.pop.granted then some s.nextInode else none) = none ↔ (!s.pop.granted) = true
      cases s.pop.granted <;> simp
    | false =>
      rw [inodeOpen_refused hf hg] at ho
      cases ho
      rw [ite_self] at hr
      simp [hr]

end Root

/-! ## 2. Balance -/

/-- **What a call may do to the counts** (`refs` is `open_cnt`, and 0 for what is not in
    `open_inodes`). -/
def FsCall.Counts (s : FileSys) (r : FsResult) (s' : FileSys) : FsCall → Prop
  | .openName _ => match r with
    | .file (some f) => s'.refs = bump s.refs (s'.file f).inode
    | _ => s'.refs = s.refs
  | .close (some f) => s.refs = bump s'.refs (s.file f).inode
  | _ => s'.refs = s.refs

/-- If the call returns, then it has done so. -/
def FsCall.Balanced (s : FileSys) (c : FsCall) : Prop :=
  ∀ r s', c.run.run s = .ok (r, s') → c.Counts s r s'

section Balance

variable {s : FileSys}

theorem bump_unbump {r : ℕ → ℕ} {h : ℕ} (hpos : 0 < r h) : bump (unbump r h) h = r := by
  funext x
  unfold bump unbump
  by_cases hx : x = h
  · subst hx
    simp only [update_self]
    omega
  · simp only [update_of_ne hx]

theorem bump_ne (r : ℕ → ℕ) (h : ℕ) : bump r h ≠ r := by
  intro he
  have hh := congrFun he h
  unfold bump at hh
  rw [update_self] at hh
  omega

theorem FsCall.Balanced.of_runs {c : FsCall} (h : Runs c.run s fun r s' => c.Counts s r s') :
    c.Balanced s := fun _ _ hrun => (runs_of_run hrun).mp h

theorem create_balanced (name : CString) (size : OffT) (hs : FsOk s) :
    (FsCall.create name size).Balanced s := by
  rcases Int.lt_or_le size.val 0 with hneg | h0
  · rcases filesysCreate_negative name hneg 0 hs with hrun | herr
    · exact .of_runs (runs_map.mpr (hrun.mono fun _ _ h => h.refs))
    · intro r s' hrun
      have hstop : (FsCall.create name size).run.run s = _ := Prog.run_map_error herr
      rw [hstop] at hrun
      cases hrun
  · exact .of_runs (runs_map.mpr ((filesysCreate_spec name h0 size.property.2 hs).mono
      fun _ _ h => h.refs))

theorem openName_balanced (name : CString) (hs : FsOk s) (hl : s.locked = false) :
    (FsCall.openName name).Balanced s := by
  refine .of_runs (runs_map.mpr ((filesysOpen_spec name hs hl).mono fun r s' h => ?_))
  obtain ⟨_, hres⟩ := h
  cases r with
  | none => exact hres.2.2.1
  | some f =>
    obtain ⟨x, s₁, ho⟩ := hres
    have hst : s' = s₁.openFile x := ho.state
    have hself : (s'.file f).inode = x := by
      rw [hst, ho.file]
      show (update s₁.file s₁.nextFile _ s₁.nextFile).inode = x
      rw [update_self]
    have hrefs : s'.refs = s₁.refs := by rw [hst]; rfl
    show s'.refs = bump s.refs (s'.file f).inode
    rw [hself, hrefs, ho.refs]

theorem close_balanced {f : ℕ} (hs : FsOk s) (hf : s.Has f) :
    (FsCall.close (some f)).Balanced s := by
  refine .of_runs (runs_map.mpr ((fileClose_spec hs hf.isOpen hf.notMap).mono fun _ s' h => ?_))
  obtain ⟨_, hc⟩ := h
  have hh := hs.heap.files f hf.isOpen
  have hpos : 0 < s.refs (s.file f).inode := by
    rw [refs_of_mem hh]
    exact hs.heap.counted _ hh
  show s.refs = bump s'.refs (s.file f).inode
  rw [hc.refs, bump_unbump hpos]

/-- `dir_lookup_file` is balanced only where it does not return. -/
theorem lookupFile_balanced_iff (name : CString) (hs : FsOk s) :
    (FsCall.lookupFile name).Balanced s ↔ s.rootRefused = true := by
  obtain ⟨r, s₁, hrun, hs1, _, _, hres⟩ := dirOpenRoot_spec hs
  have hopen : (dirLookupFile name).run s = _ := Prog.run_bind_ok hrun
  rw [← dirOpenRoot_none_iff hs hrun]
  cases r with
  | none =>
    refine iff_of_true (fun r s' hok => ?_) rfl
    have hstop : (FsCall.lookupFile name).run.run s = _ := Prog.run_map_error hopen
    rw [hstop] at hok
    cases hok
  | some h =>
    refine iff_of_false (fun hb => ?_) nofun
    obtain ⟨hr, hrefs, _⟩ := hres
    obtain ⟨r, s₂, hrun2, hoa, _⟩ := lookup_spec name hs1 hr
    have hwhole : (FsCall.lookupFile name).run.run s = .ok (.bool r.isSome, s₂) :=
      Prog.run_bind_ok (hopen.trans (Prog.run_bind_ok hrun2))
    have hsame : s₂.refs = s.refs := hb _ _ hwhole
    rw [hoa.onlyDisk.refs, hrefs] at hsame
    exact bump_ne s.refs h hsame

theorem FsCall.balanced_iff (c : FsCall) (hs : FsOk s) (hl : s.locked = false) (hv : c.Valid s) :
    c.Balanced s ↔ ∀ name, c = .lookupFile name → s.rootRefused = true := by
  cases c with
  | lookupFile name =>
    rw [lookupFile_balanced_iff name hs]
    exact ⟨fun h _ _ => h, fun h => h name rfl⟩
  | create name size => exact iff_of_true (create_balanced name size hs) nofun
  | openName name => exact iff_of_true (openName_balanced name hs hl) nofun
  | remove name =>
    refine iff_of_true (.of_runs (runs_map.mpr ?_)) nofun
    exact (filesysRemove_spec name hs).mono fun _ _ h => h.2.2.1
  | close file =>
    refine iff_of_true ?_ nofun
    cases file with
    | none => exact .of_runs (runs_map.mpr (runs_pure.mpr rfl))
    | some f => exact close_balanced hs hv
  | read f size =>
    refine iff_of_true (.of_runs (runs_map.mpr ?_)) nofun
    exact (fileRead_spec hs hv.isOpen size).mono fun _ _ h => h.2.1.refs
  | write f buffer size =>
    refine iff_of_true (.of_runs (runs_map.mpr ?_)) nofun
    exact (fileWrite_spec hs hv.isOpen hv.notMap buffer size).mono fun _ _ h => h.2.1.refs
  | denyWrite f =>
    refine iff_of_true (.of_runs (runs_map.mpr ?_)) nofun
    exact (fileDenyWrite_spec hs hv).mono fun _ _ h => h.2.1.refs
  | allowWrite f =>
    obtain ⟨hrun, _, hk⟩ := fileAllowWrite_run hs hv.isOpen hv.notMap
    exact iff_of_true (.of_runs (runs_map.mpr ((runs_of_run hrun).mpr hk.refs))) nofun

end Balance

/-- **References are balanced**, in every state reached from a freshly formatted file system and
    whatever the outcomes of the allocations, in every call but `dir_lookup_file`; that one is so only
    where the root directory cannot be opened, and then it does not return. A sector has at most one
    open inode, and `deny_write_cnt` is the number of files that deny writes, never above
    `open_cnt`. -/
theorem references_balanced_iff {allocs : List Bool} {s : FileSys} (h : FsReach allocs s) :
    (∀ c : FsCall, c.Valid s → ((∃ r s', c.run.run s = .ok (r, s')) ∨ c.Asserts s) ∧
      (c.Balanced s ↔ ∀ name, c = .lookupFile name → s.rootRefused = true)) ∧ s.openInodes.Nodup ∧
    (∀ x ∈ s.openInodes, ∀ y ∈ s.openInodes, (s.inode x).sector = (s.inode y).sector → x = y) ∧
    ∀ x ∈ s.openInodes, 0 < (s.inode x).openCnt ∧ (s.inode x).denyWriteCnt ≤ (s.inode x).openCnt ∧
      (s.inode x).denyWriteCnt = s.deniersOn x := by
  obtain ⟨hs, hl, _⟩ := fsReach_ok h
  refine ⟨fun c hv => ⟨?_, c.balanced_iff hs hl hv⟩, hs.heap.nodup, hs.heap.single, fun x hx =>
    ⟨hs.heap.counted x hx, hs.heap.deny_le hx, hs.heap.deny x hx⟩⟩
  rcases c.spec hs hl hv with hrun | herr
  · obtain ⟨r, s', he, _⟩ := hrun
    exact .inl ⟨r, s', he⟩
  · exact .inr herr

/-- On the small device "a" can be created and removed, and the counts are as before. -/
theorem references_balanced_small : ∃ s, smallDisk = some s ∧
    (FsCall.create nameA ⟨1, by decide⟩).Balanced s ∧ (FsCall.remove nameA).Balanced s := by
  obtain ⟨s, hs⟩ : ∃ s, smallDisk = some s := Option.isSome_iff_exists.mp (by decide)
  have hb := (references_balanced_iff (smallDisk_reach hs)).1
  exact ⟨s, hs, (hb (.create nameA ⟨1, by decide⟩) trivial).2.mpr nofun,
    (hb (.remove nameA) trivial).2.mpr nofun⟩

/-- The counts of the inode that is opened next, before and after "a" is looked up on the small
    device. -/
def lookedUp : Option (ℕ × ℕ) :=
  smallDisk.bind fun s => match (FsCall.lookupFile nameA).run.run s with
    | .ok (_, s') => some (s.refs s.nextInode, s'.refs s.nextInode)
    | .error _ => none

/-- **`dir_lookup_file` leaves the root directory open.** -/
theorem lookup_file_leaks : lookedUp = some (0, 1) ∧
    ∃ s, smallDisk = some s ∧ ¬ (FsCall.lookupFile nameA).Balanced s := by
  have hup : lookedUp = some (0, 1) := by decide
  refine ⟨hup, ?_⟩
  obtain ⟨s, hs, hrun⟩ := Option.bind_eq_some_iff.mp hup
  refine ⟨s, hs, fun hb => ?_⟩
  split at hrun
  · rename_i r s' he
    have hsame : s'.refs = s.refs := hb r s' he
    rw [hsame] at hrun
    cases hzero : s.refs s.nextInode <;> rw [hzero] at hrun <;> cases hrun
  · cases hrun

end Pintos
