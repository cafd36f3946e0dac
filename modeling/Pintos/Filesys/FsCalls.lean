/-
  Subject:   The calls of filesys.c and file.c, each with its specification: from a state with the
             invariant it RETURNS, the invariant holds again, and the counts, the files and the
             directory are as the specification says, whatever the outcomes of the allocations.

  `filesys_create` takes the sector of the inode, then the sectors of the data, then a slot of the
  directory. What it gives back when it fails is the sector of the inode; if the slot was what it did
  not get, the sectors of the data stay taken (`Leaked`).
-/
import Pintos.Filesys.DirRun

namespace Pintos

open Lib Function

/-! ## 1. Creating -/

/-- There is room for a file with `n` data sectors: `free_map_allocate` finds `σ` for the inode and
    then `k` for the data. -/
structure Room (s : FileSys) (n σ k : ℕ) : Prop where
  inode : bitmapScan s.size s.freeMap 1 = some σ
  data : bitmapScan s.size (bitmapSetMultiple s.freeMap σ 1 true) n = some k

/-- A failed `filesys_create` that has taken nothing. -/
structure Untaken (s s' : FileSys) (n : ℕ) : Prop where
  freeMap : s'.freeMap = s.freeMap
  granted : s.allocs = [] → ¬ ∃ σ k, Room s n σ k

/-- A failed `filesys_create` that has kept the data sectors. -/
structure Leaked (s s' : FileSys) (name : CString) (n σ k : ℕ) : Prop where
  room : Room s n σ k
  freeMap : s'.freeMap = bitmapSetMultiple s.freeMap k n true
  granted : s.allocs = [] → Refuses s.disk name

/-- A successful `filesys_create`: entry `i` is `e`, with the name and sector `σ`. -/
structure Created (s s' : FileSys) (name : CString) (n σ i : ℕ) (e : DirEntry) : Prop where
  room : ∃ k, Room s n σ k
  inside : i < 16
  valid : ValidName name
  sector : e.inodeSector = σ
  inUse : e.inUse = true
  string : e.string = name.val
  entries : ∀ j < 16, entry s'.disk j = if j = i then e else entry s.disk j
  granted : s.allocs = [] → FreeSlot s.disk i ∧ ∀ j < 16, ¬ Match s.disk name j

variable {s' s₁ s₂ : FileSys} {c k n pos x σ τ : ℕ} {newPos size : Int} {name : CString}

section Create

variable {s : FileSys} {h : ℕ}

theorem live_mono (hs : FsOk s) (hk : FsKeeps s s') (hd : s'.disk = s.disk)
    (hrefs : ∀ h, s.refs h ≤ s'.refs h) (hσ : s.Live σ) : s'.Live σ := by
  refine hσ.of_opened hd.symm fun ⟨h, hh, hsec⟩ => ?_
  have hpos : 0 < s.refs h := by
    rw [refs_of_mem hh]
    exact hs.heap.counted h hh
  exact .inr (.inr (.inl ⟨h, mem_of_refs (Nat.lt_of_lt_of_le hpos (hrefs h)),
    (hk.sector h (hs.heap.fresh h hh)).trans hsec⟩))

/-- The end of `filesys_create`. -/
def createEnd (h σ : ℕ) (success : Bool) : FsM Bool := do
  if !success ∧ σ ≠ 0 then freeMapRelease σ 1
  dirClose (some h)
  return success

theorem createEnd_false (hs : FsOk s) (hr : IsRoot s h) (h0 : σ ≠ 0) (hin : σ < s.size)
    (hm : s.freeMap σ = true) (hσ : Unowned s σ) :
    Runs (createEnd h σ false) s fun r s' => r = false ∧ FsOk s' ∧ FsKeeps s s' ∧
      s'.refs = unbump s.refs h ∧ MapOnly s s' ∧
      s'.freeMap = bitmapSetMultiple s.freeMap σ 1 false := by
  have hone : ∀ x, σ ≤ x → x < σ + 1 → x = σ := fun x h1 h2 => by omega
  unfold createEnd
  rw [if_pos ⟨rfl, h0⟩, runs_bind]
  refine (freeMapRelease_spec hs hin (fun x h1 h2 => hone x h1 h2 ▸ hm)
    fun τ x hτ h1 h2 => hone x h1 h2 ▸ hσ τ hτ).mono fun _ s₁ h₁ => ?_
  obtain ⟨hs1, hod, hcalm, hmo, hmap⟩ := h₁
  rw [runs_bind]
  refine (dirClose_spec hs1 (hr.onlyDisk hod)).mono fun _ s₂ h₂ => ?_
  obtain ⟨hs2, hk, hd, hrefs, _⟩ := h₂
  rw [runs_pure]
  refine ⟨rfl, hs2, (hod.keeps hcalm).trans hk, ?_, fun x hx => ?_, hd.freeMap.trans hmap⟩
  · rw [hrefs, hod.refs]
  · rw [hd.disk]
    exact hmo x hx

theorem createEnd_true (hs : FsOk s) (hr : IsRoot s h) (σ : ℕ) :
    Runs (createEnd h σ true) s fun r s' => r = true ∧ FsOk s' ∧ FsKeeps s s' ∧
      s'.refs = unbump s.refs h ∧ SameDisk s s' := by
  unfold createEnd
  rw [if_neg fun h => Bool.false_ne_true h.1, runs_bind]
  refine (dirClose_spec hs hr).mono fun _ s₁ h1 => ?_
  obtain ⟨hs1, hk, hd, hrefs, _⟩ := h1
  rw [runs_pure]
  exact ⟨rfl, hs1, hk, hrefs, hd⟩

/-- What `filesys_create` does once the root directory is open. -/
def Creates (s s' : FileSys) (name : CString) (n : ℕ) (success : Bool) : Prop :=
  LeavesFiles s s' ∧ match success with
  | false => Spares s s' ∧ (Untaken s s' n ∨ ∃ σ k, Leaked s s' name n σ k)
  | true => ∃ σ i e, Created s s' name n σ i e

/-- The sector found for an inode: nobody owns it, and it is not that of the free map. -/
theorem scan_one (hs : FsOk s) (hscan : bitmapScan s.size s.freeMap 1 = some σ) :
    σ < s.size ∧ s.freeMap σ = false ∧ Unowned s σ ∧ σ ≠ 0 := by
  obtain ⟨hin, hfree⟩ := bitmapScan_some hscan
  have hσ := hfree σ (Nat.le_refl σ) (Nat.lt_succ_self σ)
  have hun := hs.unowned_of_free hσ
  exact ⟨hin, hσ, hun, fun h0 => hun 0 live_map (.inl h0)⟩

/-- The middle of `filesys_create`: `s` is the state in which `free_map_allocate` was called, `s₁` the
    one in which it has given `σ`. -/
theorem createAt_spec (name : CString) (h0 : 0 ≤ size) (hlen : size < 2 ^ 31) (hs : FsOk s)
    (hs1 : FsOk s₁) (hod : OnlyDisk s s₁) (hcalm : Calm s s₁) (hmo : MapOnly s s₁) (hr : IsRoot s h)
    (hscan : bitmapScan s.size s.freeMap 1 = some σ)
    (hmap : s₁.freeMap = bitmapSetMultiple s.freeMap σ 1 true) : Runs (do
        let created ← inodeCreate σ size
        let success ← if created then dirAdd h name σ else pure false
        createEnd h σ success) s₁ fun r s' => FsOk s' ∧ FsKeeps s s' ∧ s'.refs = unbump s.refs h ∧
      Creates s s' name (bytesToSectors size.toNat) r := by
  obtain ⟨hin, hfree, hun, hne⟩ := scan_one hs hscan
  have hsize : s₁.size = s.size := by rw [hod]
  have hself : s₁.freeMap σ = true := by
    rw [hmap]
    exact if_pos ⟨Nat.le_refl σ, Nat.lt_succ_self σ⟩
  have hun1 : Unowned s₁ σ := hun.spares hs hmo.spares hod
  rw [runs_bind]
  refine (inodeCreate_spec hs1 h0 hlen (hsize ▸ hin) hself hun1).mono fun r s₂ h2 => ?_
  obtain ⟨hs2, hod2, hcalm2, hsp2, hres⟩ := h2
  have hod2' := hod.trans hod2
  have hk2 := hod2'.keeps (hcalm.trans hcalm2)
  have hsp : Spares s s₂ := hmo.spares.trans_disk hs hod hsp2
  have hr2 := hr.onlyDisk hod2'
  have hsize2 : s₂.size = s.size := hk2.size
  rw [hmap, hsize] at hres
  cases r with
  | false =>
    rw [if_neg Bool.false_ne_true, runs_bind, runs_pure]
    obtain ⟨hmap2, hno⟩ := hres
    have hun2 : Unowned s₂ σ := hun.spares hs hsp hod2'
    refine (createEnd_false hs2 hr2 hne (hsize2 ▸ hin) (by rw [hmap2, ← hmap]; exact hself)
      hun2).mono fun r s' h' => ?_
    obtain ⟨rfl, hs', hk', hrefs, hmo', hmap'⟩ := h'
    have hsp' : Spares s s' := hsp.trans_disk hs hod2' hmo'.spares
    refine ⟨hs', hk2.trans hk', by rw [hrefs, hod2'.refs], hsp'.leaves hs, hsp', .inl ⟨?_, ?_⟩⟩
    · rw [hmap', hmap2]
      exact bitmap_undo (bitmapScan_some hscan).2
    · intro ha hroom
      obtain ⟨σ', k, hroom⟩ := hroom
      have hσ' : σ' = σ := Option.some.inj (hroom.inode.symm.trans hscan)
      subst hσ'
      rw [hroom.data] at hno
      cases hno (hcalm.allocs ha)
  | true =>
    rw [if_pos rfl]
    obtain ⟨hnew, k, hk, hmap2⟩ := hres
    have hroom : Room s (bytesToSectors size.toNat) σ k := ⟨hscan, hk⟩
    have hself2 : s₂.freeMap σ = true := hnew.marked σ (.inl rfl)
    rw [runs_bind]
    refine (dirAdd_spec name hs2 hr2 hnew).mono fun r s₃ h3 => ?_
    obtain ⟨hs3, hod3, hcalm3, hmap3, hres⟩ := h3
    have hod3' := hod2'.trans hod3
    have hk3 := hod3'.keeps ((hcalm.trans hcalm2).trans hcalm3)
    have hr3 := hr.onlyDisk hod3'
    have hallocs : s.allocs = [] → s₂.allocs = [] := fun ha => hcalm2.allocs (hcalm.allocs ha)
    have hentry : entry s₂.disk = entry s.disk := hsp.entry hs
    cases r with
    | false =>
      obtain ⟨hdisk, hrefuse⟩ := hres
      have hsp3 : Spares s s₃ := fun τ x hτ hx hno => by
        rw [hdisk]
        exact hsp τ x hτ hx hno
      have hun3 : Unowned s₃ σ := hun.spares hs hsp3 hod3'
      refine (createEnd_false hs3 hr3 hne (hk3.size ▸ hin) (by rw [hmap3]; exact hself2)
        hun3).mono fun r s' h' => ?_
      obtain ⟨rfl, hs', hk', hrefs, hmo', hmap'⟩ := h'
      have hsp' : Spares s s' := hsp3.trans_disk hs hod3' hmo'.spares
      refine ⟨hs', hk3.trans hk', by rw [hrefs, hod3'.refs], hsp'.leaves hs, hsp',
        .inr ⟨σ, k, hroom, ?_, fun ha => ?_⟩⟩
      · rw [hmap', hmap3, hmap2]
        refine bitmap_undo_one hfree fun hin => ?_
        have hclear := (bitmapScan_some hk).2 σ hin.1 hin.2
        rw [← hmap, hself] at hclear
        cases hclear
      · have href := hrefuse (hallocs ha)
        unfold Refuses Match at href ⊢
        rwa [hentry] at href
    | true =>
      obtain ⟨i, e, hadd⟩ := hres
      refine (createEnd_true hs3 hr3 σ).mono fun r s' h' => ?_
      obtain ⟨rfl, hs', hk', hrefs, hd'⟩ := h'
      have hdisk : s'.disk = (s₂.setEntry i e).disk := hd'.disk.trans hadd.disk
      have hsys : SystemOnly s₂ s' := fun x hx hx' => by
        rw [hdisk]
        exact SystemOnly.setEntry hs2 hadd.inside e x hx hx'
      refine ⟨hs', hk3.trans hk', by rw [hrefs, hod3'.refs], ?_, σ, i, e, ⟨k, hroom⟩,
        hadd.inside, hadd.valid, hadd.sector, hadd.inUse, hadd.string, fun j hj => ?_,
        fun ha => ?_⟩
      · refine (hsp.leaves hs).trans (fun τ hτ => ?_) (hsys.leaves hs2)
        rw [hsp.live hs hod2']
        exact hτ
      · have hsec : e.inodeSector < 2 ^ 32 := by
          rw [hadd.sector]
          exact Nat.lt_trans hin hs.dir.sectors
        rw [hdisk, setEntry_entry hs2 hadd.inside hsec hadd.fits hj, hentry]
      · obtain ⟨hslot, hno⟩ := hadd.granted (hallocs ha)
        refine ⟨hslot.congr hentry.symm, ?_⟩
        unfold Match at hno ⊢
        rwa [hentry] at hno

theorem Room.congr (hsize : s₁.size = s.size) (hmap : s₁.freeMap = s.freeMap) :
    Room s₁ n σ k ↔ Room s n σ k := by
  refine ⟨fun hr => ⟨?_, ?_⟩, fun hr => ⟨?_, ?_⟩⟩
  · rw [← hsize, ← hmap]
    exact hr.inode
  · rw [← hsize, ← hmap]
    exact hr.data
  · rw [hsize, hmap]
    exact hr.inode
  · rw [hsize, hmap]
    exact hr.data

/-- `Creates` does not look at what opening the root directory changes. -/
theorem Creates.before {success : Bool} (hk : FsKeeps s s₁) (hd : SameDisk s s₁)
    (hl : ∀ σ, s.Live σ → s₁.Live σ) (hc : Creates s₁ s' name n success) :
    Creates s s' name n success := by
  obtain ⟨hleaves, hres⟩ := hc
  have hroom : ∀ σ k, Room s₁ n σ k ↔ Room s n σ k := fun σ k => Room.congr hk.size hd.freeMap
  refine ⟨?_, ?_⟩
  · have hsame : LeavesFiles s s₁ :=
      ⟨fun _ _ => by rw [hd.disk], fun _ _ _ _ _ _ => by rw [hd.disk]⟩
    exact hsame.trans hl hleaves
  · cases success with
    | false =>
      obtain ⟨hsp, hres⟩ := hres
      refine ⟨fun σ x hσ hx hno => ?_, ?_⟩
      · rw [← hd.disk] at hx hno ⊢
        exact hsp σ x (hl σ hσ) hx hno
      · rcases hres with hun | ⟨σ, k, hlk⟩
        · refine .inl ⟨hun.freeMap.trans hd.freeMap, fun ha hr => ?_⟩
          obtain ⟨σ, k, hr⟩ := hr
          exact hun.granted (hk.calm.allocs ha) ⟨σ, k, (hroom σ k).mpr hr⟩
        · refine .inr ⟨σ, k, (hroom σ k).mp hlk.room, ?_, fun ha => ?_⟩
          · rw [hlk.freeMap, hd.freeMap]
          · rw [← hd.disk]
            exact hlk.granted (hk.calm.allocs ha)
    | true =>
      obtain ⟨σ, i, e, hc⟩ := hres
      obtain ⟨k, hr⟩ := hc.room
      refine ⟨σ, i, e, ⟨k, (hroom σ k).mp hr⟩, hc.inside, hc.valid, hc.sector, hc.inUse, hc.string,
        fun j hj => ?_, fun ha => ?_⟩
      · rw [hc.entries j hj, hd.disk]
      · rw [← hd.disk]
        exact hc.granted (hk.calm.allocs ha)

/-- What `filesys_create` has done when it returns `r`; the file was to have `n` data sectors. -/
structure CreateCall (s s' : FileSys) (name : CString) (n : ℕ) (r : Bool) : Prop where
  ok : FsOk s'
  keeps : FsKeeps s s'
  refs : s'.refs = s.refs
  creates : Creates s s' name n r

/-- `filesys_create` fails at once, or it comes to `inode_create` with a sector for the inode. -/
structure CreateBegun (s : FileSys) (h σ : ℕ) (s₁ s₂ : FileSys) : Prop where
  ok₁ : FsOk s₁
  keeps : FsKeeps s s₁
  same : SameDisk s s₁
  root : IsRoot s₁ h
  refs : s₁.refs = bump s.refs h
  ok₂ : FsOk s₂
  onlyDisk : OnlyDisk s₁ s₂
  calm : Calm s₁ s₂
  mapOnly : MapOnly s₁ s₂
  scan : bitmapScan s₁.size s₁.freeMap 1 = some σ
  freeMap : s₂.freeMap = bitmapSetMultiple s₁.freeMap σ 1 true

theorem CreateBegun.live (hs : FsOk s) (hb : CreateBegun s h σ s₁ s₂) (hτ : s.Live τ) : s₁.Live τ :=
  live_mono hs hb.keeps hb.same.disk (fun x => by rw [hb.refs]; exact le_bump _ _ _) hτ

theorem filesysCreate_cases (name : CString) (size : Int) (n : ℕ) (hs : FsOk s) :
    Runs (filesysCreate name size) s (fun r s' => CreateCall s s' name n r) ∨
      ∃ h σ s₁ s₂, CreateBegun s h σ s₁ s₂ ∧ (filesysCreate name size).run s =
        (do
          let created ← inodeCreate σ size
          let success ← if created then dirAdd h name σ else pure false
          createEnd h σ success : FsM Bool).run s₂ := by
  obtain ⟨r, s₁, hrun1, hs1, hk1, hd1, hres⟩ := dirOpenRoot_spec hs
  have hopen : (filesysCreate name size).run s = _ := Prog.run_bind_ok hrun1
  cases r with
  | none =>
    have hsp : Spares s s₁ := .of_same hd1
    exact .inl ⟨false, s₁, hopen, hs1, hk1, hres.1, hsp.leaves hs, hsp,
      .inl ⟨hd1.freeMap, fun ha => absurd ha hres.2⟩⟩
  | some h =>
    obtain ⟨hr, hrefs1, _⟩ := hres
    obtain ⟨r, s₂, hrun2, hs2, hod, hcalm, hmo, hres⟩ := freeMapAllocate_spec hs1 1
    have hstep := hopen.trans (Prog.run_bind_ok hrun2)
    cases r with
    | none =>
      obtain ⟨_, s₃, hrun3, hs3, hk3, hd3, hrefs3, _⟩ := dirClose_spec hs2 (hr.onlyDisk hod)
      have hk := (hod.keeps hcalm).trans hk3
      have hsp : Spares s s₃ := fun τ x hτ hx hno => by
        have hτ1 := live_mono hs hk1 hd1.disk (fun x => by rw [hrefs1]; exact le_bump _ _ _) hτ
        rw [← hd1.disk] at hx hno ⊢
        rw [hd3.disk]
        exact hmo.spares τ x hτ1 hx hno
      refine .inl ⟨false, s₃, hstep.trans (Prog.run_bind_ok hrun3), hs3, hk1.trans hk, ?_,
        hsp.leaves hs, hsp, .inl ⟨?_, fun ha hroom => ?_⟩⟩
      · rw [hrefs3, hod.refs, hrefs1, unbump_bump]
      · rw [hd3.freeMap, hres.1, hd1.freeMap]
      · obtain ⟨σ, k, hroom⟩ := hroom
        have hnone := hres.2 (hk1.calm.allocs ha)
        rw [hk1.size, hd1.freeMap, hroom.inode] at hnone
        cases hnone
    | some σ =>
      exact .inr ⟨h, σ, s₁, s₂, ⟨hs1, hk1, hd1, hr, hrefs1, hs2, hod, hcalm, hmo, hres.1, hres.2⟩,
        hstep⟩

theorem filesysCreate_spec (name : CString) (h0 : 0 ≤ size) (hlen : size < 2 ^ 31) (hs : FsOk s) :
    Runs (filesysCreate name size) s fun r s' =>
      CreateCall s s' name (bytesToSectors size.toNat) r := by
  rcases filesysCreate_cases name size (bytesToSectors size.toNat) hs with hfail | hgo
  · exact hfail
  · obtain ⟨h, σ, s₁, s₂, hb, hrun⟩ := hgo
    obtain ⟨r, s₃, hrun3, hs3, hk3, hrefs3, hc⟩ := createAt_spec name h0 hlen hb.ok₁ hb.ok₂ hb.onlyDisk
      hb.calm hb.mapOnly hb.root hb.scan hb.freeMap
    refine ⟨r, s₃, hrun.trans hrun3, hs3, hb.keeps.trans hk3, ?_,
      hc.before hb.keeps hb.same fun τ hτ => hb.live hs hτ⟩
    rw [hrefs3, hb.refs, unbump_bump]

/-- A negative size: `filesys_create` fails before it comes to `inode_create`, or the assertion there
    does. -/
theorem filesysCreate_negative (name : CString) (hneg : size < 0) (n : ℕ) (hs : FsOk s) :
    Runs (filesysCreate name size) s (fun r s' => CreateCall s s' name n r) ∨
      (filesysCreate name size).run s = .error (.stopped (.assertion "length >= 0")) := by
  rcases filesysCreate_cases name size n hs with hfail | hgo
  · exact .inl hfail
  · obtain ⟨h, σ, s₁, s₂, _, hrun⟩ := hgo
    refine .inr (hrun.trans (Prog.run_bind_error ?_))
    have hassert : (assert (decide (0 ≤ size)) "length >= 0").run s₂ =
        .error (.stopped (.assertion "length >= 0")) := by
      rw [decide_eq_false (Int.not_le.mpr hneg)]
      rfl
    exact Prog.run_bind_error hassert

end Create

/-! ## 2. Removing -/

section Remove

variable {s : FileSys}

theorem filesysRemove_spec (name : CString) (hs : FsOk s) :
    Runs (filesysRemove name) s fun r s' => FsOk s' ∧ FsKeeps s s' ∧ s'.refs = s.refs ∧ match r with
      | false => SameDisk s s' ∧ (s.allocs = [] → ∀ j < 16, ¬ Match s.disk name j)
      | true => SystemOnly s s' ∧ ∃ i, Finds s.disk name i ∧ Erased s.disk s'.disk i := by
  unfold filesysRemove
  rw [runs_bind]
  refine (dirOpenRoot_spec hs).mono fun r s₁ h1 => ?_
  obtain ⟨hs1, hk1, hd1, hres⟩ := h1
  cases r with
  | none =>
    unfold dirClose inodeClose
    simp only [runs_bind, runs_pure]
    exact ⟨hs1, hk1, hres.1, hd1, fun ha => absurd ha hres.2⟩
  | some h =>
    obtain ⟨hr, hrefs1, _⟩ := hres
    simp only [runs_bind]
    refine (dirRemove_spec name hs1 hr).mono fun r s₂ h2 => ?_
    obtain ⟨hs2, hk2, hrefs2, hres⟩ := h2
    have hr2 : IsRoot s₂ h := hr.keeps hs1 hk2 (by rw [hrefs2])
    refine (dirClose_spec hs2 hr2).mono fun _ s₃ h3 => ?_
    obtain ⟨hs3, hk3, hd3, hrefs3, _⟩ := h3
    rw [runs_pure]
    refine ⟨hs3, (hk1.trans hk2).trans hk3, ?_, ?_⟩
    · rw [hrefs3, hrefs2, hrefs1, unbump_bump]
    · cases r with
      | false =>
        refine ⟨(hd1.trans hres.1).trans hd3, fun ha => ?_⟩
        rw [← hd1.disk]
        exact hres.2 (hk1.calm.allocs ha)
      | true =>
        obtain ⟨hsys, i, hi, he⟩ := hres
        rw [hd1.disk] at hi
        refine ⟨(hd1.system.trans hs hsys).trans hs hd3.system, i, hi, ?_⟩
        rw [hd1.disk] at he
        rw [hd3.disk]
        exact he

end Remove

/-! ## 3. Files -/

section Files

variable {s : FileSys}

/-- **`file_open`** of an inode with a reference that no file holds. -/
theorem fileOpen_spec (hs : FsOk s) (hroom : s.filesOn x < s.refs x) (h0 : (s.inode x).sector ≠ 0)
    (h1 : (s.inode x).sector ≠ 1) : Runs (fileOpen (some x)) s fun r s' => FsOk s' ∧ match r with
      | none => FsKeeps s s' ∧ s'.refs = unbump s.refs x ∧ MapOnly s s' ∧ s.allocs ≠ [] ∧
          ((s.inode x).removed = false → SameDisk s s')
      | some f => f = s.nextFile ∧ s' = s.pop.openFile x ∧ Granted s s' := by
  have hx : x ∈ s.openInodes := mem_of_refs (Nat.lt_of_le_of_lt (Nat.zero_le _) hroom)
  have hpop : FsOk s.pop := hs.setAllocs _
  unfold fileOpen
  rw [runs_bind, runs_malloc]
  cases hg : s.granted with
  | true =>
    simp only [runs_bind, runs_get, runs_set, runs_pure]
    have hroom' : s.pop.filesOn x < (s.pop.inode x).openCnt := by
      rw [refs_of_mem hx] at hroom
      exact hroom
    refine ⟨hpop.openFile hx hroom' h0 h1, rfl, rfl, ?_⟩
    obtain ⟨n, hn⟩ := Granted.pop hg
    exact ⟨n, hn⟩
  | false =>
    simp only [runs_bind, runs_pure]
    refine (inodeClose_spec hpop hroom).mono fun _ s' h' => ?_
    obtain ⟨hs', hk, hrefs, hrel, hsame⟩ := h'
    refine ⟨hs', (FsKeeps.pop s).trans hk, hrefs, fun y hy => hrel.disk y hy, fun ha => ?_,
      fun hrem => (OnlyAllocs.pop s).sameDisk.trans (hsame (.inl hrem)).1⟩
    unfold FileSys.granted at hg
    rw [ha] at hg
    cases hg

/-- `lock_filesys` is taken or given back. -/
def FileSys.setLocked (s : FileSys) (b : Bool) : FileSys := { s with locked := b }

theorem FsOk.setLocked (hs : FsOk s) (b : Bool) : FsOk (s.setLocked b) where
  sectors := { hs.sectors with }
  dir := hs.dir
  heap := { hs.heap with }
  tie := { hs.tie with mapFile := hs.tie.mapFile.imp fun _ hf => { hf with } }

/-- What is kept under the lock is kept by taking it, acting and giving it back. -/
theorem FsKeeps.locked_section (hl : s.locked = false) (hk : FsKeeps (s.setLocked true) s') :
    FsKeeps s (s'.setLocked false) where
  __ := hk
  locked := hl.symm
  calm := ⟨hk.calm.allocs, fun hst => by
    have hst' := hk.calm.steady ⟨hst.granted, hst.synced⟩
    exact ⟨hst'.granted, hst'.synced⟩⟩

/-- What `filesys_open` has done when it returns `f`: it has taken a reference to the inode `x` of the
    file with the name, and has made a `struct file` for it. -/
structure Opens (s s' : FileSys) (name : CString) (f x : ℕ) (s₁ : FileSys) : Prop where
  ok : FsOk s₁
  keeps : FsKeeps s s₁
  disk : SameDisk s s₁
  refs : s₁.refs = bump s.refs x
  file : f = s₁.nextFile
  state : s' = s₁.openFile x
  granted : Granted s s'
  found : ∃ i, Finds s.disk name i ∧ (s₁.inode x).sector = (entry s.disk i).inodeSector

/-- What `filesys_open` has done when it returns `r`. -/
def OpenCall (s s' : FileSys) (name : CString) (r : Option ℕ) : Prop :=
  match r with
  | none => FsKeeps s s' ∧ SameDisk s s' ∧ s'.refs = s.refs ∧
      (s.allocs = [] → ∀ j < 16, ¬ Match s.disk name j)
  | some f => ∃ x s₁, Opens s s' name f x s₁

/-- What it has done, with the lock held, before `file_open`. -/
structure NameOpened (s s' : FileSys) (name : CString) (inode : Option ℕ) : Prop where
  ok : FsOk s'
  keeps : FsKeeps s (s'.setLocked false)
  disk : SameDisk s s'
  inode : match inode with
    | none => s'.refs = s.refs ∧ (s.allocs = [] → ∀ j < 16, ¬ Match s.disk name j)
    | some x => s'.refs = bump s.refs x ∧ Granted s s' ∧
        ∃ i, Finds s.disk name i ∧ (s'.inode x).sector = (entry s.disk i).inodeSector

theorem openName_spec (name : CString) (hs : FsOk s) (hl : s.locked = false) : Runs (do
        let dir ← dirOpenRoot
        let inode ← match dir with
          | none => pure none
          | some d => dirLookup d name
        dirClose dir
        return inode : FsM (Option ℕ)) (s.setLocked true) fun r s' => NameOpened s s' name r := by
  rw [runs_bind]
  refine (dirOpenRoot_spec (hs.setLocked true)).mono fun r s₁ h1 => ?_
  obtain ⟨hs1, hk1, hd1, hres⟩ := h1
  cases r with
  | none =>
    unfold dirClose inodeClose
    simp only [runs_bind, runs_pure]
    exact ⟨hs1, hk1.locked_section hl, ⟨hd1.disk, hd1.freeMap⟩, hres.1,
      fun ha => absurd ha hres.2⟩
  | some h =>
    obtain ⟨hr, hrefs1, hg1⟩ := hres
    simp only [runs_bind]
    refine (dirLookup_spec name hs1 hr).mono fun r s₂ h2 => ?_
    obtain ⟨hs2, hk2, hd2, hres⟩ := h2
    have hle : s₁.refs h ≤ s₂.refs h := by
      cases r with
      | none => rw [hres.1]
      | some x =>
        rw [hres.2.1]
        exact le_bump _ _ _
    refine (dirClose_spec hs2 (hr.keeps hs1 hk2 hle)).mono fun _ s₃ h3 => ?_
    obtain ⟨hs3, hk3, hd3, hrefs3, hg3⟩ := h3
    have hd := (hd1.trans hd2).trans hd3
    rw [runs_pure]
    refine ⟨hs3, ((hk1.trans hk2).trans hk3).locked_section hl, ⟨hd.disk, hd.freeMap⟩, ?_⟩
    have hdisk : s₁.disk = s.disk := hd1.disk
    rw [hdisk] at hres
    cases r with
    | none =>
      refine ⟨?_, fun ha => hres.2 (hk1.calm.allocs ha)⟩
      rw [hrefs3, hres.1, hrefs1, unbump_bump]
      rfl
    | some x =>
      obtain ⟨hx, hrefs2, hg2, i, hi, hsec⟩ := hres
      have hsec3 := hk3.sector x (hs2.heap.fresh x hx)
      refine ⟨?_, ?_, i, hi, hsec3.trans hsec⟩
      · rw [hrefs3, hrefs2, hrefs1]
        exact unbump_bump_bump s.refs h x
      · obtain ⟨n, hn⟩ := hg1.trans hg2
        exact ⟨n, by rw [hg3]; exact hn⟩

theorem openFound_spec {inode : Option ℕ} (hs : FsOk s) (h1 : NameOpened s s₁ name inode) :
    Runs (fileOpen inode) (s₁.setLocked false) fun r s' => FsOk s' ∧ OpenCall s s' name r := by
  have hok := h1.ok.setLocked false
  have hd : SameDisk s (s₁.setLocked false) := ⟨h1.disk.disk, h1.disk.freeMap⟩
  have hres := h1.inode
  cases inode with
  | none =>
    unfold fileOpen inodeClose
    simp only [runs_bind, runs_malloc, runs_pure]
    exact ⟨hok.setAllocs _, h1.keeps.trans (.pop _), hd.trans (OnlyAllocs.pop _).sameDisk, hres⟩
  | some x =>
    obtain ⟨hrefs, hg, i, hi, hsec⟩ := hres
    have hnamed := hs.dir.named i hi.inside hi.found.1
    have hroom : (s₁.setLocked false).filesOn x < (s₁.setLocked false).refs x := by
      rw [h1.keeps.filesOn]
      show s.filesOn x < s₁.refs x
      rw [hrefs]
      unfold bump
      rw [update_self]
      exact Nat.lt_succ_of_le (hs.heap.filesOn_le_refs x)
    have hx := mem_of_refs (Nat.lt_of_le_of_lt (Nat.zero_le _) hroom)
    -- a file that has its name is not a removed one
    have hkept : (s₁.inode x).removed = false := by
      cases hrem : (s₁.inode x).removed with
      | false => rfl
      | true =>
        refine absurd ?_ (h1.ok.tie.removed x hx hrem).2.2
        rw [hsec, h1.disk.disk]
        exact ⟨i, hi.inside, hi.found.1, rfl⟩
    rw [← hsec] at hnamed
    refine (fileOpen_spec hok hroom hnamed.1 hnamed.2).mono fun r s' h' => ?_
    obtain ⟨hs', hres⟩ := h'
    refine ⟨hs', ?_⟩
    cases r with
    | none =>
      obtain ⟨hk, hrefs', _, hne, hsame⟩ := hres
      refine ⟨h1.keeps.trans hk, hd.trans (hsame hkept), ?_,
        fun ha => absurd (h1.keeps.calm.allocs ha) hne⟩
      rw [hrefs']
      show unbump s₁.refs x = s.refs
      rw [hrefs, unbump_bump]
    | some f =>
      obtain ⟨hf, rfl, hg'⟩ := hres
      obtain ⟨m, hm⟩ := hg
      exact ⟨x, _, hok.setAllocs _, h1.keeps.trans (.pop _),
        hd.trans (OnlyAllocs.pop _).sameDisk, hrefs, hf, rfl, Granted.trans ⟨m, hm⟩ hg',
        i, hi, hsec⟩

theorem filesysOpen_spec (name : CString) (hs : FsOk s) (hl : s.locked = false) :
    Runs (filesysOpen name) s fun r s' => FsOk s' ∧ OpenCall s s' name r := by
  have hready : (!s.locked) = true := by rw [hl]; rfl
  have hname := openName_spec name hs hl
  unfold filesysOpen
  simp only [runs_bind, runs_await, runs_modify] at hname ⊢
  refine ⟨hready, hname.mono fun dir s₁ h1 => ?_⟩
  cases dir with
  | none =>
    simp only [runs_bind, runs_pure, runs_modify, runs_yieldAt] at h1 ⊢
    exact h1.mono fun _ s₂ h2 => openFound_spec hs h2
  | some h =>
    simp only [runs_bind, runs_modify, runs_yieldAt, runs_pure] at h1 ⊢
    exact h1.mono fun inode s₂ h2 => h2.mono fun _ s₃ h3 => openFound_spec hs h3

end Files

/-! ## 4. Denying and allowing writes -/

/-- **What a call on an open file leaves alone.** -/
structure CallKeeps (s s' : FileSys) : Prop where
  size : s'.size = s.size
  locked : s'.locked = s.locked
  mapFile : s'.freeMapFile = s.freeMapFile
  openFiles : s'.openFiles = s.openFiles
  refs : s'.refs = s.refs
  calm : Calm s s'

theorem CallKeeps.refl (s : FileSys) : CallKeeps s s := ⟨rfl, rfl, rfl, rfl, rfl, .refl s⟩

section Deny

variable {s : FileSys}

/-- `file_deny_write` (`b` is `true`) or `file_allow_write` has changed the file and its inode. -/
def FileSys.setDeny (s : FileSys) (f : ℕ) (b : Bool) (n : ℕ) : FileSys :=
  (s.setFile f { s.file f with denyWrite := b }).setInode (s.file f).inode
    { s.inode (s.file f).inode with denyWriteCnt := n }

variable {f h : ℕ}

theorem CallKeeps.setDeny (hs : FsOk s) (hf : f ∈ s.openFiles) (b : Bool) (n : ℕ) :
    CallKeeps s (s.setDeny f b n) := by
  refine ⟨rfl, rfl, rfl, rfl, ?_, id, fun hst => ⟨hst.granted, hst.synced⟩⟩
  have hh := hs.heap.files f hf
  have hrefs : (s.setDeny f b n).refs =
      update s.refs (s.file f).inode (s.inode (s.file f).inode).openCnt :=
    refs_setInode (s := s.setFile f { s.file f with denyWrite := b }) hh _
  rw [hrefs, ← refs_of_mem hh, update_eq_self]

theorem HeapOk.deny_le (hs : HeapOk s) (hh : h ∈ s.openInodes) :
    (s.inode h).denyWriteCnt ≤ (s.inode h).openCnt := by
  rw [hs.deny h hh]
  refine Nat.le_trans (List.countP_mono_left fun f _ hf => ?_) (hs.held h hh)
  simp only [decide_eq_true_eq] at hf ⊢
  exact hf.1

theorem HeapOk.deny_pos (hs : HeapOk s) (hf : f ∈ s.openFiles) (hd : (s.file f).denyWrite = true) :
    0 < (s.inode (s.file f).inode).denyWriteCnt := by
  rw [hs.deny _ (hs.files f hf)]
  exact List.countP_pos_iff.mpr ⟨f, hf, by simp [hd]⟩

theorem setDeny_inode (s : FileSys) (f : ℕ) (b : Bool) (n : ℕ) :
    (s.setDeny f b n).inode (s.file f).inode =
      { s.inode (s.file f).inode with denyWriteCnt := n } :=
  update_self ..

theorem inodeDenyWrite_run (hle : (s.inode h).denyWriteCnt + 1 ≤ (s.inode h).openCnt) :
    (inodeDenyWrite h).run s =
      .ok ((), s.setInode h { s.inode h with denyWriteCnt := (s.inode h).denyWriteCnt + 1 }) := by
  apply Runs.run_eq
  unfold inodeDenyWrite FileSys.setInode
  simp only [runs_bind, runs_modify, runs_get, runs_assert, update_self]
  exact ⟨decide_eq_true hle, trivial, trivial⟩

theorem inodeAllowWrite_run (hpos : 0 < (s.inode h).denyWriteCnt)
    (hle : (s.inode h).denyWriteCnt ≤ (s.inode h).openCnt) : (inodeAllowWrite h).run s =
      .ok ((), s.setInode h { s.inode h with denyWriteCnt := (s.inode h).denyWriteCnt - 1 }) := by
  apply Runs.run_eq
  unfold inodeAllowWrite
  simp only [runs_bind, runs_get, runs_assert, runs_set]
  exact ⟨decide_eq_true hpos, decide_eq_true hle, decide_eq_true (by omega), trivial, trivial⟩

theorem fileDenyWrite_run (hs : FsOk s) (hf : f ∈ s.openFiles) (hmap : s.freeMapFile ≠ some f)
    (hd : (s.file f).denyWrite = false) : (fileDenyWrite (some f)).run s =
      .ok ((), s.setDeny f true ((s.inode (s.file f).inode).denyWriteCnt + 1)) ∧
    FsOk (s.setDeny f true ((s.inode (s.file f).inode).denyWriteCnt + 1)) := by
  have hok : FsOk (s.setDeny f true ((s.inode (s.file f).inode).denyWriteCnt + 1)) :=
    hs.setDeny hf hmap hd rfl
  refine ⟨?_, hok⟩
  have hle : (s.inode (s.file f).inode).denyWriteCnt + 1 ≤ (s.inode (s.file f).inode).openCnt := by
    have hnew := hok.heap.deny_le (h := (s.file f).inode) (hs.heap.files f hf)
    rwa [setDeny_inode] at hnew
  apply Runs.run_eq
  unfold fileDenyWrite
  simp only [runs_bind, runs_get, hd, Bool.not_false, if_true, runs_set]
  exact (runs_of_run (inodeDenyWrite_run (by exact hle))).mpr ⟨trivial, rfl⟩

/-- The state after `file_allow_write`. -/
def FileSys.allow (s : FileSys) (f : ℕ) : FileSys :=
  if (s.file f).denyWrite then s.setDeny f false ((s.inode (s.file f).inode).denyWriteCnt - 1) else s

theorem fileAllowWrite_run (hs : FsOk s) (hf : f ∈ s.openFiles) (hmap : s.freeMapFile ≠ some f) :
    (fileAllowWrite (some f)).run s = .ok ((), s.allow f) ∧ FsOk (s.allow f) ∧
      CallKeeps s (s.allow f) := by
  unfold FileSys.allow
  cases hd : (s.file f).denyWrite with
  | false =>
    rw [if_neg Bool.false_ne_true]
    refine ⟨?_, hs, rfl, rfl, rfl, rfl, rfl, .refl s⟩
    apply Runs.run_eq
    unfold fileAllowWrite
    simp [hd]
  | true =>
    have hh := hs.heap.files f hf
    have hpos := hs.heap.deny_pos hf hd
    have hle := hs.heap.deny_le hh
    rw [if_pos rfl]
    refine ⟨?_, hs.setDeny hf hmap hd (by simp; omega), .setDeny hs hf _ _⟩
    apply Runs.run_eq
    unfold fileAllowWrite
    simp only [runs_bind, runs_get, hd, if_true, runs_set]
    exact (runs_of_run (inodeAllowWrite_run (by exact hpos) (by exact hle))).mpr ⟨trivial, rfl⟩

end Deny

/-! ## 5. Calls on an open file -/

/-- What `file_close` has done. -/
structure Closes (s s' : FileSys) (f : ℕ) : Prop where
  size : s'.size = s.size
  locked : s'.locked = s.locked
  mapFile : s'.freeMapFile = s.freeMapFile
  openFiles : s'.openFiles = s.openFiles.erase f
  refs : s'.refs = unbump s.refs (s.file f).inode
  calm : Calm s s'
  releases : Releases s s'
  /-- The sectors are given back with the last reference to a removed file only. -/
  kept : (s.inode (s.file f).inode).removed = false ∨ (s.inode (s.file f).inode).openCnt ≠ 1 →
    SameDisk s s'

section OpenFile

variable {s : FileSys} {f : ℕ}

theorem allow_inode (s : FileSys) (f x : ℕ) : ((s.allow f).inode x).openCnt = (s.inode x).openCnt ∧
    ((s.allow f).inode x).removed = (s.inode x).removed := by
  unfold FileSys.allow
  split
  · by_cases hx : x = (s.file f).inode
    · subst hx
      rw [setDeny_inode]
      exact ⟨rfl, rfl⟩
    · have hsame : (s.setDeny f false ((s.inode (s.file f).inode).denyWriteCnt - 1)).inode x =
          s.inode x := update_of_ne hx ..
      rw [hsame]
      exact ⟨rfl, rfl⟩
  · exact ⟨rfl, rfl⟩

theorem allow_file (s : FileSys) (f : ℕ) : ((s.allow f).file f).inode = (s.file f).inode ∧
    ((s.allow f).file f).denyWrite = false := by
  unfold FileSys.allow
  split
  · have hself : (s.setDeny f false ((s.inode (s.file f).inode).denyWriteCnt - 1)).file f =
        { s.file f with denyWrite := false } := update_self ..
    rw [hself]
    exact ⟨rfl, rfl⟩
  · rename_i hd
    exact ⟨rfl, by simpa using hd⟩

theorem allow_disk (s : FileSys) (f : ℕ) : SameDisk s (s.allow f) := by
  unfold FileSys.allow
  split <;> exact ⟨rfl, rfl⟩

theorem fileClose_spec (hs : FsOk s) (hf : f ∈ s.openFiles) (hmap : s.freeMapFile ≠ some f) :
    Runs (fileClose (some f)) s fun _ s' => FsOk s' ∧ Closes s s' f := by
  obtain ⟨hrun, hok, hk⟩ := fileAllowWrite_run hs hf hmap
  obtain ⟨hinode, hdeny⟩ := allow_file s f
  have hf' : f ∈ (s.allow f).openFiles := by rw [hk.openFiles]; exact hf
  have hclose : FsOk ((s.allow f).closeFile f) :=
    hok.closeFile hf' (by rw [hk.mapFile]; exact hmap) hdeny
  have hroom : ((s.allow f).closeFile f).filesOn (s.file f).inode <
      ((s.allow f).closeFile f).refs (s.file f).inode := by
    have hcount := filesOn_closeFile hf' (s.file f).inode
    rw [if_pos hinode] at hcount
    have hle := hok.heap.filesOn_le_refs (s.file f).inode
    show _ < (s.allow f).refs (s.file f).inode
    omega
  unfold fileClose
  rw [runs_bind, runs_of_run hrun]
  simp only [runs_bind, runs_get, runs_set]
  rw [hinode]
  refine (inodeClose_spec hclose hroom).mono fun _ s' h' => ?_
  obtain ⟨hs', hk', hrefs, hrel, hsame⟩ := h'
  have hd := allow_disk s f
  refine ⟨hs', hk'.size.trans hk.size, hk'.locked.trans hk.locked, hk'.mapFile.trans hk.mapFile, ?_, ?_,
    ?_, ⟨fun x hx => ?_, fun k hmk => ?_⟩, fun hkept => ?_⟩
  · rw [hk'.openFiles, ← hk.openFiles]
    rfl
  · rw [hrefs, ← hk.refs]
    rfl
  · exact hk.calm.trans ⟨hk'.calm.allocs, fun hst => hk'.calm.steady ⟨hst.granted, hst.synced⟩⟩
  · rw [hrel.disk x (by show ¬ InData (inodeAt (s.allow f).disk 0) x; rwa [hd.disk])]
    exact congrFun hd.disk x
  · have hmk' : (s.allow f).freeMap k = true := hrel.freeMap k hmk
    rwa [hd.freeMap] at hmk'
  · obtain ⟨hcnt, hrem⟩ := allow_inode s f (s.file f).inode
    rw [← hcnt, ← hrem] at hkept
    have hsd := (hsame hkept).1
    exact hd.trans ⟨hsd.disk, hsd.freeMap⟩

theorem CallKeeps.setPos (hk : CallKeeps s s') (f : ℕ) (x : File) : CallKeeps s (s'.setFile f x) :=
  { hk with calm := ⟨hk.calm.allocs, fun hst => { hk.calm.steady hst with }⟩ }

theorem CallKeeps.bounced (s : FileSys) (n offset : ℕ) : CallKeeps s (s.bounced n offset) := by
  have hk := FsKeeps.bounced s n offset
  refine ⟨hk.size, hk.locked, hk.mapFile, hk.openFiles, ?_, hk.calm⟩
  rcases bounced_eq s n offset with h | h
  · rw [h]
  · rw [h]
    rfl

theorem fileRead_spec (hs : FsOk s) (hf : f ∈ s.openFiles) (size : Int) :
    Runs (fileRead (some f) size) s fun b s' => FsOk s' ∧ CallKeeps s s' ∧ SameDisk s s' ∧
      b.length ≤ size.toNat ∧
      b = bytesAt s.disk (s.inode (s.file f).inode).data (s.file f).pos b.length := by
  have hd := hs.onDevice (hs.heap.files f hf)
  unfold fileRead
  simp only [runs_bind, runs_get]
  rw [runs_of_run (inodeReadAt_run size (s.file f).pos hd)]
  simp only [runs_modify, runs_pure, bytesAt_length]
  have hle := s.moved_le (count (s.inode (s.file f).inode).data size.toNat (s.file f).pos)
    (s.file f).pos
  refine ⟨(hs.bounced _ _).setPos f _, (CallKeeps.bounced s _ _).setPos f _, ?_,
    Nat.le_trans hle (Nat.min_le_left _ _), trivial⟩
  have hsame := SameDisk.bounced s
    (count (s.inode (s.file f).inode).data size.toNat (s.file f).pos) (s.file f).pos
  exact ⟨hsame.disk, hsame.freeMap⟩

/-- The inode of a file that is not the free map is neither of the two system files. -/
theorem FsOk.ordinary_sector (hs : FsOk s) (hf : f ∈ s.openFiles) (hmap : s.freeMapFile ≠ some f) :
    (s.inode (s.file f).inode).sector ≠ 0 ∧ (s.inode (s.file f).inode).sector ≠ 1 :=
  ⟨fun h => hmap ((hs.tie.ordinary f hf).2 h), (hs.tie.ordinary f hf).1⟩

theorem FsOk.bouncedWrite (hs : FsOk s) (hσ : s.Live σ) (h1 : σ ≠ 1) (buffer : ℕ → UInt8)
    (hn : pos + n ≤ (inodeAt s.disk σ).length ∨ n = 0) :
    FsOk ((s.bounced c pos).write (inodeAt s.disk σ) pos n buffer) := by
  rcases bounced_eq s c pos with h | h
  · rw [h]
    exact hs.writeData hσ h1 hn
  · rw [h]
    exact (hs.setAllocs _).writeData hσ h1 hn

/-- **`file_write`** to a file that is not the free map: only the data of the file changes. -/
theorem fileWrite_spec (hs : FsOk s) (hf : f ∈ s.openFiles) (hmap : s.freeMapFile ≠ some f)
    (buffer : ℕ → UInt8) (size : Int) :
    Runs (fileWrite (some f) buffer size) s fun n s' => FsOk s' ∧ CallKeeps s s' ∧
      n ≤ size.toNat ∧ s'.freeMap = s.freeMap ∧
      ∀ x, ¬ InData (s.inode (s.file f).inode).data x → s'.disk x = s.disk x := by
  have hh := hs.heap.files f hf
  unfold fileWrite
  simp only [runs_bind, runs_get]
  by_cases hdeny : (s.inode (s.file f).inode).denyWriteCnt = 0
  · let d := inodeAt s.disk (s.inode (s.file f).inode).sector
    let pos := (s.file f).pos
    let c := count d size.toNat pos
    have hdata : (s.inode (s.file f).inode).data = d := hs.tie.cached _ hh
    have hlive := live_opened hh
    have hplaced := hs.sectors.placed _ hlive
    obtain ⟨h0, h1⟩ := hs.ordinary_sector hf hmap
    have hle : s.moved c pos ≤ c := s.moved_le c pos
    have hcount : c = min size.toNat (d.length - pos) := rfl
    have hn : pos + s.moved c pos ≤ d.length ∨ s.moved c pos = 0 := by omega
    rw [runs_of_run (inodeWriteAt_run buffer size pos hdata hplaced.onDevice
      (by rw [hs.heap.sema _ hh]; exact Nat.one_pos) hdeny)]
    simp only [runs_modify, runs_pure]
    have hsame := SameDisk.bounced s c pos
    have hb := hs.bounced c pos
    have hother : ∀ x, ¬ InData d x →
        ((s.bounced c pos).write d pos (s.moved c pos) buffer).disk x = s.disk x := fun x hx =>
      (write_other hplaced.length hn hx).trans (by rw [hsame.disk])
    have hcalm : Calm (s.bounced c pos) ((s.bounced c pos).write d pos (s.moved c pos) buffer) := by
      refine ⟨id, fun hst => hst.setDisk hb fun x hx => ?_⟩
      rw [hsame.disk] at hx
      have hout : ¬ InData d x :=
        fun hin => h0 (hs.sectors.owners.apart _ 0 x hlive live_map (.inr hin) hx)
      exact (hother x hout).trans (by rw [hsame.disk])
    have hk := CallKeeps.bounced s c pos
    have hkw : CallKeeps s ((s.bounced c pos).write d pos (s.moved c pos) buffer) :=
      { hk with calm := hk.calm.trans hcalm }
    refine ⟨(hs.bouncedWrite hlive h1 buffer hn).setPos f _, hkw.setPos f _,
      Nat.le_trans hle (Nat.min_le_left _ _), hsame.freeMap, fun x hx => ?_⟩
    rw [hdata] at hx
    exact hother x hx
  · rw [runs_of_run (inodeWriteAt_denied hdeny)]
    simp only [runs_modify, runs_pure]
    exact ⟨hs.setPos f _, (CallKeeps.refl s).setPos f _, Nat.zero_le _, rfl, fun _ _ => rfl⟩

theorem fileSeek_spec (hs : FsOk s) (f : ℕ) (h0 : 0 ≤ newPos) :
    Runs (fileSeek (some f) newPos) s fun _ s' => FsOk s' ∧ CallKeeps s s' ∧
      (s'.file f).pos = newPos.toNat := by
  unfold fileSeek
  simp only [runs_bind, runs_assert, runs_modify]
  refine ⟨decide_eq_true h0, hs.setPos f _, (CallKeeps.refl s).setPos f _, ?_⟩
  show (update s.file f _ f).pos = _
  rw [update_self]

end OpenFile

end Pintos
