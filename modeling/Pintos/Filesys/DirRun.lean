/-
  Subject:   The functions of directory.c on the root directory.

  The root directory has 16 entries of 20 bytes in one sector. Reading an entry takes a bounce buffer,
  and so does writing one; a refused buffer looks to the caller like the end of the directory. So
  `lookup` may miss a name that is there, and `dir_add` may overwrite a slot that is in use.
-/
import Pintos.Filesys.FsRun

namespace Pintos

open Lib Function List

/-! ## 1. The root directory -/

/-- `h` is the root directory, opened. -/
structure IsRoot (s : FileSys) (h : ℕ) : Prop where
  isOpen : h ∈ s.openInodes
  sector : (s.inode h).sector = 1

/-- Only the allocations to come have changed. -/
def OnlyAllocs (s s' : FileSys) : Prop := s' = { s with allocs := s'.allocs }

variable {fuel σ : ℕ}

section OnlyAllocs

variable {s s' s'' : FileSys}

theorem OnlyAllocs.refl (s : FileSys) : OnlyAllocs s s := rfl

theorem OnlyAllocs.pop (s : FileSys) : OnlyAllocs s s.pop := rfl

theorem OnlyAllocs.trans (h1 : OnlyAllocs s s') (h2 : OnlyAllocs s' s'') : OnlyAllocs s s'' := by
  unfold OnlyAllocs at h1 h2 ⊢
  rw [h2, h1]

theorem OnlyAllocs.ok (h : OnlyAllocs s s') (hs : FsOk s) : FsOk s' := by
  rw [h]
  exact hs.setAllocs _

theorem OnlyAllocs.onlyDisk (h : OnlyAllocs s s') : OnlyDisk s s' := by
  unfold OnlyDisk
  rw [h]

theorem OnlyAllocs.sameDisk (h : OnlyAllocs s s') : SameDisk s s' := by
  rw [h]
  exact ⟨rfl, rfl⟩

theorem OnlyAllocs.calm (h : OnlyAllocs s s') (ha : s.allocs = [] → s'.allocs = []) : Calm s s' := by
  refine ⟨ha, fun hst => ⟨ha hst.granted, ?_⟩⟩
  rw [h]
  exact hst.synced

theorem OnlyAllocs.newFile (h : OnlyAllocs s s') (hσ : NewFile s σ) : NewFile s' σ := by
  rw [h]
  exact ⟨hσ.placed, hσ.marked, hσ.apart⟩

theorem IsRoot.onlyDisk {h : ℕ} (hr : IsRoot s h) (ho : OnlyDisk s s') : IsRoot s' h := by
  rw [ho]
  exact ⟨hr.isOpen, hr.sector⟩

end OnlyAllocs

variable {i x : ℕ}

section Root

variable {s : FileSys} {h : ℕ}

theorem FsOk.root_files (hs : FsOk s) (hr : IsRoot s h) : s.filesOn h = 0 :=
  List.countP_eq_zero.mpr fun f hf => by
    rw [decide_eq_true_eq]
    intro he
    exact (hs.tie.ordinary f hf).1 (he ▸ hr.sector)

theorem FsOk.root_kept (hs : FsOk s) (hr : IsRoot s h) : (s.inode h).removed = false := by
  cases hrem : (s.inode h).removed with
  | false => rfl
  | true => exact absurd hr.sector (hs.tie.removed h hr.isOpen hrem).2.1

theorem FsOk.root_writable (hs : FsOk s) (hr : IsRoot s h) : (s.inode h).denyWriteCnt = 0 := by
  rw [hs.heap.deny h hr.isOpen]
  refine countP_eq_zero.mpr fun f hf => ?_
  rw [decide_eq_true_eq]
  intro he
  exact (hs.tie.ordinary f hf).1 (he.1 ▸ hr.sector)

theorem FsOk.root_data (hs : FsOk s) (hr : IsRoot s h) : (s.inode h).data = inodeAt s.disk 1 := by
  rw [hs.tie.cached h hr.isOpen, hr.sector]

theorem FsOk.entry_count (hs : FsOk s) (hi : i < 16) :
    count (inodeAt s.disk 1) (20 : Int).toNat (20 * i) = 20 ∧ bounceNeeded 20 (20 * i) = true := by
  refine ⟨?_, ?_⟩
  · unfold count
    rw [hs.dir.root]
    omega
  · unfold bounceNeeded
    exact decide_eq_true ⟨by omega, .inr (by omega)⟩

theorem entry_moved (hi : bounceNeeded 20 (20 * i) = true) :
    s.moved 20 (20 * i) = if s.granted then 20 else 0 := by
  unfold FileSys.moved
  rw [hi]
  cases s.granted <;> simp

theorem FsOk.end_count (hs : FsOk s) : count (inodeAt s.disk 1) (20 : Int).toNat (20 * 16) = 0 := by
  unfold count
  rw [hs.dir.root]
  rfl

end Root

/-! ## 2. Entries -/

section Entries

variable {s : FileSys} {h : ℕ}

theorem readEntry_run (hs : FsOk s) (hr : IsRoot s h) (hi : i < 16) : (readEntry h (20 * i)).run s =
      .ok (if s.granted then some (entry s.disk i) else none, s.pop) := by
  obtain ⟨hcount, hneed⟩ := hs.entry_count hi
  have hread := inodeReadAt_run (s := s) (h := h) 20 (20 * i) (by
    rw [hs.root_data hr]
    exact (hs.sectors.placed 1 live_root).onDevice)
  rw [hs.root_data hr, hcount, entry_moved hneed] at hread
  have hpop : s.bounced 20 (20 * i) = s.pop := if_pos hneed
  rw [hpop] at hread
  apply Runs.run_eq
  unfold readEntry
  rw [runs_bind, runs_of_run hread, runs_pure]
  refine ⟨?_, rfl⟩
  cases s.granted with
  | false => rfl
  | true =>
    simp only [if_true, bytesAt_length]
    congr 1
    -- the 20 bytes do not cross the end of the sector
    refine dirEntryOf_congr fun k hk => ?_
    have hlt : 20 * i + k < 512 := by omega
    rw [getD_eq_getElem?_getD, List.getElem?_eq_getElem (by rw [bytesAt_length]; exact hk),
      Option.getD_some]
    simp only [bytesAt, getElem_map, getElem_range, byteAt]
    rw [Nat.div_eq_of_lt hlt, Nat.mod_eq_of_lt hlt, Nat.add_zero]

theorem readEntry_end (hs : FsOk s) (hr : IsRoot s h) :
    (readEntry h (20 * 16)).run s = .ok (none, s) := by
  have hread := inodeReadAt_run (s := s) (h := h) 20 (20 * 16) (by
    rw [hs.root_data hr]
    exact (hs.sectors.placed 1 live_root).onDevice)
  rw [hs.root_data hr, hs.end_count] at hread
  apply Runs.run_eq
  unfold readEntry
  rw [runs_bind, runs_of_run hread, runs_pure]
  exact ⟨rfl, rfl⟩

theorem writeEntry_run (hs : FsOk s) (hr : IsRoot s h) (hi : i < 16) (e : DirEntry) :
    (inodeWriteAt h (dirEntryBytes e) 20 (20 * i)).run s =
      if s.granted then .ok (20, s.pop.setEntry i e) else .ok (0, s.pop) := by
  obtain ⟨hcount, hneed⟩ := hs.entry_count hi
  have hwrite := inodeWriteAt_run (dirEntryBytes e) 20 (20 * i) (hs.root_data hr)
    (hs.sectors.placed 1 live_root).onDevice (by rw [hs.heap.sema h hr.isOpen]; exact Nat.one_pos)
    (hs.root_writable hr)
  have hpop : s.bounced 20 (20 * i) = s.pop := if_pos hneed
  rw [hcount, entry_moved hneed, hpop] at hwrite
  rw [hwrite]
  cases s.granted with
  | true => rfl
  | false =>
    show Except.ok (0, s.pop.write _ _ 0 _) = Except.ok (0, s.pop)
    unfold FileSys.write
    rw [writeBytes_zero]

theorem writeEntry_end (hs : FsOk s) (hr : IsRoot s h) (e : DirEntry) :
    (inodeWriteAt h (dirEntryBytes e) 20 (20 * 16)).run s = .ok (0, s) := by
  have hwrite := inodeWriteAt_run (dirEntryBytes e) 20 (20 * 16) (hs.root_data hr)
    (hs.sectors.placed 1 live_root).onDevice (by rw [hs.heap.sema h hr.isOpen]; exact Nat.one_pos)
    (hs.root_writable hr)
  rw [hs.end_count] at hwrite
  rw [hwrite]
  show Except.ok (0, s.write _ _ 0 _) = Except.ok (0, s)
  unfold FileSys.write
  rw [writeBytes_zero]

end Entries

/-! ## 3. Looking up -/

variable (disk : ℕ → ℕ → UInt8)

variable (name : CString)

/-- Entry `i` is in use under the name. -/
def Match (i : ℕ) : Prop :=
  (entry disk i).inUse = true ∧ (entry disk i).string = name.val

/-- Entry `i` is the first one with the name. -/
structure Finds (i : ℕ) : Prop where
  inside : i < 16
  found : Match disk name i
  first : ∀ j < i, ¬ Match disk name j

section Lookup

variable {s : FileSys} {h : ℕ}

theorem lookupLoop_spec (hf : fuel + i = 17) (hi : i ≤ 16) (hs : FsOk s)
    (hr : IsRoot s h) (hno : ∀ j < i, ¬ Match s.disk name j) :
    Runs (lookupLoop h name fuel (20 * i)) s fun r s' => OnlyAllocs s s' ∧
      (s.allocs = [] → s'.allocs = []) ∧ match r with
      | none => s.allocs = [] → ∀ j < 16, ¬ Match s.disk name j
      | some (e, ofs) => Granted s s' ∧
          ∃ j, Finds s.disk name j ∧ e = entry s.disk j ∧ ofs = 20 * j := by
  induction fuel generalizing i s with
  | zero => omega
  | succ fuel ih =>
    unfold lookupLoop
    rw [runs_bind]
    by_cases h16 : i = 16
    · subst h16
      rw [runs_of_run (readEntry_end hs hr)]
      simp only [runs_pure]
      exact ⟨.refl s, id, fun _ => hno⟩
    · have hlt : i < 16 := by omega
      have hpop : FsOk s.pop := hs.setAllocs _
      rw [runs_of_run (readEntry_run hs hr hlt)]
      cases hg : s.granted with
      | false =>
        simp only [Bool.false_eq_true, if_false, runs_pure]
        refine ⟨rfl, (Calm.pop s).allocs, fun ha => ?_⟩
        unfold FileSys.granted at hg
        rw [ha] at hg
        cases hg
      | true =>
        simp only [if_true, runs_ite, runs_pure]
        split
        · rename_i hm
          exact ⟨rfl, (Calm.pop s).allocs, Granted.pop hg, i, ⟨hlt, hm, hno⟩, rfl, rfl⟩
        · rename_i hm
          have hno' : ∀ j < i + 1, ¬ Match s.pop.disk name j := fun j hj => by
            rcases Nat.lt_succ_iff_lt_or_eq.mp hj with hj | rfl
            · exact hno j hj
            · exact hm
          have hnext := ih (i := i + 1) (s := s.pop) (by omega) (by omega) hpop
            ⟨hr.isOpen, hr.sector⟩ hno'
          refine hnext.mono fun r s' h' => ?_
          obtain ⟨hoa, ha, hres⟩ := h'
          have hpa := (Calm.pop s).allocs
          refine ⟨(OnlyAllocs.pop s).trans hoa, fun h => ha (hpa h), ?_⟩
          cases r with
          | none => exact fun h => hres (hpa h)
          | some x => exact ⟨(Granted.pop hg).trans hres.1, hres.2⟩

theorem lookup_spec (hs : FsOk s) (hr : IsRoot s h) :
    Runs (lookup h name) s fun r s' => OnlyAllocs s s' ∧ (s.allocs = [] → s'.allocs = []) ∧
      match r with
      | none => s.allocs = [] → ∀ j < 16, ¬ Match s.disk name j
      | some (e, ofs) => Granted s s' ∧
          ∃ j, Finds s.disk name j ∧ e = entry s.disk j ∧ ofs = 20 * j := by
  unfold lookup
  rw [runs_bind, runs_get, hs.root_data hr, hs.dir.root]
  exact lookupLoop_spec name (i := 0) rfl (by omega) hs hr fun j hj => absurd hj (Nat.not_lt_zero j)

end Lookup

/-! ## 4. Adding -/

/-- Entry `i` is the first one that is free, or there is none and `i` is the end. -/
structure FreeSlot (i : ℕ) : Prop where
  inside : i ≤ 16
  used : ∀ j < i, (entry disk j).inUse = true
  free : i < 16 → (entry disk i).inUse = false

theorem FreeSlot.congr {disk disk' : ℕ → ℕ → UInt8} (h : FreeSlot disk i)
    (he : entry disk' = entry disk) : FreeSlot disk' i :=
  ⟨h.inside, by rw [he]; exact h.used, by rw [he]; exact h.free⟩

/-- A name that `dir_add` takes. -/
def ValidName : Prop := name.val ≠ [] ∧ name.val.length ≤ 14

theorem entry_name (i : ℕ) : (entry disk i).name.length = 15 := by
  simp [entry, dirEntryOf]

theorem strlcpy_length {old name : List UInt8} (h : old.length = 15) :
    (strlcpy old name).length = 15 := by
  unfold strlcpy
  simp only [length_append, length_cons, length_drop, length_take, h]
  omega

theorem strlcpy_string {name : CString} (hn : name.val.length ≤ 14) (old : List UInt8) (σ : ℕ)
    (b : Bool) : (DirEntry.mk σ (strlcpy old name.val) b).string = name.val := by
  have htake : name.val.take 14 = name.val := take_of_length_le hn
  have hpos : ∀ x ∈ name.val, (x != 0) = true := fun x hx => by
    rw [bne_iff_ne]
    exact fun h0 => name.property (h0 ▸ hx)
  unfold DirEntry.string strlcpy
  simp only [htake]
  rw [takeWhile_append_of_pos hpos]
  simp

section Slot

variable {s : FileSys} {h : ℕ}

theorem slotLoop_spec {e : DirEntry} (hf : fuel + i = 17) (hi : i ≤ 16) (hs : FsOk s)
    (hr : IsRoot s h) (he : e.name.length = 15) (hu : ∀ j < i, (entry s.disk j).inUse = true) :
    Runs (slotLoop h fuel e (20 * i)) s fun r s' => OnlyAllocs s s' ∧
      (s.allocs = [] → s'.allocs = []) ∧ r.2.name.length = 15 ∧
      ∃ j ≤ 16, r.1 = 20 * j ∧ (s.allocs = [] → FreeSlot s.disk j) := by
  induction fuel generalizing i s e with
  | zero => omega
  | succ fuel ih =>
    unfold slotLoop
    rw [runs_bind]
    by_cases h16 : i = 16
    · subst h16
      rw [runs_of_run (readEntry_end hs hr)]
      simp only [runs_pure]
      exact ⟨.refl s, id, he, 16, hi, rfl, fun _ => ⟨hi, hu, fun h => absurd h (by omega)⟩⟩
    · have hlt : i < 16 := by omega
      have hpa := (Calm.pop s).allocs
      rw [runs_of_run (readEntry_run hs hr hlt)]
      cases hg : s.granted with
      | false =>
        simp only [Bool.false_eq_true, if_false, runs_pure]
        refine ⟨.pop s, hpa, he, i, hi, rfl, fun ha => ?_⟩
        unfold FileSys.granted at hg
        rw [ha] at hg
        cases hg
      | true =>
        simp only [if_true, runs_ite, runs_pure]
        split
        · rename_i hfree
          refine ⟨.pop s, hpa, entry_name _ _, i, hi, rfl, fun _ => ⟨hi, hu, fun _ => ?_⟩⟩
          simpa using hfree
        · rename_i huse
          have hu' : ∀ j < i + 1, (entry s.pop.disk j).inUse = true := fun j hj => by
            rcases Nat.lt_succ_iff_lt_or_eq.mp hj with hj | rfl
            · exact hu j hj
            · show (entry s.disk j).inUse = true
              simpa using huse
          have hnext := ih (i := i + 1) (s := s.pop) (e := entry s.disk i) (by omega) (by omega)
            (hs.setAllocs _) ⟨hr.isOpen, hr.sector⟩ (entry_name _ _) hu'
          refine hnext.mono fun r s' h' => ?_
          obtain ⟨hoa, ha, hname, j, hj, hofs, hslot⟩ := h'
          exact ⟨(OnlyAllocs.pop s).trans hoa, fun h => ha (hpa h), hname, j, hj, hofs,
            fun h => hslot (hpa h)⟩

end Slot

/-- An entry of the directory may be written without harm to the free map on the device. -/
theorem Calm.setEntry {s : FileSys} (hs : FsOk s) (hi : i < 16) (e : DirEntry) :
    Calm s (s.setEntry i e) :=
  ⟨id, fun hst => hst.setDisk hs fun x hx => setEntry_disk hs hi fun he => by
    have hroot : Owns s.disk 1 x := .inr (he ▸ hs.dir.rootData)
    have h01 : (0 : ℕ) = 1 := hs.sectors.owners.apart 0 1 x live_map live_root hx hroot
    cases h01⟩

/-- Why `dir_add` says no: the name is empty or too long, it is there, or the directory is full. -/
def Refuses : Prop :=
  ¬ ValidName name ∨ (∃ i < 16, Match disk name i) ∨ ∀ i < 16, (entry disk i).inUse = true

/-- What `dir_add` has written: an entry with the name and the sector; and where no allocation was
    refused, into the first free slot of a directory that did not have the name. -/
structure Added (s s' : FileSys) (name : CString) (σ i : ℕ) (e : DirEntry) : Prop where
  inside : i < 16
  valid : ValidName name
  sector : e.inodeSector = σ
  inUse : e.inUse = true
  string : e.string = name.val
  fits : e.name.length = 15
  disk : s'.disk = (s.setEntry i e).disk
  granted : s.allocs = [] → FreeSlot s.disk i ∧ ∀ j < 16, ¬ Match s.disk name j

section Add

variable {s : FileSys} {h : ℕ}

theorem dirAdd_spec (hs : FsOk s) (hr : IsRoot s h) (hσ : NewFile s σ) :
    Runs (dirAdd h name σ) s fun r s' => FsOk s' ∧ OnlyDisk s s' ∧ Calm s s' ∧
      s'.freeMap = s.freeMap ∧ match r with
      | false => s'.disk = s.disk ∧ (s.allocs = [] → Refuses s.disk name)
      | true => ∃ i e, Added s s' name σ i e := by
  unfold dirAdd
  rw [runs_ite]
  by_cases hv : name.val = [] ∨ 14 < name.val.length
  · rw [if_pos hv, runs_pure]
    refine ⟨hs, .refl s, .refl s, rfl, rfl, fun _ => .inl fun hval => ?_⟩
    rcases hv with hv | hv
    · exact hval.1 hv
    · exact Nat.not_lt.mpr hval.2 hv
  · rw [if_neg hv, runs_bind]
    have hval : ValidName name := ⟨fun h => hv (.inl h), Nat.not_lt.mp fun h => hv (.inr h)⟩
    refine (lookup_spec name hs hr).mono fun r s₁ h1 => ?_
    obtain ⟨hoa1, ha1, hres⟩ := h1
    have hs1 := hoa1.ok hs
    cases r with
    | some x =>
      obtain ⟨e, ofs⟩ := x
      obtain ⟨_, j, hj, _, _⟩ := hres
      simp only [runs_pure]
      exact ⟨hs1, hoa1.onlyDisk, hoa1.calm ha1, hoa1.sameDisk.freeMap, hoa1.sameDisk.disk,
        fun _ => .inr (.inl ⟨j, hj.inside, hj.found⟩)⟩
    | none =>
      have hr1 := hr.onlyDisk hoa1.onlyDisk
      simp only [runs_bind, runs_get]
      rw [hs1.root_data hr1, hs1.dir.root]
      refine (slotLoop_spec (i := 0) rfl (by omega) hs1 hr1 (by rfl)
        fun j hj => absurd hj (Nat.not_lt_zero j)).mono fun r s₂ h2 => ?_
      obtain ⟨ofs, e⟩ := r
      obtain ⟨hoa2, ha2, hname, j, hj16, hofs, hslot⟩ := h2
      have hoa := hoa1.trans hoa2
      have ha : s.allocs = [] → s₂.allocs = [] := fun h => ha2 (ha1 h)
      have hs2 := hoa.ok hs
      have hr2 := hr.onlyDisk hoa.onlyDisk
      have hslot' : s.allocs = [] → FreeSlot s.disk j := fun h => by
        have hfree := hslot (ha1 h)
        rwa [hoa1.sameDisk.disk] at hfree
      have hsize : s₂.size < 2 ^ 32 := hs2.dir.sectors
      have hnew := hoa.newFile hσ
      have hin : σ < s₂.size := hnew.placed.inside
      simp only at hofs hname
      subst hofs
      simp only
      -- the slot is an entry, or the directory has come to its end
      rcases Nat.lt_or_eq_of_le hj16 with hj | rfl
      · have hrun := writeEntry_run hs2 hr2 hj ⟨σ, strlcpy e.name name.val, true⟩
        cases hg : s₂.granted with
        | true =>
          rw [hg, if_pos rfl] at hrun
          rw [runs_of_run hrun, runs_pure]
          have hpop : FsOk s₂.pop := hs2.setAllocs _
          have hdisk : (s₂.pop.setEntry j ⟨σ, strlcpy e.name name.val, true⟩).disk =
              (s.setEntry j ⟨σ, strlcpy e.name name.val, true⟩).disk := by
            rw [hoa]
            rfl
          refine ⟨hpop.setEntry hj (by show σ < 2 ^ 32; omega) (strlcpy_length hname)
            fun _ => ⟨hnew.placed, hnew.marked, hnew.apart⟩, hoa.onlyDisk.trans rfl,
            ((hoa.calm ha).trans (.pop s₂)).trans (.setEntry hpop hj _), hoa.sameDisk.freeMap,
            j, _, ⟨hj, hval, rfl, rfl, strlcpy_string hval.2 _ _ _, strlcpy_length hname,
              hdisk, fun h => ⟨hslot' h, hres h⟩⟩⟩
        | false =>
          rw [hg, if_neg Bool.false_ne_true] at hrun
          rw [runs_of_run hrun, runs_pure]
          refine ⟨hs2.setAllocs _, hoa.onlyDisk.trans rfl, (hoa.calm ha).trans (.pop s₂),
            hoa.sameDisk.freeMap, hoa.sameDisk.disk, fun h => ?_⟩
          unfold FileSys.granted at hg
          rw [ha h] at hg
          cases hg
      · rw [runs_of_run (writeEntry_end hs2 hr2 _), runs_pure]
        exact ⟨hs2, hoa.onlyDisk, hoa.calm ha, hoa.sameDisk.freeMap, hoa.sameDisk.disk,
          fun h => .inr (.inr (hslot' h).used)⟩

end Add

/-! ## 5. Opening and closing -/

section OpenClose

variable {s : FileSys} {h : ℕ}

theorem dirClose_spec (hs : FsOk s) (hr : IsRoot s h) :
    Runs (dirClose (some h)) s fun _ s' => FsOk s' ∧ FsKeeps s s' ∧ SameDisk s s' ∧
      s'.refs = unbump s.refs h ∧ s'.allocs = s.allocs := by
  have hroom : s.filesOn h < s.refs h := by
    rw [hs.root_files hr, refs_of_mem hr.isOpen]
    exact hs.heap.counted h hr.isOpen
  refine (inodeClose_spec hs hroom).mono fun _ s' h' => ?_
  obtain ⟨hok, hk, hrefs, _, hsame⟩ := h'
  obtain ⟨hd, ha⟩ := hsame (.inl (hs.root_kept hr))
  exact ⟨hok, hk, hd, hrefs, ha⟩

theorem dirOpenRoot_spec (hs : FsOk s) :
    Runs dirOpenRoot s fun r s' => FsOk s' ∧ FsKeeps s s' ∧ SameDisk s s' ∧ match r with
      | none => s'.refs = s.refs ∧ s.allocs ≠ []
      | some h => IsRoot s' h ∧ s'.refs = bump s.refs h ∧ Granted s s' := by
  unfold dirOpenRoot
  rw [runs_bind]
  refine (inodeOpen_spec hs live_root).mono fun r s₁ h1 => ?_
  obtain ⟨hs1, hk1, hd1, hr1⟩ := h1
  have hpop : FsOk s₁.pop := hs1.setAllocs _
  unfold dirOpen
  rw [runs_bind, runs_malloc]
  cases r with
  | none =>
    unfold inodeClose
    simp only [runs_bind, runs_pure]
    exact ⟨hpop, hk1.trans (.pop s₁), hd1.trans (OnlyAllocs.pop s₁).sameDisk, hr1⟩
  | some h =>
    obtain ⟨hmem, hsec, hrefs, hgr⟩ := hr1
    have hroot : IsRoot s₁.pop h := ⟨hmem, hsec⟩
    cases hg : s₁.granted with
    | true =>
      simp only [runs_pure]
      exact ⟨hpop, hk1.trans (.pop s₁), hd1.trans (OnlyAllocs.pop s₁).sameDisk, hroot, hrefs,
        hgr.trans (.pop hg)⟩
    | false =>
      simp only [runs_bind, runs_pure]
      refine (dirClose_spec hpop hroot).mono fun _ s₂ h2 => ?_
      obtain ⟨hs2, hk2, hd2, hrefs2, _⟩ := h2
      refine ⟨hs2, (hk1.trans (.pop s₁)).trans hk2,
        (hd1.trans (OnlyAllocs.pop s₁).sameDisk).trans hd2, ?_, fun ha => ?_⟩
      · rw [hrefs2]
        show unbump s₁.refs h = s.refs
        rw [hrefs, unbump_bump]
      · unfold FileSys.granted at hg
        rw [hk1.calm.allocs ha] at hg
        cases hg

theorem IsRoot.keeps {s' : FileSys} (hr : IsRoot s h) (hs : FsOk s) (hk : FsKeeps s s')
    (hrefs : s.refs h ≤ s'.refs h) : IsRoot s' h := by
  have hpos : 0 < s.refs h := by
    rw [refs_of_mem hr.isOpen]
    exact hs.heap.counted h hr.isOpen
  exact ⟨mem_of_refs (Nat.lt_of_lt_of_le hpos hrefs),
    (hk.sector h (hs.heap.fresh h hr.isOpen)).trans hr.sector⟩

theorem dirLookup_spec (hs : FsOk s) (hr : IsRoot s h) :
    Runs (dirLookup h name) s fun r s' => FsOk s' ∧ FsKeeps s s' ∧ SameDisk s s' ∧ match r with
      | none => s'.refs = s.refs ∧ (s.allocs = [] → ∀ j < 16, ¬ Match s.disk name j)
      | some x => x ∈ s'.openInodes ∧ s'.refs = bump s.refs x ∧ Granted s s' ∧
          ∃ j, Finds s.disk name j ∧ (s'.inode x).sector = (entry s.disk j).inodeSector := by
  unfold dirLookup
  rw [runs_bind]
  refine (lookup_spec name hs hr).mono fun r s₁ h1 => ?_
  obtain ⟨hoa, ha, hres⟩ := h1
  have hs1 := hoa.ok hs
  have hk1 := hoa.onlyDisk.keeps (hoa.calm ha)
  have hd1 := hoa.sameDisk
  cases r with
  | none =>
    simp only [runs_pure]
    exact ⟨hs1, hk1, hd1, hoa.onlyDisk.refs, hres⟩
  | some x =>
    obtain ⟨e, ofs⟩ := x
    obtain ⟨hgr, j, hj, he, _⟩ := hres
    have hlive : s₁.Live e.inodeSector := by
      rw [he, ← hd1.disk]
      exact live_named hj.inside (by rw [hd1.disk]; exact hj.found.1)
    simp only
    refine (inodeOpen_spec hs1 hlive).mono fun r s₂ h2 => ?_
    obtain ⟨hs2, hk2, hd2, hr2⟩ := h2
    refine ⟨hs2, hk1.trans hk2, hd1.trans hd2, ?_⟩
    cases r with
    | none =>
      exact ⟨hr2.1.trans hoa.onlyDisk.refs, fun h => absurd (ha h) hr2.2⟩
    | some x =>
      obtain ⟨hmem, hsec, hrefs, hgr2⟩ := hr2
      refine ⟨hmem, ?_, hgr.trans hgr2, j, hj, hsec.trans (by rw [he])⟩
      rw [hrefs, hoa.onlyDisk.refs]

end OpenClose

/-! ## 6. Removing -/

/-- **Files keep their contents**: the inodes of all of them, and the data of those that are not the
    free map or the root directory. -/
structure LeavesFiles (s s' : FileSys) : Prop where
  inode : ∀ σ, s.Live σ → s'.disk σ = s.disk σ
  data : ∀ σ x, s.Live σ → σ ≠ 0 → σ ≠ 1 → Owns s.disk σ x → s'.disk x = s.disk x

/-- Only the data of the free map and of the root directory have changed. -/
def SystemOnly (s s' : FileSys) : Prop :=
  ∀ x, ¬ InData (inodeAt s.disk 0) x → x ≠ (inodeAt s.disk 1).start → s'.disk x = s.disk x

section Leaves

variable {s s' s'' : FileSys}

/-- A file that is neither the free map nor the root directory does not share their sectors. -/
theorem FsOk.notSystem (hs : FsOk s) (hσ : s.Live σ) (h0 : σ ≠ 0) (h1 : σ ≠ 1)
    (hx : Owns s.disk σ x) : ¬ InData (inodeAt s.disk 0) x ∧ x ≠ (inodeAt s.disk 1).start := by
  refine ⟨fun hin => h0 ?_, fun he => h1 ?_⟩
  · exact hs.sectors.owners.apart σ 0 x hσ live_map hx (.inr hin)
  · exact hs.sectors.owners.apart σ 1 x hσ live_root hx (.inr (he ▸ hs.dir.rootData))

theorem SystemOnly.leaves (hs : FsOk s) (h : SystemOnly s s') : LeavesFiles s s' where
  inode σ hσ := h σ (hs.sectors.notData live_map hσ) (hs.live_ne_root hσ)
  data σ x hσ h0 h1 hx := by
    obtain ⟨hmap, hroot⟩ := hs.notSystem hσ h0 h1 hx
    exact h x hmap hroot

theorem Spares.leaves (hs : FsOk s) (h : Spares s s') : LeavesFiles s s' where
  inode σ hσ := h σ σ hσ (.inl rfl) (hs.sectors.notData live_map hσ)
  data σ x hσ h0 h1 hx := h σ x hσ hx (hs.notSystem hσ h0 h1 hx).1

theorem LeavesFiles.trans (h₁ : LeavesFiles s s') (hl : ∀ σ, s.Live σ → s'.Live σ)
    (h2 : LeavesFiles s' s'') : LeavesFiles s s'' where
  inode σ hσ := (h2.inode σ (hl σ hσ)).trans (h₁.inode σ hσ)
  data σ x hσ h0 h1 hx := by
    have hx' : Owns s'.disk σ x := by
      unfold Owns inodeAt at hx ⊢
      rwa [h₁.inode σ hσ]
    exact (h2.data σ x (hl σ hσ) h0 h1 hx').trans (h₁.data σ x hσ h0 h1 hx)

theorem SystemOnly.setEntry (hs : FsOk s) (hi : i < 16) (e : DirEntry) :
    SystemOnly s (s.setEntry i e) := fun _ _ hx => setEntry_disk hs hi hx

theorem SystemOnly.inodeAt (hs : FsOk s) (h : SystemOnly s s') (hσ : s.Live σ) :
    inodeAt s'.disk σ = inodeAt s.disk σ := by
  unfold Pintos.inodeAt
  rw [(h.leaves hs).inode σ hσ]

theorem SystemOnly.trans (hs : FsOk s) (h1 : SystemOnly s s') (h2 : SystemOnly s' s'') :
    SystemOnly s s'' := by
  intro x hmap hroot
  refine (h2 x ?_ ?_).trans (h1 x hmap hroot)
  · rw [h1.inodeAt hs live_map]
    exact hmap
  · rw [h1.inodeAt hs live_root]
    exact hroot

theorem MapOnly.system (h : MapOnly s s') : SystemOnly s s' := fun x hx _ => h x hx

theorem SameDisk.system (h : SameDisk s s') : SystemOnly s s' := fun _ _ _ => by rw [h.disk]

end Leaves

/-- The entry with its slot given free. -/
def DirEntry.erased (e : DirEntry) : DirEntry := { e with inUse := false }

/-- Entry `i` has been given free and its file `x`, which is open, is marked as removed. -/
def FileSys.unlink (s : FileSys) (i x : ℕ) : FileSys :=
  (s.setEntry i (entry s.disk i).erased).setInode x { s.inode x with removed := true }

section Unlink

variable {s : FileSys} {i x : ℕ}

theorem FsOk.erase (hs : FsOk s) (hi : i < 16) (hu : (entry s.disk i).inUse = true) :
    FsOk (s.setEntry i (entry s.disk i).erased) ∧
      ∀ j < 16, entry (s.setEntry i (entry s.disk i).erased).disk j =
        if j = i then (entry s.disk i).erased else entry s.disk j := by
  have hplaced := hs.sectors.placed _ (live_named hi hu)
  have hsec : (entry s.disk i).erased.inodeSector < 2 ^ 32 :=
    Nat.lt_trans hplaced.inside hs.dir.sectors
  have hname : (entry s.disk i).erased.name.length = 15 := entry_name s.disk i
  have hno : ¬ (entry s.disk i).erased.inUse = true := Bool.false_ne_true
  exact ⟨hs.setEntry hi hsec hname fun h => absurd h hno,
    fun j hj => setEntry_entry hs hi hsec hname hj⟩

theorem FsOk.unlink (hs : FsOk s) (hi : i < 16) (hu : (entry s.disk i).inUse = true)
    (hx : x ∈ s.openInodes) (hsec : (s.inode x).sector = (entry s.disk i).inodeSector) :
    FsOk (s.unlink i x) := by
  obtain ⟨hok, hentry⟩ := hs.erase hi hu
  refine hok.setInode rfl rfl rfl rfl (hs.heap.counted x hx) (hs.heap.held x hx) fun _ => ?_
  rw [hsec]
  refine ⟨(hs.dir.named i hi hu).1, (hs.dir.named i hi hu).2, fun hn => ?_⟩
  obtain ⟨j, hj, huj, hej⟩ := hn
  rw [hentry j hj] at huj hej
  by_cases hji : j = i
  · rw [if_pos hji] at huj
    cases huj
  · rw [if_neg hji] at huj hej
    exact hji (hs.dir.distinct j hj i hi huj hu hej)

theorem FsKeeps.unlink (hs : FsOk s) (hi : i < 16) : FsKeeps s (s.unlink i x) := by
  have hcalm : Calm s (s.setEntry i (entry s.disk i).erased) := .setEntry hs hi _
  refine ⟨rfl, rfl, rfl, rfl, rfl, rfl, Nat.le_refl _, fun y _ => setInode_sector s (by rfl) y,
    id, fun hst => ?_⟩
  have hst' := hcalm.steady hst
  exact ⟨hst'.granted, hst'.synced⟩

theorem refs_unlink (hx : x ∈ s.openInodes) : (s.unlink i x).refs = s.refs := by
  have hrefs : (s.unlink i x).refs = update s.refs x (s.inode x).openCnt :=
    refs_setInode (s := s.setEntry i (entry s.disk i).erased) hx _
  rw [hrefs, ← refs_of_mem hx, update_eq_self]

end Unlink

/-- The entries after the one with the name has been given free. -/
def Erased (disk disk' : ℕ → ℕ → UInt8) (i : ℕ) : Prop :=
  ∀ j < 16, entry disk' j = if j = i then (entry disk i).erased else entry disk j

section Remove

variable {s : FileSys} {h : ℕ}

theorem removeOpened_spec (hs : FsOk s) (hr : IsRoot s h) (hi : i < 16)
    (hu : (entry s.disk i).inUse = true) (hx : x ∈ s.openInodes)
    (hsec : (s.inode x).sector = (entry s.disk i).inodeSector) (hroom : s.filesOn x < s.refs x) :
    Runs (do
        let n ← inodeWriteAt h (dirEntryBytes (entry s.disk i).erased) 20 (20 * i)
        if n = 20 then
          inodeRemove x
          inodeClose (some x)
          return true
        else
          inodeClose (some x)
          return false : FsM Bool) s fun r s' => FsOk s' ∧ FsKeeps s s' ∧
      s'.refs = unbump s.refs x ∧ match r with
      | false => SameDisk s s' ∧ s.allocs ≠ []
      | true => SystemOnly s s' ∧ Erased s.disk s'.disk i := by
  have hrun := writeEntry_run hs hr hi (entry s.disk i).erased
  have hpop : FsOk s.pop := hs.setAllocs _
  rw [runs_bind]
  cases hg : s.granted with
  | true =>
    rw [hg, if_pos rfl] at hrun
    rw [runs_of_run hrun, if_pos rfl]
    unfold inodeRemove
    simp only [runs_bind, runs_modify, runs_pure]
    have hok : FsOk (s.pop.unlink i x) := hpop.unlink hi hu hx hsec
    have hk : FsKeeps s (s.pop.unlink i x) := (FsKeeps.pop s).trans (.unlink hpop hi)
    have hrefs : (s.pop.unlink i x).refs = s.refs := refs_unlink hx
    refine (inodeClose_spec (s := s.pop.unlink i x) hok ?_).mono fun _ s' h' => ?_
    · rw [hrefs, hk.filesOn]
      exact hroom
    obtain ⟨hok', hk', hrefs', hrel, _⟩ := h'
    have hsys : SystemOnly s (s.pop.unlink i x) := SystemOnly.setEntry hpop hi _
    refine ⟨hok', hk.trans hk', hrefs'.trans (by rw [hrefs]), hsys.trans hs hrel.disk.system,
      fun j hj => ?_⟩
    rw [hrel.disk.spares.entry hok]
    exact (hpop.erase hi hu).2 j hj
  | false =>
    rw [hg, if_neg Bool.false_ne_true] at hrun
    rw [runs_of_run hrun, if_neg (by decide)]
    simp only [runs_bind, runs_pure]
    -- the file still has its name, so it is not a removed one
    have hkept : (s.pop.inode x).removed = false := by
      cases hrem : (s.pop.inode x).removed with
      | false => rfl
      | true => exact absurd ⟨i, hi, hu, hsec.symm⟩ (hs.tie.removed x hx hrem).2.2
    refine (inodeClose_spec hpop hroom).mono fun _ s' h' => ?_
    obtain ⟨hok', hk', hrefs', _, hsame⟩ := h'
    refine ⟨hok', (FsKeeps.pop s).trans hk', hrefs',
      (OnlyAllocs.pop s).sameDisk.trans (hsame (.inl hkept)).1, fun ha => ?_⟩
    unfold FileSys.granted at hg
    rw [ha] at hg
    cases hg

theorem dirRemove_spec (hs : FsOk s) (hr : IsRoot s h) :
    Runs (dirRemove h name) s fun r s' => FsOk s' ∧ FsKeeps s s' ∧ s'.refs = s.refs ∧ match r with
      | false => SameDisk s s' ∧ (s.allocs = [] → ∀ j < 16, ¬ Match s.disk name j)
      | true => SystemOnly s s' ∧ ∃ i, Finds s.disk name i ∧ Erased s.disk s'.disk i := by
  unfold dirRemove
  rw [runs_bind]
  refine (lookup_spec name hs hr).mono fun r s₁ h1 => ?_
  obtain ⟨hoa, ha, hres⟩ := h1
  have hs1 := hoa.ok hs
  have hk1 := hoa.onlyDisk.keeps (hoa.calm ha)
  have hd1 := hoa.sameDisk
  have hrefs1 := hoa.onlyDisk.refs
  cases r with
  | none =>
    simp only [runs_pure]
    exact ⟨hs1, hk1, hrefs1, hd1, hres⟩
  | some e =>
    obtain ⟨e, ofs⟩ := e
    obtain ⟨_, i, hi, rfl, rfl⟩ := hres
    rw [← hd1.disk] at hi ⊢
    simp only [runs_bind]
    refine (inodeOpen_spec hs1 (live_named hi.inside hi.found.1)).mono fun r s₂ h2 => ?_
    obtain ⟨hs2, hk2, hd2, hr2⟩ := h2
    have hd := hd1.trans hd2
    cases r with
    | none =>
      simp only [runs_pure]
      exact ⟨hs2, hk1.trans hk2, hr2.1.trans hrefs1, hd, fun h => absurd (ha h) hr2.2⟩
    | some x =>
      obtain ⟨hx, hsec, hrefs2, _⟩ := hr2
      have hroom : s₂.filesOn x < s₂.refs x := by
        rw [hk2.filesOn, hrefs2]
        unfold bump
        rw [update_self]
        exact Nat.lt_succ_of_le (hs1.heap.filesOn_le_refs x)
      have hroot : IsRoot s₂ h := by
        refine (hr.onlyDisk hoa.onlyDisk).keeps hs1 hk2 ?_
        rw [hrefs2]
        exact le_bump _ _ _
      rw [← hd2.disk] at hi hsec ⊢
      refine (removeOpened_spec hs2 hroot hi.inside hi.found.1 hx hsec hroom).mono
        fun r s₃ h3 => ?_
      obtain ⟨hs3, hk3, hrefs3, hr3⟩ := h3
      refine ⟨hs3, (hk1.trans hk2).trans hk3, ?_, ?_⟩
      · rw [hrefs3, hrefs2, unbump_bump, hrefs1]
      · cases r with
        | false => exact ⟨hd.trans hr3.1, fun h => absurd (hk2.calm.allocs (ha h)) hr3.2⟩
        | true => exact ⟨hd.system.trans hs hr3.1, i, hi, hr3.2⟩

end Remove

end Pintos
