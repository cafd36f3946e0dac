/-
  Subject:   A directory that holds a map from names to sectors, and what `dir_add`, `dir_remove`,
             `dir_lookup` and `dir_readdir` do to it (directory.c).

  `DirWorld h c f s l`: in the state `s`, the directory with the inode `h` and room for `c` entries
  holds the map `l`, and every file it names is an allocated one that shares no sector with another,
  with the directory or with the free map file `f`. A removed file gives its sectors back to the free
  map, which is written to the device; that these writes stay away from the directory and from the
  other files is part of the invariant.
-/
import Pintos.Filesys.DirEntries

namespace Pintos

open Lib Function List Nat

/-! ## 1. The directory and what is around it -/

/-- A map from names to the sectors of inodes, in no particular order. -/
abbrev NameMap := List (List UInt8 × ℕ)

/-- The names are distinct and valid. -/
structure NameMap.Ok (l : NameMap) : Prop where
  distinct : (l.map Prod.fst).Nodup
  valid : ∀ x ∈ l, x.1 ≠ [] ∧ x.1.length ≤ 14

/-- The map without a name. -/
def NameMap.without (l : NameMap) (name : List UInt8) : NameMap := l.filter fun x => x.1 ≠ name

/-- The inodes that matter: the free map, the directory in sector `D`, and the files it names. -/
def Kept (D : ℕ) (l : NameMap) (σ : ℕ) : Prop := σ = 0 ∨ σ = D ∨ ∃ name, (name, σ) ∈ l

/-- **The directory holds the map `l`.** -/
structure DirWorld (h c f : ℕ) (s : FileSys) (l : NameMap) : Prop where
  file : DirFile s h c
  map : MapReady s f
  mapSector : (s.inode (s.file f).inode).sector = 0
  mapOld : (s.file f).inode < s.nextInode
  size : s.size < 2 ^ 32
  data : (s.inode h).data = inodeAt s.disk (s.inode h).sector
  old : h < s.nextInode
  nodup : s.openInodes.Nodup
  counted : ∀ x ∈ s.openInodes, x < s.nextInode ∧ 0 < (s.inode x).openCnt
  owners : Owners (Kept (s.inode h).sector l) (Owns s.disk) fun k => s.freeMap k = true
  placed : ∀ σ, Kept (s.inode h).sector l σ → Placed s.size (inodeAt s.disk σ) σ
  /-- No file is named twice. -/
  once : (0 :: (s.inode h).sector :: l.map Prod.snd).Nodup
  names : l.Ok
  used : (bindings s.disk (s.inode h).data c).Perm l

/-- **An allocated inode** that the directory does not name and that shares no sector with what it
    names. -/
structure NewInode (h : ℕ) (s : FileSys) (l : NameMap) (σ : ℕ) : Prop where
  placed : Placed s.size (inodeAt s.disk σ) σ
  marked : ∀ k, Owns s.disk σ k → s.freeMap k = true
  apart : ∀ τ k, Kept (s.inode h).sector l τ → Owns s.disk σ k → ¬ Owns s.disk τ k

/-- A step that leaves the directory's inode and the free map file alone. -/
structure SameAround (h f : ℕ) (s s' : FileSys) : Prop where
  size : s'.size = s.size
  freeMapFile : s'.freeMapFile = s.freeMapFile
  file : s'.file = s.file
  granted : s'.allocs = []
  dir : s'.inode h = s.inode h
  map : s'.inode (s.file f).inode = s.inode (s.file f).inode
  next : s.nextInode ≤ s'.nextInode
  nodup : s'.openInodes.Nodup
  counted : ∀ x ∈ s'.openInodes, x < s'.nextInode ∧ 0 < (s'.inode x).openCnt

variable {D j k x σ τ : ℕ} {name : CString}

theorem Kept.mono {l l' : NameMap} (hl : ∀ x ∈ l', x ∈ l) (h : Kept D l' σ) : Kept D l σ := by
  rcases h with h | h | ⟨name, h⟩
  · exact .inl h
  · exact .inr (.inl h)
  · exact .inr (.inr ⟨name, hl _ h⟩)

section World

variable {h c f : ℕ} {s s' : FileSys} {l l' : NameMap}

namespace DirWorld

theorem keptMap (_ : DirWorld h c f s l) : Kept (s.inode h).sector l 0 := Or.inl rfl

theorem keptDir (_ : DirWorld h c f s l) : Kept (s.inode h).sector l (s.inode h).sector :=
  .inr (.inl rfl)

section

variable (hw : DirWorld h c f s l)

include hw

theorem notData (hσ : Kept (s.inode h).sector l σ) (hτ : Kept (s.inode h).sector l τ) :
    ¬ InData (inodeAt s.disk σ) τ := by
  intro hd
  have hsame : σ = τ := hw.owners.apart σ τ τ hσ hτ (.inr hd) (.inl rfl)
  subst hsame
  exact (hw.placed σ hσ).self hd

theorem sector_ne : (s.inode h).sector ≠ 0 := fun h0 =>
  (nodup_cons.mp hw.once).1 (h0 ▸ mem_cons_self)

theorem notMap (hx : InData (s.inode h).data x) : ¬ InData (inodeAt s.disk 0) x := by
  rw [hw.data] at hx
  intro h0
  exact hw.sector_ne (hw.owners.apart _ _ x hw.keptDir hw.keptMap (.inr hx) (.inr h0))

theorem short : (s.inode h).data.length < 2 ^ 31 := by
  rw [hw.data]
  exact (hw.placed _ hw.keptDir).length

/-- **The invariant after a step** around which little changes: what is still kept has its inode and
    its marks, and the entries hold the new map. -/
theorem next (ha : SameAround h f s s')
    (hdisk : ∀ σ, Kept (s.inode h).sector l' σ → s'.disk σ = s.disk σ)
    (howners : Owners (Kept (s.inode h).sector l') (Owns s.disk) fun k => s'.freeMap k = true)
    (hplaced : ∀ σ, Kept (s.inode h).sector l' σ → Placed s.size (inodeAt s.disk σ) σ)
    (honce : (0 :: (s.inode h).sector :: l'.map Prod.snd).Nodup) (hnames : l'.Ok)
    (hused : (bindings s'.disk (s.inode h).data c).Perm l') : DirWorld h c f s' l' := by
  have hat : ∀ σ, Kept (s.inode h).sector l' σ → inodeAt s'.disk σ = inodeAt s.disk σ :=
    fun σ hσ => congrArg inodeDiskOf (hdisk σ hσ)
  have h0 := hat 0 (.inl rfl)
  refine ⟨⟨ha.granted, ?_, ?_, ?_, ?_⟩, ⟨?_, ?_, ?_, ?_, ?_, ?_, ?_⟩, ?_, ?_, ?_, ?_, ?_, ha.nodup,
    ha.counted, ?_, ?_, ?_, hnames, ?_⟩
  · exact ha.dir ▸ hw.file.length
  · intro k hk
    rw [ha.dir] at hk ⊢
    rw [ha.size]
    exact hw.file.onDevice k hk
  · exact ha.dir ▸ hw.file.sema
  · exact ha.dir ▸ hw.file.writable
  · exact ha.freeMapFile.trans hw.map.isMap
  · rw [ha.file, ha.map, h0]
    exact hw.map.data
  · rw [ha.file, ha.map]
    exact hw.map.sema
  · rw [ha.file, ha.map]
    exact hw.map.writable
  · rw [ha.size, h0]
    exact hw.map.placed
  · rw [ha.size, h0]
    exact hw.map.length
  · rw [ha.size]
    exact hw.map.bits
  · rw [ha.file, ha.map]
    exact hw.mapSector
  · rw [ha.file]
    exact lt_of_lt_of_le hw.mapOld ha.next
  · rw [ha.size]
    exact hw.size
  · rw [ha.dir, hat _ (.inr (.inl rfl))]
    exact hw.data
  · exact lt_of_lt_of_le hw.old ha.next
  · rw [ha.dir]
    refine howners.congr fun σ k hσ hk => ?_
    unfold Owns at hk ⊢
    rwa [hat σ hσ] at hk
  · rw [ha.dir, ha.size]
    intro σ hσ
    rw [hat σ hσ]
    exact hplaced σ hσ
  · rw [ha.dir]
    exact honce
  · rw [ha.dir]
    exact hused

theorem same (ha : SameAround h f s s') (hdisk : s'.disk = s.disk)
    (hmap : s'.freeMap = s.freeMap) : DirWorld h c f s' l :=
  hw.next ha (fun _ _ => by rw [hdisk]) (by rw [hmap]; exact hw.owners) hw.placed hw.once hw.names
    (by rw [hdisk]; exact hw.used)

theorem around_write (offset n : ℕ) (b : ℕ → UInt8) :
    SameAround h f s (s.write (s.inode h).data offset n b) :=
  ⟨rfl, rfl, rfl, hw.file.granted, rfl, rfl, le_refl _, hw.nodup, hw.counted⟩

/-! ## 2. Adding -/

theorem fill {e : DirEntry} (hj : j < c) (hfree : (entryAt s.disk (s.inode h).data j).inUse = false)
    (he : e.name.length = 15) (hv : ValidName name) (habs : name.val ∉ l.map Prod.fst)
    (hnew : NewInode h s l σ) : DirWorld h c f (s.write (s.inode h).data (20 * j) 20
      (dirEntryBytes ⟨σ, strlcpy e.name name.val, true⟩)) ((name.val, σ) :: l) := by
  have hlen := hw.file.length
  have hkept : ∀ τ, Kept (s.inode h).sector ((name.val, σ) :: l) τ →
      Kept (s.inode h).sector l τ ∨ τ = σ := by
    intro τ hτ
    rcases hτ with hτ | hτ | ⟨n, hτ⟩
    · exact .inl (.inl hτ)
    · exact .inl (.inr (.inl hτ))
    · rcases mem_cons.mp hτ with he | hτ
      · exact .inr (Prod.mk.inj he).2
      · exact .inl (.inr (.inr ⟨n, hτ⟩))
  have hne : ∀ τ, Kept (s.inode h).sector l τ → τ ≠ σ := fun τ hτ hts =>
    hnew.apart τ τ hτ (.inl hts) (.inl rfl)
  have hout : ∀ τ, Kept (s.inode h).sector ((name.val, σ) :: l) τ →
      ¬ InData (s.inode h).data τ := by
    rw [hw.data]
    intro τ hτ hd
    rcases hkept τ hτ with hτ | rfl
    · exact hw.notData hw.keptDir hτ hd
    · exact hnew.apart _ τ hw.keptDir (.inl rfl) (.inr hd)
  refine hw.next (hw.around_write _ _ _) (fun τ hτ => ?_) ?_ (fun τ hτ => ?_) ?_ ⟨?_, ?_⟩ ?_
  · exact write_other hw.short (.inl (by omega)) (hout τ hτ)
  · exact hw.owners.add hkept hnew.marked fun τ k hτ => hnew.apart τ k hτ
  · rcases hkept τ hτ with hτ | rfl
    · exact hw.placed τ hτ
    · exact hnew.placed
  · refine (@perm_middle _ _ [0, (s.inode h).sector] _).nodup_iff.mpr
      (nodup_cons.mpr ⟨fun hmem => ?_, hw.once⟩)
    rcases mem_cons.mp hmem with h0 | hmem
    · exact hne 0 (.inl rfl) h0.symm
    · rcases mem_cons.mp hmem with hD | hmem
      · exact hne _ (.inr (.inl rfl)) hD.symm
      · obtain ⟨x, hx, hxσ⟩ := mem_map.mp hmem
        have hxσ : x.2 = σ := hxσ
        exact hne x.2 (.inr (.inr ⟨x.1, hx⟩)) hxσ
  · exact nodup_cons.mpr ⟨habs, hw.names.distinct⟩
  · intro x hx
    rcases mem_cons.mp hx with rfl | hx
    · exact hv
    · exact hw.names.valid x hx
  · have hsec : σ < 2 ^ 32 := lt_trans hnew.placed.inside hw.size
    have hfill := bindings_fill (e := ⟨σ, strlcpy e.name name.val, true⟩) hj hsec
      (strlcpy_length he) rfl hfree
    rw [strlcpy_string hv.2] at hfill
    exact hfill.trans (hw.used.cons _)

theorem named (hj : firstFrom (isNamed s.disk (s.inode h).data name) c 0 = some j) : j < c ∧
      (entryAt s.disk (s.inode h).data j).inUse = true ∧
      (entryAt s.disk (s.inode h).data j).string = name.val ∧
      (name.val, (entryAt s.disk (s.inode h).data j).inodeSector) ∈ l := by
  obtain ⟨-, hjc, hp⟩ := firstFrom_some hj
  obtain ⟨hu, hn⟩ := of_decide_eq_true hp
  refine ⟨hjc, hu, hn, hw.used.mem_iff.mp (mem_bindings.mpr ⟨j, hjc, hu, ?_⟩)⟩
  rw [hn]

theorem notNamed (hno : firstFrom (isNamed s.disk (s.inode h).data name) c 0 = none) :
    name.val ∉ l.map Prod.fst := by
  intro hmem
  obtain ⟨x, hx, hxn⟩ := mem_map.mp hmem
  obtain ⟨i, hi, hu, hxe⟩ := mem_bindings.mp (hw.used.mem_iff.mpr hx)
  refine of_decide_eq_false (firstFrom_none hno i hi) ⟨hu, ?_⟩
  rw [← hxn, hxe]

theorem dirAdd (name : CString) (hnew : NewInode h s l σ) :
    ∃ b s', (Pintos.dirAdd h name σ).run s = .ok (b, s') ∧
      (b = true ↔ ValidName name ∧ name.val ∉ l.map Prod.fst ∧ l.length < c) ∧
      DirWorld h c f s' (if b then (name.val, σ) :: l else l) := by
  unfold Pintos.dirAdd
  split
  · rename_i hbad
    refine ⟨false, s, rfl, iff_of_false Bool.false_ne_true fun hgood => ?_, hw⟩
    rcases hbad with hbad | hbad
    · exact hgood.1.1 hbad
    · exact not_lt.mpr hgood.1.2 hbad
  · rename_i hok
    have hv : ValidName name := ⟨fun h => hok (.inl h), not_lt.mp fun h => hok (.inr h)⟩
    rw [Prog.run_bind_ok (hw.file.lookup name)]
    cases hfind : firstFrom (isNamed s.disk (s.inode h).data name) c 0 with
    | some j =>
      obtain ⟨-, -, -, hmem⟩ := hw.named hfind
      exact ⟨false, s, rfl, iff_of_false Bool.false_ne_true fun hgood =>
        hgood.2.1 (mem_map_of_mem hmem), hw⟩
    | none =>
      have habs := hw.notNamed hfind
      have hfull := bindings_length_lt s.disk (s.inode h).data c
      rw [hw.used.length_eq] at hfull
      obtain ⟨e, he, hslot⟩ := hw.file.slotLoop (i := 0)
        (e := ⟨0, List.replicate 15 0, false⟩) (show c + 1 + 0 = c + 1 from rfl)
        (zero_le c) (by rfl)
      have hlen : (s.inode h).data.length / 20 + 1 = c + 1 := by
        rw [hw.file.length, Nat.mul_div_cancel_left _ (by decide)]
      simp only [Option.map_none]
      rw [Prog.run_bind_ok (show (get : FsM FileSys).run s = .ok (s, s) from rfl), hlen,
        Prog.run_bind_ok hslot]
      -- the slot is the first free entry, or the directory has come to its end
      cases hfirst : firstFrom (fun j => !(entryAt s.disk (s.inode h).data j).inUse) c 0 with
      | some j =>
        obtain ⟨-, hjc, hfree⟩ := firstFrom_some hfirst
        have hfree : (entryAt s.disk (s.inode h).data j).inUse = false := by simpa using hfree
        simp only [Option.getD_some]
        rw [Prog.run_bind_ok (hw.file.writeEntry hjc _)]
        exact ⟨true, _, rfl, iff_of_true rfl ⟨hv, habs, hfull.mpr ⟨j, hjc, hfree⟩⟩,
          hw.fill hjc hfree he hv habs hnew⟩
      | none =>
        simp only [Option.getD_none]
        rw [Prog.run_bind_ok (hw.file.writeEnd _)]
        refine ⟨false, s, rfl, iff_of_false Bool.false_ne_true fun hgood => ?_, hw⟩
        obtain ⟨j, hjc, hfree⟩ := hfull.mp hgood.2.2
        have hused := firstFrom_none hfirst j hjc
        rw [hfree] at hused
        cases hused

end

/-! ## 3. Opening and removing -/

/-- What `inode_open` of a named file leaves: the inode `x`, held by others too or read just now. -/
structure OpenedAs (s s' : FileSys) (σ x : ℕ) : Prop where
  disk : s'.disk = s.disk
  freeMap : s'.freeMap = s.freeMap
  sector : (s'.inode x).sector = σ
  isOpen : x ∈ s'.openInodes
  shared : 2 ≤ (s'.inode x).openCnt ∨ (s'.inode x).openCnt = 1 ∧ (s'.inode x).data = inodeAt s.disk σ

section

variable (hw : DirWorld h c f s l)

include hw

theorem ne_special {name : List UInt8} (hσ : (name, σ) ∈ l) : σ ≠ 0 ∧ σ ≠ (s.inode h).sector := by
  have hmem : σ ∈ l.map Prod.snd := mem_map_of_mem (f := Prod.snd) hσ
  obtain ⟨h0, hD⟩ := nodup_cons.mp hw.once
  exact ⟨fun he => h0 (he ▸ mem_cons_of_mem _ hmem),
    fun he => (nodup_cons.mp hD).1 (he ▸ hmem)⟩

/-- A change to an inode other than the directory's and the free map's. -/
theorem around_setInode {i : Inode} (hh : x ≠ h) (hm : x ≠ (s.file f).inode) (hi : 0 < i.openCnt) :
    SameAround h f s (s.setInode x i) := by
  refine ⟨rfl, rfl, rfl, hw.file.granted, update_of_ne hh.symm .., update_of_ne hm.symm ..,
    le_refl _, hw.nodup, fun y hy => ⟨(hw.counted y hy).1, ?_⟩⟩
  show 0 < (update s.inode x i y).openCnt
  by_cases hyx : y = x
  · rw [hyx, update_self]
    exact hi
  · rw [update_of_ne hyx]
    exact (hw.counted y hy).2

theorem ne_of_sector (h0 : (s.inode x).sector ≠ 0) (hD : (s.inode x).sector ≠ (s.inode h).sector) :
    x ≠ h ∧ x ≠ (s.file f).inode :=
  ⟨fun he => hD (he ▸ rfl), fun he => h0 (he ▸ hw.mapSector)⟩

theorem inodeOpen {name : List UInt8} (hσ : (name, σ) ∈ l) :
    ∃ x s', (Pintos.inodeOpen σ).run s = .ok (some x, s') ∧ DirWorld h c f s' l ∧
      SameAround h f s s' ∧ OpenedAs s s' σ x := by
  obtain ⟨h0, hD⟩ := hw.ne_special hσ
  cases hf : s.openInodes.find? fun x => (s.inode x).sector == σ with
  | some x =>
    have hx : x ∈ s.openInodes := mem_of_find?_eq_some hf
    have hsec : (s.inode x).sector = σ := by simpa using List.find?_some hf
    obtain ⟨hxh, hxm⟩ := hw.ne_of_sector (hsec ▸ h0) (hsec ▸ hD)
    have ha := hw.around_setInode (i := { s.inode x with openCnt := (s.inode x).openCnt + 1 })
      hxh hxm (succ_pos _)
    have hself : (s.setInode x { s.inode x with openCnt := (s.inode x).openCnt + 1 }).inode x =
        { s.inode x with openCnt := (s.inode x).openCnt + 1 } := update_self ..
    refine ⟨x, _, inodeOpen_found hf, hw.same ha rfl rfl, ha, rfl, rfl, ?_, hx, .inl ?_⟩
    · rw [hself]
      exact hsec
    · rw [hself]
      exact succ_le_succ (hw.counted x hx).2
  | none =>
    have hrun := inodeOpen_new hf (hw.placed σ (.inr (.inr ⟨name, hσ⟩))).inside (by
      unfold FileSys.granted
      rw [hw.file.granted]
      rfl)
    rw [pop_granted hw.file.granted] at hrun
    have hnew := newInode_new s σ
    have hnotmem : s.nextInode ∉ s.openInodes := fun hmem =>
      lt_irrefl _ (hw.counted _ hmem).1
    have ha : SameAround h f s (s.newInode σ) := by
      refine ⟨rfl, rfl, rfl, hw.file.granted, update_of_ne (Nat.ne_of_lt hw.old) ..,
        update_of_ne (Nat.ne_of_lt hw.mapOld) .., Nat.le_succ _,
        nodup_cons.mpr ⟨hnotmem, hw.nodup⟩, fun y hy => ?_⟩
      rcases mem_cons.mp hy with rfl | hy
      · rw [hnew]
        exact ⟨lt_succ_self _, one_pos⟩
      · have hlt := (hw.counted y hy).1
        have hold : (s.newInode σ).inode y = s.inode y := update_of_ne (Nat.ne_of_lt hlt) ..
        rw [hold]
        exact ⟨lt_succ_of_lt hlt, (hw.counted y hy).2⟩
    exact ⟨_, _, hrun, hw.same ha rfl rfl, ha, rfl, rfl, congrArg Inode.sector hnew,
      mem_cons_self, .inr ⟨congrArg Inode.openCnt hnew, congrArg Inode.data hnew⟩⟩

theorem dirLookup (name : CString) :
    ∃ o s', (Pintos.dirLookup h name).run s = .ok (o, s') ∧ DirWorld h c f s' l ∧
      (o.isSome = true ↔ name.val ∈ l.map Prod.fst) ∧
      ∀ x, o = some x → (name.val, (s'.inode x).sector) ∈ l := by
  unfold Pintos.dirLookup
  rw [Prog.run_bind_ok (hw.file.lookup name)]
  cases hfind : firstFrom (isNamed s.disk (s.inode h).data name) c 0 with
  | none =>
    exact ⟨none, s, rfl, hw, iff_of_false (by decide) (hw.notNamed hfind), fun x hx => by cases hx⟩
  | some j =>
    obtain ⟨-, -, -, hmem⟩ := hw.named hfind
    obtain ⟨x, s', hrun, hw', -, hopen⟩ := hw.inodeOpen hmem
    refine ⟨some x, s', hrun, hw', iff_of_true rfl (mem_map_of_mem hmem), fun y hy => ?_⟩
    cases hy
    rw [hopen.sector]
    exact hmem

theorem erase (hj : j < c) (hu : (entryAt s.disk (s.inode h).data j).inUse = true)
    (hmem : ((entryAt s.disk (s.inode h).data j).string,
      (entryAt s.disk (s.inode h).data j).inodeSector) ∈ l) :
    DirWorld h c f (s.write (s.inode h).data (20 * j) 20
      (dirEntryBytes (entryAt s.disk (s.inode h).data j).erased))
      (l.without (entryAt s.disk (s.inode h).data j).string) := by
  have hlen := hw.file.length
  have hsub : ∀ n, (l.without n).Sublist l := fun n => filter_sublist
  have hin := (hw.placed _ (.inr (.inr ⟨_, hmem⟩))).inside
  have hsize := hw.size
  refine hw.next (hw.around_write _ _ _) (fun τ hτ => ?_) ?_ (fun τ hτ => ?_) ?_ ⟨?_, ?_⟩ ?_
  · refine write_other hw.short (.inl (by omega)) ?_
    rw [hw.data]
    exact hw.notData hw.keptDir (hτ.mono (hsub _).subset)
  · exact hw.owners.shrink fun τ hτ => hτ.mono (hsub _).subset
  · exact hw.placed τ (hτ.mono (hsub _).subset)
  · exact hw.once.sublist ((((hsub _).map _).cons_cons _).cons_cons _)
  · exact hw.names.distinct.sublist ((hsub _).map _)
  · exact fun x hx => hw.names.valid x ((hsub _).subset hx)
  · -- the entries in use were the erased one and the rest, whose names are others
    have hrest := bindings_erase s.disk (s.inode h).data hj (by omega) hu
    have hl := hrest.symm.trans hw.used
    have hdist := (hl.map Prod.fst).nodup_iff.mpr hw.names.distinct
    have hfil := hl.filter fun x => x.1 ≠ (entryAt s.disk (s.inode h).data j).string
    rw [filter_cons_of_neg (by simp)] at hfil
    have hall : ∀ x ∈ bindings (writeBytes s.disk (s.inode h).data (20 * j) 20
        (dirEntryBytes (entryAt s.disk (s.inode h).data j).erased)) (s.inode h).data c,
        decide (x.1 ≠ (entryAt s.disk (s.inode h).data j).string) = true := fun x hx => by
      exact decide_eq_true fun hxe => (nodup_cons.mp hdist).1 (mem_map.mpr ⟨x, hx, hxe⟩)
    rw [filter_eq_self.mpr hall] at hfil
    exact hfil

/-- **`free_map_release`** of marked sectors that nothing kept owns. -/
theorem release (k cnt : ℕ) (hin : k + cnt ≤ s.size)
    (hset : ∀ x, k ≤ x → x < k + cnt → s.freeMap x = true)
    (hno : ∀ τ x, Kept (s.inode h).sector l τ → k ≤ x → x < k + cnt → ¬ Owns s.disk τ x) :
    ∃ s', (freeMapRelease k cnt).run s = .ok ((), s') ∧ DirWorld h c f s' l ∧
      s'.freeMap = bitmapSetMultiple s.freeMap k cnt false ∧ s'.size = s.size ∧
      s'.inode = s.inode ∧ ∀ τ, Kept (s.inode h).sector l τ → s'.disk τ = s.disk τ := by
  let m := bitmapSetMultiple s.freeMap k cnt false
  have heq := saveMap_eq (s.setMap m)
  have hdisk : ∀ x, ¬ InData (inodeAt s.disk 0) x → (s.setMap m).saveMap.disk x = s.disk x :=
    fun x hx => (hw.map.setMap m).saveMap_disk hx
  have hkept : ∀ τ, Kept (s.inode h).sector l τ → (s.setMap m).saveMap.disk τ = s.disk τ :=
    fun τ hτ => hdisk τ (hw.notData hw.keptMap hτ)
  refine ⟨_, freeMapRelease_run hw.map hin hset, ?_, saveMap_freeMap _, saveMap_size _, ?_, hkept⟩
  · have ha : SameAround h f s (s.setMap m).saveMap := by
      have hallocs := saveMap_allocs (s := s.setMap m) hw.file.granted
      rw [heq]
      exact ⟨rfl, rfl, rfl, hallocs, rfl, rfl, le_refl _, hw.nodup, hw.counted⟩
    refine hw.next ha hkept ?_ hw.placed hw.once hw.names ?_
    · rw [saveMap_freeMap]
      refine hw.owners.unmark fun τ x hτ hx hmark => ?_
      show bitmapSetMultiple s.freeMap k cnt false x = true
      unfold bitmapSetMultiple
      rw [if_neg fun hr => hno τ x hτ hr.1 hr.2 hx]
      exact hmark
    · rw [bindings_congr hw.file.length hw.short fun x hx => hdisk x (hw.notMap hx)]
      exact hw.used
  · rw [heq]
    rfl

/-- The last reference to a removed file is dropped: its inode and its data are given back. -/
theorem closeLast (hxh : x ≠ h) (hxm : x ≠ (s.file f).inode)
    (hc : (s.inode x).openCnt = 1) (hr : (s.inode x).removed = true)
    (hp : Placed s.size (s.inode x).data (s.inode x).sector)
    (hown : ∀ k, k = (s.inode x).sector ∨ InData (s.inode x).data k → s.freeMap k = true ∧
      ∀ τ, Kept (s.inode h).sector l τ → ¬ Owns s.disk τ k) :
    ∃ s', (inodeClose (some x)).run s = .ok ((), s') ∧ DirWorld h c f s' l := by
  have ha : SameAround h f s (s.forget x (s.inode x).less) := by
    refine ⟨rfl, rfl, rfl, hw.file.granted, update_of_ne hxh.symm ..,
      update_of_ne hxm.symm .., le_refl _, hw.nodup.erase _, fun y hy => ?_⟩
    obtain ⟨hyx, hy⟩ := hw.nodup.mem_erase_iff.mp hy
    have hold : (s.forget x (s.inode x).less).inode y = s.inode y := update_of_ne hyx ..
    rw [hold]
    exact hw.counted y hy
  have hw1 : DirWorld h c f (s.forget x (s.inode x).less) l := hw.same ha rfl rfl
  have hdir : ((s.forget x (s.inode x).less).inode h).sector = (s.inode h).sector := by rw [ha.dir]
  obtain ⟨s₂, hrun2, hw2, hmap2, hsize2, hinode2, hdisk2⟩ := hw1.release
    (s.inode x).sector 1 hp.inside
    (fun y h1 h2 => (hown y (.inl (by omega))).1)
    fun τ y hτ h1 h2 => by
      rw [hdir] at hτ
      exact (hown y (.inl (by omega))).2 τ hτ
  have hdir2 : (s₂.inode h).sector = (s.inode h).sector := by rw [hinode2, hdir]
  obtain ⟨s₃, hrun3, hw3, -⟩ := hw2.release (s.inode x).data.start
    (bytesToSectors (s.inode x).data.length) (by rw [hsize2]; exact hp.extent)
    (fun y h1 h2 => by
      have hy := (hown y (.inr ⟨h1, h2⟩)).1
      have hne : y ≠ (s.inode x).sector := fun he => hp.self (he ▸ ⟨h1, h2⟩)
      rw [hmap2]
      unfold bitmapSetMultiple
      rw [if_neg (by omega)]
      exact hy)
    (fun τ y hτ h1 h2 howns => by
      rw [hdir2] at hτ
      refine (hown y (.inr ⟨h1, h2⟩)).2 τ hτ ?_
      unfold Owns inodeAt at howns ⊢
      rwa [hdisk2 τ (by rw [hdir]; exact hτ)] at howns)
  refine ⟨s₃, Runs.run_eq ((inodeClose_last hc).mpr ?_), hw3⟩
  rw [if_pos hr, runs_of_run hrun2, runs_of_run hrun3]
  exact ⟨rfl, rfl⟩

theorem own {name : List UInt8} (hσ : (name, σ) ∈ l) (hk : Owns s.disk σ k) : s.freeMap k = true ∧
      ∀ τ, Kept (s.inode h).sector (l.without name) τ → ¬ Owns s.disk τ k := by
  have hkept : Kept (s.inode h).sector l σ := .inr (.inr ⟨name, hσ⟩)
  refine ⟨hw.owners.marked σ k hkept hk, fun τ hτ hk' => ?_⟩
  have hτ' : Kept (s.inode h).sector l τ := hτ.mono fun x hx => mem_of_mem_filter hx
  have he : σ = τ := hw.owners.apart σ τ k hkept hτ' hk hk'
  subst he
  obtain ⟨h0, hD⟩ := hw.ne_special hσ
  rcases hτ with he | he | ⟨n, hn⟩
  · exact h0 he
  · exact hD he
  · obtain ⟨hn, hne⟩ := mem_filter.mp hn
    have hsnd := (nodup_cons.mp (nodup_cons.mp hw.once).2).2
    have hsame := inj_on_of_nodup_map hsnd hn hσ rfl
    exact of_decide_eq_true hne (Prod.mk.inj hsame).1

theorem dirRemove (name : CString) : ∃ b s', (Pintos.dirRemove h name).run s = .ok (b, s') ∧
      (b = true ↔ name.val ∈ l.map Prod.fst) ∧
      DirWorld h c f s' (if b then l.without name.val else l) := by
  unfold Pintos.dirRemove
  rw [Prog.run_bind_ok (hw.file.lookup name)]
  cases hfind : firstFrom (isNamed s.disk (s.inode h).data name) c 0 with
  | none =>
    exact ⟨false, s, rfl, iff_of_false Bool.false_ne_true (hw.notNamed hfind), hw⟩
  | some j =>
    obtain ⟨hjc, hu, hname, hmem⟩ := hw.named hfind
    obtain ⟨x, s₁, hrun1, hw1, ha1, hopen⟩ := hw.inodeOpen hmem
    obtain ⟨h0, hD⟩ := hw.ne_special hmem
    let e := entryAt s.disk (s.inode h).data j
    have he : entryAt s₁.disk (s₁.inode h).data j = e := by rw [hopen.disk, ha1.dir]
    have hsector : (s₁.inode x).sector = e.inodeSector := hopen.sector
    obtain ⟨hxh, hxm⟩ := hw1.ne_of_sector (x := x) (by rw [hsector]; exact h0)
      (by rw [hsector, ha1.dir]; exact hD)
    have hw2 := hw1.erase hjc (by rw [he]; exact hu) (by rw [he, hname]; exact hmem)
    rw [he, hname] at hw2
    let s₂ := s₁.write (s₁.inode h).data (20 * j) 20 (dirEntryBytes e.erased)
    -- the file is marked as removed; what it owns is nobody else's
    have hw3 := hw2.same (hw2.around_setInode (x := x) (i := { s₂.inode x with removed := true })
      hxh hxm (hw2.counted x hopen.isOpen).2) rfl rfl
    have hclose : ∃ s₄, (inodeClose (some x)).run
        (s₂.setInode x { s₂.inode x with removed := true }) = .ok ((), s₄) ∧
        DirWorld h c f s₄ (l.without name.val) := by
      have hself : (s₂.setInode x { s₂.inode x with removed := true }).inode x =
          { s₁.inode x with removed := true } := update_self ..
      rcases hopen.shared with hmany | ⟨hone, hdata⟩
      · refine ⟨_, inodeClose_more (by rw [hself]; show (s₁.inode x).openCnt ≠ 1; omega), ?_⟩
        refine hw3.same (hw3.around_setInode hxh hxm ?_) rfl rfl
        rw [hself]
        show 0 < (s₁.inode x).openCnt - 1
        omega
      · have hkept : Kept (s₁.inode h).sector l e.inodeSector := .inr (.inr ⟨_, hmem⟩)
        have hdata' : (s₁.inode x).data = inodeAt s₁.disk e.inodeSector := by
          rw [hdata, hopen.disk]
        have hdir : (s₂.setInode x { s₂.inode x with removed := true }).inode h = s₁.inode h :=
          update_of_ne hxh.symm ..
        refine hw3.closeLast hxh hxm (by rw [hself]; exact hone)
          (by rw [hself]) ?_ fun k hk => ?_
        · rw [hself]
          rw [hdata', hsector]
          exact hw1.placed _ hkept
        · rw [hself] at hk
          have hk : Owns s₁.disk e.inodeSector k := by
            unfold Owns
            rw [← hsector, ← hdata', ← hsector] at *
            exact hk
          obtain ⟨hmark, hfree⟩ := hw1.own hmem hk
          refine ⟨hmark, fun τ hτ hown => ?_⟩
          rw [hdir] at hτ
          refine hfree τ hτ ?_
          have hsame : s₂.disk τ = s₁.disk τ :=
            write_other hw1.short (.inl (by have := hw1.file.length; omega)) (by
              rw [hw1.data]
              exact hw1.notData hw1.keptDir (hτ.mono fun y hy => mem_of_mem_filter hy))
          unfold Owns inodeAt at hown ⊢
          rwa [show (s₂.setInode x { s₂.inode x with removed := true }).disk τ = s₁.disk τ
            from hsame] at hown
    obtain ⟨s₄, hrun4, hw4⟩ := hclose
    have hwrite := hw1.file.writeEntry hjc e.erased
    have hremove : (inodeRemove x).run s₂ =
      .ok ((), s₂.setInode x { s₂.inode x with removed := true }) := rfl
    refine ⟨true, s₄, ?_, iff_of_true rfl (mem_map_of_mem hmem), hw4⟩
    exact (Prog.run_bind_ok hrun1).trans ((Prog.run_bind_ok hwrite).trans
      ((Prog.run_bind_ok hremove).trans (Prog.run_bind_ok hrun4)))

theorem readdirPass : ∃ names, (Pintos.readdirPass h (c + 1) 0).run s = .ok (names, s) ∧
      names.Perm (l.map Prod.fst) := by
  have hrun := hw.file.readdirPass (i := 0) (show c + 1 ≤ c + 1 + 0 from le_refl _) (zero_le c)
  rw [Nat.sub_zero, ← range_eq_range'] at hrun
  refine ⟨_, hrun, ?_⟩
  have hused : ((List.range c).flatMap fun j => binding (entryAt s.disk (s.inode h).data j)).Perm l :=
    hw.used
  have hshort : l.map (fun x => x.1.take 14) = l.map Prod.fst :=
    map_congr_left fun x hx => take_of_length_le (hw.names.valid x hx).2
  exact hshort ▸ hused.map fun x => x.1.take 14

end

end DirWorld

end World

end Pintos
