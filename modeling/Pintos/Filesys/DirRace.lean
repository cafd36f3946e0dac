/-
  Subject:   `filesys_create` and `filesys_remove` by any number of threads: is an update of the root
             directory lost?

  `dir_add` looks the name up, looks for a free slot and writes the entry, each with sleeps in the
  driver; the semaphore of the inode covers the write alone. Two calls can find the same slot.

  **`serial_updates_kept`**: if a call starts only when no other is under way and no allocation is
  refused, then no update is lost.
-/
import Pintos.Lib.Pool
import Pintos.Filesys.Ownership

namespace Pintos

open Lib List

/-! ## 1. The calls -/

/-- `filesys_create`, with the sector it allocates for the inode as a second result. -/
def createTraced (name : CString) (initialSize : Int) : FsM (Bool × Option ℕ) := do
  match ← dirOpenRoot with
  | none => return (false, none)
  | some dir =>
    match ← freeMapAllocate 1 with
    | none =>
      dirClose (some dir)
      return (false, none)
    | some inodeSector =>
      let created ← inodeCreate inodeSector initialSize
      let success ← if created then dirAdd dir name inodeSector else pure false
      if !success ∧ inodeSector ≠ 0 then freeMapRelease inodeSector 1
      dirClose (some dir)
      return (success, some inodeSector)

inductive DirCall where
  | create (name : CString) (initialSize : OffT)
  | remove (name : CString)

def DirCall.name : DirCall → CString
  | .create name _ => name
  | .remove name => name

/-- The call creates the name. -/
def DirCall.creates (name : CString) : DirCall → Bool
  | .create name' _ => decide (name' = name)
  | .remove _ => false

def DirCall.prog : DirCall → FsM (Bool × Option ℕ)
  | .create name size => createTraced name size
  | .remove name => (·, none) <$> filesysRemove name

abbrev DirPool := Pool DirCall Pause FileSys FsCrash (Bool × Option ℕ)

/-- The calls made so far. -/
def calls (P : DirPool) : List DirCall := P.log.map Prod.fst ++ P.active.map Prod.fst

/-- The names that are created are distinct and not there yet; those that are removed are others. -/
def OwnNames (P : DirPool) : PoolEvent DirCall → Prop
  | .start (.create name _) => (∀ c ∈ calls P, c.name ≠ name) ∧ ∀ i < 16, ¬ Match P.state.disk name i
  | .start (.remove name) => ∀ c ∈ calls P, c.creates name = false
  | .go _ => True

/-- A call starts only when no other is under way. -/
def OneAtATime (P : DirPool) : PoolEvent DirCall → Prop
  | .start _ => P.active = []
  | .go _ => True

instance (disk : ℕ → ℕ → UInt8) (name : CString) (i : ℕ) : Decidable (Match disk name i) :=
  inferInstanceAs (Decidable (_ ∧ _))

instance (P : DirPool) : (e : PoolEvent DirCall) → Decidable (OwnNames P e)
  | .start (.create _ _) => inferInstanceAs (Decidable (_ ∧ _))
  | .start (.remove name) => inferInstanceAs (Decidable (∀ c ∈ calls P, c.creates name = false))
  | .go _ => .isTrue trivial

instance (P : DirPool) : (e : PoolEvent DirCall) → Decidable (OneAtATime P e)
  | .start _ => decidable_of_iff (P.active.isEmpty = true) List.isEmpty_iff
  | .go _ => .isTrue trivial

/-! ## 2. What should hold at the end -/

/-- `dir_lookup` in the root directory, with memory for it: the sector of the inode it gives. -/
def foundSector (s : FileSys) (name : CString) : Option ℕ :=
  match (do
      match ← dirOpenRoot with
      | none => return none
      | some dir => dirLookup dir name : FsM (Option ℕ)).run { s with allocs := [] } with
  | .ok (some h, s') => some (s'.inode h).sector
  | _ => none

/-- No two entries in use have the same name. -/
def DistinctNames (disk : ℕ → ℕ → UInt8) : Prop :=
  ∀ i < 16, ∀ j < 16, (entry disk i).inUse = true → (entry disk j).inUse = true →
    (entry disk i).string = (entry disk j).string → i = j

instance (disk : ℕ → ℕ → UInt8) : Decidable (DistinctNames disk) :=
  inferInstanceAs (Decidable (∀ i < 16, ∀ j < 16, (entry disk i).inUse = true →
    (entry disk j).inUse = true → (entry disk i).string = (entry disk j).string → i = j))

/-- **No update is lost.** -/
structure UpdatesKept (P : DirPool) : Prop where
  created : ∀ name size sector, (DirCall.create name size, (true, sector)) ∈ P.log →
    sector ≠ none ∧ foundSector P.state name = sector
  removed : ∀ name sector, (DirCall.remove name, (true, sector)) ∈ P.log →
    foundSector P.state name = none
  distinct : DistinctNames P.state.disk

section Found

variable {s : FileSys}

theorem foundSector_eq (name : CString) (hs : FsOk s) : (∃ j, Finds s.disk name j ∧
      foundSector s name = some (entry s.disk j).inodeSector) ∨
    ((∀ j < 16, ¬ Match s.disk name j) ∧ foundSector s name = none) := by
  have hs0 : FsOk { s with allocs := [] } := hs.setAllocs []
  obtain ⟨r, s₁, hrun1, hs1, hk1, hd1, hres⟩ := dirOpenRoot_spec hs0
  cases r with
  | none => exact absurd rfl hres.2
  | some h =>
    obtain ⟨hr, _⟩ := hres
    obtain ⟨r, s₂, hrun2, _, _, _, hres⟩ := dirLookup_spec name hs1 hr
    have hdisk : s₁.disk = s.disk := hd1.disk
    have hrun : foundSector s name = match (Except.ok (r, s₂) : Except (Halt FsCrash) _) with
        | .ok (some h, s') => some (s'.inode h).sector
        | _ => none := by
      unfold foundSector
      rw [Prog.run_bind_ok hrun1]
      simp only [hrun2]
    rw [hrun]
    cases r with
    | none =>
      refine .inr ⟨?_, rfl⟩
      rw [← hdisk]
      exact hres.2 (hk1.calm.allocs rfl)
    | some x =>
      obtain ⟨_, _, _, j, hj, hsec⟩ := hres
      rw [hdisk] at hj hsec
      exact .inl ⟨j, hj, congrArg some hsec⟩

end Found

/-! ## 3. One call -/

section Traced

variable {s s' : FileSys} {name : CString} {size : Int} {r : Bool × Option ℕ}

/-- Nothing else is different: the same pauses, the same effects, the same result. -/
theorem createTraced_fst (name : CString) (size : Int) :
    Prod.fst <$> createTraced name size = filesysCreate name size := by
  unfold createTraced filesysCreate
  rw [map_bind]
  refine bind_congr fun dir => ?_
  cases dir with
  | none => rfl
  | some dir =>
    simp only [map_bind]
    refine bind_congr fun sector => ?_
    cases sector with
    | none => simp only [map_bind, map_pure]
    | some σ =>
      simp only [map_bind]
      refine bind_congr fun created => ?_
      have hend : ∀ success : Bool,
          Prod.fst <$> (do
            if !success ∧ σ ≠ 0 then freeMapRelease σ 1
            dirClose (some dir)
            return (success, some σ) : FsM (Bool × Option ℕ)) = createEnd dir σ success := by
        intro success
        unfold createEnd
        split <;> simp only [map_bind, map_pure]
      cases created with
      | true =>
        rw [if_pos rfl, if_pos rfl, map_bind]
        exact bind_congr hend
      | false => exact hend false

theorem createTraced_run (h : (createTraced name size).run s = .ok (r, s')) :
    (filesysCreate name size).run s = .ok (r.1, s') := by
  rw [← createTraced_fst]
  exact Prog.run_bind_ok h

/-- The sector of a file that has been created is the one that was free. -/
theorem createTraced_sector (hs : FsOk s) (h : (createTraced name size).run s = .ok (r, s'))
    (hr : r.1 = true) : ∃ σ, r.2 = some σ ∧ bitmapScan s.size s.freeMap 1 = some σ := by
  obtain ⟨dir, s₁, h1, h⟩ := Prog.run_bind_inv h
  obtain ⟨hs1, hk1, hd1, _⟩ := (runs_of_run h1).mp (dirOpenRoot_spec hs)
  cases dir with
  | none =>
    cases h
    cases hr
  | some dir =>
    obtain ⟨sector, s₂, h2, h⟩ := Prog.run_bind_inv h
    obtain ⟨_, _, _, _, hres⟩ := (runs_of_run h2).mp (freeMapAllocate_spec hs1 1)
    cases sector with
    | none =>
      obtain ⟨_, _, _, h⟩ := Prog.run_bind_inv h
      cases h
      cases hr
    | some σ =>
      have hend : ∀ (success : Bool) s₃, (do
            if !success ∧ σ ≠ 0 then freeMapRelease σ 1
            dirClose (some dir)
            return (success, some σ) : FsM (Bool × Option ℕ)).run s₃ = .ok (r, s') →
          r.2 = some σ := by
        intro success s₃ h
        split at h
        · obtain ⟨_, _, _, h⟩ := Prog.run_bind_inv h
          obtain ⟨_, _, _, h⟩ := Prog.run_bind_inv h
          cases h
          rfl
        · obtain ⟨_, _, _, h⟩ := Prog.run_bind_inv h
          cases h
          rfl
      obtain ⟨created, s₃, _, h⟩ := Prog.run_bind_inv h
      refine ⟨σ, ?_, ?_⟩
      · cases created with
        | true =>
          obtain ⟨success, s₄, _, h⟩ := Prog.run_bind_inv h
          exact hend success s₄ h
        | false => exact hend false s₃ h
      · rw [← hk1.size, ← hd1.freeMap]
        exact hres.1

end Traced

/-! ## 4. One call at a time -/

/-- What holds of the state and the log between two calls. -/
structure Ledger (s : FileSys) (log : List (DirCall × Bool × Option ℕ)) : Prop where
  ok : FsOk s
  granted : s.allocs = []
  distinct : DistinctNames s.disk
  created : ∀ name size sector, (DirCall.create name size, (true, sector)) ∈ log →
    ∃ i < 16, Match s.disk name i ∧ sector = some (entry s.disk i).inodeSector
  removed : ∀ name sector, (DirCall.remove name, (true, sector)) ∈ log →
    ∀ i < 16, ¬ Match s.disk name i

section Serial

variable {s s' : FileSys} {log : List (DirCall × Bool × Option ℕ)}

theorem Ledger.same (h : Ledger s log) (hs' : FsOk s') (ha : s'.allocs = [])
    (he : entry s'.disk = entry s.disk) (c : DirCall) (sector : Option ℕ) :
    Ledger s' (log ++ [(c, (false, sector))]) := by
  have hmatch : ∀ name i, Match s'.disk name i ↔ Match s.disk name i := fun name i => by
    unfold Match
    rw [he]
  refine ⟨hs', ha, ?_, fun name size σ hmem => ?_, fun name σ hmem => ?_⟩
  · unfold DistinctNames
    rw [he]
    exact h.distinct
  · obtain ⟨i, hi, hm, hσ⟩ := h.created name size σ (by simpa using hmem)
    exact ⟨i, hi, (hmatch name i).mpr hm, by rw [he]; exact hσ⟩
  · intro i hi hm
    exact h.removed name σ (by simpa using hmem) i hi ((hmatch name i).mp hm)

theorem Ledger.enter (h : Ledger s log) (hs' : FsOk s') (ha : s'.allocs = []) {name : CString}
    {size : OffT} {n σ i : ℕ} {e : DirEntry} (hc : Created s s' name n σ i e)
    (hnew : ∀ c ∈ log.map Prod.fst, c.name ≠ name) :
    Ledger s' (log ++ [(.create name size, (true, some σ))]) := by
  obtain ⟨hslot, hno⟩ := hc.granted h.granted
  have hfree := hslot.free hc.inside
  have hself : entry s'.disk i = e := by rw [hc.entries i hc.inside, if_pos rfl]
  have hother : ∀ j < 16, j ≠ i → entry s'.disk j = entry s.disk j := fun j hj hne => by
    rw [hc.entries j hj, if_neg hne]
  -- a slot that was in use is not the new one
  have hused : ∀ j, (entry s.disk j).inUse = true → j ≠ i := fun j hj hji => by
    rw [hji, hfree] at hj
    cases hj
  -- and none of them has the name
  have hclash : ∀ j < 16, j ≠ i → (entry s'.disk j).inUse = true →
      (entry s'.disk j).string ≠ name.val := fun j hj hne hu hstr => by
    rw [hother j hj hne] at hu hstr
    exact hno j hj ⟨hu, hstr⟩
  refine ⟨hs', ha, fun a ha' b hb hua hub hstr => ?_, fun name' size' σ' hmem => ?_,
    fun name' σ' hmem j hj hm => ?_⟩
  · by_cases hai : a = i <;> by_cases hbi : b = i
    · rw [hai, hbi]
    · subst hai
      rw [hself, hc.string] at hstr
      exact absurd hstr.symm (hclash b hb hbi hub)
    · subst hbi
      rw [hself, hc.string] at hstr
      exact absurd hstr (hclash a ha' hai hua)
    · rw [hother a ha' hai] at hua hstr
      rw [hother b hb hbi] at hub hstr
      exact h.distinct a ha' b hb hua hub hstr
  · rcases mem_append.mp hmem with hmem | hmem
    · obtain ⟨j, hj, hm, hσ⟩ := h.created name' size' σ' hmem
      have hold := hother j hj (hused j hm.1)
      refine ⟨j, hj, ?_, by rw [hold]; exact hσ⟩
      unfold Match
      rw [hold]
      exact hm
    · rw [mem_singleton] at hmem
      cases hmem
      refine ⟨i, hc.inside, ?_, by rw [hself, hc.sector]⟩
      unfold Match
      rw [hself]
      exact ⟨hc.inUse, hc.string⟩
  · rcases mem_append.mp hmem with hmem | hmem
    · by_cases hji : j = i
      · subst hji
        unfold Match at hm
        rw [hself, hc.string] at hm
        exact hnew _ (mem_map_of_mem hmem) (Subtype.ext hm.2.symm)
      · unfold Match at hm
        rw [hother j hj hji] at hm
        exact h.removed name' σ' hmem j hj hm
    · rw [mem_singleton] at hmem
      cases hmem

theorem Ledger.erase (h : Ledger s log) (hs' : FsOk s') (ha : s'.allocs = []) {name : CString} {i : ℕ}
    (hf : Finds s.disk name i) (he : Erased s.disk s'.disk i)
    (hother : ∀ c ∈ log.map Prod.fst, c.creates name = false) :
    Ledger s' (log ++ [(.remove name, (true, none))]) := by
  have hself : (entry s'.disk i).inUse = false := by
    rw [he i hf.inside, if_pos rfl]
    rfl
  have hold : ∀ j < 16, j ≠ i → entry s'.disk j = entry s.disk j := fun j hj hne => by
    rw [he j hj, if_neg hne]
  -- what is in use after the call was so before, and is not the entry erased
  have hused : ∀ j < 16, (entry s'.disk j).inUse = true → j ≠ i := fun j _ hj hji => by
    rw [hji, hself] at hj
    cases hj
  refine ⟨hs', ha, fun a ha' b hb hua hub hstr => ?_, fun name' size' σ' hmem => ?_,
    fun name' σ' hmem j hj hm => ?_⟩
  · have hai := hold a ha' (hused a ha' hua)
    have hbi := hold b hb (hused b hb hub)
    rw [hai] at hua hstr
    rw [hbi] at hub hstr
    exact h.distinct a ha' b hb hua hub hstr
  · have hmem' : (DirCall.create name' size', (true, σ')) ∈ log := by simpa using hmem
    obtain ⟨j, hj, hm, hσ⟩ := h.created name' size' σ' hmem'
    have hji : j ≠ i := fun hji => by
      subst hji
      have hname : name' = name := Subtype.ext (hm.2.symm.trans hf.found.2)
      have hno := hother _ (mem_map_of_mem hmem')
      exact of_decide_eq_false hno hname
    refine ⟨j, hj, ?_, by rw [hold j hj hji]; exact hσ⟩
    unfold Match
    rw [hold j hj hji]
    exact hm
  · have hji := hused j hj hm.1
    unfold Match at hm
    rw [hold j hj hji] at hm
    rcases mem_append.mp hmem with hmem | hmem
    · exact h.removed name' σ' hmem j hj hm
    · rw [mem_singleton] at hmem
      cases hmem
      exact hji (h.distinct j hj i hf.inside hm.1 hf.found.1 (hm.2.trans hf.found.2.symm))

theorem Ledger.call (h : Ledger s log) {c : DirCall} {r : Bool × Option ℕ}
    (hok : OwnNames ⟨s, [], log⟩ (.start c)) (hrun : c.prog.run s = .ok (r, s')) :
    Ledger s' (log ++ [(c, r)]) := by
  have hnames : calls ⟨s, [], log⟩ = log.map Prod.fst := append_nil _
  cases c with
  | create name size =>
    have hfc := createTraced_run hrun
    obtain ⟨n, hcall⟩ : ∃ n, CreateCall s s' name n r.1 := by
      rcases Int.lt_or_le size.val 0 with hneg | h0
      · rcases filesysCreate_negative name hneg 0 h.ok with hr | herr
        · exact ⟨0, (runs_of_run hfc).mp hr⟩
        · rw [herr] at hfc
          cases hfc
      · exact ⟨_, (runs_of_run hfc).mp (filesysCreate_spec name h0 size.property.2 h.ok)⟩
    have ha := hcall.keeps.calm.allocs h.granted
    obtain ⟨b, sector⟩ := r
    cases b with
    | false => exact h.same hcall.ok ha (hcall.creates.2.1.entry h.ok) _ _
    | true =>
      obtain ⟨_, σ, i, e, hc⟩ := hcall.creates
      obtain ⟨σ', hσ', hscan⟩ := createTraced_sector h.ok hrun rfl
      obtain ⟨k, hroom⟩ := hc.room
      rw [hroom.inode] at hscan
      cases hscan
      cases hσ'
      exact h.enter hcall.ok ha hc (hnames ▸ hok.1)
  | remove name =>
    obtain ⟨b, s₁, hb, hret⟩ := Prog.run_bind_inv hrun
    cases hret
    obtain ⟨hs', hk, _, hres⟩ := (runs_of_run hb).mp (filesysRemove_spec name h.ok)
    have ha := hk.calm.allocs h.granted
    cases b with
    | false => exact h.same hs' ha (by rw [hres.1.disk]) _ _
    | true =>
      obtain ⟨_, i, hf, he⟩ := hres
      exact h.erase hs' ha hf he (hnames ▸ hok)

/-- **Serial updates are kept.** If a call starts only when no other is under way and no allocation is
    refused, then whenever none is under way every name created is found with the sector allocated for
    it, every name removed is absent, and no name is there twice. -/
theorem serial_updates_kept {s₀ : FileSys} (hs : FsOk s₀) (ha : s₀.allocs = [])
    (hd : DistinctNames s₀.disk) {P : DirPool}
    (h : Reach (Pool.step DirCall.prog) (fun P e => OwnNames P e ∧ OneAtATime P e) ⟨s₀, [], []⟩ P)
    (hdone : P.active = []) : UpdatesKept P := by
  have hl : Ledger P.state P.log := Pool.serial (fun _ _ hok => hok.2)
    (fun _ _ _ _ _ hl hok hrun => hl.call hok.1 hrun) ⟨hs, ha, hd, fun _ _ _ hm => absurd hm not_mem_nil,
      fun _ _ hm => absurd hm not_mem_nil⟩ h hdone
  refine ⟨fun name size sector hmem => ?_, fun name sector hmem => ?_, hl.distinct⟩
  · obtain ⟨i, hi, hm, rfl⟩ := hl.created name size sector hmem
    refine ⟨nofun, ?_⟩
    rcases foundSector_eq name hl.ok with ⟨j, hj, hfound⟩ | ⟨hno, _⟩
    · have hji : j = i := hl.distinct j hj.inside i hi hj.found.1 hm.1 (hj.found.2.trans hm.2.symm)
      rw [hfound, hji]
    · exact absurd hm (hno i hi)
  · rcases foundSector_eq name hl.ok with ⟨j, hj, _⟩ | ⟨_, hnone⟩
    · exact absurd hj.found (hl.removed name sector hmem j hj.inside)
    · exact hnone

end Serial

/-! ## 5. Two calls at once -/

/-- The name "b". -/
def nameB : CString := ⟨[98], by decide⟩

def createA : DirCall := .create nameA ⟨0, by decide⟩

def createB : DirCall := .create nameB ⟨0, by decide⟩

/-- "a" is created and then "b", on a device of eight sectors. -/
def oneByOne : List (PoolEvent DirCall) :=
  .start createA :: List.replicate 56 (.go 0) ++ .start createB :: List.replicate 58 (.go 0)

/-- The creation of "a" has found a slot and waits for the semaphore of the directory; meanwhile "b" is
    created. -/
def sameSlot : List (PoolEvent DirCall) :=
  .start createA :: List.replicate 50 (.go 0) ++ .start createB :: List.replicate 54 (.go 1) ++
    List.replicate 6 (.go 0)

/-- What can be seen of a run. -/
structure Outcome where
  results : List (Bool × Option ℕ)
  underWay : ℕ
  foundA : Option ℕ
  foundB : Option ℕ
  deriving DecidableEq

def outcome (P : DirPool) : Outcome :=
  ⟨P.log.map Prod.snd, P.active.length, foundSector P.state nameA, foundSector P.state nameB⟩

theorem serial_updates_kept_twice : ∃ s P, smallDisk = some s ∧
    runList (stepIf (Pool.step DirCall.prog) fun P e => OwnNames P e ∧ OneAtATime P e) ⟨s, [], []⟩
      oneByOne = some P ∧
    outcome P = ⟨[(true, some 4), (true, some 5)], 0, some 4, some 5⟩ ∧ UpdatesKept P := by
  have hrun : (smallDisk.bind fun s => (runList (stepIf (Pool.step DirCall.prog) fun P e =>
      OwnNames P e ∧ OneAtATime P e) ⟨s, [], []⟩ oneByOne).map fun P => (outcome P, s.allocs,
        decide (DistinctNames s.disk))) =
      some (⟨[(true, some 4), (true, some 5)], 0, some 4, some 5⟩, [], true) := by
    decide
  obtain ⟨s, hs, hrun⟩ := Option.bind_eq_some_iff.mp hrun
  obtain ⟨P, hP, hout⟩ := Option.map_eq_some_iff.mp hrun
  simp only [Prod.mk.injEq] at hout
  obtain ⟨hout, ha, hd⟩ := hout
  refine ⟨s, P, hs, hP, hout, ?_⟩
  exact serial_updates_kept (fsReach_ok (smallDisk_reach hs)).1 ha (of_decide_eq_true hd)
    (reach_runIf _ hP) (length_eq_zero_iff.mp (congrArg Outcome.underWay hout))

/-- **An update is lost**: both calls return true, and "b" is not there. -/
theorem concurrent_update_lost : ∃ s P, smallDisk = some s ∧
    Reach (Pool.step DirCall.prog) OwnNames ⟨s, [], []⟩ P ∧
    outcome P = ⟨[(true, some 5), (true, some 4)], 0, some 4, none⟩ ∧ ¬ UpdatesKept P := by
  have hrun : (smallDisk.bind fun s => (runList (stepIf (Pool.step DirCall.prog) OwnNames) ⟨s, [], []⟩
      sameSlot).map fun P => (outcome P, P.log.map fun x => x.1.creates nameB)) =
      some (⟨[(true, some 5), (true, some 4)], 0, some 4, none⟩, [true, false]) := by
    decide
  obtain ⟨s, hs, hrun⟩ := Option.bind_eq_some_iff.mp hrun
  obtain ⟨P, hP, hout⟩ := Option.map_eq_some_iff.mp hrun
  obtain ⟨hout, hlog⟩ := Prod.mk.inj hout
  refine ⟨s, P, hs, reach_runIf _ hP, hout, fun hkept => ?_⟩
  have hresults : P.log.map Prod.snd = [(true, some 5), (true, some 4)] := congrArg Outcome.results hout
  have hfound : foundSector P.state nameB = none := congrArg Outcome.foundB hout
  -- the first of the two calls that have returned
  cases hl : P.log with
  | nil =>
    rw [hl] at hlog
    cases hlog
  | cons x rest =>
    rw [hl] at hlog hresults
    obtain ⟨c, r⟩ := x
    obtain ⟨hc, _⟩ := List.cons.inj hlog
    obtain ⟨hr, _⟩ := List.cons.inj hresults
    cases c with
    | remove name => cases hc
    | create name size =>
      have hname : name = nameB := of_decide_eq_true hc
      have hr' : r = (true, some 5) := hr
      subst hname hr'
      have hsame := (hkept.created nameB size (some 5) (by rw [hl]; exact mem_cons_self)).2
      rw [hfound] at hsame
      cases hsame

end Pintos
