/-
  Subject:   The entries of a directory of any capacity, and the loops over them (directory.c).

  A directory with room for `c` entries is a file of `20 * c` bytes; an entry can lie across two
  sectors. With every allocation granted, a loop reads entry after entry and leaves the state as it
  is, so each of the three loops is an equation.
-/
import Pintos.Lib.MultiQueue
import Pintos.Filesys.DirRun

namespace Pintos

open Lib Function List

/-! ## 1. The source -/

/-- The loop of `dir_readdir`: the name, if there is one, and the new `pos`. -/
def readdirLoop (dir : ℕ) : (fuel pos : ℕ) → FsM (Option (List UInt8) × ℕ)
  | 0, pos => return (none, pos)
  | fuel + 1, pos => do
      match ← readEntry dir pos with
      | none => return (none, pos)
      | some e =>
        -- `strlcpy (name, e.name, NAME_MAX + 1)`
        if e.inUse then return (some (e.string.take 14), pos + 20)
        else readdirLoop dir fuel (pos + 20)

/-- `dir_readdir`; `pos` is the field of `struct dir`. -/
def dirReaddir (dir pos : ℕ) : FsM (Option (List UInt8) × ℕ) := do
  let s ← get
  readdirLoop dir ((s.inode dir).data.length / 20 + 1) pos

/-- `while (dir_readdir (dir, name))`, with the names it sees. -/
def readdirPass (dir : ℕ) : (fuel pos : ℕ) → FsM (List (List UInt8))
  | 0, _ => return []
  | fuel + 1, pos => do
      match ← dirReaddir dir pos with
      | (none, _) => return []
      | (some name, pos) =>
        let rest ← readdirPass dir fuel pos
        return name :: rest

/-! ## 2. Entries -/

/-- Entry `i` of the directory with the data `d`. -/
def entryAt (disk : ℕ → ℕ → UInt8) (d : InodeDisk) (i : ℕ) : DirEntry :=
  dirEntryOf fun k => byteAt disk d (20 * i + k)

theorem entryAt_name (disk : ℕ → ℕ → UInt8) (d : InodeDisk) (i : ℕ) :
    (entryAt disk d i).name.length = 15 := by
  simp [entryAt, dirEntryOf]

variable {disk disk' : ℕ → ℕ → UInt8} {d : InodeDisk} {e : DirEntry} {fuel i j : ℕ} {p : ℕ → Bool}

theorem entryAt_write (hsec : e.inodeSector < 2 ^ 32) (hname : e.name.length = 15) (i j : ℕ) :
    entryAt (writeBytes disk d (20 * i) 20 (dirEntryBytes e)) d j =
      if j = i then e else entryAt disk d j := by
  unfold entryAt
  split
  · rename_i hji
    subst hji
    refine dirEntryOf_bytes hsec hname fun k hk => ?_
    rw [byteAt_writeBytes, if_pos (by omega), Nat.add_sub_cancel_left]
  · refine dirEntryOf_congr fun k hk => ?_
    rw [byteAt_writeBytes, if_neg (by omega)]

/-- What an entry says: a name and a sector, or nothing. -/
def binding (e : DirEntry) : List (List UInt8 × ℕ) :=
  if e.inUse then [(e.string, e.inodeSector)] else []

theorem binding_used (h : e.inUse = true) : binding e = [(e.string, e.inodeSector)] := if_pos h

theorem binding_free (h : e.inUse = false) : binding e = [] := by
  unfold binding
  rw [h]
  rfl

/-- **The entries in use**, of the first `c`. -/
def bindings (disk : ℕ → ℕ → UInt8) (d : InodeDisk) (c : ℕ) : List (List UInt8 × ℕ) :=
  flat (fun i => binding (entryAt disk d i)) c

variable {c : ℕ}

theorem mem_bindings {x : List UInt8 × ℕ} :
    x ∈ bindings disk d c ↔ ∃ i < c, (entryAt disk d i).inUse = true ∧
      x = ((entryAt disk d i).string, (entryAt disk d i).inodeSector) := by
  unfold bindings
  rw [mem_flat]
  refine exists_congr fun i => and_congr_right fun _ => ?_
  unfold binding
  split <;> simp_all

theorem bindings_write (hsec : e.inodeSector < 2 ^ 32) (hname : e.name.length = 15) :
    bindings (writeBytes disk d (20 * i) 20 (dirEntryBytes e)) d c =
      flat (update (fun j => binding (entryAt disk d j)) i (binding e)) c := by
  refine flat_congr fun j _ => ?_
  simp only [entryAt_write hsec hname]
  by_cases hji : j = i
  · subst hji
    rw [update_self, if_pos rfl]
  · rw [update_of_ne hji, if_neg hji]

theorem bindings_fill (hi : i < c) (hsec : e.inodeSector < 2 ^ 32) (hname : e.name.length = 15)
    (hu : e.inUse = true) (hfree : (entryAt disk d i).inUse = false) :
    (bindings (writeBytes disk d (20 * i) 20 (dirEntryBytes e)) d c).Perm
      ((e.string, e.inodeSector) :: bindings disk d c) := by
  rw [bindings_write hsec hname, binding_used hu]
  have h := flat_update_cons (b := fun j => binding (entryAt disk d j))
    (a := (e.string, e.inodeSector)) hi
  simp only [binding_free hfree] at h
  exact h

theorem bindings_erase (disk : ℕ → ℕ → UInt8) (d : InodeDisk) (hi : i < c)
    (hsec : (entryAt disk d i).inodeSector < 2 ^ 32) (hu : (entryAt disk d i).inUse = true) :
    (bindings disk d c).Perm (((entryAt disk d i).string, (entryAt disk d i).inodeSector) ::
      bindings (writeBytes disk d (20 * i) 20 (dirEntryBytes (entryAt disk d i).erased)) d c) := by
  rw [bindings_write (e := (entryAt disk d i).erased) hsec (entryAt_name disk d i),
    binding_free (e := (entryAt disk d i).erased) rfl]
  exact flat_perm_cons hi (by rw [binding_used hu])

theorem bindings_congr (hlen : d.length = 20 * c) (hl : d.length < 2 ^ 31)
    (h : ∀ x, InData d x → disk' x = disk x) : bindings disk' d c = bindings disk d c := by
  refine flat_congr fun i hi => congrArg binding (dirEntryOf_congr fun k hk => ?_)
  have hsec := sectors_of_bytes (k := 20 * i + k) hl (by omega)
  unfold byteAt
  rw [h _ ⟨Nat.le_add_right _ _, by omega⟩]

theorem bindings_succ (disk : ℕ → ℕ → UInt8) (d : InodeDisk) (c : ℕ) :
    bindings disk d (c + 1) = bindings disk d c ++ binding (entryAt disk d c) := flat_succ

theorem bindings_length_le (disk : ℕ → ℕ → UInt8) (d : InodeDisk) (c : ℕ) :
    (bindings disk d c).length ≤ c := by
  induction c with
  | zero => exact Nat.le_refl 0
  | succ c ih =>
    have hone : (binding (entryAt disk d c)).length ≤ 1 := by
      unfold binding
      split <;> simp
    rw [bindings_succ, length_append]
    omega

/-- **Some entry is free exactly when fewer than `c` are in use.** -/
theorem bindings_length_lt (disk : ℕ → ℕ → UInt8) (d : InodeDisk) (c : ℕ) :
    (bindings disk d c).length < c ↔ ∃ i < c, (entryAt disk d i).inUse = false := by
  induction c with
  | zero => simp
  | succ c ih =>
    have hle := bindings_length_le disk d c
    rw [bindings_succ, length_append]
    cases hu : (entryAt disk d c).inUse with
    | false =>
      rw [binding_free hu]
      exact iff_of_true (by simpa using Nat.lt_succ_of_le hle) ⟨c, Nat.lt_succ_self c, hu⟩
    | true =>
      rw [binding_used hu, length_singleton, Nat.add_lt_add_iff_right]
      refine ih.trans ⟨fun ⟨i, hi, h⟩ => ⟨i, Nat.lt_succ_of_lt hi, h⟩,
        fun ⟨i, hi, h⟩ => ⟨i, ?_, h⟩⟩
      rcases Nat.lt_succ_iff_lt_or_eq.mp hi with hi | rfl
      · exact hi
      · rw [hu] at h
        cases h

/-! ## 3. Reading and writing them -/

/-- **Inode `h` is a directory with room for `c` entries** that can be read and written, with every
    allocation granted. -/
structure DirFile (s : FileSys) (h c : ℕ) : Prop where
  granted : s.allocs = []
  length : (s.inode h).data.length = 20 * c
  onDevice : OnDevice s (s.inode h).data
  sema : 0 < (s.inode h).sema
  writable : (s.inode h).denyWriteCnt = 0

section Entries

variable {s : FileSys}

theorem pop_granted (ha : s.allocs = []) : s.pop = s := by
  unfold FileSys.pop
  rw [ha]
  cases s
  cases ha
  rfl

theorem bounced_granted (ha : s.allocs = []) (n offset : ℕ) : s.bounced n offset = s := by
  rcases bounced_eq s n offset with h | h
  · exact h
  · exact h.trans (pop_granted ha)

theorem moved_granted (ha : s.allocs = []) (n offset : ℕ) : s.moved n offset = n := by
  unfold FileSys.moved FileSys.granted
  rw [ha]
  simp

variable {h c : ℕ}

section

variable (hd : DirFile s h c)

include hd

theorem DirFile.read (offset : ℕ) : (inodeReadAt h 20 offset).run s =
    .ok (bytesAt s.disk (s.inode h).data offset (min 20 (20 * c - offset)), s) := by
  have hrun := inodeReadAt_run 20 offset hd.onDevice
  rwa [moved_granted hd.granted, bounced_granted hd.granted, count, hd.length] at hrun

theorem DirFile.write (b : ℕ → UInt8) (offset : ℕ) :
    (inodeWriteAt h b 20 offset).run s = .ok (min 20 (20 * c - offset),
      s.write (s.inode h).data offset (min 20 (20 * c - offset)) b) := by
  have hrun := inodeWriteAt_run b 20 offset rfl hd.onDevice hd.sema hd.writable
  rwa [moved_granted hd.granted, bounced_granted hd.granted, count, hd.length] at hrun

theorem DirFile.readEntry (hi : i < c) :
    (readEntry h (20 * i)).run s = .ok (some (entryAt s.disk (s.inode h).data i), s) := by
  have hrun := hd.read (20 * i)
  rw [Nat.min_eq_left (by omega)] at hrun
  unfold Pintos.readEntry
  rw [Prog.run_bind_ok hrun, bytesAt_length, if_pos rfl]
  refine congrArg (fun e => Except.ok (some e, s)) (dirEntryOf_congr fun k hk => ?_)
  rw [getD_eq_getElem?_getD, List.getElem?_eq_getElem (by rw [bytesAt_length]; exact hk),
    Option.getD_some]
  simp only [bytesAt, getElem_map, getElem_range]

theorem DirFile.readEnd : (Pintos.readEntry h (20 * c)).run s = .ok (none, s) := by
  have hrun := hd.read (20 * c)
  rw [Nat.sub_self, Nat.min_zero] at hrun
  unfold Pintos.readEntry
  rw [Prog.run_bind_ok hrun]
  rfl

theorem DirFile.writeEntry (hi : i < c) (e : DirEntry) :
    (inodeWriteAt h (dirEntryBytes e) 20 (20 * i)).run s =
      .ok (20, s.write (s.inode h).data (20 * i) 20 (dirEntryBytes e)) := by
  have hrun := hd.write (dirEntryBytes e) (20 * i)
  rwa [Nat.min_eq_left (by omega)] at hrun

theorem DirFile.writeEnd (e : DirEntry) :
    (inodeWriteAt h (dirEntryBytes e) 20 (20 * c)).run s = .ok (0, s) := by
  have hrun := hd.write (dirEntryBytes e) (20 * c)
  rw [Nat.sub_self, Nat.min_zero] at hrun
  rw [hrun]
  unfold FileSys.write
  rw [writeBytes_zero]

end

/-! ## 4. The loops -/

/-- The first of the entries `i`, …, `c - 1` with a property. -/
def firstFrom (p : ℕ → Bool) (c i : ℕ) : Option ℕ := (List.range' i (c - i)).find? p

theorem firstFrom_end (p : ℕ → Bool) (c : ℕ) : firstFrom p c c = none := by
  simp [firstFrom]

theorem firstFrom_here (hi : i < c) (hp : p i = true) : firstFrom p c i = some i := by
  unfold firstFrom
  rw [show c - i = (c - (i + 1)) + 1 by omega, range'_succ, List.find?_cons_of_pos hp]

theorem firstFrom_later (hi : i < c) (hp : p i = false) :
    firstFrom p c i = firstFrom p c (i + 1) := by
  unfold firstFrom
  rw [show c - i = (c - (i + 1)) + 1 by omega, range'_succ,
    List.find?_cons_of_neg (by rw [hp]; decide)]

theorem firstFrom_some (h : firstFrom p c i = some j) : i ≤ j ∧ j < c ∧ p j = true := by
  have hmem := mem_range'_1.mp (mem_of_find?_eq_some h)
  exact ⟨hmem.1, by omega, List.find?_some h⟩

theorem firstFrom_none (h : firstFrom p c 0 = none) : ∀ j < c, p j = false := by
  intro j hj
  have hno := List.find?_eq_none.mp h j (mem_range'_1.mpr (by omega))
  simpa using hno

/-- Entry `i` is in use under the name. -/
def isNamed (disk : ℕ → ℕ → UInt8) (d : InodeDisk) (name : CString) (i : ℕ) : Bool :=
  decide ((entryAt disk d i).inUse = true ∧ (entryAt disk d i).string = name.val)

theorem DirFile.lookupLoop (hd : DirFile s h c) (name : CString) (hf : fuel + i = c + 1)
    (hi : i ≤ c) : (lookupLoop h name fuel (20 * i)).run s =
      .ok ((firstFrom (isNamed s.disk (s.inode h).data name) c i).map fun j =>
        (entryAt s.disk (s.inode h).data j, 20 * j), s) := by
  induction fuel generalizing i with
  | zero => omega
  | succ fuel ih =>
    unfold Pintos.lookupLoop
    rcases Nat.lt_or_eq_of_le hi with hlt | rfl
    · rw [Prog.run_bind_ok (hd.readEntry hlt)]
      simp only
      split
      · rename_i hm
        rw [firstFrom_here hlt (decide_eq_true hm)]
        rfl
      · rename_i hm
        rw [firstFrom_later hlt (decide_eq_false hm)]
        exact ih (by omega) hlt
    · rw [Prog.run_bind_ok hd.readEnd, firstFrom_end]
      rfl

theorem DirFile.lookup (hd : DirFile s h c) (name : CString) : (lookup h name).run s =
    .ok ((firstFrom (isNamed s.disk (s.inode h).data name) c 0).map fun j =>
      (entryAt s.disk (s.inode h).data j, 20 * j), s) := by
  unfold Pintos.lookup
  show (Pintos.lookupLoop h name ((s.inode h).data.length / 20 + 1) 0).run s = _
  rw [hd.length, Nat.mul_div_cancel_left _ (by decide)]
  exact hd.lookupLoop name (i := 0) rfl (Nat.zero_le c)

/-- The loop of `dir_add` from entry `i` on. What `e` holds at its end, is 15 bytes long. -/
theorem DirFile.slotLoop (hd : DirFile s h c) (hf : fuel + i = c + 1) (hi : i ≤ c)
    (he : e.name.length = 15) : ∃ e' : DirEntry, e'.name.length = 15 ∧
      (slotLoop h fuel e (20 * i)).run s = .ok ((20 * (firstFrom
        (fun j => !(entryAt s.disk (s.inode h).data j).inUse) c i).getD c, e'), s) := by
  induction fuel generalizing i e with
  | zero => omega
  | succ fuel ih =>
    unfold Pintos.slotLoop
    rcases Nat.lt_or_eq_of_le hi with hlt | rfl
    · rw [Prog.run_bind_ok (hd.readEntry hlt)]
      simp only
      split
      · rename_i hfree
        exact ⟨_, entryAt_name _ _ i, by rw [firstFrom_here hlt hfree]; rfl⟩
      · rename_i huse
        rw [firstFrom_later hlt (by simpa using huse)]
        exact ih (by omega) hlt (entryAt_name _ _ i)
    · rw [Prog.run_bind_ok hd.readEnd, firstFrom_end]
      exact ⟨e, he, rfl⟩

theorem DirFile.readdirLoop (hd : DirFile s h c) (hf : c + 1 ≤ fuel + i) (hi : i ≤ c) :
    (readdirLoop h fuel (20 * i)).run s = .ok
      (match firstFrom (fun j => (entryAt s.disk (s.inode h).data j).inUse) c i with
        | some j => (some ((entryAt s.disk (s.inode h).data j).string.take 14), 20 * (j + 1))
        | none => (none, 20 * c), s) := by
  induction fuel generalizing i with
  | zero => omega
  | succ fuel ih =>
    unfold Pintos.readdirLoop
    rcases Nat.lt_or_eq_of_le hi with hlt | rfl
    · rw [Prog.run_bind_ok (hd.readEntry hlt)]
      simp only
      split
      · rename_i huse
        rw [firstFrom_here hlt huse]
        rfl
      · rename_i hfree
        rw [firstFrom_later hlt (by simpa using hfree)]
        exact ih (by omega) hlt
    · rw [Prog.run_bind_ok hd.readEnd, firstFrom_end]
      rfl

theorem DirFile.readdir (hd : DirFile s h c) (hi : i ≤ c) : (dirReaddir h (20 * i)).run s = .ok
      (match firstFrom (fun j => (entryAt s.disk (s.inode h).data j).inUse) c i with
        | some j => (some ((entryAt s.disk (s.inode h).data j).string.take 14), 20 * (j + 1))
        | none => (none, 20 * c), s) := by
  unfold dirReaddir
  show (Pintos.readdirLoop h ((s.inode h).data.length / 20 + 1) (20 * i)).run s = _
  rw [hd.length, Nat.mul_div_cancel_left _ (by decide)]
  exact hd.readdirLoop (by omega) hi

/-- The contents from entry `i` on are those of the first list that is not empty, and what follows. -/
theorem flat_firstFrom {α : Type} {b : ℕ → List α} (hb : ∀ j, p j = false → b j = []) (n i : ℕ)
    (hn : c - i = n) : (List.range' i (c - i)).flatMap b = match firstFrom p c i with
      | some j => b j ++ (List.range' (j + 1) (c - (j + 1))).flatMap b
      | none => [] := by
  induction n generalizing i with
  | zero =>
    unfold firstFrom
    rw [hn]
    rfl
  | succ n ih =>
    have hlt : i < c := by omega
    have hrange : List.range' i (c - i) = i :: List.range' (i + 1) (c - (i + 1)) := by
      rw [show c - i = (c - (i + 1)) + 1 by omega, range'_succ]
    rw [hrange, flatMap_cons]
    cases hp : p i with
    | true => rw [firstFrom_here hlt hp]
    | false =>
      rw [firstFrom_later hlt hp, hb i hp, nil_append]
      exact ih (i + 1) (by omega)

/-- **A pass of `dir_readdir`** from entry `i` on: the names of the entries in use. -/
theorem DirFile.readdirPass (hd : DirFile s h c) (hf : c + 1 ≤ fuel + i) (hi : i ≤ c) :
    (readdirPass h fuel (20 * i)).run s = .ok (((List.range' i (c - i)).flatMap fun j =>
      binding (entryAt s.disk (s.inode h).data j)).map fun x => x.1.take 14, s) := by
  induction fuel generalizing i with
  | zero => omega
  | succ fuel ih =>
    unfold Pintos.readdirPass
    have hflat := flat_firstFrom (c := c) (p := fun j => (entryAt s.disk (s.inode h).data j).inUse)
      (b := fun j => binding (entryAt s.disk (s.inode h).data j)) (fun j hj => binding_free hj) _ i rfl
    rw [Prog.run_bind_ok (hd.readdir hi), hflat]
    cases hfirst : firstFrom (fun j => (entryAt s.disk (s.inode h).data j).inUse) c i with
    | none => rfl
    | some j =>
      obtain ⟨hij, hjc, hu⟩ := firstFrom_some hfirst
      simp only
      rw [Prog.run_bind_ok (ih (i := j + 1) (by omega) hjc), binding_used hu]
      rfl

end Entries

end Pintos
