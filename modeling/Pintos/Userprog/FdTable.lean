/-
  Subject:   The descriptor table of a process: how it grows in `sys_open`, and which of its
             elements are looked at until the loop of `thread_exit` has closed the rest.

  The number of elements is never stored; it follows from the highest descriptor. `sys_open`
  enlarges the table before every twentieth descriptor, and `realloc` leaves the new elements
  uninitialised. Every access to the table is recorded with the number of elements it has then.

  Memory comes from the kernel's part of the address space, between `PHYS_BASE` and 2^32, so a
  `realloc` that succeeds is one of at most `kernelSpace` bytes. Files are numbered in the order
  in which they are opened; `opened`, `returned`, `closed` and `accesses` are not in the source.

  `FdInv`: the table is as large as the highest descriptor needs, and element `i` holds file `i` until it
  is closed.
-/
import Pintos.Userprog.FileCalls

namespace Pintos

open Lib Function List

/-! ## 1. The code -/

/-- The bytes above `PHYS_BASE`. -/
def kernelSpace : ℕ := 2 ^ 32 - 0xc0000000

/-- An access to element `index` of a table of `size` elements; `ready` says of a read that the
    element was initialised. -/
structure FdAccess where
  index : ℕ
  size : ℕ
  ready : Bool
  deriving DecidableEq, Repr

structure FdTable where
  /-- `fd` of the thread. -/
  fd : ℕ
  /-- The number of elements, 0 for a null pointer. -/
  cap : ℕ
  table : ℕ → Slot
  opened : ℕ
  returned : List ℕ
  /-- The files passed to `file_close`, latest first. -/
  closed : List ℕ
  accesses : List FdAccess
  exited : Bool

namespace FdTable

/-- `init_thread`. -/
def init : FdTable := ⟨1, 0, fun _ => .junk, 0, [], [], [], false⟩

/-- `files_table[i]`, read. -/
def read (t : FdTable) (i : ℕ) : Slot × FdTable :=
  (t.table i, { t with accesses := ⟨i, t.cap, t.table i ≠ .junk⟩ :: t.accesses })

/-- `files_table[i] = v`. -/
def write (t : FdTable) (i : ℕ) (v : Slot) : FdTable :=
  { t with
    table := update t.table i v
    accesses := ⟨i, t.cap, true⟩ :: t.accesses }

def fdtableIdx (fd : ℕ) : ℕ := fd - 2

def fdtableSize (fd : ℕ) : ℕ := fd - 1

/-- `realloc` to `bytes` bytes, if it succeeds. Old elements are copied, new ones are not
    initialised. -/
def realloc (t : FdTable) (bytes : ℕ) : Option FdTable :=
  if bytes ≤ kernelSpace then
    some { t with
      cap := bytes / 4
      table := fun i => if i < t.cap then t.table i else .junk }
  else none

/-- `sys_open` when `filesys_open` gives a file; `none` if the table does not get its memory. -/
def sysOpen (t : FdTable) : Option FdTable :=
  let fd := t.fd + 1
  let t₁ := { t with fd := fd, opened := t.opened + 1 }
  let grown :=
    if (fd - 2) % 20 = 0 then t₁.realloc (4 * (fdtableSize fd + 20) % 2 ^ 32) else some t₁
  grown.map fun t₂ =>
    { t₂.write (fdtableIdx fd) (.file t.opened) with returned := fd :: t.returned }

/-- `if (files_table[i]) { file_close (files_table[i]); files_table[i] = NULL; }` -/
def closeElement (t : FdTable) (i : ℕ) : FdTable :=
  let r := t.read i
  match r.1 with
  | .null => r.2
  | .junk => (r.2.read i).2.write i .null
  | .file f => { ((r.2.read i).2.write i .null) with closed := f :: t.closed }

/-- `fd <= thread_current ()->fd && fd > 1`. -/
def inRange (t : FdTable) (fd : Int) : Prop := 1 < fd ∧ fd ≤ t.fd

instance (t : FdTable) (fd : Int) : Decidable (t.inRange fd) := inferInstanceAs (Decidable (_ ∧ _))

def sysClose (t : FdTable) (fd : Int) : FdTable :=
  if t.inRange fd then t.closeElement (fdtableIdx fd.toNat) else t

/-- The element that `sys_filesize`, `sys_read`, `sys_write`, `sys_seek` and `sys_tell` pass on. -/
def useFile (t : FdTable) (fd : Int) : FdTable :=
  if t.inRange fd then (t.read (fd.toNat - 2)).2 else t

/-- The loop of `thread_exit` from `i` on, with `n` turns left. -/
def closeLoop (t : FdTable) (i : ℕ) : ℕ → FdTable
  | 0 => t
  | n + 1 => (t.closeElement i).closeLoop (i + 1) n

/-- `for (i = 0; i <= fd - 2; i++)` and the end of the process. -/
def threadExit (t : FdTable) : FdTable := { t.closeLoop 0 (t.fd - 1) with exited := true }

end FdTable

inductive FdEvent where
  | openFile
  | close (fd : Int)
  | use (fd : Int)
  | exit
  deriving DecidableEq, Repr

def fdStep (t : FdTable) (e : FdEvent) : Option FdTable :=
  if t.exited then none
  else
    match e with
    | .openFile => t.sysOpen
    | .close fd => some (t.sysClose fd)
    | .use fd => some (t.useFile fd)
    | .exit => some t.threadExit

/-- **The table is sound**: no access leaves it, the descriptors are numbered in the order of the calls
    and keep their files, and each file is closed once, at the latest on exit. -/
structure FdSound (t : FdTable) : Prop where
  accesses : ∀ a ∈ t.accesses, a.index < a.size ∧ a.ready = true
  /-- The descriptors returned are 2, 3, 4, … -/
  returned : t.returned.reverse = range' 2 t.opened
  /-- The file opened as descriptor `fd` is number `fd - 2`, and the element holds it until it is
      closed. -/
  holds : ∀ k < t.opened, k ∉ t.closed → t.table k = .file k
  once : t.closed.Nodup ∧ ∀ k ∈ t.closed, k < t.opened
  exited : t.exited = true → ∀ k < t.opened, k ∈ t.closed

/-! ## 2. The invariant -/

structure FdInv (t : FdTable) : Prop where
  fd : t.fd = t.opened + 1
  cap : t.cap = tableSize t.fd
  /-- The table lies in the kernel's memory, so the size of the next one is computed exactly. -/
  space : 4 * t.cap ≤ kernelSpace
  element : ∀ i < t.opened, t.table i = if i ∈ t.closed then .null else .file i
  sound : FdSound t

namespace FdInv

open FdTable

variable {t t' : FdTable}

theorem start : FdInv .init where
  fd := rfl
  cap := rfl
  space := Nat.zero_le _
  element i hi := absurd hi (Nat.not_lt_zero i)
  sound := ⟨fun _ h => absurd h not_mem_nil, rfl, fun k hk => absurd hk (Nat.not_lt_zero k),
    ⟨nodup_nil, fun _ h => absurd h not_mem_nil⟩, nofun⟩

variable {i : ℕ}

theorem room (h : FdInv t) (hi : i < t.opened) : i < t.cap := by
  have hle : t.fd - 1 ≤ tableSize t.fd := le_tableSize
  rw [h.cap]
  have hfd := h.fd
  omega

theorem ready (h : FdInv t) (hi : i < t.opened) : t.table i ≠ .junk := by
  rw [h.element i hi]
  split <;> nofun

theorem access (h : FdInv t) (hi : i < t.opened) : FdInv (t.read i).2 where
  fd := h.fd
  cap := h.cap
  space := h.space
  element := h.element
  sound := by
    refine ⟨fun a ha => ?_, h.sound.returned, h.sound.holds, h.sound.once, h.sound.exited⟩
    rcases mem_cons.mp ha with rfl | ha
    · exact ⟨h.room hi, decide_eq_true (h.ready hi)⟩
    · exact h.sound.accesses a ha

/-- **One turn of the loop, or `sys_close`**: the element's file is closed if it was open. -/
theorem closeElement (h : FdInv t) (hi : i < t.opened) (hx : t.exited = false) :
    FdInv (t.closeElement i) ∧ (t.closeElement i).opened = t.opened ∧
      (t.closeElement i).exited = t.exited ∧ i ∈ (t.closeElement i).closed ∧
       ∀ k ∈ t.closed, k ∈ (t.closeElement i).closed := by
  have helem := h.element i hi
  by_cases hc : i ∈ t.closed
  · rw [if_pos hc] at helem
    have heq : t.closeElement i = (t.read i).2 := by
      simp only [FdTable.closeElement, FdTable.read, helem]
    rw [heq]
    exact ⟨h.access hi, rfl, rfl, hc, fun _ hk => hk⟩
  · rw [if_neg hc] at helem
    have heq : t.closeElement i =
        { (((t.read i).2.read i).2.write i .null) with closed := i :: t.closed } := by
      simp only [FdTable.closeElement, FdTable.read, helem]
    rw [heq]
    have hacc := ((h.access hi).access (t := (t.read i).2) hi).sound.accesses
    refine ⟨⟨h.fd, h.cap, h.space, fun k hk => ?_, ?_⟩, rfl, rfl, mem_cons_self,
      fun k hk => mem_cons_of_mem _ hk⟩
    · show update t.table i .null k = _
      by_cases e : k = i
      · subst e
        simp
      · rw [update_of_ne e, h.element k hk]
        simp [e]
    · refine ⟨fun a ha => ?_, h.sound.returned, fun k hk hn => ?_, ⟨?_, fun k hk => ?_⟩,
        fun he => ?_⟩
      · rcases mem_cons.mp ha with rfl | ha
        · exact ⟨h.room hi, rfl⟩
        · exact hacc a ha
      · have e : k ≠ i := fun e => hn (e ▸ mem_cons_self)
        show update t.table i .null k = .file k
        rw [update_of_ne e]
        exact h.sound.holds k hk fun hm => hn (mem_cons_of_mem _ hm)
      · exact nodup_cons.mpr ⟨hc, h.sound.once.1⟩
      · rcases mem_cons.mp hk with rfl | hk
        · exact hi
        · exact h.sound.once.2 k hk
      · exact absurd (hx.symm.trans he) nofun

/-- **The loop of `thread_exit`** closes all elements from `i` to `i + n`. -/
theorem closeLoop (n : ℕ) : ∀ {t : FdTable} {i : ℕ}, FdInv t → t.exited = false → i + n ≤ t.opened →
    FdInv (t.closeLoop i n) ∧ (t.closeLoop i n).opened = t.opened ∧
      (∀ k ∈ t.closed, k ∈ (t.closeLoop i n).closed) ∧
      ∀ k, i ≤ k → k < i + n → k ∈ (t.closeLoop i n).closed := by
  induction n with
  | zero =>
    intro t i h _ _
    exact ⟨h, rfl, fun _ hk => hk, fun k hik hki => absurd hik (Nat.not_le_of_lt hki)⟩
  | succ n ih =>
    intro t i h hx hn
    obtain ⟨h1, ho, hx1, hmem, hkeep⟩ := h.closeElement (i := i) (by omega) hx
    obtain ⟨h2, ho2, hkeep2, hall⟩ := ih (i := i + 1) h1 (hx1.trans hx) (by omega)
    refine ⟨h2, ho2.trans ho, fun k hk => hkeep2 k (hkeep k hk), fun k hik hki => ?_⟩
    by_cases e : k = i
    · subst e
      exact hkeep2 k hmem
    · exact hall k (by omega) (by omega)

/-- **Growth**: `realloc` is asked for, and gives, the elements that the new descriptor needs. -/
theorem grown (h : FdInv t)
    (hspace : 4 * (t.fd + 1 - 1 + 20) % 2 ^ 32 ≤ kernelSpace) (hmod : (t.fd + 1 - 2) % 20 = 0) :
    4 * (t.fd + 1 - 1 + 20) % 2 ^ 32 / 4 = tableSize (t.fd + 1) ∧
      4 * tableSize (t.fd + 1) ≤ kernelSpace := by
  have hold := h.space
  have hle : t.fd - 1 ≤ tableSize t.fd := le_tableSize
  have hfd := h.fd
  have hnew : tableSize (t.fd + 1) = t.fd + 20 := by
    unfold tableSize
    rw [if_neg (by omega)]
    omega
  have hbytes : 4 * (t.fd + 1 - 1 + 20) < 2 ^ 32 := by
    rw [h.cap] at hold
    unfold kernelSpace at hold
    omega
  rw [Nat.mod_eq_of_lt hbytes] at hspace ⊢
  rw [hnew]
  omega

/-- The table in which `sys_open` enters the file: as many elements as the new descriptor needs,
    with the old ones as they were. -/
theorem sysOpen_table (h : FdInv t) (hs : t.sysOpen = some t') :
    4 * tableSize (t.fd + 1) ≤ kernelSpace ∧ ∃ T : ℕ → Slot, (∀ i < t.opened, T i = t.table i) ∧
      t' = { t with
        fd := t.fd + 1
        cap := tableSize (t.fd + 1)
        table := update T t.opened (.file t.opened)
        opened := t.opened + 1
        returned := (t.fd + 1) :: t.returned
        accesses := ⟨t.opened, tableSize (t.fd + 1), true⟩ :: t.accesses } := by
  have hfd := h.fd
  have hidx : t.fd + 1 - 2 = t.opened := by omega
  unfold FdTable.sysOpen at hs
  by_cases hmod : (t.fd + 1 - 2) % 20 = 0
  · simp only [if_pos hmod, FdTable.realloc, fdtableSize, fdtableIdx] at hs
    split at hs
    · rename_i hspace
      obtain ⟨hsize, hroom⟩ := h.grown hspace hmod
      cases hs
      refine ⟨hroom, fun i => if i < t.cap then t.table i else .junk,
        fun i hi => if_pos (h.room hi), ?_⟩
      simp only [FdTable.write, hsize, hidx]
    · cases hs
  · simp only [if_neg hmod, fdtableIdx] at hs
    have hsame : t.cap = tableSize (t.fd + 1) := by
      rw [h.cap]
      unfold tableSize
      rw [if_neg (by omega), if_neg (by omega)]
      omega
    cases hs
    refine ⟨hsame ▸ h.space, t.table, fun _ _ => rfl, ?_⟩
    simp only [FdTable.write, hidx, hsame]

theorem sysOpen (h : FdInv t) (hx : t.exited = false) (hs : t.sysOpen = some t') : FdInv t' := by
  have hfd := h.fd
  obtain ⟨hspace, T, hT, rfl⟩ := h.sysOpen_table hs
  have hroom : t.opened < tableSize (t.fd + 1) := by
    have hle : t.fd + 1 - 1 ≤ tableSize (t.fd + 1) := le_tableSize
    omega
  have hnew : t.opened ∉ t.closed := fun hm => Nat.lt_irrefl _ (h.sound.once.2 _ hm)
  have helem : ∀ i < t.opened + 1, update T t.opened (.file t.opened) i =
      if i ∈ t.closed then .null else .file i := by
    intro i hi
    by_cases e : i = t.opened
    · subst e
      rw [update_self, if_neg hnew]
    · rw [update_of_ne e, hT i (by omega)]
      exact h.element i (by omega)
  refine ⟨by show t.fd + 1 = t.opened + 1 + 1; omega, rfl, hspace, helem, ⟨fun a ha => ?_, ?_,
    fun k hk hn => (helem k hk).trans (if_neg hn), ⟨h.sound.once.1, fun k hk => ?_⟩, fun he => ?_⟩⟩
  · rcases mem_cons.mp ha with rfl | ha
    · exact ⟨hroom, rfl⟩
    · exact h.sound.accesses a ha
  · rw [reverse_cons, h.sound.returned, range'_concat, hfd]
    simp only [Nat.one_mul, append_cancel_left_eq, cons.injEq, and_true]
    omega
  · exact Nat.lt_succ_of_lt (h.sound.once.2 k hk)
  · exact absurd (hx.symm.trans he) nofun

theorem inRange_lt (h : FdInv t) {fd : Int} (hr : t.inRange fd) : fd.toNat - 2 < t.opened := by
  obtain ⟨hlow, hhigh⟩ := hr
  have hfd := h.fd
  omega

theorem threadExit (h : FdInv t) (hx : t.exited = false) : FdInv t.threadExit := by
  have hfd := h.fd
  obtain ⟨h', ho, -, hall⟩ := FdInv.closeLoop (t.fd - 1) (i := 0) h hx (by omega)
  refine ⟨h'.fd, h'.cap, h'.space, h'.element, h'.sound.accesses, h'.sound.returned, h'.sound.holds,
    h'.sound.once, fun _ k hk => hall k (Nat.zero_le k) ?_⟩
  have hk' : k < t.opened := ho ▸ hk
  omega

theorem step {e : FdEvent} (h : FdInv t) (hs : fdStep t e = some t') : FdInv t' := by
  unfold fdStep at hs
  split at hs
  · cases hs
  rename_i hx
  have hx : t.exited = false := Bool.eq_false_iff.mpr hx
  cases e with
  | openFile => exact h.sysOpen hx hs
  | close fd =>
    cases hs
    unfold FdTable.sysClose
    split
    · exact (h.closeElement (h.inRange_lt ‹_›) hx).1
    · exact h
  | use fd =>
    cases hs
    unfold FdTable.useFile
    split
    · exact h.access (h.inRange_lt ‹_›)
    · exact h
  | exit =>
    cases hs
    exact h.threadExit hx

end FdInv

/-! ## 3. The calls of FileCalls.lean -/

/-- The element in FileCalls.lean, where the `k`-th file of the process is the file `file k`. -/
def Slot.rename (file : ℕ → ℕ) : Slot → Slot
  | .file k => .file (file k)
  | v => v

/-- **The table of a process of FileCalls.lean**, with the files as they are numbered there. -/
structure FdTable.Shows (t : FdTable) (file : ℕ → ℕ) (u : Task) : Prop where
  fd : u.fd = t.fd
  table : ∀ i < t.opened, u.table i = (t.table i).rename file

namespace FdTable.Shows

variable {t t' : FdTable} {file : ℕ → ℕ} {u : Task} {o : Outcomes}

/-- **`sys_open` there is `sys_open` here**, if it finds a file. -/
theorem sysOpen {name : CString} (hu : t.Shows file u) (h : FdInv t) (hok : TaskOk u)
    (hc : Careful u o (.openName name)) (hs : t.sysOpen = some t') :
    ∃ r u', u.sysOpen o name = .ok (r, u') ∧
      (t.Shows file u' ∨ ∃ f, t'.Shows (update file t.opened f) u') := by
  obtain ⟨r, u', hrun, -, ha⟩ := sysOpen_spec hok hc
  refine ⟨r, u', hrun, ?_⟩
  rcases ha with ⟨-, hsame⟩ | ⟨f, -, -, -, hfd, hnew, hold⟩
  · refine .inl ⟨hsame.fd.trans hu.fd, fun i hi => ?_⟩
    rw [hsame.table]
    exact hu.table i hi
  · have hlast : u.fd - 1 = t.opened := by
      have hopened := h.fd
      have hsame := hu.fd
      omega
    rw [hlast] at hnew hold
    obtain ⟨-, T, hT, rfl⟩ := h.sysOpen_table hs
    refine .inr ⟨f, hfd.trans (congrArg (· + 1) hu.fd), fun i hi => ?_⟩
    show u'.table i = (update T t.opened (.file t.opened) i).rename (update file t.opened f)
    by_cases e : i = t.opened
    · rw [e, update_self, hnew, Slot.rename, update_self]
    · have hlt : i < t.opened := Nat.lt_of_le_of_ne (Nat.le_of_lt_succ hi) e
      rw [update_of_ne e, hT i hlt, hold i hlt, hu.table i hlt, h.element i hlt]
      split
      · rfl
      · rw [Slot.rename, Slot.rename, update_of_ne e]

theorem closeElement {i : ℕ} {u' : Task} (hu : t.Shows file u) (hfd : u'.fd = u.fd)
    (hi : u'.table = update u.table i .null) : (t.closeElement i).Shows file u' := by
  have hsame : (t.closeElement i).fd = t.fd ∧ (t.closeElement i).opened = t.opened ∧
      (t.closeElement i).table = update t.table i .null := by
    unfold FdTable.closeElement
    dsimp only
    split
    · rename_i hnull
      exact ⟨rfl, rfl, (update_eq_self_iff.mpr hnull.symm).symm⟩
    · exact ⟨rfl, rfl, rfl⟩
    · exact ⟨rfl, rfl, rfl⟩
  refine ⟨hfd.trans (hu.fd.trans hsame.1.symm), fun j hj => ?_⟩
  rw [hsame.2.1] at hj
  rw [hi, hsame.2.2]
  by_cases e : j = i
  · rw [e, update_self, update_self, Slot.rename]
    nofun
  · rw [update_of_ne e, update_of_ne e]
    exact hu.table j hj

/-- **`sys_close` there is `sys_close` here.** -/
theorem sysClose {fd : Word} (hu : t.Shows file u) (hok : TaskOk u)
    (hc : Careful u o (.close fd)) :
    ∃ r u', u.sysClose o fd = .ok (r, u') ∧ (t.sysClose fd.toInt).Shows file u' := by
  obtain ⟨r, u', hrun, -, -, hfd, hcase⟩ := sysClose_spec hok hc
  refine ⟨r, u', hrun, ?_⟩
  have hrange : u.inRange fd = true ↔ t.inRange fd.toInt := by
    unfold Task.inRange FdTable.inRange
    rw [decide_eq_true_iff, hu.fd]
  unfold FdTable.sysClose
  split
  · rename_i hin
    have hr := hrange.mpr hin
    have hidx : fdtableIdx fd.toInt.toNat = fd.toNat - 2 := by
      rw [toInt_of_lt (inRange_iff.mp hr).2.2]
      rfl
    have hlt : fd.toNat - 2 < u.fd - 1 := by
      have hbound := inRange_iff.mp hr
      omega
    rw [hidx]
    refine hu.closeElement hfd ?_
    rcases hcase with ⟨f, -, -, htable⟩ | ⟨hno, hsame⟩
    · exact htable
    · rcases hok.elements _ hlt with hnull | ⟨f, hf, -⟩
      · rw [hsame, ← hnull, update_eq_self]
      · exact absurd ⟨hr, hf⟩ (hno f)
  · rename_i hout
    rcases hcase with ⟨f, hf, -⟩ | ⟨-, rfl⟩
    · exact absurd (hrange.mp hf.range) hout
    · exact hu

end FdTable.Shows

/-! ## 4. The result -/

/-- **The descriptor table is sound**: whatever sequence of opens, closes and other calls a process
    makes, and after its `thread_exit`, no access has left the table or read an uninitialised
    element, the descriptors were 2, 3, 4, …, an open descriptor's element holds its file, and
    after `thread_exit` each file has been closed exactly once. -/
theorem fd_table_sound {t : FdTable} (h : Reach fdStep always .init t) : FdSound t := by
  have hinv : FdInv t := h.invariant (I := FdInv) .start fun _ _ _ hi _ hs => hi.step hs
  exact hinv.sound

/-- Twenty-two files, the last one past the first growth; the fourth is closed by the process, the
    others by `thread_exit`. -/
theorem fd_table_sound_grown : ∃ t : FdTable, Reach fdStep always .init t ∧ FdSound t ∧
    t.exited = true ∧ t.opened = 22 ∧ t.cap = 41 ∧ t.closed.length = 22 ∧
    t.closed.getLast? = some 3 := by
  have hrun : (runList fdStep .init
      (replicate 22 .openFile ++ [.close 5, .use 23, .close 5, .exit])).map
        (fun t => (t.exited, t.opened, t.cap, t.closed.length, t.closed.getLast?)) =
      some (true, 22, 41, 22, some 3) := by decide
  obtain ⟨t, ht, heq⟩ := Option.map_eq_some_iff.mp hrun
  have hr : Reach fdStep always .init t := reach_runList _ (fun _ _ _ => trivial) ht
  exact ⟨t, hr, fd_table_sound hr, congrArg (·.1) heq, congrArg (·.2.1) heq,
    congrArg (·.2.2.1) heq, congrArg (·.2.2.2.1) heq, congrArg (·.2.2.2.2) heq⟩

end Pintos
