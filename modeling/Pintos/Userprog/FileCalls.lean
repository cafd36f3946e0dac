/-
  Subject:   The nine system calls of syscall.c on files, made by one process in any order.

  A process has `fd`, the highest descriptor it was given, and `files_table` with one element for
  each. Eight of the handlers test a descriptor against `fd`; only `sys_close` looks whether the
  element still holds a file. Unsigned sizes and positions of the user become signed `off_t`.

  * `Careful`: the calls that are in order: `argv` and a growing table get their memory, a descriptor
    in range is open, the size of a new file and a new position are below 2^31, and so is a transfer
    to or from the console;
  * **`careful_calls_safe`**: after any sequence of careful calls, a careful call RETURNS what it
    should (`Answer`).

  What the call reads from the user's stack and memory is given: descriptors, sizes and positions are
  words, a name is a C string, and a buffer is valid.
-/
import Pintos.Filesys.Ownership
import Pintos.Userprog.Pagedir

namespace Pintos

open Lib Function

/-! ## 1. The process -/

/-- An element of `files_table`; `realloc` does not initialise new ones. -/
inductive Slot where
  | junk
  | null
  | file (f : ℕ)
  deriving DecidableEq, Repr

/-- What the handlers use of a process and of the rest of the kernel. -/
structure Task where
  fs : FileSys
  /-- `fd` of the thread. -/
  fd : ℕ
  /-- The number of elements that `files_table` has room for, 0 for a null pointer. -/
  cap : ℕ
  table : ℕ → Slot

/-- The outcomes of the allocations in one call, and what the user types. -/
structure Outcomes where
  argv : Bool
  fs : List Bool
  realloc : Bool
  keys : ℕ → UInt8

/-- What a call gives back: `eax` if it is set, the bytes stored in the user's buffer and the bytes
    printed. -/
structure Reply where
  eax : Option Word
  stored : List UInt8
  printed : List UInt8
  deriving DecidableEq, Repr

namespace Reply

def value (n : ℕ) : Reply := ⟨some (BitVec.ofNat 32 n), [], []⟩

/-- `eax = -1`. -/
def refused : Reply := ⟨some (-1#32), [], []⟩

/-- `eax` is not set. -/
def none : Reply := ⟨.none, [], []⟩

def bool (b : Bool) : Reply := value b.toNat

end Reply

/-- A kernel that runs into a failed assertion or a fault does not go on. -/
abbrev Handled := Except (Halt FsCrash) (Reply × Task)

def Handled.fault (pointer : String) : Handled := .error (.stopped (.fault pointer))

namespace Task

/-- A call into the file system. -/
def exec (t : Task) (o : Outcomes) {α : Type} (m : FsM α) (k : α → FileSys → Handled) : Handled :=
  match m.run { t.fs with allocs := o.fs } with
  | .ok (a, s) => k a s
  | .error e => .error e

/-- `get_argv` stores through `argv`. -/
def withArgv (o : Outcomes) (h : Handled) : Handled := if o.argv then h else .fault "argv"

/-- `fd > 1 && fd <= thread_current ()->fd`. -/
def inRange (t : Task) (fd : Word) : Bool := decide (1 < fd.toInt ∧ fd.toInt ≤ t.fd)

/-- `files_table[fdtable_idx (fd)]`. -/
def element (t : Task) (fd : Word) (k : Option ℕ → Handled) : Handled :=
  if fd.toNat - 2 < t.cap then
    match t.table (fd.toNat - 2) with
    | .junk => .fault "files_table[fd - 2]"
    | .null => k none
    | .file f => k (some f)
  else .fault "files_table"

/-- What the calls on a descriptor have in common: the range test, and then the operation on the
    element, whatever that is. -/
def onFile (t : Task) (o : Outcomes) (fd : Word) (refused : Reply) (op : Option ℕ → FsM Reply) :
    Handled :=
  withArgv o <|
    if t.inRange fd then t.element fd fun f => t.exec o (op f) fun r s => .ok (r, { t with fs := s })
    else .ok (refused, t)

/-! ## 2. The handlers -/

def sysCreate (t : Task) (o : Outcomes) (name : CString) (initialSize : Word) : Handled :=
  withArgv o <| t.exec o (filesysCreate name initialSize.toInt) fun r s =>
    .ok (.bool r, { t with fs := s })

def sysRemove (t : Task) (o : Outcomes) (name : CString) : Handled :=
  withArgv o <| t.exec o (filesysRemove name) fun r s => .ok (.bool r, { t with fs := s })

/-- The table before a descriptor `fd` is entered: in front of every twentieth it grows. The size is
    computed in 32 bits, and `realloc` to size 0 gives a null pointer. -/
def growTable (t : Task) (o : Outcomes) (fd : ℕ) : Task :=
  if (fd - 2) % 20 = 0 then
    { t with cap := if o.realloc then 4 * (fd - 1 + 20) % 2 ^ 32 / 4 else 0
             table := fun i => if i < t.cap then t.table i else .junk }
  else t

def sysOpen (t : Task) (o : Outcomes) (name : CString) : Handled :=
  withArgv o <| t.exec o (filesysOpen name) fun r s =>
    match r with
    | none => .ok (.refused, { t with fs := s })
    | some f =>
      let fd := t.fd + 1
      let t' := growTable { t with fs := s, fd := fd } o fd
      if fd - 2 < t'.cap then
        .ok (.value fd, { t' with table := update t'.table (fd - 2) (.file f) })
      else .fault "files_table"

def sysFilesize (t : Task) (o : Outcomes) (fd : Word) : Handled :=
  t.onFile o fd .refused fun f => .value <$> fileLength f

def sysRead (t : Task) (o : Outcomes) (fd size : Word) : Handled :=
  if fd.toInt = 0 then
    withArgv o <| .ok (⟨some size, (List.range size.toNat).map o.keys, []⟩, t)
  else t.onFile o fd .refused fun f =>
    (fun b => ⟨some (BitVec.ofNat 32 b.length), b, []⟩) <$> fileRead f size.toInt

def sysWrite (t : Task) (o : Outcomes) (fd : Word) (buffer : ℕ → UInt8) (size : Word) : Handled :=
  if fd.toInt = 1 then
    withArgv o <| .ok (⟨some size, [], (List.range size.toNat).map buffer⟩, t)
  else t.onFile o fd .refused fun f => .value <$> fileWrite f buffer size.toInt

def sysSeek (t : Task) (o : Outcomes) (fd position : Word) : Handled :=
  t.onFile o fd .none fun f => (fun _ => .none) <$> fileSeek f position.toInt

def sysTell (t : Task) (o : Outcomes) (fd : Word) : Handled :=
  t.onFile o fd .refused fun f => .value <$> fileTell f

/-- `sys_close` alone looks at the element before it uses it. -/
def sysClose (t : Task) (o : Outcomes) (fd : Word) : Handled :=
  withArgv o <|
    if t.inRange fd then
      t.element fd fun f => match f with
        | none => .ok (.none, t)
        | some f => t.exec o (fileClose (some f)) fun _ s =>
          .ok (.none, { t with fs := s, table := update t.table (fd.toNat - 2) .null })
    else .ok (.none, t)

end Task

inductive FileCall where
  | create (name : CString) (initialSize : Word)
  | remove (name : CString)
  | openName (name : CString)
  | filesize (fd : Word)
  | read (fd size : Word)
  | write (fd : Word) (buffer : ℕ → UInt8) (size : Word)
  | seek (fd position : Word)
  | tell (fd : Word)
  | close (fd : Word)

def FileCall.run (t : Task) (o : Outcomes) : FileCall → Handled
  | .create name size => t.sysCreate o name size
  | .remove name => t.sysRemove o name
  | .openName name => t.sysOpen o name
  | .filesize fd => t.sysFilesize o fd
  | .read fd size => t.sysRead o fd size
  | .write fd buffer size => t.sysWrite o fd buffer size
  | .seek fd position => t.sysSeek o fd position
  | .tell fd => t.sysTell o fd
  | .close fd => t.sysClose o fd

/-- The machine: one call with its outcomes. -/
def taskStep (t : Task) (c : FileCall × Outcomes) : Option Task :=
  match c.1.run t c.2 with
  | .ok (_, t') => some t'
  | .error _ => none

/-! ## 3. What the calls should do -/

/-- The descriptor is open, with the file `f`. -/
structure Task.Holds (t : Task) (fd : Word) (f : ℕ) : Prop where
  range : t.inRange fd = true
  element : t.table (fd.toNat - 2) = .file f

/-- A descriptor in range is open. -/
def Task.Usable (t : Task) (fd : Word) : Prop := t.inRange fd = true → ∃ f, t.Holds fd f

/-- **A call that is in order.** -/
def Careful (t : Task) (o : Outcomes) (c : FileCall) : Prop :=
  o.argv = true ∧ match c with
  | .create _ size => size.toNat < 2 ^ 31
  | .openName _ => t.fd % 20 = 1 → o.realloc = true ∧ 4 * (t.fd + 20) < 2 ^ 32
  | .filesize fd | .tell fd => t.Usable fd
  | .read fd size => t.Usable fd ∧ (fd.toInt = 0 → size.toNat < 2 ^ 31)
  | .write fd _ size => t.Usable fd ∧ (fd.toInt = 1 → size.toNat < 2 ^ 31)
  | .seek fd position => t.Usable fd ∧ (t.inRange fd = true → position.toNat < 2 ^ 31)
  | .remove _ | .close _ => True

def Slot.isFile : Slot → Bool
  | .file _ => true
  | _ => false

variable {t t' : Task}

theorem usable_iff {fd : Word} :
    t.Usable fd ↔ (t.inRange fd = true → (t.table (fd.toNat - 2)).isFile = true) := by
  refine ⟨fun h hr => ?_, fun h hr => ?_⟩
  · obtain ⟨f, hf⟩ := h hr
    rw [hf.element]
    rfl
  · have hfile := h hr
    cases he : t.table (fd.toNat - 2) with
    | file f => exact ⟨f, hr, he⟩
    | junk => rw [he] at hfile; cases hfile
    | null => rw [he] at hfile; cases hfile

instance (t : Task) (fd : Word) : Decidable (t.Usable fd) := decidable_of_iff' _ usable_iff

instance (t : Task) (o : Outcomes) : (c : FileCall) → Decidable (Careful t o c)
  | .create _ _ | .openName _ | .filesize _ | .tell _ | .read _ _ | .write _ _ _ | .seek _ _
  | .remove _ | .close _ => inferInstanceAs (Decidable (_ ∧ _))

/-- The descriptor table is as it was. -/
structure Task.SameTable (t t' : Task) : Prop where
  fd : t'.fd = t.fd
  cap : t'.cap = t.cap
  table : t'.table = t.table

/-- What a call on a descriptor answers: `op` of an open file, and `-1` (or nothing) otherwise. -/
def Task.Answers (t : Task) (fd : Word) (r refused : Reply) (t' : Task)
    (op : ℕ → FileSys → FileSys → Prop) : Prop :=
  t.SameTable t' ∧ ((∃ f, t.Holds fd f ∧ op f t.fs t'.fs) ∨
    ((∀ f, ¬ t.Holds fd f) ∧ r = refused ∧ t' = t))

/-- A transfer of at most `size` bytes; an `off_t` that is negative allows none. -/
def Clamped (size : Word) (n : ℕ) : Prop := n ≤ if size.toNat < 2 ^ 31 then size.toNat else 0

/-- **What a call should do.** -/
def Answer (t : Task) (c : FileCall) (r : Reply) (t' : Task) : Prop :=
  match c with
  | .create _ _ | .remove _ => t.SameTable t' ∧ ∃ b, r = .bool b
  | .openName _ => (r = .refused ∧ t.SameTable t') ∨
      (∃ f, f ∉ t.fs.openFiles ∧ t'.fs.Has f ∧ r = .value (t.fd + 1) ∧ t'.fd = t.fd + 1 ∧
        t'.table (t.fd - 1) = .file f ∧ ∀ i < t.fd - 1, t'.table i = t.table i)
  | .filesize fd => t.Answers fd r .refused t' fun f s _ =>
    r = .value (s.inode (s.file f).inode).data.length
  | .read fd size => if fd.toInt = 0 then t' = t ∧ size.toNat < 2 ^ 31 ∧ r.eax = some size ∧
        r.stored.length = size.toNat
      else t.Answers fd r .refused t' fun _ _ _ =>
        Clamped size r.stored.length ∧ r.eax = some (BitVec.ofNat 32 r.stored.length)
  | .write fd buffer size => if fd.toInt = 1 then t' = t ∧ size.toNat < 2 ^ 31 ∧ r.eax = some size ∧
        r.printed = (List.range size.toNat).map buffer
      else t.Answers fd r .refused t' fun _ _ _ => ∃ n, Clamped size n ∧ r = .value n
  | .seek fd position => t.Answers fd r .none t' fun f _ s' =>
    r = .none ∧ (s'.file f).pos = position.toNat
  | .tell fd => t.Answers fd r .refused t' fun f s _ => r = .value (s.file f).pos
  | .close fd => r = .none ∧ t'.fd = t.fd ∧ ((∃ f, t.Holds fd f ∧ f ∉ t'.fs.openFiles ∧
        t'.table = update t.table (fd.toNat - 2) .null) ∨
      ((∀ f, ¬ t.Holds fd f) ∧ t' = t))

/-! ## 4. The invariant of a process -/

/-- The size of the table when the descriptors up to `fd` are given out. -/
def tableSize (fd : ℕ) : ℕ := if fd = 1 then 0 else (fd - 2) / 20 * 20 + 21

structure TaskOk (t : Task) : Prop where
  ok : FsOk t.fs
  unlocked : t.fs.locked = false
  first : 1 ≤ t.fd
  cap : t.cap = tableSize t.fd
  elements : ∀ i < t.fd - 1, t.table i = .null ∨ ∃ f, t.table i = .file f ∧ t.fs.Has f
  distinct : ∀ i < t.fd - 1, ∀ j < t.fd - 1, ∀ f, t.table i = .file f → t.table j = .file f → i = j

section TaskOk

variable {t : Task} {o : Outcomes} {fd : Word}

theorem inRange_iff : t.inRange fd = true ↔ 2 ≤ fd.toNat ∧ fd.toNat ≤ t.fd ∧ fd.toNat < 2 ^ 31 := by
  unfold Task.inRange
  rw [decide_eq_true_eq, BitVec.toInt_eq_toNat_cond]
  split <;> omega

theorem toInt_of_lt {w : Word} (h : w.toNat < 2 ^ 31) : w.toInt = w.toNat := by
  rw [BitVec.toInt_eq_toNat_cond, if_pos (by omega)]

variable {size : Word} {f n : ℕ} {s s' : FileSys} {name : CString}

theorem clamped_of_le (h : n ≤ size.toInt.toNat) : Clamped size n := by
  unfold Clamped
  rw [BitVec.toInt_eq_toNat_cond] at h
  split at h <;> split <;> omega

theorem le_tableSize {fd : ℕ} : fd - 1 ≤ tableSize fd := by
  unfold tableSize
  split <;> omega

theorem TaskOk.withFs (h : TaskOk t) (hs : FsOk s) (hl : s.locked = false)
    (hhas : ∀ f, t.fs.Has f → s.Has f) : TaskOk { t with fs := s } where
  ok := hs
  unlocked := hl
  first := h.first
  cap := h.cap
  elements i hi := (h.elements i hi).imp id fun ⟨f, he, hf⟩ => ⟨f, he, hhas f hf⟩
  distinct := h.distinct

theorem TaskOk.element_eq (h : TaskOk t) (hr : t.inRange fd = true) (k : Option ℕ → Handled) :
    (t.element fd k = k none ∧ ∀ f, ¬ t.Holds fd f) ∨
      ∃ f, t.element fd k = k (some f) ∧ t.Holds fd f ∧ t.fs.Has f := by
  have hrange := inRange_iff.mp hr
  have hi : fd.toNat - 2 < t.fd - 1 := by omega
  have hcap : fd.toNat - 2 < t.cap := by
    rw [h.cap]
    exact Nat.lt_of_lt_of_le hi le_tableSize
  unfold Task.element
  rw [if_pos hcap]
  rcases h.elements _ hi with hnull | ⟨f, hf, hhas⟩
  · rw [hnull]
    refine .inl ⟨rfl, fun f hf => ?_⟩
    have he := hf.element
    rw [hnull] at he
    cases he
  · rw [hf]
    exact .inr ⟨f, rfl, ⟨hr, hf⟩, hhas⟩

theorem exec_ok {α : Type} {m : FsM α} {k : α → FileSys → Handled} {a : α}
    (h : m.run { t.fs with allocs := o.fs } = .ok (a, s)) : t.exec o m k = k a s := by
  unfold Task.exec
  rw [h]

theorem withArgv_granted (h : o.argv = true) (x : Handled) : Task.withArgv o x = x := if_pos h

/-- **The calls on a descriptor**, for any operation that keeps the invariant and the files. -/
theorem onFile_answers (h : TaskOk t) (ho : o.argv = true) (hu : t.Usable fd) {refused : Reply}
    {op : Option ℕ → FsM Reply} {P : Reply → ℕ → FileSys → FileSys → Prop}
    (hop : t.inRange fd = true → ∀ f, t.fs.Has f → Runs (op (some f)) { t.fs with allocs := o.fs }
      fun r s' => FsOk s' ∧ CallKeeps { t.fs with allocs := o.fs } s' ∧ P r f t.fs s') :
    ∃ r t', t.onFile o fd refused op = .ok (r, t') ∧ TaskOk t' ∧
      t.Answers fd r refused t' (P r) := by
  unfold Task.onFile
  rw [withArgv_granted ho]
  cases hr : t.inRange fd with
  | false =>
    refine ⟨refused, t, if_neg Bool.false_ne_true, h, ⟨rfl, rfl, rfl⟩, .inr ⟨fun f hf => ?_, rfl, rfl⟩⟩
    rw [hf.range] at hr
    cases hr
  | true =>
    rw [if_pos rfl]
    rcases h.element_eq hr fun f => t.exec o (op f) fun r s => .ok (r, { t with fs := s }) with
      ⟨_, hno⟩ | ⟨f, he, hf, hhas⟩
    · obtain ⟨f, hf⟩ := hu hr
      exact absurd hf (hno f)
    · obtain ⟨r, s', hrun, hs', hk, hP⟩ := hop hr f hhas
      refine ⟨r, { t with fs := s' }, he.trans (exec_ok hrun), h.withFs hs' (hk.locked.trans h.unlocked)
        fun g hg => ⟨?_, ?_⟩, ⟨rfl, rfl, rfl⟩, .inl ⟨f, hf, hP⟩⟩
      · rw [hk.openFiles]
        exact hg.isOpen
      · rw [hk.mapFile]
        exact hg.notMap

theorem Has.keeps (h : s.Has f) (ho : s'.openFiles = s.openFiles)
    (hm : s'.freeMapFile = s.freeMapFile) : s'.Has f :=
  ⟨ho ▸ h.isOpen, hm ▸ h.notMap⟩

/-! ## 5. Each call -/

section

variable (h : TaskOk t)

include h

theorem sysCreate_spec (name : CString) (hc : Careful t o (.create name size)) :
    ∃ r t', t.sysCreate o name size = .ok (r, t') ∧
      TaskOk t' ∧ Answer t (.create name size) r t' := by
  obtain ⟨ho, hsize⟩ := hc
  have hint := toInt_of_lt hsize
  have h0 : 0 ≤ size.toInt := by omega
  have hlt : size.toInt < 2 ^ 31 := by omega
  obtain ⟨b, s', hrun, hcall⟩ := filesysCreate_spec name h0 hlt (h.ok.setAllocs o.fs)
  refine ⟨_, _, (withArgv_granted ho _).trans (exec_ok hrun), ?_, ⟨rfl, rfl, rfl⟩, b, rfl⟩
  exact h.withFs hcall.ok (hcall.keeps.locked.trans h.unlocked) fun f hf =>
    Has.keeps hf hcall.keeps.openFiles hcall.keeps.mapFile

theorem sysRemove_spec (name : CString) (hc : Careful t o (.remove name)) :
    ∃ r t', t.sysRemove o name = .ok (r, t') ∧ TaskOk t' ∧ Answer t (.remove name) r t' := by
  obtain ⟨b, s', hrun, hs', hk, _⟩ := filesysRemove_spec name (h.ok.setAllocs o.fs)
  refine ⟨_, _, (withArgv_granted hc.1 _).trans (exec_ok hrun), ?_, ⟨rfl, rfl, rfl⟩, b, rfl⟩
  exact h.withFs hs' (hk.locked.trans h.unlocked) fun f hf => Has.keeps hf hk.openFiles hk.mapFile

theorem growTable_spec (hc : Careful t o (.openName name)) (s : FileSys) :
    ∃ T, Task.growTable { t with fs := s, fd := t.fd + 1 } o (t.fd + 1) =
      ⟨s, t.fd + 1, tableSize (t.fd + 1), T⟩ ∧ ∀ i < t.fd - 1, T i = t.table i := by
  obtain ⟨_, hgrow⟩ := hc
  have hfirst := h.first
  unfold Task.growTable
  split
  · rename_i hmod
    obtain ⟨hre, hlt⟩ := hgrow (by omega)
    have hcap : 4 * (t.fd + 1 - 1 + 20) % 2 ^ 32 / 4 = tableSize (t.fd + 1) := by
      unfold tableSize
      rw [if_neg (by omega)]
      omega
    refine ⟨fun i => if i < t.cap then t.table i else .junk, ?_, fun i hi => if_pos ?_⟩
    · rw [if_pos hre, hcap]
    · rw [h.cap]
      exact Nat.lt_of_lt_of_le hi le_tableSize
  · rename_i hmod
    have hcap : t.cap = tableSize (t.fd + 1) := by
      rw [h.cap]
      unfold tableSize
      rw [if_neg (show ¬ t.fd + 1 = 1 by omega)]
      split <;> omega
    exact ⟨t.table, by rw [hcap], fun _ _ => rfl⟩

theorem TaskOk.enter {T : ℕ → Slot} (hs : FsOk s) (hl : s.locked = false)
    (hold : ∀ g, t.fs.Has g → s.Has g) (hf : s.Has f) (hnew : ¬ t.fs.Has f)
    (hT : ∀ i < t.fd - 1, T i = t.table i) :
    TaskOk ⟨s, t.fd + 1, tableSize (t.fd + 1), update T (t.fd - 1) (.file f)⟩ := by
  have hother : ∀ i < t.fd - 1, update T (t.fd - 1) (.file f) i = t.table i :=
    fun i hi => by rw [update_of_ne (by omega), hT i hi]
  have hlast : update T (t.fd - 1) (.file f) (t.fd - 1) = .file f := update_self ..
  have hcase : ∀ i < t.fd + 1 - 1, i < t.fd - 1 ∨ i = t.fd - 1 := fun i hi => by omega
  -- no old element holds the new file
  have hfresh : ∀ i < t.fd - 1, t.table i ≠ .file f := fun i hi he => by
    rcases h.elements i hi with hn | ⟨g, hg, hhas⟩
    · rw [he] at hn
      cases hn
    · rw [he] at hg
      cases hg
      exact hnew hhas
  refine ⟨hs, hl, Nat.le_add_left 1 t.fd, rfl, fun i hi => ?_, fun i hi j hj g hgi hgj => ?_⟩
  · rcases hcase i hi with hlt | rfl
    · show update T (t.fd - 1) (.file f) i = _ ∨ _
      rw [hother i hlt]
      exact (h.elements i hlt).imp id fun ⟨g, he, hg⟩ => ⟨g, by rw [← he]; exact hother i hlt, hold g hg⟩
    · exact .inr ⟨f, hlast, hf⟩
  · have hgi' : update T (t.fd - 1) (.file f) i = .file g := hgi
    have hgj' : update T (t.fd - 1) (.file f) j = .file g := hgj
    rcases hcase i hi with hi' | rfl <;> rcases hcase j hj with hj' | rfl
    · rw [hother i hi'] at hgi'
      rw [hother j hj'] at hgj'
      exact h.distinct i hi' j hj' g hgi' hgj'
    · rw [hlast] at hgj'
      cases hgj'
      rw [hother i hi'] at hgi'
      exact absurd hgi' (hfresh i hi')
    · rw [hlast] at hgi'
      cases hgi'
      rw [hother j hj'] at hgj'
      exact absurd hgj' (hfresh j hj')
    · rfl

theorem sysOpen_spec (hc : Careful t o (.openName name)) :
    ∃ r t', t.sysOpen o name = .ok (r, t') ∧ TaskOk t' ∧ Answer t (.openName name) r t' := by
  have hfirst := h.first
  obtain ⟨r, s', hrun, hs', hres⟩ := filesysOpen_spec name (h.ok.setAllocs o.fs) h.unlocked
  have hcall := fun k => (withArgv_granted hc.1 (t.exec o (filesysOpen name) k)).trans (exec_ok hrun)
  cases r with
  | none =>
    obtain ⟨hk, _⟩ := hres
    refine ⟨_, _, hcall _, ?_, .inl ⟨rfl, rfl, rfl, rfl⟩⟩
    exact h.withFs hs' (hk.locked.trans h.unlocked) fun f hf => Has.keeps hf hk.openFiles hk.mapFile
  | some f =>
    obtain ⟨x, s₁, ho⟩ := hres
    obtain ⟨T, hgrow, hT⟩ := growTable_spec h hc s'
    have hopen : s'.openFiles = f :: t.fs.openFiles := by
      rw [ho.state, ho.file]
      show s₁.nextFile :: s₁.openFiles = _
      rw [ho.keeps.openFiles]
    have hmap : s'.freeMapFile = t.fs.freeMapFile := by
      rw [ho.state]
      exact ho.keeps.mapFile
    have hlock : s'.locked = false := by
      rw [ho.state]
      exact ho.keeps.locked.trans h.unlocked
    have hnew : f ∉ t.fs.openFiles := fun hmem => by
      have hlt := h.ok.heap.filesFresh f hmem
      have hnext : s₁.nextFile = t.fs.nextFile := ho.keeps.nextFile
      rw [ho.file, hnext] at hlt
      exact Nat.lt_irrefl _ hlt
    have hhas : s'.Has f := ⟨by rw [hopen]; exact List.mem_cons_self, fun he => by
      obtain ⟨g, hg⟩ := h.ok.tie.mapFile
      rw [hmap, hg.isMap] at he
      cases he
      exact hnew hg.isOpen⟩
    have hold : ∀ g, t.fs.Has g → s'.Has g := fun g hg =>
      ⟨by rw [hopen]; exact List.mem_cons_of_mem f hg.isOpen, by rw [hmap]; exact hg.notMap⟩
    have hroom : t.fd + 1 - 2 < tableSize (t.fd + 1) := Nat.lt_of_lt_of_le (by omega) le_tableSize
    have hidx : t.fd + 1 - 2 = t.fd - 1 := by omega
    refine ⟨.value (t.fd + 1), ⟨s', t.fd + 1, tableSize (t.fd + 1),
      update T (t.fd - 1) (.file f)⟩, (hcall _).trans ?_,
      h.enter hs' hlock hold hhas (fun hf => hnew hf.isOpen) hT,
      .inr ⟨f, hnew, hhas, rfl, rfl, update_self .., fun i hi => ?_⟩⟩
    · simp only [hgrow]
      rw [if_pos hroom, hidx]
    · exact (update_of_ne (by omega) ..).trans (hT i hi)

theorem TaskOk.drop (hs : FsOk s) (hl : s.locked = false) (hn : n < t.fd - 1)
    (hf : t.table n = .file f) (hold : ∀ g, g ≠ f → t.fs.Has g → s.Has g) :
    TaskOk { t with fs := s, table := update t.table n .null } := by
  have hother : ∀ i g, update t.table n .null i = .file g → i ≠ n ∧ t.table i = .file g := by
    intro i g hi
    by_cases hin : i = n
    · subst hin
      rw [update_self] at hi
      cases hi
    · rw [update_of_ne hin] at hi
      exact ⟨hin, hi⟩
  refine ⟨hs, hl, h.first, h.cap, fun i hi => ?_, fun i hi j hj g hgi hgj => ?_⟩
  · show update t.table n .null i = _ ∨ _
    by_cases hin : i = n
    · subst hin
      exact .inl (update_self ..)
    · rw [update_of_ne hin]
      refine (h.elements i hi).imp id fun ⟨g, he, hg⟩ =>
        ⟨g, (update_of_ne hin ..).trans he, hold g (fun hgf => hin ?_) hg⟩
      exact h.distinct i hi n hn f (hgf ▸ he) hf
  · exact h.distinct i hi j hj g (hother i g hgi).2 (hother j g hgj).2

theorem sysClose_spec (hc : Careful t o (.close fd)) :
    ∃ r t', t.sysClose o fd = .ok (r, t') ∧ TaskOk t' ∧ Answer t (.close fd) r t' := by
  unfold Task.sysClose
  rw [withArgv_granted hc.1]
  cases hr : t.inRange fd with
  | false =>
    refine ⟨.none, t, if_neg Bool.false_ne_true, h, rfl, rfl, .inr ⟨fun f hf => ?_, rfl⟩⟩
    rw [hf.range] at hr
    cases hr
  | true =>
    rw [if_pos rfl]
    rcases h.element_eq hr _ with ⟨he, hno⟩ | ⟨f, he, hf, hhas⟩
    · exact ⟨.none, t, he, h, rfl, rfl, .inr ⟨hno, rfl⟩⟩
    · obtain ⟨_, s', hrun, hs', hcl⟩ := fileClose_spec (h.ok.setAllocs o.fs) (f := f) hhas.isOpen
        hhas.notMap
      have hopen : s'.openFiles = t.fs.openFiles.erase f := hcl.openFiles
      have hgone : f ∉ s'.openFiles := by
        rw [hopen]
        exact h.ok.heap.filesNodup.not_mem_erase
      have hrange := inRange_iff.mp hr
      refine ⟨_, _, he.trans (exec_ok hrun), h.drop hs' (hcl.locked.trans h.unlocked) (by omega)
        hf.element fun g hgf hg => ⟨?_, ?_⟩, rfl, rfl, .inl ⟨f, hf, hgone, rfl⟩⟩
      · rw [hopen]
        exact (List.mem_erase_of_ne hgf).mpr hg.isOpen
      · rw [hcl.mapFile]
        exact hg.notMap

theorem sysRead_spec (hc : Careful t o (.read fd size)) :
    ∃ r t', t.sysRead o fd size = .ok (r, t') ∧ TaskOk t' ∧ Answer t (.read fd size) r t' := by
  obtain ⟨ho, hu, hcon⟩ := hc
  unfold Task.sysRead
  by_cases h0 : fd.toInt = 0
  · simp only [Answer, if_pos h0]
    exact ⟨_, _, withArgv_granted ho _, h, rfl, hcon h0, rfl, by simp⟩
  · simp only [Answer, if_neg h0]
    refine onFile_answers h ho hu (P := fun r _ _ _ => Clamped size r.stored.length ∧
      r.eax = some (BitVec.ofNat 32 r.stored.length)) fun _ f hf => ?_
    rw [runs_map]
    refine (fileRead_spec (h.ok.setAllocs o.fs) hf.isOpen size.toInt).mono fun b s' h' => ?_
    obtain ⟨hs', hk, _, hle, _⟩ := h'
    exact ⟨hs', hk, clamped_of_le hle, rfl⟩

theorem sysWrite_spec {buffer : ℕ → UInt8} (hc : Careful t o (.write fd buffer size)) :
    ∃ r t', t.sysWrite o fd buffer size = .ok (r, t') ∧
      TaskOk t' ∧ Answer t (.write fd buffer size) r t' := by
  obtain ⟨ho, hu, hcon⟩ := hc
  unfold Task.sysWrite
  by_cases h1 : fd.toInt = 1
  · simp only [Answer, if_pos h1]
    exact ⟨_, _, withArgv_granted ho _, h, rfl, hcon h1, rfl, rfl⟩
  · simp only [Answer, if_neg h1]
    refine onFile_answers h ho hu (P := fun r _ _ _ => ∃ n, Clamped size n ∧ r = .value n)
      fun _ f hf => ?_
    rw [runs_map]
    refine (fileWrite_spec (h.ok.setAllocs o.fs) hf.isOpen hf.notMap buffer size.toInt).mono
      fun n s' h' => ?_
    obtain ⟨hs', hk, hle, _⟩ := h'
    exact ⟨hs', hk, n, clamped_of_le hle, rfl⟩

/-- **One call.** A careful call returns what it should, and the process is in order again. -/
theorem FileCall.spec (c : FileCall) (hc : Careful t o c) :
    ∃ r t', c.run t o = .ok (r, t') ∧ TaskOk t' ∧ Answer t c r t' := by
  have hs := h.ok.setAllocs o.fs
  cases c with
  | create name size => exact sysCreate_spec h name hc
  | remove name => exact sysRemove_spec h name hc
  | openName name => exact sysOpen_spec h hc
  | close fd => exact sysClose_spec h hc
  | filesize fd =>
    refine onFile_answers h hc.1 hc.2
      (P := fun r f s _ => r = .value (s.inode (s.file f).inode).data.length) fun _ f hf => ?_
    unfold fileLength
    simp only [runs_map, runs_bind, runs_get, runs_pure]
    exact ⟨hs, .refl _, trivial⟩
  | tell fd =>
    refine onFile_answers h hc.1 hc.2 (P := fun r f s _ => r = .value (s.file f).pos) fun _ f hf => ?_
    unfold fileTell
    simp only [runs_map, runs_bind, runs_get, runs_pure]
    exact ⟨hs, .refl _, trivial⟩
  | seek fd position =>
    obtain ⟨ho, hu, hpos⟩ := hc
    refine onFile_answers h ho hu
      (P := fun r f _ s' => r = .none ∧ (s'.file f).pos = position.toNat) fun hr f hf => ?_
    have hint := toInt_of_lt (hpos hr)
    rw [runs_map]
    refine (fileSeek_spec hs f (by omega)).mono fun _ s' h' => ?_
    obtain ⟨hs', hk, hp⟩ := h'
    exact ⟨hs', hk, rfl, by omega⟩
  | read fd size => exact sysRead_spec h hc
  | write fd buffer size => exact sysWrite_spec h hc

end

end TaskOk

/-! ## 6. Sequences of calls -/

/-- A process that has opened nothing yet, on any file system that is in order. -/
structure Newborn (t : Task) : Prop where
  ok : FsOk t.fs
  unlocked : t.fs.locked = false
  fd : t.fd = 1
  cap : t.cap = 0

theorem Newborn.taskOk (h : Newborn t) : TaskOk t where
  ok := h.ok
  unlocked := h.unlocked
  first := Nat.le_of_eq h.fd.symm
  cap := by rw [h.cap, h.fd]; rfl
  elements i hi := by rw [h.fd] at hi; cases hi
  distinct i hi := by rw [h.fd] at hi; cases hi

theorem taskStep_ok {c : FileCall × Outcomes} (h : TaskOk t) (hc : Careful t c.2 c.1)
    (hstep : taskStep t c = some t') : TaskOk t' := by
  obtain ⟨r, t₁, hrun, hok, _⟩ := FileCall.spec h c.1 hc
  unfold taskStep at hstep
  rw [hrun] at hstep
  cases hstep
  exact hok

/-- **Careful calls are safe.** After any sequence of careful calls a careful call returns, so that no
    assertion fails and no null pointer is used, and it returns what it should. -/
theorem careful_calls_safe {t₀ t : Task} (h₀ : Newborn t₀)
    (h : Reach taskStep (fun t c => Careful t c.2 c.1) t₀ t) (c : FileCall) (o : Outcomes)
    (hc : Careful t o c) : ∃ r t', c.run t o = .ok (r, t') ∧ Answer t c r t' := by
  have hok : TaskOk t := h.invariant h₀.taskOk fun _ _ _ hi hv hstep => taskStep_ok hi hv hstep
  obtain ⟨r, t', hrun, _, hans⟩ := FileCall.spec hok c hc
  exact ⟨r, t', hrun, hans⟩

/-- Every allocation is granted. -/
def grantAll : Outcomes := ⟨true, [], true, fun _ => 0⟩

/-- A process on a device of eight sectors after the calls, if all are careful. -/
def afterCalls (calls : List FileCall) : Option Task :=
  smallDisk.bind fun s => runList (stepIf taskStep fun t c => Careful t c.2 c.1)
    ⟨s, 1, 0, fun _ => .junk⟩ (calls.map (·, grantAll))

theorem afterCalls_reach {calls : List FileCall} (h : afterCalls calls = some t) :
    ∃ t₀, Newborn t₀ ∧ Reach taskStep (fun t c => Careful t c.2 c.1) t₀ t := by
  obtain ⟨s, hs, hrun⟩ := Option.bind_eq_some_iff.mp h
  obtain ⟨hok, hl, _⟩ := fsReach_ok (smallDisk_reach hs)
  exact ⟨_, ⟨hok, hl, rfl, rfl⟩, reach_runIf _ hrun⟩

/-- A file that has been opened has a size. -/
theorem careful_calls_safe_filesize : ∃ t, afterCalls [.create nameA 3, .openName nameA] = some t ∧
      ∃ r t', (FileCall.filesize 2).run t grantAll = .ok (r, t') ∧ Answer t (.filesize 2) r t' := by
  have hafter : ((afterCalls [.create nameA 3, .openName nameA]).map fun t =>
      decide (Careful t grantAll (.filesize 2))) = some true := by decide
  obtain ⟨t, ht, hc⟩ := Option.map_eq_some_iff.mp hafter
  obtain ⟨t₀, h0, hr⟩ := afterCalls_reach ht
  exact ⟨t, ht, careful_calls_safe h0 hr _ _ (of_decide_eq_true hc)⟩

/-- How one more call ends that does not return. -/
def crash (calls : List FileCall) (c : FileCall) (o : Outcomes) : Option (Halt FsCrash) :=
  (afterCalls calls).bind fun t => match c.run t o with
    | .ok _ => none
    | .error e => some e

/-- **Calls that crash the kernel**: asking for the size of a descriptor that has been closed, reading
    from it, a position and a size of 2^31, and a table or arguments that get no memory. -/
theorem closed_descriptor_crashes :
    crash [.create nameA 3, .openName nameA, .close 2] (.filesize 2) grantAll =
      some (.stopped (.assertion "file != NULL")) ∧
    crash [.create nameA 3, .openName nameA, .close 2] (.read 2 1) grantAll =
      some (.stopped (.fault "file->inode")) ∧
    crash [.create nameA 3, .openName nameA] (.seek 2 (1 <<< 31)) grantAll =
      some (.stopped (.assertion "new_pos >= 0")) ∧
    crash [] (.create nameA (1 <<< 31)) grantAll = some (.stopped (.assertion "length >= 0")) ∧
    crash [.create nameA 3] (.openName nameA) { grantAll with realloc := false } =
      some (.stopped (.fault "files_table")) ∧
    crash [] (.tell 2) { grantAll with argv := false } = some (.stopped (.fault "argv")) := by
  decide

end Pintos
