/-
  Subject:   The way from `int 0x30` into a handler: `syscall_handler`, its two tables and `get_argv`.

  The run of the entry is the words it reads from the user stack, in order, and its end (`Entry`): the
  process is terminated, a handler is entered with its arguments, or `sys_handler_` is indexed
  outside its 22 elements.

  `dispatch_safe_iff` says for which stacks the entry does what it should. `check_address` looks at the
  first byte of a word and asks for a page table only, and nothing looks at the number.
-/
import Pintos.Userprog.UserMemory

namespace Pintos

/-! ## 1. The tables -/

inductive Handler where
  | halt
  | exit
  | exec
  | wait
  | create
  | remove
  | open
  | filesize
  | read
  | write
  | seek
  | tell
  | close
  | mmap
  | mummap
  | chdir
  | mkdir
  | readdir
  | isdir
  | inumber
  | fibonacci
  | sumOfFourIntegers
  deriving DecidableEq, Repr

/-- `sys_handler_`. -/
def sysHandler : List Handler :=
  [.halt, .exit, .exec, .wait, .create, .remove, .open, .filesize, .read, .write, .seek, .tell, .close,
    .mmap, .mummap, .chdir, .mkdir, .readdir, .isdir, .inumber, .fibonacci, .sumOfFourIntegers]

/-- `sys_argv_num`. -/
def sysArgvNum : List ℕ := [0, 1, 1, 1, 2, 1, 1, 1, 3, 3, 2, 1, 1, 2, 1, 1, 1, 2, 1, 1, 1, 4]

/-- How many elements of `argv` the handler uses; those of the unimplemented calls do nothing, and
    neither they nor `sys_halt` call `get_argv`. -/
def Handler.uses : Handler → ℕ
  | .halt | .mmap | .mummap | .chdir | .mkdir | .readdir | .isdir | .inumber => 0
  | .exit | .exec | .wait | .remove | .open | .filesize | .tell | .close | .fibonacci => 1
  | .create | .seek => 2
  | .read | .write => 3
  | .sumOfFourIntegers => 4

/-! ## 2. The entry -/

/-- The word that starts at `a`, on any byte. -/
def wordAt (mem : Word → UInt8) (a : Word) : Word :=
  (mem (a + 3#32)).toBitVec ++ (mem (a + 2#32)).toBitVec ++ (mem (a + 1#32)).toBitVec ++ (mem a).toBitVec

/-- `(uint32_t *) intr->esp + (1 + i)`. -/
def argAddr (esp : Word) (i : ℕ) : Word := esp + BitVec.ofNat 32 (4 * (1 + i))

inductive Dispatch where
  /-- `terminate_process`, with the status it stores. -/
  | terminated (status : Int)
  /-- `sys_handler_` is indexed with `n`, outside the table. -/
  | outside (n : Word)
  | enters (h : Handler) (argv : List Word)
  deriving DecidableEq, Repr

structure Entry where
  /-- The addresses of the words that are read. -/
  reads : List Word
  result : Dispatch
  deriving DecidableEq, Repr

/-- The loop of `get_argv` from argument `i` on, with `left` arguments to go: the words read, and the
    arguments if no check fails. The bound of the loop is read from the stack again in each round,
    which changes nothing. -/
def getArgv (pd : PageDir) (mem : Word → UInt8) (esp : Word) (i : ℕ) :
    ℕ → List Word × Option (List Word)
  | 0 => ([], some [])
  | left + 1 =>
    if pd.checkAddress (argAddr esp i) then
      let rest := getArgv pd mem esp (i + 1) left
      (argAddr esp i :: rest.1, rest.2.map (wordAt mem (argAddr esp i) :: ·))
    else ([], none)

/-- How many arguments `get_argv` reads for call `n`, if the handler calls it. -/
def argCount (n : ℕ) (h : Handler) : ℕ := if h.uses = 0 then 0 else sysArgvNum.getD n 0

/-- `terminate_process`. -/
def terminateProcess : Dispatch := .terminated (-1)

/-- `syscall_handler`, up to where the handler has its arguments. -/
def syscallHandler (pd : PageDir) (mem : Word → UInt8) (esp : Word) : Entry :=
  if pd.checkAddress esp then
    match sysHandler[(wordAt mem esp).toNat]? with
    | none => ⟨[esp], .outside (wordAt mem esp)⟩
    | some h =>
      let r := getArgv pd mem esp 0 (argCount (wordAt mem esp).toNat h)
      match r.2 with
      | some argv => ⟨esp :: r.1, .enters h argv⟩
      | none => ⟨esp :: r.1, terminateProcess⟩
  else ⟨[], terminateProcess⟩

/-! ## 3. Safe dispatch -/

/-- All four bytes of the word are user memory. -/
def PageDir.UserWord (pd : PageDir) (a : Word) : Prop := ∀ i, i < 4 → pd.UserByte (a.toNat + i)

/-- The call has its number and the arguments it reads on present user pages, and the number is in the
    tables. -/
def WellPlaced (pd : PageDir) (mem : Word → UInt8) (esp : Word) : Prop :=
  pd.UserWord esp ∧ ∃ h ∈ sysHandler[(wordAt mem esp).toNat]?,
    ∀ i, i < argCount (wordAt mem esp).toNat h → pd.UserWord (argAddr esp i)

/-- **What the entry should do.** -/
structure Dispatches (pd : PageDir) (mem : Word → UInt8) (esp : Word) (e : Entry) : Prop where
  /-- It reads only words that lie on present user pages. -/
  reads : ∀ a ∈ e.reads, pd.UserWord a
  /-- It indexes the tables only with a number below 22. -/
  inside : ∀ n, e.result ≠ .outside n
  /-- Otherwise it terminates the process with status -1. -/
  otherwise : ¬WellPlaced pd mem esp → e.result = .terminated (-1)

section Argv

variable (pd : PageDir) (mem : Word → UInt8) (esp : Word)

/-- The argument words that are read, up to the first failing check. -/
theorem getArgv_reads (i left : ℕ) : (∀ a ∈ (getArgv pd mem esp i left).1, pd.UserWord a) ↔
    ∀ k, k < left → (∀ j, j ≤ k → pd.Sampled (argAddr esp (i + j))) →
      pd.UserWord (argAddr esp (i + k)) := by
  induction left generalizing i with
  | zero => simp [getArgv]
  | succ left ih =>
    by_cases hs : pd.checkAddress (argAddr esp i) = true
    · have hsample := (pd.checkAddress_iff _).mp hs
      simp only [getArgv, if_pos hs, List.mem_cons, forall_eq_or_imp, ih]
      constructor
      · intro ⟨hhere, hrest⟩ k hk hall
        cases k with
        | zero => exact hhere
        | succ k =>
          have := hrest k (by omega) fun j hj => ?_
          · rwa [Nat.add_right_comm, Nat.add_assoc] at this
          · have hj' := hall (j + 1) (by omega)
            rwa [← Nat.add_assoc, Nat.add_right_comm] at hj'
      · intro h
        refine ⟨h 0 (Nat.succ_pos _) fun j hj => ?_, fun k hk hall => ?_⟩
        · rw [Nat.le_zero.mp hj]
          exact hsample
        · have := h (k + 1) (by omega) fun j hj => ?_
          · rwa [← Nat.add_assoc, Nat.add_right_comm] at this
          · cases j with
            | zero => exact hsample
            | succ j =>
              have hj' := hall j (by omega)
              rwa [Nat.add_right_comm, Nat.add_assoc] at hj'
    · simp only [getArgv, if_neg hs, List.not_mem_nil, false_imp_iff, implies_true, true_iff]
      intro k _ hall
      exact absurd ((pd.checkAddress_iff _).mpr (hall 0 (Nat.zero_le k))) hs

/-- Without arguments to show, `get_argv` has terminated the process at an address that fails the
    check. -/
theorem getArgv_stops (i left : ℕ) : (getArgv pd mem esp i left).2 = none ↔
    ∃ k, k < left ∧ ¬pd.Sampled (argAddr esp (i + k)) := by
  induction left generalizing i with
  | zero => simp [getArgv]
  | succ left ih =>
    by_cases hs : pd.checkAddress (argAddr esp i) = true
    · have hsample := (pd.checkAddress_iff _).mp hs
      simp only [getArgv, if_pos hs, Option.map_eq_none_iff, ih]
      constructor
      · intro ⟨k, hk, hbad⟩
        refine ⟨k + 1, by omega, ?_⟩
        rwa [← Nat.add_assoc, Nat.add_right_comm]
      · intro ⟨k, hk, hbad⟩
        cases k with
        | zero => exact absurd hsample hbad
        | succ k =>
          refine ⟨k, by omega, ?_⟩
          rwa [Nat.add_right_comm, Nat.add_assoc]
    · simp only [getArgv, if_neg hs, true_iff]
      exact ⟨0, Nat.succ_pos _, fun h => hs ((pd.checkAddress_iff _).mpr h)⟩

end Argv

/-- **When dispatch is safe**: for every stack pointer and every content of user memory, exactly when
    the stack pointer fails the check, or the number lies on present user pages, is below 22, and each
    argument that comes before the first failing check lies on present user pages. -/
theorem dispatch_safe_iff (pd : PageDir) (mem : Word → UInt8) (esp : Word) :
    Dispatches pd mem esp (syscallHandler pd mem esp) ↔
      ¬pd.Sampled esp ∨ (pd.UserWord esp ∧ ∃ h ∈ sysHandler[(wordAt mem esp).toNat]?,
        ∀ i, i < argCount (wordAt mem esp).toNat h →
          (∀ j, j ≤ i → pd.Sampled (argAddr esp j)) → pd.UserWord (argAddr esp i)) := by
  unfold syscallHandler
  by_cases hs : pd.checkAddress esp = true
  · rw [if_pos hs]
    have hsample := (pd.checkAddress_iff _).mp hs
    cases hn : sysHandler[(wordAt mem esp).toNat]? with
    | none =>
      constructor
      · intro hd
        exact absurd rfl (hd.inside (wordAt mem esp))
      · intro hor
        rcases hor with hor | ⟨_, h, hh, _⟩
        · exact absurd hsample hor
        · cases hh
    | some h =>
      have hreads := getArgv_reads pd mem esp 0 (argCount (wordAt mem esp).toNat h)
      have hstops := getArgv_stops pd mem esp 0 (argCount (wordAt mem esp).toNat h)
      simp only [Nat.zero_add] at hreads hstops
      dsimp only
      generalize getArgv pd mem esp 0 (argCount (wordAt mem esp).toNat h) = r at hreads hstops ⊢
      have hall : (∀ a ∈ esp :: r.1, pd.UserWord a) ↔ pd.UserWord esp ∧
          ∀ i, i < argCount (wordAt mem esp).toNat h →
            (∀ j, j ≤ i → pd.Sampled (argAddr esp j)) → pd.UserWord (argAddr esp i) := by
        rw [← hreads]
        simp only [List.mem_cons, forall_eq_or_imp]
      constructor
      · intro hd
        have hwords := hall.mp (by cases h2 : r.2 <;> rw [h2] at hd <;> exact hd.reads)
        exact .inr ⟨hwords.1, h, rfl, hwords.2⟩
      · intro hor
        rcases hor with hor | ⟨hword, h', hh', hargs⟩
        · exact absurd hsample hor
        · cases hh'
          have hgood := hall.mpr ⟨hword, hargs⟩
          cases h2 : r.2 with
          | none => exact ⟨hgood, fun _ => nofun, fun _ => rfl⟩
          | some argv =>
            refine ⟨hgood, fun _ => nofun, fun hbad => absurd ⟨hword, h, hn, fun i hi => ?_⟩ hbad⟩
            refine hargs i hi fun j hj => ?_
            by_contra hno
            cases h2.symm.trans (hstops.mpr ⟨j, by omega, hno⟩)
  · rw [if_neg hs]
    have hno : ¬pd.Sampled esp := fun h => hs ((pd.checkAddress_iff _).mpr h)
    exact ⟨fun _ => .inl hno, fun _ => ⟨nofun, fun _ => nofun, fun _ => rfl⟩⟩

/-- A stack with the word 22 at `0xbffffff0`. -/
def numberOnStack (a : Word) : UInt8 := if a = 0xbffffff0#32 then 22 else 0

/-- **An unknown number**: with the stack pointer at the word 22 the kernel calls what stands behind
    the end of `sys_handler_`. -/
theorem dispatch_unknown_number : ¬Dispatches stackOnly numberOnStack 0xbffffff0#32
    (syscallHandler stackOnly numberOnStack 0xbffffff0#32) := by
  have hrun : (syscallHandler stackOnly numberOnStack 0xbffffff0#32).result = .outside 22#32 := by
    decide
  exact fun hd => hd.inside 22#32 hrun

end Pintos
