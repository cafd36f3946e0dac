/-
  Subject:   How the system calls that take a pointer validate it: `check_address` and its callers.

  A handler is the list of what it does to user memory, in order (`UStep`): it checks an address or
  accesses a byte. A check that fails runs `terminate_process`, and nothing after it happens
  (`PageDir.run`).

  **`validation_exact_iff`**: a call treats its memory as it should exactly if the bytes it may access and
  the one or two addresses it checks agree about being user memory.
-/
import Pintos.Userprog.Pagedir

namespace Pintos

/-! ## 1. The check -/

/-- `check_address` returns, instead of terminating the process. -/
def PageDir.checkAddress (pd : PageDir) (a : Word) : Bool :=
  !(isKernelVaddr a || !pd.pagedirIsMapped a || a == 0#32)

/-- What the check is about: the address is a user address other than null, and its directory entry is
    not 0. -/
def PageDir.Sampled (pd : PageDir) (a : Word) : Prop :=
  a ≠ 0#32 ∧ a < physBase ∧ pd.pde (pdNo a) ≠ 0#32

theorem PageDir.checkAddress_iff (pd : PageDir) (a : Word) :
    pd.checkAddress a = true ↔ pd.Sampled a := by
  have hmap := pd.isMapped_iff a
  simp only [checkAddress, Sampled, isKernelVaddr, Bool.not_eq_true', Bool.or_eq_false_iff,
    decide_eq_false_iff_not, Bool.not_eq_false', beq_eq_false_iff_ne, BitVec.not_le, hmap]
  tauto

/-- A byte of a user page passes the check, unless it is at address 0. -/
theorem PageDir.UserByte.sampled {pd : PageDir} {a : Word} (h : pd.UserByte a.toNat)
    (h0 : a ≠ 0#32) : pd.Sampled a := by
  obtain ⟨hlt, hpage⟩ := h
  rw [BitVec.ofNat_toNat, BitVec.setWidth_eq] at hpage
  exact ⟨h0, BitVec.lt_def.mpr hlt, (pd.isMapped_iff a).mp (pd.isMapped_of_getPage hpage)⟩

/-! ## 2. What a handler does to user memory -/

inductive UStep where
  | check (a : Word)
  /-- `if (file_name == NULL) terminate_process ();` -/
  | nonNull (a : Word)
  | access (a : Word)
  deriving DecidableEq, Repr

/-- The accesses that were made, and whether the process was terminated. -/
structure URun where
  accessed : List Word
  terminated : Bool
  deriving DecidableEq, Repr

def PageDir.run (pd : PageDir) : List UStep → URun
  | [] => ⟨[], false⟩
  | .check a :: rest => if pd.checkAddress a then pd.run rest else ⟨[], true⟩
  | .nonNull a :: rest => if a = 0#32 then ⟨[], true⟩ else pd.run rest
  | .access a :: rest => ⟨a :: (pd.run rest).accessed, (pd.run rest).terminated⟩

/-- `n` bytes from `p` are copied. -/
def copyBytes (p : Word) : ℕ → List UStep
  | 0 => []
  | n + 1 => .access p :: copyBytes (p + 1#32) n

/-- The loop of `sys_read` for the keyboard: store a byte, advance, check. -/
def readKeys (p : Word) : ℕ → List UStep
  | 0 => []
  | n + 1 => .access p :: .check (p + 1#32) :: readKeys (p + 1#32) n

/-- The string at `p` is read, up to its terminating null or up to where the file system code
    stops, after at most `n` bytes. -/
def readName (mem : Word → UInt8) (p : Word) : ℕ → List UStep
  | 0 => []
  | n + 1 => .access p :: if mem p = 0 then [] else readName mem (p + 1#32) n

/-- The system calls with a pointer argument. `cur` is the process's highest descriptor; `copied` is
    the number of bytes that `file_read` or `file_write` transfers, at most `size`, and `seen` the
    number of bytes of a name that are read. -/
inductive UserCall where
  | read (cur fd : Int) (buf size : Word) (copied : ℕ)
  | write (cur fd : Int) (buf size : Word) (copied : ℕ)
  | create (name : Word) (seen : ℕ)
  | remove (name : Word) (seen : ℕ)
  | open (name : Word) (seen : ℕ)
  | exec (name : Word) (seen : ℕ)

/-- What `sys_read` does to the buffer. -/
def readTransfer (cur fd : Int) (buf size : Word) (copied : ℕ) : List UStep :=
  if fd = 0 then readKeys buf size.toNat
  else if fd ≤ cur ∧ 1 < fd then copyBytes buf (min copied size.toNat)
  else []

/-- `sys_read`, from its first `check_address` on. -/
def sysReadSteps (cur fd : Int) (buf size : Word) (copied : ℕ) : List UStep :=
  .check buf :: .check (buf + size) :: readTransfer cur fd buf size copied

/-- What `sys_write` does to the buffer; `putbuf` reads all of it. -/
def writeTransfer (cur fd : Int) (buf size : Word) (copied : ℕ) : List UStep :=
  if fd = 1 then copyBytes buf size.toNat
  else if fd ≤ cur ∧ 1 < fd then copyBytes buf (min copied size.toNat)
  else []

/-- `sys_write`. -/
def sysWriteSteps (cur fd : Int) (buf size : Word) (copied : ℕ) : List UStep :=
  .check buf :: .check (buf + size) :: writeTransfer cur fd buf size copied

variable (mem : Word → UInt8)

/-- `sys_create` and `sys_open` test for null after the check. -/
def sysCreateSteps (name : Word) (seen : ℕ) : List UStep :=
  .check name :: .nonNull name :: readName mem name seen

def sysOpenSteps (name : Word) (seen : ℕ) : List UStep :=
  .check name :: .nonNull name :: readName mem name seen

def sysRemoveSteps (name : Word) (seen : ℕ) : List UStep :=
  .check name :: if name ≠ 0#32 then readName mem name seen else []

def sysExecSteps (name : Word) (seen : ℕ) : List UStep :=
  .check name :: readName mem name seen

def UserCall.steps : UserCall → List UStep
  | .read cur fd buf size copied => sysReadSteps cur fd buf size copied
  | .write cur fd buf size copied => sysWriteSteps cur fd buf size copied
  | .create name seen => sysCreateSteps mem name seen
  | .remove name seen => sysRemoveSteps mem name seen
  | .open name seen => sysOpenSteps mem name seen
  | .exec name seen => sysExecSteps mem name seen

/-! ## 3. Exact validation -/

/-- **Every byte the call may access is user memory**: the bytes of the buffer, or those of the string
    through its terminating null. -/
def UserCall.Good (pd : PageDir) (mem : Word → UInt8) : UserCall → Prop
  | .read _ _ buf size _ | .write _ _ buf size _ =>
    ∀ i, i < size.toNat → pd.UserByte (buf.toNat + i)
  | .create name _ | .remove name _ | .open name _ | .exec name _ =>
    ∀ i, (∀ j, j < i → mem (name + BitVec.ofNat 32 j) ≠ 0) → pd.UserByte (name.toNat + i)

/-- The addresses that the call checks before its first access. -/
def UserCall.samples : UserCall → List Word
  | .read _ _ buf size _ | .write _ _ buf size _ => [buf, buf + size]
  | .create name _ | .remove name _ | .open name _ | .exec name _ => [name]

/-- **Exact validation**: with good memory the call is not terminated, otherwise it is, before any
    access. -/
structure Exact (good : Prop) (r : URun) : Prop where
  accepts : good → r.terminated = false
  rejects : ¬good → r.terminated = true ∧ r.accessed = []

/-- What a handler does after its checks. -/
structure Body (pd : PageDir) (good : Prop) (body : List UStep) : Prop where
  /-- With good memory it is not terminated. -/
  accepts : good → (pd.run body).terminated = false
  /-- If it is terminated, then after an access. -/
  late : (pd.run body).terminated = true → (pd.run body).accessed ≠ []

section Exact

variable {pd : PageDir} {good : Prop}

theorem copyBytes_run (p : Word) (n : ℕ) : (pd.run (copyBytes p n)).terminated = false := by
  induction n generalizing p with
  | zero => rfl
  | succ n ih => exact ih (p + 1#32)

theorem readName_run (p : Word) (n : ℕ) : (pd.run (readName mem p n)).terminated = false := by
  induction n generalizing p with
  | zero => rfl
  | succ n ih =>
    show (pd.run (if mem p = 0 then [] else readName mem (p + 1#32) n)).terminated = false
    split
    · rfl
    · exact ih (p + 1#32)

variable {body : List UStep} {samples : List Word}

theorem Body.of_not_terminated (h : (pd.run body).terminated = false) : Body pd good body := by
  refine ⟨fun _ => h, fun ht => ?_⟩
  rw [h] at ht
  cases ht

theorem toNat_succ {p : Word} (h : p.toNat < physBase.toNat) : (p + 1#32).toNat = p.toNat + 1 := by
  rw [BitVec.toNat_add, BitVec.toNat_ofNat]
  omega

/-- The loop over the keyboard: the byte after each one stored is a user byte or the end of the
    buffer. -/
theorem readKeys_run (p : Word) (n : ℕ) (hgood : ∀ i, i < n → pd.UserByte (p.toNat + i))
    (hend : pd.Sampled (p + BitVec.ofNat 32 n)) : (pd.run (readKeys p n)).terminated = false := by
  induction n generalizing p with
  | zero => rfl
  | succ n ih =>
    have hp : p.toNat < physBase.toNat := (hgood 0 (Nat.succ_pos n)).1
    have hsucc := toNat_succ hp
    have hend' : pd.Sampled (p + 1#32 + BitVec.ofNat 32 n) := by
      have he : p + 1#32 + BitVec.ofNat 32 n = p + BitVec.ofNat 32 (n + 1) := by
        rw [BitVec.add_assoc, ← BitVec.ofNat_add, Nat.add_comm 1 n]
      rw [he]
      exact hend
    have hcheck : pd.Sampled (p + 1#32) := by
      cases n with
      | zero =>
        rw [BitVec.add_zero] at hend'
        exact hend'
      | succ n =>
        have hbyte := hgood 1 (by omega)
        rw [← hsucc] at hbyte
        refine hbyte.sampled fun h0 => ?_
        rw [h0] at hsucc
        exact absurd hsucc (by simp)
    show (pd.run (.check (p + 1#32) :: readKeys (p + 1#32) n)).terminated = false
    rw [PageDir.run, if_pos ((pd.checkAddress_iff _).mpr hcheck)]
    refine ih (p + 1#32) (fun i hi => ?_) hend'
    rw [hsucc, Nat.add_assoc, Nat.add_comm 1 i]
    exact hgood (i + 1) (by omega)

theorem readKeys_late (p : Word) (n : ℕ) (h : (pd.run (readKeys p n)).terminated = true) :
    (pd.run (readKeys p n)).accessed ≠ [] := by
  cases n with
  | zero => cases h
  | succ n => exact nofun

theorem run_checks (body : List UStep) (h : ∀ a ∈ samples, pd.Sampled a) :
    pd.run (samples.map .check ++ body) = pd.run body := by
  induction samples with
  | nil => rfl
  | cons a rest ih =>
    rw [List.map_cons, List.cons_append, PageDir.run,
      if_pos ((pd.checkAddress_iff a).mpr (h a List.mem_cons_self))]
    exact ih fun b hb => h b (List.mem_cons_of_mem a hb)

theorem run_checks_fail (body : List UStep) (h : ¬∀ a ∈ samples, pd.Sampled a) :
    pd.run (samples.map .check ++ body) = ⟨[], true⟩ := by
  induction samples with
  | nil => exact absurd (fun a ha => nomatch ha) h
  | cons a rest ih =>
    rw [List.map_cons, List.cons_append, PageDir.run]
    split
    · rename_i ha
      refine ih fun hrest => h fun b hb => ?_
      rcases List.mem_cons.mp hb with rfl | hb
      · exact (pd.checkAddress_iff b).mp ha
      · exact hrest b hb
    · rfl

/-- The checks come first: whether the call is exact depends on them alone. -/
theorem exact_of_checks (hb : (∀ a ∈ samples, pd.Sampled a) → Body pd good body) :
    Exact good (pd.run (samples.map .check ++ body)) ↔ (good ↔ ∀ a ∈ samples, pd.Sampled a) := by
  by_cases hs : ∀ a ∈ samples, pd.Sampled a
  · rw [run_checks body hs]
    have hbody := hb hs
    constructor
    · intro hx
      refine ⟨fun _ => hs, fun _ => ?_⟩
      by_contra hbad
      obtain ⟨h1, h2⟩ := hx.rejects hbad
      exact hbody.late h1 h2
    · intro hiff
      exact ⟨hbody.accepts, fun hbad => absurd (hiff.mpr hs) hbad⟩
  · rw [run_checks_fail body hs]
    constructor
    · intro hx
      refine ⟨fun hgood => ?_, fun h => absurd h hs⟩
      cases hx.accepts hgood
    · intro hiff
      exact ⟨fun hgood => absurd (hiff.mp hgood) hs, fun _ => ⟨rfl, rfl⟩⟩

end Exact

/-- **When validation is exact**: for every page directory, every content of user memory and every
    call, exactly when the bytes it may access are all user memory if and only if each of the one or
    two addresses it checks is a user address other than null with a page table. -/
theorem validation_exact_iff (pd : PageDir) (mem : Word → UInt8) (call : UserCall) :
    Exact (call.Good pd mem) (pd.run (call.steps mem)) ↔
      (call.Good pd mem ↔ ∀ a ∈ call.samples, pd.Sampled a) := by
  cases call with
  | read cur fd buf size copied =>
    show Exact _ (pd.run ([buf, buf + size].map .check ++ readTransfer cur fd buf size copied)) ↔ _
    refine exact_of_checks fun hs => ?_
    unfold readTransfer
    split
    · refine ⟨fun hgood => ?_, readKeys_late buf size.toNat⟩
      refine readKeys_run buf size.toNat hgood ?_
      rw [BitVec.ofNat_toNat, BitVec.setWidth_eq]
      exact hs (buf + size) (by simp)
    · split
      · exact .of_not_terminated (copyBytes_run buf _)
      · exact .of_not_terminated rfl
  | write cur fd buf size copied =>
    show Exact _ (pd.run ([buf, buf + size].map .check ++ writeTransfer cur fd buf size copied)) ↔ _
    refine exact_of_checks fun _ => .of_not_terminated ?_
    unfold writeTransfer
    split
    · exact copyBytes_run buf _
    · split
      · exact copyBytes_run buf _
      · rfl
  | create name seen | «open» name seen =>
    show Exact _ (pd.run ([name].map .check ++ .nonNull name :: readName mem name seen)) ↔ _
    refine exact_of_checks fun hs => .of_not_terminated ?_
    -- the check has refused null already
    rw [PageDir.run, if_neg (hs name (by simp)).1]
    exact readName_run mem name seen
  | remove name seen =>
    show Exact _ (pd.run ([name].map .check ++
      if name ≠ 0#32 then readName mem name seen else [])) ↔ _
    refine exact_of_checks fun _ => .of_not_terminated ?_
    split
    · exact readName_run mem name seen
    · rfl
  | exec name seen =>
    show Exact _ (pd.run ([name].map .check ++ readName mem name seen)) ↔ _
    exact exact_of_checks fun _ => .of_not_terminated (readName_run mem name seen)

/-- A process whose only page is the top page of the stack. -/
def stackOnly : PageDir where
  pde i := if i = 767#32 then 7#32 else 0#32
  pte _ j := if j = 1023#32 then 7#32 else 0#32
  present := by
    intro i hi
    split at hi
    · simp [*, pteP]
    · exact absurd rfl hi

/-- **Two ways to fail**: the last 16 bytes below `PHYS_BASE` are user memory and are refused; 16 bytes
    of the page below are not and are accepted. -/
theorem validation_misses :
    ¬Exact ((UserCall.write 1 1 0xbffffff0#32 16#32 0).Good stackOnly fun _ => 0)
      (stackOnly.run ((UserCall.write 1 1 0xbffffff0#32 16#32 0).steps fun _ => 0)) ∧
    ¬Exact ((UserCall.write 1 1 0xbfffe000#32 16#32 0).Good stackOnly fun _ => 0)
      (stackOnly.run ((UserCall.write 1 1 0xbfffe000#32 16#32 0).steps fun _ => 0)) := by
  constructor
  · intro hx
    have hgood : ∀ i, i < 16 → stackOnly.UserByte (0xbffffff0 + i) := by decide
    have hrun : (stackOnly.run (sysWriteSteps 1 1 0xbffffff0#32 16#32 0)).terminated = true := by
      decide
    cases hrun.symm.trans (hx.accepts hgood)
  · intro hx
    have hbad : ¬∀ i, i < 16 → stackOnly.UserByte (0xbfffe000 + i) := by decide
    have hrun : (stackOnly.run (sysWriteSteps 1 1 0xbfffe000#32 16#32 0)).terminated = false := by
      decide
    cases hrun.symm.trans (hx.rejects hbad).1

end Pintos
