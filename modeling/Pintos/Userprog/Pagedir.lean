/-
  Subject:   Virtual addresses and page directories, as far as they are read (`vaddr.h`, `pte.h`,
             `pagedir.c`).

  * An address or a table entry is a 32-bit word. A directory is its 1024 entries and, behind each
    entry that is not 0, the entries of a page table.
  * Only `pde_create` and the kernel's own mappings store directory entries, so an entry that is not 0
    has `PTE_P` set. That is a field of the structure; it is what `pde_get_pt` asserts.
  * `pagedir_is_mapped` asks for a page table, `pagedir_get_page` also for the present bit of the
    entry in it.
-/
import Mathlib.Tactic.Linarith

namespace Pintos

/-- A 32-bit word: an address, a page table entry, an argument of a system call. -/
abbrev Word := BitVec 32

/-! ## 1. Addresses -/

/-- `PHYS_BASE`. -/
def physBase : Word := 0xc0000000#32

/-- `is_user_vaddr`. -/
def isUserVaddr (va : Word) : Bool := decide (va < physBase)

/-- `is_kernel_vaddr`. -/
def isKernelVaddr (va : Word) : Bool := decide (physBase ≤ va)

/-- `pg_ofs`. -/
def pgOfs (va : Word) : Word := va &&& 0xfff#32

/-- `pt_no`. -/
def ptNo (va : Word) : Word := (va &&& 0x3ff000#32) >>> 12

/-- `pd_no`. -/
def pdNo (va : Word) : Word := va >>> 22

/-- `PTE_P`. -/
def pteP : Word := 1#32

/-- `PTE_ADDR`. -/
def pteAddr : Word := 0xfffff000#32

/-- `ptov`. -/
def ptov (paddr : Word) : Word := paddr + physBase

/-- `pte_get_page`. -/
def pteGetPage (pte : Word) : Word := ptov (pte &&& pteAddr)

/-! ## 2. Page directories -/

structure PageDir where
  /-- The entry for a directory index. -/
  pde : Word → Word
  /-- The entry for a table index in the page table behind a directory entry. -/
  pte : Word → Word → Word
  present : ∀ i, pde i ≠ 0#32 → pde i &&& pteP ≠ 0#32

namespace PageDir

variable (pd : PageDir)

/-- `lookup_page` with `create` false: the indexes of the entry for `va`, if there is a page
    table. -/
def lookupPage (va : Word) : Option (Word × Word) :=
  if pd.pde (pdNo va) = 0#32 then none else some (pdNo va, ptNo va)

/-- `pagedir_is_mapped`. -/
def pagedirIsMapped (va : Word) : Bool := (pd.lookupPage va).isSome

/-- `pagedir_get_page`. -/
def pagedirGetPage (va : Word) : Option Word :=
  match pd.lookupPage va with
  | some (i, j) =>
    if pd.pte i j &&& pteP ≠ 0#32 then some (pteGetPage (pd.pte i j) + pgOfs va) else none
  | none => none

theorem isMapped_iff (va : Word) : pd.pagedirIsMapped va = true ↔ pd.pde (pdNo va) ≠ 0#32 := by
  unfold pagedirIsMapped lookupPage
  split <;> simp_all

theorem isMapped_of_getPage {va : Word} (h : (pd.pagedirGetPage va).isSome = true) :
    pd.pagedirIsMapped va = true := by
  unfold pagedirGetPage at h
  unfold pagedirIsMapped
  cases hl : pd.lookupPage va with
  | none =>
    rw [hl] at h
    cases h
  | some x => rfl

/-- **A byte of a user page**: below `PHYS_BASE`, on a page whose table entry is present. The address
    is a number, so that the end of a range does not wrap around. -/
def UserByte (a : ℕ) : Prop :=
  a < physBase.toNat ∧ (pd.pagedirGetPage (BitVec.ofNat 32 a)).isSome = true

instance (a : ℕ) : Decidable (pd.UserByte a) := inferInstanceAs (Decidable (_ ∧ _))

end PageDir

end Pintos
