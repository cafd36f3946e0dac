/-
  Subject:   The page directory as the two levels of tables in memory, and the map it stands for
             (`pagedir.c`, `pte.h`, `install_page` in `process.c`).

  * Memory is the words of the kernel's pages. A directory is a page of 1024 entries, an entry that
    is not 0 holds the physical address of a page table, and the table's entries hold the frames.
  * `entry` reads through both levels; where there is no table it is 0. Creating a table changes no
    `entry`, because the new table is zeroed. Storing through `lookup_page` changes one `entry`,
    because no two directory entries share a table.
  * The pages that `palloc_get_page` hands out belong to nobody: they are neither the directory nor
    a page table in use. That is the only assumption about the allocator.
  * `pagedir_destroy` calls `palloc_free_page` once for every present entry. A frame that stands in
    two entries is handed over twice, so that each mapped page is freed exactly once needs frames
    that no two user pages share.
-/
import Mathlib.Data.List.Nodup
import Mathlib.Data.List.Range
import Mathlib.Tactic.IntervalCases
import Pintos.Lib.Run
import Pintos.Userprog.Pagedir

namespace Pintos

open Lib List

/-! ## 1. Entries -/

/-- `pg_round_down`. -/
def pgRoundDown (va : Word) : Word := va &&& ~~~0xfff#32

/-- `vtop`. -/
def vtop (vaddr : Word) : Word := vaddr - physBase

/-- `PTE_W`. -/
def pteW : Word := 0x2#32

/-- `PTE_U`. -/
def pteU : Word := 0x4#32

/-- `PTE_A`. -/
def pteA : Word := 0x20#32

/-- `PTE_D`. -/
def pteD : Word := 0x40#32

/-- `pde_create`. -/
def pdeCreate (pt : Word) : Word := vtop pt ||| pteU ||| pteP ||| pteW

/-- `pde_get_pt`. -/
def pdeGetPt (pde : Word) : Word := ptov (pde &&& pteAddr)

/-- `pte_create_kernel`. -/
def pteCreateKernel (page : Word) (writable : Bool) : Word :=
  vtop page ||| pteP ||| (if writable then pteW else 0#32)

/-- `pte_create_user`. -/
def pteCreateUser (page : Word) (writable : Bool) : Word := pteCreateKernel page writable ||| pteU

/-- **A frame**: a page-aligned kernel address of one of the `ram` pages of physical memory. -/
def IsFrame (ram : ℕ) (page : Word) : Prop :=
  pgOfs page = 0#32 ∧ physBase ≤ page ∧ (vtop page >>> 12).toNat < ram

instance (ram : ℕ) (page : Word) : Decidable (IsFrame ram page) :=
  inferInstanceAs (Decidable (_ ∧ _ ∧ _))

/-- The frame of an entry, if its present bit is set. -/
def frameOf (e : Word) : Option Word := if e &&& pteP ≠ 0#32 then some (pteGetPage e) else none

variable {e e' f k kpage m p page q u upage v va vpage x : Word} {i' j ram : ℕ}
  {alloc : Option Word}

section Bits

open BitVec

/-- A mask that misses the changed bits reads the same. -/
theorem or_and_mask (h : f &&& m = 0#32) : (e ||| f) &&& m = e &&& m := by
  rw [BitVec.and_comm, and_or_distrib_left, BitVec.and_comm m f, h, or_zero,
    BitVec.and_comm]

theorem andNot_and_mask (h : f &&& m = 0#32) : (e &&& ~~~f) &&& m = e &&& m := by
  have hc : ~~~f &&& m = m := by
    calc ~~~f &&& m = (f &&& m) ||| (~~~f &&& m) := by rw [h, zero_or]
      _ = m := by rw [← and_or_distrib_right, or_not_self, allOnes_and]
  rw [BitVec.and_assoc, hc]

theorem and_pteAddr_of_pgOfs (h : pgOfs x = 0#32) : x &&& pteAddr = x := by
  have hall : pteAddr ||| 0xfff#32 = BitVec.allOnes 32 := by decide
  unfold pgOfs at h
  calc x &&& pteAddr = (x &&& pteAddr) ||| (x &&& 0xfff#32) := by rw [h, or_zero]
    _ = x &&& (pteAddr ||| 0xfff#32) := and_or_distrib_left.symm
    _ = x := by rw [hall, and_allOnes]

theorem pgOfs_toNat (va : Word) : (pgOfs va).toNat = va.toNat % 4096 := by
  unfold pgOfs
  rw [toNat_and]
  exact Nat.and_two_pow_sub_one_eq_mod va.toNat 12

theorem pdNo_toNat (va : Word) : (pdNo va).toNat = va.toNat / 4194304 := by
  unfold pdNo
  rw [toNat_ushiftRight, Nat.shiftRight_eq_div_pow]

theorem ptNo_toNat (va : Word) : (ptNo va).toNat = va.toNat / 4096 % 1024 := by
  unfold ptNo
  rw [toNat_ushiftRight, toNat_and, Nat.shiftRight_and_distrib,
    Nat.shiftRight_eq_div_pow]
  exact Nat.and_two_pow_sub_one_eq_mod (va.toNat / 2 ^ 12) 10

theorem pgRoundDown_eq (va : Word) : pgRoundDown va = (va >>> 12) <<< 12 := by
  unfold pgRoundDown
  apply eq_of_getLsbD_eq
  intro i hi
  interval_cases i <;> simp

theorem pgRoundDown_toNat (va : Word) : (pgRoundDown va).toNat = va.toNat / 4096 * 4096 := by
  rw [pgRoundDown_eq, toNat_shiftLeft, toNat_ushiftRight, Nat.shiftRight_eq_div_pow,
    Nat.shiftLeft_eq]
  have := va.isLt
  omega

theorem pdNo_lt (va : Word) : (pdNo va).toNat < 1024 := by
  have := va.isLt
  rw [pdNo_toNat]
  omega

theorem pdNo_user (h : isUserVaddr va = true) : (pdNo va).toNat < 768 := by
  have hlt : va.toNat < 0xc0000000 := by simpa [isUserVaddr, physBase, lt_def] using h
  rw [pdNo_toNat]
  omega

theorem pdNo_kernel (h : physBase ≤ va) : 768 ≤ (pdNo va).toNat := by
  have hle : 0xc0000000 ≤ va.toNat := by simpa [physBase, le_def] using h
  rw [pdNo_toNat]
  omega

/-- **The split of an address is injective**: both indexes agree on two pages exactly if it is one
    page. -/
theorem sameIndexes_iff (hp : pgOfs upage = 0#32) :
    ((pdNo u).toNat = (pdNo upage).toNat ∧ (ptNo u).toNat = (ptNo upage).toNat) ↔
      upage = pgRoundDown u := by
  have hmod : upage.toNat % 4096 = 0 := by
    rw [← pgOfs_toNat, hp]
    rfl
  rw [pdNo_toNat, pdNo_toNat, ptNo_toNat, ptNo_toNat, ← toNat_inj, pgRoundDown_toNat]
  omega

theorem IsFrame.pgOfs_vtop (h : IsFrame ram k) : pgOfs (vtop k) = 0#32 := by
  have hmod : k.toNat % 4096 = 0 := by
    rw [← pgOfs_toNat, h.1]
    rfl
  have hle : physBase.toNat ≤ k.toNat := h.2.1
  apply eq_of_toNat_eq
  rw [pgOfs_toNat, vtop, toNat_sub_of_le h.2.1]
  have hb : physBase.toNat = 0xc0000000 := rfl
  rw [hb] at hle ⊢
  change (k.toNat - 0xc0000000) % 4096 = 0
  omega

theorem IsFrame.ptov_or (h : IsFrame ram k) (hf : f &&& pteAddr = 0#32) :
    ptov ((vtop k ||| f) &&& pteAddr) = k := by
  rw [or_and_mask hf, and_pteAddr_of_pgOfs h.pgOfs_vtop, ptov, vtop, sub_add_cancel]

theorem IsFrame.pdeGetPt_create {pt : Word} (h : IsFrame ram pt) :
    pdeGetPt (pdeCreate pt) = pt := by
  unfold pdeGetPt pdeCreate
  rw [BitVec.or_assoc, BitVec.or_assoc]
  exact h.ptov_or (by decide)

theorem pdeCreate_present (pt : Word) : pdeCreate pt &&& pteP ≠ 0#32 := by
  unfold pdeCreate
  rw [or_and_mask (f := pteW) (by decide), BitVec.and_comm, and_or_distrib_left,
    BitVec.and_self]
  intro h
  exact absurd (or_eq_zero_iff.mp h).2 (by decide)

theorem pdeCreate_ne_zero (pt : Word) : pdeCreate pt ≠ 0#32 := by
  intro h
  exact pdeCreate_present pt (by rw [h, zero_and])

theorem IsFrame.frameOf_create (h : IsFrame ram k) (w : Bool) :
    frameOf (pteCreateUser k w) = some k := by
  have hp : pteCreateUser k w &&& pteP ≠ 0#32 := by
    unfold pteCreateUser pteCreateKernel
    rw [or_and_mask (f := pteU) (by decide), or_and_mask (by cases w <;> decide),
      BitVec.and_comm, and_or_distrib_left, BitVec.and_self]
    intro h
    exact absurd (or_eq_zero_iff.mp h).2 (by decide)
  unfold frameOf
  rw [if_pos hp]
  unfold pteGetPage pteCreateUser pteCreateKernel
  rw [BitVec.or_assoc, BitVec.or_assoc, h.ptov_or (by cases w <;> decide)]

theorem frameOf_zero : frameOf 0#32 = none := by decide

theorem frameOf_clear (e : Word) : frameOf (e &&& ~~~pteP) = none := by
  have h : e &&& ~~~pteP &&& pteP = 0#32 := by
    rw [BitVec.and_assoc]
    exact and_zero
  unfold frameOf
  rw [if_neg (not_not.mpr h)]

/-- A bit outside the address and the present bit does not matter for the frame. -/
theorem frameOf_congr (hp : e' &&& pteP = e &&& pteP) (ha : e' &&& pteAddr = e &&& pteAddr) :
    frameOf e' = frameOf e := by
  unfold frameOf pteGetPage
  rw [hp, ha]

end Bits

/-! ## 2. The directory in memory -/

/-- The words of the kernel's pages, by page address and index, and the page of the directory. -/
structure DirMem where
  pd : Word
  mem : Word → ℕ → Word

/-- **What `paging_init` leaves**: physical memory of `ram` pages and the kernel's own directory,
    which maps nothing below `PHYS_BASE`. -/
structure KernelPages where
  ram : ℕ
  mem : Word → ℕ → Word
  initPageDir : Word
  user : ∀ i < 768, mem initPageDir i = 0#32
  kernel : ∀ i < 1024, mem initPageDir i ≠ 0#32 → mem initPageDir i &&& pteP ≠ 0#32

namespace DirMem

def write (s : DirMem) (page : Word) (j : ℕ) (v : Word) : DirMem :=
  { s with mem := fun q k => if q = page ∧ k = j then v else s.mem q k }

def fill (s : DirMem) (page v : Word) : DirMem :=
  { s with mem := fun q k => if q = page then v else s.mem q k }

theorem write_mem (s : DirMem) (page : Word) (j : ℕ) (v q : Word) (k : ℕ) :
    (s.write page j v).mem q k = if q = page ∧ k = j then v else s.mem q k := rfl

theorem fill_mem (s : DirMem) (page v q : Word) (k : ℕ) :
    (s.fill page v).mem q k = if q = page then v else s.mem q k := rfl

/-- A new page table: the page is zeroed and the directory entry stored. -/
def newTable (s : DirMem) (i : ℕ) (pt : Word) : DirMem :=
  (s.fill pt 0#32).write s.pd i (pdeCreate pt)

/-- `lookup_page`: the place of the entry for `vaddr`. `alloc` is what `palloc_get_page (PAL_ZERO)`
    returns, if it is called. -/
def lookupPage (s : DirMem) (vaddr : Word) (create : Bool) (alloc : Option Word) :
    DirMem × Option (Word × ℕ) :=
  if s.mem s.pd (pdNo vaddr).toNat = 0#32 then
    if create then
      match alloc with
      | none => (s, none)
      | some pt =>
        let s' := s.newTable (pdNo vaddr).toNat pt
        (s', some (pdeGetPt (s'.mem s.pd (pdNo vaddr).toNat), (ptNo vaddr).toNat))
    else (s, none)
  else (s, some (pdeGetPt (s.mem s.pd (pdNo vaddr).toNat), (ptNo vaddr).toNat))

/-- The assertion of `pde_get_pt` in `lookup_page`: a directory entry that is not 0 is present. It
    holds of an entry that `lookup_page` has just made. -/
def LookupOk (s : DirMem) (vaddr : Word) : Prop :=
  s.mem s.pd (pdNo vaddr).toNat ≠ 0#32 → s.mem s.pd (pdNo vaddr).toNat &&& pteP ≠ 0#32

instance (s : DirMem) (vaddr : Word) : Decidable (s.LookupOk vaddr) :=
  inferInstanceAs (Decidable (_ → _))

/-- `pagedir_set_page`; `none` is a failed assertion. -/
def pagedirSetPage (K : KernelPages) (s : DirMem) (upage kpage : Word) (writable : Bool)
    (alloc : Option Word) : Option (DirMem × Bool) :=
  if pgOfs upage = 0#32 ∧ IsFrame K.ram kpage ∧ isUserVaddr upage = true ∧ s.pd ≠ K.initPageDir ∧
      s.LookupOk upage then
    match s.lookupPage upage true alloc with
    | (s', some (pt, j)) =>
      if s'.mem pt j &&& pteP = 0#32 then
        some (s'.write pt j (pteCreateUser kpage writable), true)
      else none
    | (s', none) => some (s', false)
  else none

/-- `pagedir_get_page`, for a user address whose `LookupOk` holds. -/
def pagedirGetPage (s : DirMem) (uaddr : Word) : Option Word :=
  match (s.lookupPage uaddr false none).2 with
  | some (pt, j) =>
    if s.mem pt j &&& pteP ≠ 0#32 then some (pteGetPage (s.mem pt j) + pgOfs uaddr) else none
  | none => none

/-- `pagedir_clear_page`. -/
def pagedirClearPage (s : DirMem) (upage : Word) : Option DirMem :=
  if pgOfs upage = 0#32 ∧ isUserVaddr upage = true ∧ s.LookupOk upage then
    match (s.lookupPage upage false none).2 with
    | some (pt, j) =>
      if s.mem pt j &&& pteP ≠ 0#32 then some (s.write pt j (s.mem pt j &&& ~~~pteP)) else some s
    | none => some s
  else none

/-- The common body of `pagedir_set_dirty` and `pagedir_set_accessed`. -/
def setFlag (flag : Word) (s : DirMem) (vpage : Word) (on : Bool) : Option DirMem :=
  if s.LookupOk vpage then
    match (s.lookupPage vpage false none).2 with
    | some (pt, j) =>
      if on then some (s.write pt j (s.mem pt j ||| flag))
      else some (s.write pt j (s.mem pt j &&& ~~~flag))
    | none => some s
  else none

/-- `pagedir_set_dirty`. -/
def pagedirSetDirty : DirMem → Word → Bool → Option DirMem := setFlag pteD

/-- `pagedir_set_accessed`. -/
def pagedirSetAccessed : DirMem → Word → Bool → Option DirMem := setFlag pteA

/-- `palloc_free_page`, with the list of the pages it was called with. A freed page is filled with
    `0xcc`. -/
def freePage (st : DirMem × List Word) (page : Word) : DirMem × List Word :=
  (st.1.fill page 0xcccccccc#32, st.2 ++ [page])

/-- One round of the inner loop of `pagedir_destroy`. -/
def destroyEntry (pt : Word) (st : DirMem × List Word) (j : ℕ) : DirMem × List Word :=
  if st.1.mem pt j &&& pteP ≠ 0#32 then freePage st (pteGetPage (st.1.mem pt j)) else st

/-- The inner loop, up to the entry `n`. -/
def destroyEntries (pt : Word) (n : ℕ) (st : DirMem × List Word) : DirMem × List Word :=
  (range n).foldl (destroyEntry pt) st

/-- One round of the outer loop. -/
def destroyTable (st : DirMem × List Word) (i : ℕ) : DirMem × List Word :=
  if st.1.mem st.1.pd i &&& pteP ≠ 0#32 then
    let pt := pdeGetPt (st.1.mem st.1.pd i)
    freePage (destroyEntries pt 1024 st) pt
  else st

/-- The outer loop, up to the entry `n`. -/
def destroyTables (n : ℕ) (s : DirMem) : DirMem × List Word :=
  (range n).foldl destroyTable (s, [])

/-- **`pagedir_destroy`**: the pages it frees, in order. -/
def pagedirDestroy (K : KernelPages) (s : DirMem) : Option (List Word) :=
  if s.pd = 0#32 then some []
  else if s.pd = K.initPageDir then none
  else
    some (freePage (destroyTables (pdNo physBase).toNat s) s.pd).2

end DirMem

/-- `pagedir_create`, with what `palloc_get_page` returns. -/
def pagedirCreate (K : KernelPages) (alloc : Option Word) : Option DirMem :=
  alloc.map fun pd => ⟨pd, fun q j => if q = pd then K.mem K.initPageDir j else K.mem q j⟩

/-! ## 3. Calls -/

inductive PdOp
  | setPage (upage kpage : Word) (writable : Bool) (alloc : Option Word)
  | clearPage (upage : Word)
  | setDirty (vpage : Word) (dirty : Bool)
  | setAccessed (vpage : Word) (accessed : Bool)
  deriving DecidableEq

/-- A call and what it returns; the functions without a result count as successful. -/
def pdCall (K : KernelPages) (s : DirMem) : PdOp → Option (DirMem × Bool)
  | .setPage upage kpage writable alloc => s.pagedirSetPage K upage kpage writable alloc
  | .clearPage upage => (s.pagedirClearPage upage).map (·, true)
  | .setDirty vpage dirty => (s.pagedirSetDirty vpage dirty).map (·, true)
  | .setAccessed vpage accessed => (s.pagedirSetAccessed vpage accessed).map (·, true)

/-- The directory and the calls made so far with their results, the latest first. -/
structure PdRun where
  dir : DirMem
  log : List (PdOp × Bool)

def pdStep (K : KernelPages) (r : PdRun) (e : PdOp) : Option PdRun :=
  (pdCall K r.dir e).map fun x => ⟨x.1, (e, x.2) :: r.log⟩

/-- **The map**: the kernel page of the latest successful `pagedir_set_page` of a user page that no
    `pagedir_clear_page` of it followed. -/
def mapped : List (PdOp × Bool) → Word → Option Word
  | [], _ => none
  | (.setPage upage kpage _ _, ok) :: l, u =>
    if ok = true ∧ upage = u then some kpage else mapped l u
  | (.clearPage upage, _) :: l, u => if upage = u then none else mapped l u
  | (.setDirty _ _, _) :: l, u => mapped l u
  | (.setAccessed _ _, _) :: l, u => mapped l u

/-- A page that is neither the directory nor a page table the directory refers to. -/
def DirMem.Unused (s : DirMem) (page : Word) : Prop :=
  page ≠ s.pd ∧ ∀ i < 1024, s.mem s.pd i ≠ 0#32 → pdeGetPt (s.mem s.pd i) ≠ page

instance (s : DirMem) (page : Word) : Decidable (s.Unused page) :=
  inferInstanceAs (Decidable (_ ∧ _))

/-- **What a caller keeps to**: `pagedir_set_page` is called with a frame for a user page that
    `pagedir_get_page` does not find, the others for user pages; and a page from the allocator is a
    frame nobody uses. -/
def PdOk (K : KernelPages) (r : PdRun) : PdOp → Prop
  | .setPage upage kpage _ alloc =>
    pgOfs upage = 0#32 ∧ isUserVaddr upage = true ∧ IsFrame K.ram kpage ∧
      r.dir.pagedirGetPage upage = none ∧ ∀ pt ∈ alloc, IsFrame K.ram pt ∧ r.dir.Unused pt
  | .clearPage upage => pgOfs upage = 0#32 ∧ isUserVaddr upage = true
  | .setDirty vpage _ => isUserVaddr vpage = true
  | .setAccessed vpage _ => isUserVaddr vpage = true

instance (K : KernelPages) (r : PdRun) : (e : PdOp) → Decidable (PdOk K r e)
  | .setPage upage kpage _ alloc =>
    -- the page is looked up in `alloc`; the instance for all words would try each of them
    have : Decidable (∀ pt ∈ alloc, IsFrame K.ram pt ∧ r.dir.Unused pt) :=
      Option.decidableForallMem alloc
    inferInstanceAs (Decidable (pgOfs upage = 0#32 ∧ isUserVaddr upage = true ∧
      IsFrame K.ram kpage ∧ r.dir.pagedirGetPage upage = none ∧ _))
  | .clearPage _ => inferInstanceAs (Decidable (_ ∧ _))
  | .setDirty _ _ => inferInstanceAs (Decidable (_ = _))
  | .setAccessed _ _ => inferInstanceAs (Decidable (_ = _))

/-! ## 4. What a call leaves -/

namespace DirMem

/-- The page table behind a directory entry. -/
def table (s : DirMem) (i : ℕ) : Word := pdeGetPt (s.mem s.pd i)

/-- The table entry at two indexes; 0 if there is no page table. -/
def entry (s : DirMem) (i j : ℕ) : Word := if s.mem s.pd i = 0#32 then 0#32 else s.mem (s.table i) j

/-- The frame of the page of an address. -/
def frame (s : DirMem) (u : Word) : Option Word := frameOf (s.entry (pdNo u).toNat (ptNo u).toNat)

theorem lookupPage_find (s : DirMem) (va : Word) : (s.lookupPage va false none).2 =
    if s.mem s.pd (pdNo va).toNat = 0#32 then none
    else some (s.table (pdNo va).toNat, (ptNo va).toNat) := by
  unfold lookupPage
  split <;> rfl

theorem getPage_eq (s : DirMem) (u : Word) :
    s.pagedirGetPage u = (s.frame u).map (· + pgOfs u) := by
  unfold pagedirGetPage frame entry
  rw [lookupPage_find]
  by_cases hz : s.mem s.pd (pdNo u).toNat = 0#32
  · rw [if_pos hz, if_pos hz, frameOf_zero]
    rfl
  · rw [if_neg hz, if_neg hz]
    dsimp only
    unfold frameOf
    split <;> rfl

end DirMem

open DirMem in
/-- **Directories as the calls leave them**: the entries are present, every user entry has a page
    table of its own, and what belongs to the kernel is as `paging_init` left it. -/
structure DirInv (K : KernelPages) (pd : Word) (s : DirMem) : Prop where
  dir : s.pd = pd
  present : ∀ i < 1024, s.mem s.pd i ≠ 0#32 → s.mem s.pd i &&& pteP ≠ 0#32
  apart : ∀ i < 1024, s.mem s.pd i ≠ 0#32 → s.table i ≠ s.pd
  own : ∀ i < 768, ∀ i' < 1024, s.mem s.pd i ≠ 0#32 → s.mem s.pd i' ≠ 0#32 →
    s.table i = s.table i' → i = i'
  kernelDir : ∀ i, 768 ≤ i → i < 1024 → s.mem s.pd i = K.mem K.initPageDir i
  kernelTable : ∀ i, 768 ≤ i → i < 1024 → s.mem s.pd i ≠ 0#32 → ∀ j,
    s.mem (s.table i) j = K.mem (s.table i) j

namespace DirInv

variable {K : KernelPages} {pd pt : Word} {s : DirMem} {i : ℕ}

theorem lookupOk (h : DirInv K pd s) (va : Word) : s.LookupOk va := h.present _ (pdNo_lt va)

/-! ### A store into a user page table -/

theorem write_dir (h : DirInv K pd s) (hi : i < 1024) (hz : s.mem s.pd i ≠ 0#32) (j : ℕ) (v : Word)
    (i' : ℕ) : (s.write (s.table i) j v).mem s.pd i' = s.mem s.pd i' := by
  rw [DirMem.write_mem, if_neg]
  rintro ⟨he, -⟩
  exact h.apart i hi hz he.symm

theorem write_table (h : DirInv K pd s) (hi : i < 1024) (hz : s.mem s.pd i ≠ 0#32) (j : ℕ) (v : Word)
    (i' : ℕ) : (s.write (s.table i) j v).table i' = s.table i' :=
  congrArg pdeGetPt (h.write_dir hi hz j v i')

theorem write_other (h : DirInv K pd s) (hi : i < 768) (hz : s.mem s.pd i ≠ 0#32) (j : ℕ) (v : Word)
    (hi' : i' < 1024) (hz' : s.mem s.pd i' ≠ 0#32) (hne : i' ≠ i) (j' : ℕ) :
    (s.write (s.table i) j v).mem (s.table i') j' = s.mem (s.table i') j' := by
  rw [DirMem.write_mem, if_neg]
  rintro ⟨he, -⟩
  exact hne (h.own i hi i' hi' hz hz' he.symm).symm

theorem write (h : DirInv K pd s) (hi : i < 768) (hz : s.mem s.pd i ≠ 0#32) (j : ℕ) (v : Word) :
    DirInv K pd (s.write (s.table i) j v) := by
  have hi1 : i < 1024 := by omega
  have hd : ∀ i', (s.write (s.table i) j v).mem (s.write (s.table i) j v).pd i' = s.mem s.pd i' :=
    h.write_dir hi1 hz j v
  have ht := h.write_table hi1 hz j v
  refine ⟨h.dir, ?_, ?_, ?_, ?_, ?_⟩
  · intro i' hi' hz'
    rw [hd] at hz' ⊢
    exact h.present i' hi' hz'
  · intro i' hi' hz'
    rw [hd] at hz'
    rw [ht]
    exact h.apart i' hi' hz'
  · intro a ha b hb hza hzb
    rw [hd] at hza hzb
    rw [ht, ht]
    exact h.own a ha b hb hza hzb
  · intro i' hlo hhi
    rw [hd]
    exact h.kernelDir i' hlo hhi
  · intro i' hlo hhi hz' j'
    rw [hd] at hz'
    rw [ht, h.write_other hi hz j v hhi hz' (by omega)]
    exact h.kernelTable i' hlo hhi hz' j'

theorem write_entry (h : DirInv K pd s) (hi : i < 768) (hz : s.mem s.pd i ≠ 0#32) (j : ℕ) (v : Word)
    (hi' : i' < 1024) (j' : ℕ) : (s.write (s.table i) j v).entry i' j' =
      if i' = i ∧ j' = j then v else s.entry i' j' := by
  have hi1 : i < 1024 := by omega
  have hd : (s.write (s.table i) j v).mem (s.write (s.table i) j v).pd i' = s.mem s.pd i' :=
    h.write_dir hi1 hz j v i'
  unfold DirMem.entry
  rw [hd, h.write_table hi1 hz]
  by_cases hz' : s.mem s.pd i' = 0#32
  · have hne : i' ≠ i := by
      rintro rfl
      exact hz hz'
    rw [if_pos hz', if_neg (fun c => hne c.1), if_pos hz']
  · rw [if_neg hz', if_neg hz']
    by_cases hne : i' = i
    · subst hne
      rw [DirMem.write_mem]
      simp
    · rw [if_neg (fun c => hne c.1)]
      exact h.write_other hi hz j v hi' hz' hne j'

/-! ### A new page table -/

theorem newTable_dir (hun : s.Unused pt) (i' : ℕ) :
    (s.newTable i pt).mem s.pd i' = if i' = i then pdeCreate pt else s.mem s.pd i' := by
  unfold DirMem.newTable
  rw [DirMem.write_mem, DirMem.fill_mem, if_neg hun.1.symm]
  simp

theorem newTable_table (hun : s.Unused pt) (hpt : IsFrame K.ram pt) (i' : ℕ) :
    (s.newTable i pt).table i' = if i' = i then pt else s.table i' := by
  change pdeGetPt ((s.newTable i pt).mem s.pd i') = _
  rw [newTable_dir hun]
  by_cases he : i' = i
  · rw [if_pos he, if_pos he, hpt.pdeGetPt_create]
  · rw [if_neg he, if_neg he]
    rfl

theorem newTable_mem (hd : q ≠ s.pd) (hp : q ≠ pt) (j : ℕ) :
    (s.newTable i pt).mem q j = s.mem q j := by
  unfold DirMem.newTable
  rw [DirMem.write_mem, if_neg (fun c => hd c.1), DirMem.fill_mem, if_neg hp]

theorem newTable_zero (hun : s.Unused pt) (j : ℕ) : (s.newTable i pt).mem pt j = 0#32 := by
  unfold DirMem.newTable
  rw [DirMem.write_mem, if_neg (fun c => hun.1 c.1), DirMem.fill_mem, if_pos rfl]

section

variable (h : DirInv K pd s)

include h

theorem newTable (hi : i < 768) (hun : s.Unused pt) (hpt : IsFrame K.ram pt) :
    DirInv K pd (s.newTable i pt) := by
  have hd : ∀ i', (s.newTable i pt).mem (s.newTable i pt).pd i' =
      if i' = i then pdeCreate pt else s.mem s.pd i' := newTable_dir hun
  have ht := newTable_table (i := i) hun hpt
  refine ⟨h.dir, ?_, ?_, ?_, ?_, ?_⟩
  · intro i' hi' hz'
    rw [hd] at hz' ⊢
    by_cases he : i' = i
    · rw [if_pos he]
      exact pdeCreate_present pt
    · rw [if_neg he] at hz' ⊢
      exact h.present i' hi' hz'
  · intro i' hi' hz'
    rw [hd] at hz'
    rw [ht]
    by_cases he : i' = i
    · rw [if_pos he]
      exact hun.1
    · rw [if_neg he] at hz' ⊢
      exact h.apart i' hi' hz'
  · intro a ha b hb hza hzb hab
    rw [hd] at hza hzb
    rw [ht, ht] at hab
    by_cases hea : a = i <;> by_cases heb : b = i
    · rw [hea, heb]
    · rw [if_pos hea, if_neg heb] at hab
      rw [if_neg heb] at hzb
      exact absurd hab.symm (hun.2 b hb hzb)
    · rw [if_neg hea, if_pos heb] at hab
      rw [if_neg hea] at hza
      exact absurd hab (hun.2 a (by omega) hza)
    · rw [if_neg hea, if_neg heb] at hab
      rw [if_neg hea] at hza
      rw [if_neg heb] at hzb
      exact h.own a ha b hb hza hzb hab
  · intro i' hlo hhi
    rw [hd, if_neg (by omega)]
    exact h.kernelDir i' hlo hhi
  · intro i' hlo hhi hz' j'
    have hne : i' ≠ i := by omega
    rw [hd, if_neg hne] at hz'
    rw [ht, if_neg hne, newTable_mem (h.apart i' hhi hz') (hun.2 i' hhi hz')]
    exact h.kernelTable i' hlo hhi hz' j'

/-- **A new page table changes no entry**: it is filled with zeros. -/
theorem newTable_entry (hz : s.mem s.pd i = 0#32) (hun : s.Unused pt) (hpt : IsFrame K.ram pt)
    (hi' : i' < 1024) (j : ℕ) : (s.newTable i pt).entry i' j = s.entry i' j := by
  have hd : (s.newTable i pt).mem (s.newTable i pt).pd i' =
      if i' = i then pdeCreate pt else s.mem s.pd i' := newTable_dir hun i'
  unfold DirMem.entry
  rw [hd, newTable_table hun hpt]
  by_cases he : i' = i
  · subst he
    rw [if_pos rfl, if_pos rfl, if_neg (pdeCreate_ne_zero pt), newTable_zero hun, if_pos hz]
  · rw [if_neg he, if_neg he]
    by_cases hz' : s.mem s.pd i' = 0#32
    · rw [if_pos hz', if_pos hz']
    · rw [if_neg hz', if_neg hz', newTable_mem (h.apart i' hi' hz') (hun.2 i' hi' hz')]

/-- `lookup_page` with `create`: without memory for a table nothing happens; otherwise there is a
    table and no entry has changed. -/
theorem lookupPage_create (hu : isUserVaddr va = true)
    (ha : ∀ pt ∈ alloc, IsFrame K.ram pt ∧ s.Unused pt) :
    (s.lookupPage va true alloc = (s, none) ∧ s.mem s.pd (pdNo va).toNat = 0#32 ∧ alloc = none) ∨
      ∃ s', s.lookupPage va true alloc = (s', some (s'.table (pdNo va).toNat, (ptNo va).toNat)) ∧
        DirInv K pd s' ∧ s'.mem s'.pd (pdNo va).toNat ≠ 0#32 ∧
        (s.mem s.pd (pdNo va).toNat ≠ 0#32 ∨ alloc ≠ none) ∧
        ∀ i < 1024, ∀ j, s'.entry i j = s.entry i j := by
  unfold DirMem.lookupPage
  by_cases hz : s.mem s.pd (pdNo va).toNat = 0#32
  · rw [if_pos hz, if_pos rfl]
    cases alloc with
    | none => exact .inl ⟨rfl, hz, rfl⟩
    | some pt =>
      obtain ⟨hpt, hun⟩ := ha pt rfl
      refine .inr ⟨_, rfl, h.newTable (pdNo_user hu) hun hpt, ?_, .inr (by simp),
        fun i hi j => h.newTable_entry hz hun hpt hi j⟩
      change (s.newTable (pdNo va).toNat pt).mem s.pd (pdNo va).toNat ≠ 0#32
      rw [newTable_dir hun, if_pos rfl]
      exact pdeCreate_ne_zero pt
  · rw [if_neg hz]
    exact .inr ⟨s, rfl, h, hz, .inl hz, fun _ _ _ => rfl⟩

/-! ### The calls -/

theorem write_frame (hu : isUserVaddr va = true) (hz : s.mem s.pd (pdNo va).toNat ≠ 0#32)
    (v u : Word) : (s.write (s.table (pdNo va).toNat) (ptNo va).toNat v).frame u =
      if (pdNo u).toNat = (pdNo va).toNat ∧ (ptNo u).toNat = (ptNo va).toNat then frameOf v
      else s.frame u := by
  unfold DirMem.frame
  rw [h.write_entry (pdNo_user hu) hz _ _ (pdNo_lt u)]
  split <;> rfl

/-- `pagedir_set_page` as a caller may use it: one entry is stored, if there is a page table or memory
    for one. -/
theorem setPage_entry (hne : pd ≠ K.initPageDir) (hp : pgOfs upage = 0#32)
    (hu : isUserVaddr upage = true) (hk : IsFrame K.ram kpage)
    (hnone : s.pagedirGetPage upage = none) (w : Bool)
    (ha : ∀ pt ∈ alloc, IsFrame K.ram pt ∧ s.Unused pt) :
    (s.pagedirSetPage K upage kpage w alloc = some (s, false) ∧
      s.mem s.pd (pdNo upage).toNat = 0#32 ∧ alloc = none) ∨
      ∃ s', s.pagedirSetPage K upage kpage w alloc = some (s', true) ∧ DirInv K pd s' ∧
        (s.mem s.pd (pdNo upage).toNat ≠ 0#32 ∨ alloc ≠ none) ∧
        ∀ i < 1024, ∀ j, s'.entry i j =
          if i = (pdNo upage).toNat ∧ j = (ptNo upage).toNat then pteCreateUser kpage w
          else s.entry i j := by
  unfold DirMem.pagedirSetPage
  rw [if_pos ⟨hp, hk, hu, by rw [h.dir]; exact hne, h.lookupOk upage⟩]
  rcases h.lookupPage_create hu ha with ⟨hl, hz, hal⟩ | ⟨s', hl, h', hz, hav, he⟩
  · rw [hl]
    exact .inl ⟨rfl, hz, hal⟩
  · rw [hl]
    have hnf : frameOf (s'.mem (s'.table (pdNo upage).toNat) (ptNo upage).toNat) = none := by
      have hf : s.frame upage = none := by
        rw [DirMem.getPage_eq] at hnone
        exact Option.map_eq_none_iff.mp hnone
      unfold DirMem.frame at hf
      rw [← he _ (pdNo_lt upage)] at hf
      unfold DirMem.entry at hf
      rwa [if_neg hz] at hf
    have hnp : s'.mem (s'.table (pdNo upage).toNat) (ptNo upage).toNat &&& pteP = 0#32 := by
      unfold frameOf at hnf
      by_contra hc
      rw [if_pos hc] at hnf
      cases hnf
    dsimp only
    rw [if_pos hnp]
    refine .inr ⟨_, rfl, h'.write (pdNo_user hu) hz _ _, hav, fun i hi j => ?_⟩
    rw [h'.write_entry (pdNo_user hu) hz _ _ hi, he i hi]

theorem setPage (hne : pd ≠ K.initPageDir) (hp : pgOfs upage = 0#32) (hu : isUserVaddr upage = true)
    (hk : IsFrame K.ram kpage) (hnone : s.pagedirGetPage upage = none) (w : Bool)
    (ha : ∀ pt ∈ alloc, IsFrame K.ram pt ∧ s.Unused pt) :
    s.pagedirSetPage K upage kpage w alloc = some (s, false) ∨
      ∃ s', s.pagedirSetPage K upage kpage w alloc = some (s', true) ∧ DirInv K pd s' ∧
        ∀ u, s'.frame u = if upage = pgRoundDown u then some kpage else s.frame u := by
  rcases h.setPage_entry hne hp hu hk hnone w ha with ⟨hc, -, -⟩ | ⟨s', hc, h', -, he⟩
  · exact .inl hc
  · refine .inr ⟨s', hc, h', fun u => ?_⟩
    unfold DirMem.frame
    rw [he _ (pdNo_lt u), ← hk.frameOf_create w]
    by_cases hi : upage = pgRoundDown u
    · rw [if_pos hi, if_pos ((sameIndexes_iff hp).mpr hi)]
    · rw [if_neg hi, if_neg fun hc => hi ((sameIndexes_iff hp).mp hc)]

theorem clearPage (hp : pgOfs upage = 0#32) (hu : isUserVaddr upage = true) :
    ∃ s', s.pagedirClearPage upage = some s' ∧ DirInv K pd s' ∧
      ∀ u, s'.frame u = if upage = pgRoundDown u then none else s.frame u := by
  unfold DirMem.pagedirClearPage
  rw [if_pos ⟨hp, hu, h.lookupOk upage⟩, DirMem.lookupPage_find]
  -- the page had no frame: nothing is stored, and the map had nothing to forget
  have hkeep : s.frame upage = none →
      ∀ u, s.frame u = if upage = pgRoundDown u then none else s.frame u := by
    intro hf u
    split
    · rename_i he
      obtain ⟨hi, hj⟩ := (sameIndexes_iff hp).mpr he
      unfold DirMem.frame at hf ⊢
      rw [hi, hj, hf]
    · rfl
  by_cases hz : s.mem s.pd (pdNo upage).toNat = 0#32
  · rw [if_pos hz]
    refine ⟨s, rfl, h, hkeep ?_⟩
    unfold DirMem.frame DirMem.entry
    rw [if_pos hz, frameOf_zero]
  · rw [if_neg hz]
    dsimp only
    by_cases hpres : s.mem (s.table (pdNo upage).toNat) (ptNo upage).toNat &&& pteP ≠ 0#32
    · rw [if_pos hpres]
      refine ⟨_, rfl, h.write (pdNo_user hu) hz _ _, fun u => ?_⟩
      rw [h.write_frame hu hz, frameOf_clear]
      exact if_congr (sameIndexes_iff hp) rfl rfl
    · rw [if_neg hpres]
      refine ⟨s, rfl, h, hkeep ?_⟩
      unfold DirMem.frame DirMem.entry frameOf
      rw [if_neg hz, if_neg hpres]

theorem setFlag (flag : Word) (hfp : flag &&& pteP = 0#32) (hfa : flag &&& pteAddr = 0#32)
    (hu : isUserVaddr vpage = true) (on : Bool) :
    ∃ s', s.setFlag flag vpage on = some s' ∧ DirInv K pd s' ∧ ∀ u, s'.frame u = s.frame u := by
  unfold DirMem.setFlag
  rw [if_pos (h.lookupOk vpage), DirMem.lookupPage_find]
  by_cases hz : s.mem s.pd (pdNo vpage).toNat = 0#32
  · rw [if_pos hz]
    exact ⟨s, rfl, h, fun _ => rfl⟩
  · rw [if_neg hz]
    have hkeep : ∀ v, frameOf v = frameOf (s.mem (s.table (pdNo vpage).toNat) (ptNo vpage).toNat) →
        ∀ u, (s.write (s.table (pdNo vpage).toNat) (ptNo vpage).toNat v).frame u = s.frame u := by
      intro v hv u
      rw [h.write_frame hu hz]
      split
      · rename_i he
        unfold DirMem.frame DirMem.entry
        rw [he.1, he.2, if_neg hz, hv]
      · rfl
    cases on with
    | true =>
      exact ⟨_, rfl, h.write (pdNo_user hu) hz _ _,
        hkeep _ (frameOf_congr (or_and_mask hfp) (or_and_mask hfa))⟩
    | false =>
      exact ⟨_, rfl, h.write (pdNo_user hu) hz _ _,
        hkeep _ (frameOf_congr (andNot_and_mask hfp) (andNot_and_mask hfa))⟩

end

end DirInv

/-- The directory that the system calls check addresses against is this one, read through both
    levels. -/
def DirInv.pageDir {K : KernelPages} {pd : Word} {s : DirMem} (h : DirInv K pd s) : PageDir where
  pde i := if i.toNat < 1024 then s.mem s.pd i.toNat else 0#32
  pte i j := s.mem (s.table i.toNat) j.toNat
  present := by
    intro i hz
    by_cases hi : i.toNat < 1024
    · rw [if_pos hi] at hz ⊢
      exact h.present _ hi hz
    · exact absurd (if_neg hi) hz

variable {K : KernelPages} {pd : Word} {s s₀ : DirMem} {i : ℕ}

theorem DirInv.pageDir_getPage (h : DirInv K pd s) (u : Word) :
    h.pageDir.pagedirGetPage u = s.pagedirGetPage u := by
  unfold PageDir.pagedirGetPage PageDir.lookupPage DirMem.pagedirGetPage
  rw [DirMem.lookupPage_find]
  have hpde : h.pageDir.pde (pdNo u) = s.mem s.pd (pdNo u).toNat := if_pos (pdNo_lt u)
  rw [hpde]
  by_cases hz : s.mem s.pd (pdNo u).toNat = 0#32
  · rw [if_pos hz, if_pos hz]
  · rw [if_neg hz, if_neg hz]
    rfl

/-! ## 5. Runs -/

/-- **The invariant of a run**: the directory holds exactly the map that the calls describe. -/
structure PdInv (K : KernelPages) (pd : Word) (r : PdRun) : Prop where
  dir : DirInv K pd r.dir
  frames : ∀ u, isUserVaddr u = true → r.dir.frame u = mapped r.log (pgRoundDown u)
  pages : ∀ u k, mapped r.log u = some k → pgOfs u = 0#32 ∧ isUserVaddr u = true

section Runs

variable {K : KernelPages} {pd : Word} {r : PdRun}

variable {d : DirMem}

theorem PdInv.keep (h : PdInv K pd r) {l : List (PdOp × Bool)} (hd : DirInv K pd d)
    (hf : ∀ u, d.frame u = r.dir.frame u) (hl : ∀ u, mapped l u = mapped r.log u) :
    PdInv K pd ⟨d, l⟩ where
  dir := hd
  frames u hu := by
    rw [hf, hl]
    exact h.frames u hu
  pages u k hm := h.pages u k (by rwa [hl] at hm)

/-- **One call**: it returns, keeps the invariant, and changes nothing if it fails. -/
theorem pdCall_spec (h : PdInv K pd r) (hne : pd ≠ K.initPageDir) {e : PdOp} (ok : PdOk K r e) :
    ∃ d b, pdCall K r.dir e = some (d, b) ∧ PdInv K pd ⟨d, (e, b) :: r.log⟩ ∧
      (b = false → d = r.dir) := by
  cases e with
  | setPage upage kpage w alloc =>
    obtain ⟨hp, hu, hk, hnone, ha⟩ := ok
    rcases h.dir.setPage hne hp hu hk hnone w ha with hc | ⟨d, hc, hd, hf⟩
    · exact ⟨r.dir, false, hc, h.keep h.dir (fun _ => rfl) (fun _ => by simp [mapped]),
        fun _ => rfl⟩
    · refine ⟨d, true, hc, ⟨hd, fun u hu' => ?_, fun u k hm => ?_⟩, fun hb => by cases hb⟩
      · rw [hf, h.frames u hu']
        simp [mapped]
      · by_cases he : upage = u
        · subst he
          exact ⟨hp, hu⟩
        · exact h.pages u k (by simpa [mapped, he] using hm)
  | clearPage upage =>
    obtain ⟨hp, hu⟩ := ok
    obtain ⟨d, hc, hd, hf⟩ := h.dir.clearPage hp hu
    refine ⟨d, true, by simp [pdCall, hc], ⟨hd, fun u hu' => ?_, fun u k hm => ?_⟩,
      fun hb => by cases hb⟩
    · rw [hf, h.frames u hu']
      rfl
    · by_cases he : upage = u
      · simp [mapped, he] at hm
      · exact h.pages u k (by simpa [mapped, he] using hm)
  | setDirty vpage dirty =>
    obtain ⟨d, hc, hd, hf⟩ := h.dir.setFlag pteD (by decide) (by decide) ok dirty
    exact ⟨d, true, by simp [pdCall, DirMem.pagedirSetDirty, hc], h.keep hd hf (fun _ => rfl),
      fun hb => by cases hb⟩
  | setAccessed vpage accessed =>
    obtain ⟨d, hc, hd, hf⟩ := h.dir.setFlag pteA (by decide) (by decide) ok accessed
    exact ⟨d, true, by simp [pdCall, DirMem.pagedirSetAccessed, hc], h.keep hd hf (fun _ => rfl),
      fun hb => by cases hb⟩

/-- A page the allocator may hand out for a directory: it is neither the kernel's directory nor one
    of the kernel's page tables. -/
def KernelPages.Free (K : KernelPages) (page : Word) : Prop :=
  IsFrame K.ram page ∧ (⟨K.initPageDir, K.mem⟩ : DirMem).Unused page

/-- The new directory is a copy of the kernel's; no other page has changed. -/
theorem pagedirCreate_spec (hc : pagedirCreate K (some pd) = some d) :
    d.pd = pd ∧ (∀ j, d.mem d.pd j = K.mem K.initPageDir j) ∧
      ∀ q, q ≠ pd → ∀ j, d.mem q j = K.mem q j := by
  cases hc
  exact ⟨rfl, fun j => if_pos rfl, fun q hq j => if_neg hq⟩

theorem pagedirCreate_inv (hpd : K.Free pd) (hc : pagedirCreate K (some pd) = some d) :
    PdInv K pd ⟨d, []⟩ := by
  obtain ⟨hd, hcopy, hother⟩ := pagedirCreate_spec hc
  have hzero : ∀ i < 768, d.mem d.pd i = 0#32 := fun i hi => (hcopy i).trans (K.user i hi)
  have hapart : ∀ i < 1024, d.mem d.pd i ≠ 0#32 → d.table i ≠ pd := by
    intro i hi hz
    unfold DirMem.table
    rw [hcopy] at hz ⊢
    exact hpd.2.2 i hi hz
  refine ⟨⟨hd, ?_, ?_, ?_, ?_, ?_⟩, ?_, fun u k hm => by cases hm⟩
  · intro i hi hz
    rw [hcopy] at hz ⊢
    exact K.kernel i hi hz
  · intro i hi hz
    rw [hd]
    exact hapart i hi hz
  · intro i hi i' _ hz
    exact absurd (hzero i hi) hz
  · intro i _ _
    exact hcopy i
  · intro i _ hhi hz j
    exact hother _ (hapart i hhi hz) j
  · intro u hu
    unfold DirMem.frame DirMem.entry
    rw [if_pos (hzero _ (pdNo_user hu)), frameOf_zero]
    rfl

theorem pdRun_inv (hpd : K.Free pd) (hc : pagedirCreate K (some pd) = some d)
    (hr : Reach (pdStep K) (PdOk K) ⟨d, []⟩ r) : PdInv K pd r := by
  refine hr.invariant (pagedirCreate_inv hpd hc) fun s e s' hi ok hs => ?_
  obtain ⟨d', b, hcall, hinv, -⟩ := pdCall_spec hi hpd.2.1 ok
  simp only [pdStep, hcall, Option.map_some, Option.some.injEq] at hs
  rw [← hs]
  exact hinv

end Runs

/-! ## 6. Destroying a directory -/

namespace DirMem

/-- The pages one round of the outer loop frees: the frames of a table, then the table. -/
def tablePages (s : DirMem) (i : ℕ) : List Word :=
  if s.mem s.pd i = 0#32 then []
  else (range 1024).filterMap (fun j => frameOf (s.entry i j)) ++ [s.table i]

theorem tablePages_none (h : s.mem s.pd i = 0#32) : s.tablePages i = [] :=
  if_pos h

theorem tablePages_some (h : s.mem s.pd i ≠ 0#32) : s.tablePages i =
    (range 1024).filterMap (fun j => frameOf (s.mem (s.table i) j)) ++ [s.table i] := by
  have he : ∀ j, s.entry i j = s.mem (s.table i) j := fun j => if_neg h
  unfold tablePages
  rw [if_neg h]
  simp only [he]

theorem freePage_pd (st : DirMem × List Word) (page : Word) : (freePage st page).1.pd = st.1.pd := rfl

theorem freePage_mem (st : DirMem × List Word) (h : q ≠ page) :
    (freePage st page).1.mem q = st.1.mem q := by
  funext j
  exact if_neg h

/-- The inner loop, as long as no frame is the table it reads from. -/
theorem destroyEntries_spec (pt : Word) (st : DirMem × List Word) (n : ℕ)
    (hself : ∀ j < n, frameOf (st.1.mem pt j) ≠ some pt) : (destroyEntries pt n st).1.pd = st.1.pd ∧
      (destroyEntries pt n st).2 =
        st.2 ++ (range n).filterMap (fun j => frameOf (st.1.mem pt j)) ∧
      ∀ q, (∀ j < n, frameOf (st.1.mem pt j) ≠ some q) →
        (destroyEntries pt n st).1.mem q = st.1.mem q := by
  induction n with
  | zero => exact ⟨rfl, (append_nil _).symm, fun _ _ => rfl⟩
  | succ n ih =>
    obtain ⟨hpd, hlist, hmem⟩ := ih fun j hj => hself j (by omega)
    have hpt : (destroyEntries pt n st).1.mem pt n = st.1.mem pt n :=
      congrFun (hmem pt fun j hj => hself j (by omega)) n
    have hsucc : destroyEntries pt (n + 1) st = destroyEntry pt (destroyEntries pt n st) n := by
      simp only [destroyEntries, range_succ, foldl_append, foldl_cons,
        foldl_nil]
    rw [hsucc, range_succ, filterMap_append]
    generalize destroyEntries pt n st = st' at hpd hlist hmem hpt
    unfold destroyEntry
    rw [hpt]
    by_cases hp : st.1.mem pt n &&& pteP ≠ 0#32
    · have hf : frameOf (st.1.mem pt n) = some (pteGetPage (st.1.mem pt n)) := if_pos hp
      rw [if_pos hp]
      refine ⟨hpd, ?_, fun q hq => ?_⟩
      · simp [freePage, hlist, hf]
      · have hne : q ≠ pteGetPage (st.1.mem pt n) := by
          rintro rfl
          exact hq n (by omega) hf
        rw [freePage_mem st' hne]
        exact hmem q fun j hj => hq j (by omega)
    · have hf : frameOf (st.1.mem pt n) = none := if_neg hp
      rw [if_neg hp]
      refine ⟨hpd, ?_, fun q hq => hmem q fun j hj => hq j (by omega)⟩
      simp [hlist, hf]

/-- **No frame is a page of the directory itself.** -/
def FramesApart (s : DirMem) : Prop :=
  ∀ i < 768, ∀ j < 1024, ∀ p, frameOf (s.entry i j) = some p →
    p ≠ s.pd ∧ ∀ i' < 768, s.mem s.pd i' ≠ 0#32 → s.table i' ≠ p

/-- The outer loop reads the directory and the tables that are still there as they were. -/
theorem destroyTables_spec (h : DirInv K pd s) (hap : s.FramesApart) (n : ℕ) (hn : n ≤ 768) :
    (destroyTables n s).1.pd = s.pd ∧ (destroyTables n s).2 = (range n).flatMap s.tablePages ∧
      (destroyTables n s).1.mem s.pd = s.mem s.pd ∧
      ∀ i, n ≤ i → i < 768 → s.mem s.pd i ≠ 0#32 →
        (destroyTables n s).1.mem (s.table i) = s.mem (s.table i) := by
  induction n with
  | zero => exact ⟨rfl, rfl, rfl, fun _ _ _ _ => rfl⟩
  | succ n ih =>
    obtain ⟨hpd, hlist, hdir, htab⟩ := ih (by omega)
    have hsucc : destroyTables (n + 1) s = destroyTable (destroyTables n s) n := by
      simp only [destroyTables, range_succ, foldl_append, foldl_cons,
        foldl_nil]
    rw [hsucc, range_succ, flatMap_append, flatMap_singleton]
    generalize destroyTables n s = st at hpd hlist hdir htab
    unfold destroyTable
    rw [hpd, hdir]
    by_cases hz : s.mem s.pd n = 0#32
    · have hp : ¬(s.mem s.pd n &&& pteP ≠ 0#32) := by
        rw [hz]
        decide
      rw [if_neg hp, tablePages_none hz, append_nil]
      exact ⟨hpd, hlist, hdir, fun i hi => htab i (by omega)⟩
    · rw [if_pos (h.present n (by omega) hz), tablePages_some hz]
      have hentry : ∀ j, s.entry n j = s.mem (s.table n) j := fun j => if_neg hz
      have hnow : st.1.mem (s.table n) = s.mem (s.table n) := htab n le_rfl (by omega) hz
      have hself : ∀ j < 1024, frameOf (st.1.mem (s.table n) j) ≠ some (s.table n) := by
        intro j hj hc
        rw [hnow, ← hentry] at hc
        exact (hap n (by omega) j hj _ hc).2 n (by omega) hz rfl
      obtain ⟨hpd', hlist', hmem'⟩ := destroyEntries_spec (s.table n) st 1024 hself
      have htn : pdeGetPt (s.mem s.pd n) = s.table n := rfl
      simp only [htn]
      refine ⟨by rw [freePage_pd, hpd', hpd], ?_, ?_, fun i hi hi' hz' => ?_⟩
      · simp only [freePage, hlist', hlist, hnow, append_assoc]
      · rw [freePage_mem _ (h.apart n (by omega) hz).symm, hmem' _ fun j hj hc => ?_, hdir]
        rw [hnow, ← hentry] at hc
        exact (hap n (by omega) j hj _ hc).1 rfl
      · have hne : s.table i ≠ s.table n := fun hc =>
          absurd (h.own i hi' n (by omega) hz' hz hc) (by omega)
        rw [freePage_mem _ hne, hmem' _ fun j hj hc => ?_, htab i (by omega) hi' hz']
        rw [hnow, ← hentry] at hc
        exact (hap n (by omega) j hj _ hc).2 i hi' hz' rfl

theorem pagedirDestroy_eq (h : DirInv K pd s) (hpd : pd ≠ 0#32) (hne : pd ≠ K.initPageDir)
    (hap : s.FramesApart) :
    s.pagedirDestroy K = some ((range 768).flatMap s.tablePages ++ [s.pd]) := by
  obtain ⟨-, hlist, -⟩ := destroyTables_spec h hap 768 le_rfl
  have hlast : (pdNo physBase).toNat = 768 := by decide
  unfold pagedirDestroy
  rw [if_neg (by rwa [h.dir]), if_neg (by rwa [h.dir]), hlast]
  simp only [freePage, hlist]

end DirMem

/-- The user page with two given indexes. -/
def pageAt (i j : ℕ) : Word := BitVec.ofNat 32 (i * 4194304 + j * 4096)

theorem pageAt_spec (hi : i < 768) (hj : j < 1024) :
    isUserVaddr (pageAt i j) = true ∧ pgRoundDown (pageAt i j) = pageAt i j ∧
      (pdNo (pageAt i j)).toNat = i ∧ (ptNo (pageAt i j)).toNat = j := by
  have hn : (pageAt i j).toNat = i * 4194304 + j * 4096 := by
    unfold pageAt
    rw [BitVec.toNat_ofNat]
    omega
  refine ⟨?_, ?_, ?_, ?_⟩
  · have hlt : (pageAt i j).toNat < 0xc0000000 := by omega
    simpa [isUserVaddr, physBase, BitVec.lt_def] using hlt
  · rw [← BitVec.toNat_inj, pgRoundDown_toNat]
    omega
  · rw [pdNo_toNat]
    omega
  · rw [ptNo_toNat]
    omega

/-- **Frames that belong to the mapped pages alone**: no two user pages share one, and none is the
    directory or one of its page tables. -/
structure Unshared (r : PdRun) : Prop where
  once : ∀ u v k, mapped r.log u = some k → mapped r.log v = some k → u = v
  apart : ∀ u k, mapped r.log u = some k →
    k ≠ r.dir.pd ∧ ∀ i < 768, r.dir.mem r.dir.pd i ≠ 0#32 → r.dir.table i ≠ k

namespace PdInv

variable {K : KernelPages} {pd : Word} {r : PdRun}

section

variable (h : PdInv K pd r)

include h

theorem entry_mapped (hi : i < 768) (hj : j < 1024) :
    frameOf (r.dir.entry i j) = mapped r.log (pageAt i j) := by
  obtain ⟨hu, hround, hpd, hpt⟩ := pageAt_spec hi hj
  have hf := h.frames _ hu
  unfold DirMem.frame at hf
  rwa [hround, hpd, hpt] at hf

theorem framesApart (hap : ∀ u k, mapped r.log u = some k →
    k ≠ r.dir.pd ∧ ∀ i < 768, r.dir.mem r.dir.pd i ≠ 0#32 → r.dir.table i ≠ k) :
    r.dir.FramesApart := by
  intro i hi j hj p hp
  rw [h.entry_mapped hi hj] at hp
  exact hap _ p hp

theorem mem_tablePages (hi : i < 768) :
    p ∈ r.dir.tablePages i ↔ (∃ j < 1024, mapped r.log (pageAt i j) = some p) ∨
      (r.dir.mem r.dir.pd i ≠ 0#32 ∧ r.dir.table i = p) := by
  unfold DirMem.tablePages
  by_cases hz : r.dir.mem r.dir.pd i = 0#32
  · rw [if_pos hz]
    constructor
    · intro hm
      cases hm
    · rintro (⟨j, hj, hm⟩ | ⟨hc, -⟩)
      · rw [← h.entry_mapped hi hj, DirMem.entry, if_pos hz, frameOf_zero] at hm
        cases hm
      · exact absurd hz hc
  · rw [if_neg hz, mem_append, mem_filterMap, mem_singleton]
    refine or_congr ⟨?_, ?_⟩ ⟨fun e => ⟨hz, e.symm⟩, fun e => e.2.symm⟩
    · rintro ⟨j, hj, hp⟩
      have hj' := mem_range.mp hj
      exact ⟨j, hj', by rw [← h.entry_mapped hi hj', hp]⟩
    · rintro ⟨j, hj, hp⟩
      exact ⟨j, mem_range.mpr hj, by rw [h.entry_mapped hi hj, hp]⟩

theorem tablePages_nodup (hun : Unshared r) (hi : i < 768) : (r.dir.tablePages i).Nodup := by
  unfold DirMem.tablePages
  by_cases hz : r.dir.mem r.dir.pd i = 0#32
  · rw [if_pos hz]
    exact nodup_nil
  · rw [if_neg hz, nodup_append]
    refine ⟨?_, nodup_singleton _, ?_⟩
    · refine pairwise_filterMap.mpr (nodup_range.imp_of_mem ?_)
      intro j j' hj hj' hne p hp q hq he
      have hj := mem_range.mp hj
      have hj' := mem_range.mp hj'
      rw [h.entry_mapped hi hj] at hp
      rw [h.entry_mapped hi hj', ← he] at hq
      have hpage := hun.once _ _ p hp hq
      rw [← (pageAt_spec hi hj).2.2.2, hpage, (pageAt_spec hi hj').2.2.2] at hne
      exact hne rfl
    · intro p hp q hq he
      obtain ⟨j, hj, hf⟩ := mem_filterMap.mp hp
      rw [h.entry_mapped hi (mem_range.mp hj)] at hf
      exact (hun.apart _ p hf).2 i hi hz ((mem_singleton.mp hq).symm.trans he.symm)

theorem tablePages_disjoint (hun : Unshared r) (hi : i < 768) (hi' : i' < 768) (hne : i ≠ i') :
    List.Disjoint (r.dir.tablePages i) (r.dir.tablePages i') := by
  intro p hp hp'
  rcases (h.mem_tablePages hi).mp hp with ⟨j, hj, hm⟩ | ⟨hz, ht⟩ <;>
    rcases (h.mem_tablePages hi').mp hp' with ⟨j', hj', hm'⟩ | ⟨hz', ht'⟩
  · have hpage := hun.once _ _ p hm hm'
    rw [← (pageAt_spec hi hj).2.2.1, hpage, (pageAt_spec hi' hj').2.2.1] at hne
    exact hne rfl
  · exact (hun.apart _ p hm).2 i' hi' hz' ht'
  · exact (hun.apart _ p hm').2 i hi hz ht
  · exact hne (h.dir.own i hi i' (by omega) hz hz' (ht.trans ht'.symm))

theorem mapped_pageAt (hm : mapped r.log u = some k) : ∃ i < 768, ∃ j < 1024, pageAt i j = u := by
  obtain ⟨hp, hu⟩ := h.pages u k hm
  have hj : (ptNo u).toNat < 1024 := by
    rw [ptNo_toNat]
    omega
  refine ⟨_, pdNo_user hu, _, hj, ?_⟩
  obtain ⟨-, hround, hpd, hpt⟩ := pageAt_spec (pdNo_user hu) hj
  rw [← hround]
  exact ((sameIndexes_iff hp).mp ⟨hpd, hpt⟩).symm

/-- The pages freed are those of the mapped user pages, the page tables and the directory. -/
theorem mem_destroyed (p : Word) : p ∈ (range 768).flatMap r.dir.tablePages ++ [r.dir.pd] ↔
      (∃ u, mapped r.log u = some p) ∨
        (∃ i < 768, r.dir.mem r.dir.pd i ≠ 0#32 ∧ r.dir.table i = p) ∨ p = r.dir.pd := by
  rw [mem_append, mem_flatMap, mem_singleton, ← or_assoc]
  refine or_congr ⟨?_, ?_⟩ Iff.rfl
  · rintro ⟨i, hi, hp⟩
    have hi := mem_range.mp hi
    rcases (h.mem_tablePages hi).mp hp with ⟨j, -, hm⟩ | ht
    · exact .inl ⟨_, hm⟩
    · exact .inr ⟨i, hi, ht⟩
  · rintro (⟨u, hm⟩ | ⟨i, hi, ht⟩)
    · obtain ⟨i, hi, j, hj, rfl⟩ := h.mapped_pageAt hm
      exact ⟨i, mem_range.mpr hi, (h.mem_tablePages hi).mpr (.inl ⟨j, hj, hm⟩)⟩
    · exact ⟨i, mem_range.mpr hi, (h.mem_tablePages hi).mpr (.inr ht)⟩

theorem destroyed_nodup (hun : Unshared r) :
    ((range 768).flatMap r.dir.tablePages ++ [r.dir.pd]).Nodup := by
  rw [nodup_append, nodup_flatMap]
  refine ⟨⟨fun i hi => h.tablePages_nodup hun (mem_range.mp hi), ?_⟩,
    nodup_singleton _, ?_⟩
  · refine nodup_range.imp_of_mem ?_
    intro i i' hi hi' hne
    exact h.tablePages_disjoint hun (mem_range.mp hi) (mem_range.mp hi') hne
  · intro p hp q hq he
    obtain ⟨i, hi, hp⟩ := mem_flatMap.mp hp
    have hi := mem_range.mp hi
    have hpd : p = r.dir.pd := he.trans (mem_singleton.mp hq)
    rcases (h.mem_tablePages hi).mp hp with ⟨j, -, hm⟩ | ⟨hz, ht⟩
    · exact (hun.apart _ p hm).1 hpd
    · exact h.dir.apart i (by omega) hz (ht.trans hpd)

/-- A frame of two user pages is freed twice. -/
theorem shared_not_nodup (hu : mapped r.log u = some k) (hv : mapped r.log v = some k)
    (hne : u ≠ v) : ¬((range 768).flatMap r.dir.tablePages ++ [r.dir.pd]).Nodup := by
  intro hnd
  obtain ⟨i, hi, j, hj, rfl⟩ := h.mapped_pageAt hu
  obtain ⟨i', hi', j', hj', rfl⟩ := h.mapped_pageAt hv
  obtain ⟨hin, hout⟩ := nodup_flatMap.mp (nodup_append.mp hnd).1
  have hmem : k ∈ r.dir.tablePages i := (h.mem_tablePages hi).mpr (.inl ⟨j, hj, hu⟩)
  have hmem' : k ∈ r.dir.tablePages i' := (h.mem_tablePages hi').mpr (.inl ⟨j', hj', hv⟩)
  by_cases hii : i = i'
  · subst hii
    have hz : r.dir.mem r.dir.pd i ≠ 0#32 := by
      intro hz
      rw [DirMem.tablePages_none hz] at hmem
      cases hmem
    have hjj : j ≠ j' := fun e => hne (by rw [e])
    have hone := hin i (mem_range.mpr hi)
    rw [DirMem.tablePages, if_neg hz] at hone
    -- the frames of one table come from different entries
    have hpair := pairwise_filterMap.mp (nodup_append.mp hone).1
    have : Std.Symm fun a b => ∀ p, frameOf (r.dir.entry i a) = some p →
        ∀ q, frameOf (r.dir.entry i b) = some q → p ≠ q :=
      ⟨fun a b hab p hp q hq e => hab q hq p hp e.symm⟩
    exact hpair.forall (mem_range.mpr hj) (mem_range.mpr hj') hjj k
      ((h.entry_mapped hi hj).trans hu) k ((h.entry_mapped hi hj').trans hv) rfl
  · have : Std.Symm (Function.onFun List.Disjoint r.dir.tablePages) :=
      ⟨fun a b hab p ha hb => hab hb ha⟩
    exact hout.forall (mem_range.mpr hi) (mem_range.mpr hi') hii hmem hmem'

end

end PdInv

/-! ## 7. The directory is the map -/

/-- The entries for an address of the kernel, in the directory and in the page table, are those of
    another directory. -/
def SameKernelEntries (s₀ s : DirMem) (va : Word) : Prop :=
  s.mem s.pd (pdNo va).toNat = s₀.mem s₀.pd (pdNo va).toNat ∧
    s.entry (pdNo va).toNat (ptNo va).toNat = s₀.entry (pdNo va).toNat (ptNo va).toNat

theorem DirInv.sameKernelEntries (h0 : DirInv K pd s₀) (h : DirInv K pd s) (hva : physBase ≤ va) :
    SameKernelEntries s₀ s va := by
  have hlo := pdNo_kernel hva
  have hhi := pdNo_lt va
  have hdir : s.mem s.pd (pdNo va).toNat = s₀.mem s₀.pd (pdNo va).toNat := by
    rw [h.kernelDir _ hlo hhi, h0.kernelDir _ hlo hhi]
  have htab : s.table (pdNo va).toNat = s₀.table (pdNo va).toNat := congrArg pdeGetPt hdir
  refine ⟨hdir, ?_⟩
  unfold DirMem.entry
  rw [hdir]
  by_cases hz : s₀.mem s₀.pd (pdNo va).toNat = 0#32
  · rw [if_pos hz, if_pos hz]
  · rw [if_neg hz, if_neg hz, h.kernelTable _ hlo hhi (by rwa [hdir]), htab,
      h0.kernelTable _ hlo hhi hz]

/-- **A page directory refines a map.** In every state that a run of calls reaches from a directory
    of `pagedir_create`: each further call returns; `pagedir_get_page` computes the map; a
    `pagedir_set_page` that fails changes no translation; the kernel's entries are those of the new
    directory; and if the frames belong to the mapped pages alone, `pagedir_destroy` frees each of
    them, each user page table and the directory exactly once, and nothing else. -/
theorem pagedir_refines_map (K : KernelPages) {pd : Word} (hpd : K.Free pd) {d : DirMem}
    (hc : pagedirCreate K (some pd) = some d) {r : PdRun}
    (hr : Reach (pdStep K) (PdOk K) ⟨d, []⟩ r) :
    (∀ e, PdOk K r e → (pdCall K r.dir e).isSome = true) ∧ (∀ u, isUserVaddr u = true →
      r.dir.LookupOk u ∧ r.dir.pagedirGetPage u = (mapped r.log (pgRoundDown u)).map (· + pgOfs u)) ∧
    (∀ e d', PdOk K r e → pdCall K r.dir e = some (d', false) →
      ∀ u, d'.pagedirGetPage u = r.dir.pagedirGetPage u) ∧
    (∀ va, physBase ≤ va → SameKernelEntries d r.dir va) ∧
    (Unshared r → ∃ freed, r.dir.pagedirDestroy K = some freed ∧ freed.Nodup ∧
      ∀ p, p ∈ freed ↔ (∃ u, mapped r.log u = some p) ∨
        (∃ i < 768, r.dir.mem pd i ≠ 0#32 ∧ r.dir.table i = p) ∨ p = pd) := by
  have h := pdRun_inv hpd hc hr
  have hne : pd ≠ K.initPageDir := hpd.2.1
  refine ⟨?_, ?_, ?_, ?_, ?_⟩
  · intro e ok
    obtain ⟨d', b, hcall, -⟩ := pdCall_spec h hne ok
    rw [hcall]
    rfl
  · intro u hu
    rw [DirMem.getPage_eq, h.frames u hu]
    exact ⟨h.dir.lookupOk u, rfl⟩
  · intro e d' ok hcall u
    obtain ⟨d'', b, hcall', -, hfail⟩ := pdCall_spec h hne ok
    obtain ⟨rfl, rfl⟩ : d'' = d' ∧ b = false := by simpa [hcall'] using hcall
    rw [hfail rfl]
  · intro va hva
    exact (pagedirCreate_inv hpd hc).dir.sameKernelEntries h.dir hva
  · intro hun
    have hpd0 : pd ≠ 0#32 := by
      rintro rfl
      exact absurd hpd.1.2.1 (by decide)
    refine ⟨_, DirMem.pagedirDestroy_eq h.dir hpd0 hne (h.framesApart hun.apart),
      h.destroyed_nodup hun,
      fun p => ?_⟩
    rw [h.mem_destroyed, h.dir.dir]

/-- A kernel of 64 MB with one page table for its own addresses. -/
def smallKernel : KernelPages where
  ram := 16384
  mem q i := if q = 0xc0101000#32 ∧ i = 768 then pdeCreate 0xc0102000#32 else 0#32
  initPageDir := 0xc0101000#32
  user i hi := if_neg fun c => by omega
  kernel i _ hz := by
    by_cases hi : i = 768
    · subst hi
      exact pdeCreate_present _
    · exact absurd (if_neg fun c => hi c.2) hz

/-- The pages of a small process: two are mapped in one table, a third finds no memory for a table
    and one of the two is unmapped again. -/
def smallProcess : List PdOp :=
  [.setPage 0x8048000#32 0xc0200000#32 false (some 0xc0104000#32),
    .setPage 0x8049000#32 0xc0201000#32 true none, .setPage 0xbffff000#32 0xc0202000#32 true none,
    .setDirty 0x8049000#32 true, .clearPage 0x8048000#32]

/-- The user page tables in use. -/
def userTables (s : DirMem) : List Word :=
  ((range 768).filter fun i => s.mem s.pd i != 0#32).map s.table

theorem table_mem_userTables (hi : i < 768) (hz : s.mem s.pd i ≠ 0#32) : s.table i ∈ userTables s :=
  mem_map_of_mem (mem_filter.mpr ⟨mem_range.mpr hi, by simpa using hz⟩)

theorem smallKernel_free : smallKernel.Free 0xc0103000#32 := ⟨by decide, by decide +kernel⟩

theorem pagedir_refines_map_small : smallKernel.Free 0xc0103000#32 ∧
    ∃ d r, pagedirCreate smallKernel (some 0xc0103000#32) = some d ∧
      Reach (pdStep smallKernel) (PdOk smallKernel) ⟨d, []⟩ r ∧
      r.dir.pagedirGetPage 0x8049123#32 = some 0xc0201123#32 ∧
      r.dir.pagedirGetPage 0x8048123#32 = none ∧
      ∃ freed, r.dir.pagedirDestroy smallKernel = some freed ∧ freed.Nodup ∧
        0xc0201000#32 ∈ freed ∧ 0xc0200000#32 ∉ freed := by
  have hrun : ((pagedirCreate smallKernel (some 0xc0103000#32)).bind fun d =>
      (runList (stepIf (pdStep smallKernel) (PdOk smallKernel)) ⟨d, []⟩ smallProcess).map fun r =>
        (r.log, r.dir.pd, userTables r.dir)) =
      some ((smallProcess.zip [true, true, false, true, true]).reverse, 0xc0103000#32,
        [0xc0104000#32]) := by
    decide +kernel
  obtain ⟨d, hd, hrun⟩ := Option.bind_eq_some_iff.mp hrun
  obtain ⟨r, hr, hobs⟩ := Option.map_eq_some_iff.mp hrun
  simp only [Prod.mk.injEq] at hobs
  obtain ⟨hlog, hpd, htab⟩ := hobs
  have htable : ∀ i < 768, r.dir.mem r.dir.pd i ≠ 0#32 → r.dir.table i = 0xc0104000#32 := by
    intro i hi hz
    have hm := table_mem_userTables hi hz
    rw [htab] at hm
    exact mem_singleton.mp hm
  have hmap : ∀ u, mapped r.log u = if u = 0x8049000#32 then some 0xc0201000#32 else none := by
    intro u
    rw [hlog]
    simp only [smallProcess, zip_cons_cons, zip_nil_right, reverse_cons,
      reverse_nil, nil_append, cons_append, mapped]
    grind
  have hmapped : ∀ {u k}, mapped r.log u = some k → u = 0x8049000#32 ∧ k = 0xc0201000#32 := by
    intro u k hk
    rw [hmap] at hk
    split at hk
    · exact ⟨by assumption, (Option.some.inj hk).symm⟩
    · cases hk
  have hun : Unshared r := by
    refine ⟨fun u v k hu hv => (hmapped hu).1.trans (hmapped hv).1.symm, fun u k hu => ?_⟩
    rw [(hmapped hu).2, hpd]
    refine ⟨by decide, fun i hi hz => ?_⟩
    rw [htable i hi (by rwa [hpd])]
    decide
  obtain ⟨-, hget, -, -, hdestroy⟩ :=
    pagedir_refines_map smallKernel smallKernel_free hd (reach_runIf _ hr)
  obtain ⟨freed, hfreed, hnodup, hmem⟩ := hdestroy hun
  refine ⟨smallKernel_free, d, r, hd, reach_runIf _ hr, ?_, ?_, freed, hfreed, hnodup, ?_, ?_⟩
  · rw [(hget _ (by decide)).2, hmap]
    decide
  · rw [(hget _ (by decide)).2, hmap]
    decide
  · exact (hmem _).mpr (.inl ⟨0x8049000#32, hmap _⟩)
  · rw [hmem]
    rintro (⟨u, hu⟩ | ⟨i, hi, hz, ht⟩ | hp)
    · exact absurd (hmapped hu).2 (by decide)
    · rw [htable i hi (by rwa [hpd])] at ht
      exact absurd ht (by decide)
    · exact absurd hp (by decide)

/-- Two user pages are given the same frame. -/
def sharedFrame : List PdOp :=
  [.setPage 0x8048000#32 0xc0200000#32 false (some 0xc0104000#32),
    .setPage 0x8049000#32 0xc0200000#32 false none]

/-- One frame for two user pages: the last step hands it to `palloc_free_page` twice. -/
theorem pagedir_shared_frame : smallKernel.Free 0xc0103000#32 ∧
    ∃ d r freed, pagedirCreate smallKernel (some 0xc0103000#32) = some d ∧
      Reach (pdStep smallKernel) (PdOk smallKernel) ⟨d, []⟩ r ∧
      mapped r.log 0x8048000#32 = some 0xc0200000#32 ∧
      r.dir.pagedirDestroy smallKernel = some freed ∧ ¬freed.Nodup := by
  have hrun : ((pagedirCreate smallKernel (some 0xc0103000#32)).bind fun d =>
      (runList (stepIf (pdStep smallKernel) (PdOk smallKernel)) ⟨d, []⟩ sharedFrame).map fun r =>
        (r.log, r.dir.pd, userTables r.dir)) =
      some ((sharedFrame.zip [true, true]).reverse, 0xc0103000#32, [0xc0104000#32]) := by
    decide +kernel
  obtain ⟨d, hd, hrun⟩ := Option.bind_eq_some_iff.mp hrun
  obtain ⟨r, hr, hobs⟩ := Option.map_eq_some_iff.mp hrun
  simp only [Prod.mk.injEq] at hobs
  obtain ⟨hlog, hpd, htab⟩ := hobs
  have h := pdRun_inv smallKernel_free hd (reach_runIf _ hr)
  have hmap : ∀ u, mapped r.log u =
      if u = 0x8048000#32 ∨ u = 0x8049000#32 then some 0xc0200000#32 else none := by
    intro u
    rw [hlog]
    simp only [sharedFrame, zip_cons_cons, zip_nil_right, reverse_cons,
      reverse_nil, nil_append, cons_append, mapped]
    grind
  have hap : ∀ u k, mapped r.log u = some k →
      k ≠ r.dir.pd ∧ ∀ i < 768, r.dir.mem r.dir.pd i ≠ 0#32 → r.dir.table i ≠ k := by
    intro u k hk
    have hkey : k = 0xc0200000#32 := by
      rw [hmap] at hk
      split at hk
      · exact (Option.some.inj hk).symm
      · cases hk
    rw [hkey, hpd]
    refine ⟨by decide, fun i hi hz ht => ?_⟩
    have hm := table_mem_userTables hi (by rwa [hpd])
    rw [htab, ht] at hm
    exact absurd (mem_singleton.mp hm) (by decide)
  have hdestroy := DirMem.pagedirDestroy_eq h.dir (by decide) (by decide) (h.framesApart hap)
  exact ⟨smallKernel_free, d, r, _, hd, reach_runIf _ hr, hmap _, hdestroy,
    h.shared_not_nodup (hmap 0x8048000#32) (hmap 0x8049000#32) (by decide)⟩

end Pintos
