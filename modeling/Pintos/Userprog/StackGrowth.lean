/-
  Subject:   `stack_growable` and `stack_allocate` (exception.c), with `install_page` (process.c).

  * `install_page` on the page directory is an insertion into the map from user pages to frames; the
    handlers are modelled over that map (`Vm.installPage_simulates`).
  * `stack_page` is one counter for all processes. It says where `stack_allocate` goes on, so growth
    by one process moves the place for the others.
  * The number of rounds is meant to be the number of pages from the bottom of the stack down to the
    one that `esp` points to, but it is computed with `%` in the place of `/`. `grownExactly_iff` says
    when that is what the stack needs.
-/
import Pintos.Userprog.PagedirMap

namespace Pintos

open Function BitVec Nat

/-! ## 1. install_page -/

namespace DirMem

/-- `install_page`, with what `palloc_get_page` returns if a page table is needed; `none` is a failed
    assertion. -/
def installPage (K : KernelPages) (s : DirMem) (upage kpage : Word) (writable : Bool)
    (alloc : Option Word) : Option (DirMem × Bool) :=
  if isUserVaddr upage = true ∧ s.LookupOk upage then
    if s.pagedirGetPage upage = none then s.pagedirSetPage K upage kpage writable alloc
    else some (s, false)
  else none

/-- There is a page table for the page, or memory for one. -/
def HasTable (s : DirMem) (upage : Word) (alloc : Option Word) : Prop :=
  s.mem s.pd (pdNo upage).toNat ≠ 0#32 ∨ alloc ≠ none

/-- The frame of a page and whether it may be written. -/
def pageAt (s : DirMem) (u : Word) : Option (Word × Bool) :=
  (s.frame u).map (·, decide (s.entry (pdNo u).toNat (ptNo u).toNat &&& pteW ≠ 0#32))

end DirMem

theorem pteCreateUser_writable (k : Word) (w : Bool) (hk : vtop k &&& pteW = 0#32) :
    decide (pteCreateUser k w &&& pteW ≠ 0#32) = w := by
  have hu : pteCreateUser k w &&& pteW = (if w then pteW else 0#32) &&& pteW := by
    unfold pteCreateUser pteCreateKernel
    rw [or_and_mask (f := pteU) (by decide), BitVec.or_comm, or_and_mask]
    rw [BitVec.and_comm, BitVec.and_or_distrib_left, BitVec.and_comm pteW, hk]
    decide
  rw [hu]
  cases w <;> decide

theorem IsFrame.vtop_pteW {ram : ℕ} {k : Word} (h : IsFrame ram k) : vtop k &&& pteW = 0#32 := by
  have hofs := h.pgOfs_vtop
  unfold pgOfs at hofs
  have hm : pteW = 0xfff#32 &&& pteW := by decide
  rw [hm, ← BitVec.and_assoc, hofs, BitVec.zero_and]

variable {kpage pd upage : Word} {g n : ℕ}

section Install

variable {K : KernelPages} {s : DirMem} {alloc : Option Word}

theorem installPage_cases (h : DirInv K pd s) (hne : pd ≠ K.initPageDir) (hp : pgOfs upage = 0#32)
    (hu : isUserVaddr upage = true) (hk : IsFrame K.ram kpage) (w : Bool)
    (ha : ∀ pt ∈ alloc, IsFrame K.ram pt ∧ s.Unused pt) :
    (s.installPage K upage kpage w alloc = some (s, false) ∧
      ¬ (s.pageAt upage = none ∧ s.HasTable upage alloc)) ∨
    ∃ s', s.installPage K upage kpage w alloc = some (s', true) ∧ DirInv K pd s' ∧
      (s.pageAt upage = none ∧ s.HasTable upage alloc) ∧
      ∀ u, s'.pageAt u = if upage = pgRoundDown u then some (kpage, w) else s.pageAt u := by
  unfold DirMem.installPage
  rw [if_pos ⟨hu, h.lookupOk upage⟩]
  have hnone : s.pagedirGetPage upage = none ↔ s.pageAt upage = none := by
    rw [DirMem.getPage_eq]
    unfold DirMem.pageAt
    simp only [Option.map_eq_none_iff]
  by_cases hfree : s.pagedirGetPage upage = none
  · rw [if_pos hfree]
    rcases h.setPage_entry hne hp hu hk hfree w ha with ⟨hc, hz, hal⟩ | ⟨s', hc, h', hav, he⟩
    · refine .inl ⟨hc, fun hgood => ?_⟩
      rcases hgood.2 with hn | hn
      · exact hn hz
      · exact hn hal
    · refine .inr ⟨s', hc, h', ⟨hnone.mp hfree, hav⟩, fun u => ?_⟩
      unfold DirMem.pageAt DirMem.frame
      rw [he _ (pdNo_lt u)]
      by_cases hi : upage = pgRoundDown u
      · rw [if_pos ((sameIndexes_iff hp).mpr hi), if_pos hi, hk.frameOf_create,
          pteCreateUser_writable _ _ hk.vtop_pteW]
        rfl
      · rw [if_neg fun hc => hi ((sameIndexes_iff hp).mp hc), if_neg hi]
  · rw [if_neg hfree]
    exact .inl ⟨rfl, fun hgood => hfree (hnone.mpr hgood.1)⟩

/-- **`install_page` is an insertion into the map**, which fails for a page that is mapped and when
    there is no memory for a page table. -/
theorem installPage_refines (h : DirInv K pd s) (hne : pd ≠ K.initPageDir)
    (hp : pgOfs upage = 0#32) (hu : isUserVaddr upage = true) (hk : IsFrame K.ram kpage) (w : Bool)
    (ha : ∀ pt ∈ alloc, IsFrame K.ram pt ∧ s.Unused pt) :
    ∃ s' b, s.installPage K upage kpage w alloc = some (s', b) ∧ DirInv K pd s' ∧
      (b = true ↔ s.pageAt upage = none ∧
        (s.mem s.pd (pdNo upage).toNat ≠ 0#32 ∨ alloc ≠ none)) ∧
      ∀ u, s'.pageAt u =
        if b = true ∧ upage = pgRoundDown u then some (kpage, w) else s.pageAt u := by
  rcases installPage_cases h hne hp hu hk w ha with ⟨hc, hbad⟩ | ⟨s', hc, h', hgood, hpage⟩
  · exact ⟨s, false, hc, h, iff_of_false Bool.false_ne_true hbad, fun u =>
      (if_neg fun hb => Bool.false_ne_true hb.1).symm⟩
  · exact ⟨s', true, hc, h', iff_of_true rfl hgood, fun u =>
      (hpage u).trans (if_congr (and_iff_right rfl).symm rfl rfl)⟩

end Install

/-- A page of a new process is installed, with a page table for it. -/
theorem installPage_refines_new :
    ∃ d s', pagedirCreate smallKernel (some 0xc0103000#32) = some d ∧
      d.installPage smallKernel 0x8048000#32 0xc0200000#32 true (some 0xc0104000#32) =
        some (s', true) ∧
      d.pageAt 0x8048123#32 = none ∧ s'.pageAt 0x8048123#32 = some (0xc0200000#32, true) := by
  obtain ⟨s', b, hc, -, hb, hpage⟩ := @installPage_refines 0xc0200000#32 _ 0x8048000#32 _ _
    (some 0xc0104000#32) (pagedirCreate_inv smallKernel_free rfl).dir (by decide) (by decide)
    (by decide) (by decide) true (fun pt hpt => by cases hpt; decide +kernel)
  obtain rfl : b = true := hb.mpr ⟨by decide, .inr nofun⟩
  exact ⟨_, s', rfl, hc, by decide, (hpage _).trans (if_pos (by decide))⟩

/-! ## 2. The handlers -/

/-- What the handlers see: the pages of the current process by number, with their frames and whether
    they may be written; the free frames of the user pool; for which pages there is a page table or
    memory for one; and the counter. -/
structure Vm where
  pages : ℕ → Option (Word × Bool)
  free : List Word
  tables : ℕ → Bool
  /-- `stack_page`. -/
  stackPage : ℕ

/-- `pg_no` of a user address. -/
def pageNo (va : Word) : ℕ := va.toNat / 4096

/-- `PHYS_BASE - stack_page * PAGE_SIZE`. -/
def stackBottom (stackPage : ℕ) : Word := physBase - BitVec.ofNat 32 (stackPage * 4096)

namespace Vm

/-- `install_page` on the map. -/
def installPage (s : Vm) (upage kpage : Word) (writable : Bool) : Option (Vm × Bool) :=
  if isUserVaddr upage then
    if s.pages (pageNo upage) = none ∧ s.tables (pageNo upage) = true then
      some ({ s with
        pages := update s.pages (pageNo upage) (some (kpage, writable)) }, true)
    else some (s, false)
  else none

/-- `stack_growable`. -/
def stackGrowable (s : Vm) (esp : Word) : Bool :=
  decide (esp ≤ stackBottom s.stackPage ∧ physBase - BitVec.ofNat 32 (8 * 1024 * 1024) ≤ esp)

/-- `page_allocs` of `stack_allocate`, as the unsigned loop variable is compared with it. -/
def pageAllocs (s : Vm) (esp : Word) : ℕ :=
  ((stackBottom s.stackPage - esp + 4095#32).srem 4096#32).toNat

/-- One round of the loop of `stack_allocate`. -/
def allocRound (s : Vm) : Option Vm :=
  match s.free with
  | [] => some s
  | kpage :: free =>
    (installPage { s with free := free } (stackBottom s.stackPage - 4096#32) kpage true).map
      fun (s', success) =>
        if success then { s' with stackPage := s.stackPage + 1 }
        else { s' with free := kpage :: s'.free }

def allocRounds : ℕ → Vm → Option Vm
  | 0, s => some s
  | n + 1, s => s.allocRound.bind (allocRounds n)

/-- `stack_allocate`. -/
def stackAllocate (s : Vm) (esp : Word) : Option Vm := allocRounds (s.pageAllocs esp) s

end Vm

/-! ## 3. The rounds -/

/-- The number of the `i`-th page below `PHYS_BASE`, the first being 1. It is not unfolded when terms
    are compared, which would count down from 786432. -/
@[irreducible]
def slot (i : ℕ) : ℕ := 786432 - i

theorem stackBottom_toNat (hg : g ≤ 786432) : (stackBottom g).toNat = 0xc0000000 - 4096 * g := by
  have hb : physBase.toNat = 0xc0000000 := rfl
  have hn : (BitVec.ofNat 32 (g * 4096)).toNat = g * 4096 := by
    rw [toNat_ofNat]
    exact mod_eq_of_lt (by omega)
  have hle : BitVec.ofNat 32 (g * 4096) ≤ physBase := by
    rw [le_def, hn, hb]
    omega
  unfold stackBottom
  rw [toNat_sub_of_le hle, hn, hb]
  omega

theorem nextPage (hg : g < 786432) : isUserVaddr (stackBottom g - 4096#32) = true ∧
      pageNo (stackBottom g - 4096#32) = slot (g + 1) := by
  have hbot := stackBottom_toNat (le_of_lt hg)
  have hc : (4096#32).toNat = 4096 := rfl
  have hle : 4096#32 ≤ stackBottom g := by
    rw [le_def, hbot, hc]
    omega
  have hval : (stackBottom g - 4096#32).toNat = 0xc0000000 - 4096 * g - 4096 := by
    rw [toNat_sub_of_le hle, hbot, hc]
  have hb : physBase.toNat = 0xc0000000 := rfl
  refine ⟨?_, ?_⟩
  · unfold isUserVaddr
    rw [decide_eq_true_eq, lt_def, hval, hb]
    omega
  · unfold pageNo slot
    rw [hval]
    omega

variable {s' : Vm}

namespace Vm

/-- The next page below the counter can be installed. -/
def CanGrow (s : Vm) (i : ℕ) : Prop := s.pages (slot i) = none ∧ s.tables (slot i) = true

instance (s : Vm) (i : ℕ) : Decidable (s.CanGrow i) := inferInstanceAs (Decidable (_ ∧ _))

theorem installPage_user (s : Vm) (hu : isUserVaddr upage = true) (kpage : Word) (writable : Bool) :
    s.installPage upage kpage writable =
      some (if s.pages (pageNo upage) = none ∧ s.tables (pageNo upage) = true then
        ({ s with
          pages := update s.pages (pageNo upage) (some (kpage, writable)) }, true)
      else (s, false)) := by
  unfold installPage
  rw [if_pos hu]
  split <;> rfl

/-- The pages that the map shows are those of the directory. -/
def Shows (v : Vm) (s : DirMem) : Prop :=
  ∀ u, isUserVaddr u = true → v.pages (pageNo u) = s.pageAt u

/-- **The directory simulates the map**: the same answer, and the same pages after it. -/
theorem installPage_simulates {K : KernelPages} {s : DirMem} {v : Vm} {alloc : Option Word}
    (h : DirInv K pd s) (hne : pd ≠ K.initPageDir) (hp : pgOfs upage = 0#32)
    (hu : isUserVaddr upage = true) (hk : IsFrame K.ram kpage) (w : Bool)
    (ha : ∀ pt ∈ alloc, IsFrame K.ram pt ∧ s.Unused pt) (hv : v.Shows s)
    (ht : v.tables (pageNo upage) = true ↔ s.HasTable upage alloc) :
    ∃ s' v' b, s.installPage K upage kpage w alloc = some (s', b) ∧
      v.installPage upage kpage w = some (v', b) ∧ DirInv K pd s' ∧ v'.Shows s' := by
  rw [installPage_user v hu]
  rcases installPage_cases h hne hp hu hk w ha with ⟨hc, hbad⟩ | ⟨s', hc, h', hgood, hpage⟩
  · refine ⟨s, v, false, hc, ?_, h, hv⟩
    rw [if_neg fun hboth => hbad ⟨(hv upage hu).symm.trans hboth.1, ht.mp hboth.2⟩]
  · refine ⟨s', { v with pages := update v.pages (pageNo upage) (some (kpage, w)) }, true, hc, ?_, h',
      fun u hus => ?_⟩
    · rw [if_pos ⟨(hv upage hu).trans hgood.1, ht.mpr hgood.2⟩]
    · have hsame : pageNo u = pageNo upage ↔ upage = pgRoundDown u := by
        have hmod : upage.toNat % 4096 = 0 := by
          rw [← pgOfs_toNat, hp]
          rfl
        rw [← toNat_inj, pgRoundDown_toNat]
        unfold pageNo
        omega
      rw [hpage u]
      by_cases he : upage = pgRoundDown u
      · rw [if_pos he, ← hsame.mpr he]
        exact update_self ..
      · rw [if_neg he]
        exact (update_of_ne (fun e => he (hsame.mp e)) ..).trans (hv u hus)

theorem allocRound_eq (s : Vm) (hg : s.stackPage < 786432) : s.allocRound = some (match s.free with
      | [] => s
      | kpage :: free =>
        if s.CanGrow (s.stackPage + 1) then
          { s with
            pages := update s.pages (slot (s.stackPage + 1)) (some (kpage, true))
            free := free
            stackPage := s.stackPage + 1 }
        else s) := by
  obtain ⟨huser, hno⟩ := nextPage hg
  unfold allocRound
  cases hf : s.free with
  | nil => rfl
  | cons kpage free =>
    have hinst := installPage_user { s with free := free } huser kpage true
    rw [hno] at hinst
    dsimp only
    rw [hinst, Option.map_some]
    by_cases hc : s.CanGrow (s.stackPage + 1)
    · have hboth : s.pages (slot (s.stackPage + 1)) = none ∧
          s.tables (slot (s.stackPage + 1)) = true := hc
      rw [if_pos hboth, if_pos hc]
      rfl
    · have hboth : ¬(s.pages (slot (s.stackPage + 1)) = none ∧
          s.tables (slot (s.stackPage + 1)) = true) := hc
      rw [if_neg hboth, if_neg hc]
      simp only [Bool.false_eq_true, if_false]
      rw [← hf]

end Vm

/-- **Pages that rounds of `stack_allocate` have filled**: of `r` rounds that had a frame, some have mapped
    the pages below the counter, one after another, with these frames, and the others have found a page
    that cannot be installed. -/
structure Filled (s : Vm) (frames : List Word) (r : ℕ) (pages : ℕ → Option (Word × Bool)) : Prop where
  few : frames.length ≤ r
  could : ∀ i, s.stackPage < i → i ≤ s.stackPage + frames.length → s.CanGrow i
  stop : frames.length = r ∨ ¬ s.CanGrow (s.stackPage + frames.length + 1)
  mapped : ∀ i, i < frames.length → pages (slot (s.stackPage + 1 + i)) = frames[i]?.map (·, true)
  others : ∀ p, ¬(slot (s.stackPage + frames.length) ≤ p ∧ p < slot s.stackPage) → pages p = s.pages p

namespace Filled

variable {s : Vm} {r : ℕ} {frames : List Word} {pages : ℕ → Option (Word × Bool)}

theorem zero : Filled s [] 0 s.pages where
  few := le_refl 0
  could _ h1 h2 := absurd h2 (Nat.not_le_of_lt h1)
  stop := .inl rfl
  mapped i hi := absurd hi (not_lt_zero i)
  others _ _ := rfl

/-- The page of the next round is as it was at the start. -/
theorem next (h : Filled s frames r pages) (hle : s.stackPage + frames.length < 786432) :
    pages (slot (s.stackPage + frames.length + 1)) =
      s.pages (slot (s.stackPage + frames.length + 1)) :=
  h.others _ (by unfold slot; omega)

theorem page (h : Filled s frames r pages) {i : ℕ} (h1 : s.stackPage < i)
    (h2 : i ≤ s.stackPage + frames.length) : ∃ frame, pages (slot i) = some (frame, true) := by
  have hm := h.mapped (i - (s.stackPage + 1)) (by omega)
  rw [show s.stackPage + 1 + (i - (s.stackPage + 1)) = i by omega,
    List.getElem?_eq_getElem (by omega)] at hm
  exact ⟨_, hm⟩

theorem grow (h : Filled s frames r pages) (hle : s.stackPage + frames.length < 786432)
    (hc : s.CanGrow (s.stackPage + frames.length + 1)) (frame : Word) :
    Filled s (frames ++ [frame]) (r + 1)
      (update pages (slot (s.stackPage + frames.length + 1)) (some (frame, true))) := by
  have hlen : (frames ++ [frame]).length = frames.length + 1 := List.length_append
  refine ⟨hlen ▸ succ_le_succ h.few, fun i h1 h2 => ?_, .inl ?_, fun i hi => ?_, fun p hp => ?_⟩
  · rw [hlen] at h2
    rcases eq_or_lt_of_le h2 with rfl | hlt
    · exact hc
    · exact h.could i h1 (by omega)
  · rw [hlen, h.stop.resolve_right fun hn => hn hc]
  · rw [hlen] at hi
    rcases eq_or_lt_of_le (le_of_lt_succ hi) with rfl | hlt
    · rw [show s.stackPage + 1 + frames.length = s.stackPage + frames.length + 1 by omega, update_self,
        List.getElem?_concat_length]
      rfl
    · have hne : slot (s.stackPage + 1 + i) ≠ slot (s.stackPage + frames.length + 1) := by
        unfold slot
        omega
      rw [update_of_ne hne, List.getElem?_append_left hlt]
      exact h.mapped i hlt
  · rw [hlen] at hp
    have hne : p ≠ slot (s.stackPage + frames.length + 1) := fun he => hp (by
      rw [he]
      unfold slot
      omega)
    rw [update_of_ne hne]
    exact h.others p fun hin => hp (by unfold slot at *; omega)

theorem stuck (h : Filled s frames r pages) (hc : ¬ s.CanGrow (s.stackPage + frames.length + 1)) :
    Filled s frames (r + 1) pages :=
  { h with few := le_succ_of_le h.few, stop := .inr hc }

end Filled

namespace Vm

variable {s : Vm} {esp : Word} {frames : List Word}

/-- **What `n` rounds have done**, `r` of which had a frame. -/
structure Rounds (s : Vm) (n r : ℕ) (frames : List Word) (s' : Vm) : Prop where
  filled : Filled s frames r s'.pages
  few : r ≤ n
  stop : r = n ∨ s'.free = []
  free : s.free = frames ++ s'.free
  stackPage : s'.stackPage = s.stackPage + frames.length
  tables : s'.tables = s.tables

theorem Rounds.canGrow {r : ℕ} (h : Rounds s n r frames s')
    (hg : s.stackPage + frames.length < 786432) :
    s'.CanGrow (s'.stackPage + 1) ↔ s.CanGrow (s.stackPage + frames.length + 1) := by
  unfold CanGrow
  rw [h.stackPage, h.tables, h.filled.next hg]

/-- **One more round.** -/
theorem Rounds.next {r : ℕ} (h : Rounds s n r frames s') (hg : s.stackPage + n < 786432) :
    ∃ r' frames' s'', s'.allocRound = some s'' ∧ Rounds s (n + 1) r' frames' s'' := by
  have hlen := h.filled.few
  have hfew := h.few
  have hround := s'.allocRound_eq (by rw [h.stackPage]; omega)
  cases hf : s'.free with
  | nil =>
    rw [hf] at hround
    exact ⟨r, frames, s', hround, { h with few := le_succ_of_le hfew, stop := .inr hf }⟩
  | cons kpage free =>
    obtain rfl : r = n := h.stop.resolve_right (by rw [hf]; nofun)
    rw [hf] at hround
    by_cases hc : s.CanGrow (s.stackPage + frames.length + 1)
    · refine ⟨r + 1, frames ++ [kpage], _,
        hround.trans (congrArg some (if_pos ((h.canGrow (by omega)).mpr hc))), ?_, le_refl _,
        .inl rfl, ?_, ?_, h.tables⟩
      · have hgrown := h.filled.grow (by omega) hc kpage
        rwa [← h.stackPage] at hgrown
      · rw [h.free, hf, List.append_assoc]
        rfl
      · show s'.stackPage + 1 = _
        rw [h.stackPage, List.length_append]
        rfl
    · exact ⟨r + 1, frames, s',
        hround.trans (congrArg some (if_neg fun hc' => hc ((h.canGrow (by omega)).mp hc'))),
        { h with filled := h.filled.stuck hc, few := le_refl _, stop := .inl rfl }⟩

/-- **The rounds**, by induction on the number of those that are left. -/
theorem Rounds.all {m r : ℕ} (h : Rounds s n r frames s') (hg : s.stackPage + n + m ≤ 786432) :
    ∃ r' frames' s'', allocRounds m s' = some s'' ∧ Rounds s (n + m) r' frames' s'' := by
  induction m generalizing n r frames s' with
  | zero => exact ⟨r, frames, s', rfl, h⟩
  | succ m ih =>
    obtain ⟨r₁, frames₁, s₁, hround, h₁⟩ := h.next (by omega)
    obtain ⟨r₂, frames₂, s₂, hrun, h₂⟩ := ih h₁ (by omega)
    refine ⟨r₂, frames₂, s₂, ?_, ?_⟩
    · unfold allocRounds
      rw [hround]
      exact hrun
    · rwa [show n + (m + 1) = n + 1 + m by omega]

theorem allocRounds_spec (hg : s.stackPage + n ≤ 786432) :
    ∃ r frames s', allocRounds n s = some s' ∧ Rounds s n r frames s' := by
  have h0 : Rounds s 0 0 [] s := ⟨.zero, le_refl 0, .inl rfl, rfl, rfl, rfl⟩
  have h := h0.all (m := n) hg
  rwa [zero_add] at h

/-! ## 4. How many rounds -/

/-- What `stack_growable` says, for a counter that does not reach around the address space. -/
theorem growable_iff (hg : s.stackPage ≤ 786432) :
    s.stackGrowable esp = true ↔ esp.toNat ≤ 0xc0000000 - 4096 * s.stackPage ∧
      0xc0000000 - 8388608 ≤ esp.toNat := by
  have hlow : (physBase - BitVec.ofNat 32 (8 * 1024 * 1024)).toNat = 0xc0000000 - 8388608 := by decide
  unfold stackGrowable
  rw [decide_eq_true_eq, le_def, le_def, stackBottom_toNat hg, hlow]

/-- **The number of rounds** is a remainder. -/
theorem pageAllocs_eq (hg : s.stackPage ≤ 786432) (hgrow : s.stackGrowable esp = true) :
    s.pageAllocs esp =
      (0xc0000000 - 4096 * s.stackPage - esp.toNat + 4095) % 4096 := by
  obtain ⟨h1, h2⟩ := (growable_iff hg).mp hgrow
  have hbot := stackBottom_toNat hg
  have hdiff : (stackBottom s.stackPage - esp).toNat = 0xc0000000 - 4096 * s.stackPage - esp.toNat := by
    rw [toNat_sub_of_le (by rw [le_def, hbot]; exact h1), hbot]
  have hc : (4095#32).toNat = 4095 := rfl
  have hsum : (stackBottom s.stackPage - esp + 4095#32).toNat =
      0xc0000000 - 4096 * s.stackPage - esp.toNat + 4095 := by
    rw [toNat_add_of_lt (by rw [hdiff, hc]; omega), hdiff, hc]
  have hmsb : (stackBottom s.stackPage - esp + 4095#32).msb = false := by
    rw [msb_eq_false_iff_two_mul_lt, hsum]
    omega
  have hmsb' : (4096#32).msb = false := by decide
  unfold pageAllocs
  rw [srem_eq, hmsb, hmsb']
  show (BitVec.umod _ _).toNat = _
  rw [umod_eq, toNat_umod, hsum]
  rfl

end Vm

/-! ## 5. The stack -/

/-- The `i`-th page below `PHYS_BASE` is mapped. -/
def MappedAt (pages : ℕ → Option (Word × Bool)) (i : ℕ) : Prop :=
  1 ≤ i ∧ i ≤ 786432 ∧ pages (slot i) ≠ none

/-- **The stack has `k` pages**: those down to the `k`-th are mapped and the next one is not. -/
def StackOf (pages : ℕ → Option (Word × Bool)) (k : ℕ) : Prop :=
  (∀ i, 1 ≤ i → i ≤ k → MappedAt pages i) ∧ ¬ MappedAt pages (k + 1)

/-- Which page below `PHYS_BASE` an address lies in. -/
def slotOf (va : Word) : ℕ := 786432 - pageNo va

/-- **The stack has grown to what `esp` needs**: the missing pages are mapped writable, none below
    them is, and the counter is the number of pages. -/
structure GrownExactly (k : ℕ) (esp : Word) (s s' : Vm) : Prop where
  mapped : ∀ i, k < i → i ≤ slotOf esp → ∃ frame, s'.pages (slot i) = some (frame, true)
  nothingLower : ∀ i ≤ 786432, max k (slotOf esp) < i → s'.pages (slot i) ≠ none →
    s.pages (slot i) ≠ none
  recorded : StackOf s'.pages s'.stackPage

namespace Vm

variable {s : Vm} {k : ℕ} {esp : Word}

theorem slotOf_eq (hk : s.stackPage ≤ 786432) (hgrow : s.stackGrowable esp = true) :
    slotOf esp = (0xc0000000 - esp.toNat + 4095) / 4096 ∧ s.stackPage ≤ slotOf esp ∧
      slotOf esp ≤ 2048 := by
  obtain ⟨h1, h2⟩ := (growable_iff hk).mp hgrow
  unfold slotOf pageNo
  omega

end Vm

namespace Filled

variable {s : Vm} {r k : ℕ} {frames : List Word} {pages : ℕ → Option (Word × Bool)}

/-- With the counter of another process nothing good comes out. -/
theorem counter_eq (h : Filled s frames r pages) (hk : StackOf s.pages k)
    (hrec : StackOf pages (s.stackPage + frames.length)) : s.stackPage = k := by
  rcases Nat.lt_trichotomy s.stackPage k with hlt | heq | hgt
  · -- the next page is mapped already, so every round fails
    exfalso
    have hnext : MappedAt s.pages (s.stackPage + 1) := hk.1 _ (by omega) hlt
    have ht : frames.length = 0 := by
      rcases Nat.eq_zero_or_pos frames.length with h0 | h0
      · exact h0
      · exact absurd (h.could (s.stackPage + 1) (by omega) (by omega)).1 hnext.2.2
    have hle := hnext.2.1
    refine hrec.2 ⟨by omega, by omega, ?_⟩
    rw [h.next (by omega), ht]
    exact hnext.2.2
  · exact heq
  · -- the first missing page lies above the counter and is not touched
    exfalso
    have hmap := hrec.1 (k + 1) (by omega) (by omega)
    refine hk.2 ⟨by omega, hmap.2.1, ?_⟩
    rw [← h.others (slot (k + 1)) (by unfold slot; omega)]
    exact hmap.2.2

end Filled

/-- **When `stack_allocate` maps exactly the missing pages**, if it gets every frame that it asks for.
    With `n` pages missing: the counter is the one of this process, nothing else lies where the stack
    goes, there is memory for the page tables, and the rounds stop after `n` pages, because there are
    `n` of them or because there is no page table for the next. -/
theorem grownExactly_iff {s s' : Vm} {k : ℕ} {esp : Word} {frames : List Word} (hk : StackOf s.pages k)
    (hg : s.stackPage ≤ 786432) (hgrow : s.stackGrowable esp = true)
    (h : Filled s frames (s.pageAllocs esp) s'.pages)
    (hpage : s'.stackPage = s.stackPage + frames.length) :
    GrownExactly k esp s s' ↔
      s.stackPage = k ∧ (∀ i, k < i → i ≤ slotOf esp → s.CanGrow i) ∧
      s.pages (slot (slotOf esp + 1)) = none ∧
      slotOf esp - k ≤ (0xc0000000 - 4096 * k - esp.toNat + 4095) % 4096 ∧
      (slotOf esp - k = (0xc0000000 - 4096 * k - esp.toNat + 4095) % 4096 ∨
        s.tables (slot (slotOf esp + 1)) = false) := by
  obtain ⟨-, hslot, hmax⟩ := Vm.slotOf_eq hg hgrow
  have hallocs := Vm.pageAllocs_eq hg hgrow
  have hfew := h.few
  constructor
  · intro hgrown
    have hrec := hgrown.recorded
    rw [hpage] at hrec
    obtain rfl := h.counter_eq hk hrec
    have hnext : s.pages (slot (s.stackPage + frames.length + 1)) = none := by
      by_contra hne
      exact hrec.2 ⟨by omega, by omega, by rw [h.next (by omega)]; exact hne⟩
    -- neither fewer nor more pages than the missing ones have been mapped
    have ht : s.stackPage + frames.length = slotOf esp := by
      rcases Nat.lt_trichotomy (s.stackPage + frames.length) (slotOf esp) with hless | heq | hmore
      · obtain ⟨frame, hmap⟩ := hgrown.mapped (s.stackPage + frames.length + 1) (by omega) (by omega)
        rw [h.next (by omega), hnext] at hmap
        cases hmap
      · exact heq
      · have hcould := h.could (s.stackPage + frames.length) (by omega) (le_refl _)
        obtain ⟨frame, hmap⟩ := h.page (i := s.stackPage + frames.length) (by omega) (le_refl _)
        exact absurd hcould.1 (hgrown.nothingLower (s.stackPage + frames.length) (by omega) (by omega)
          (by rw [hmap]; nofun))
    rw [← ht, ← hallocs, Nat.add_sub_cancel_left]
    refine ⟨rfl, h.could, hnext, hfew, ?_⟩
    rcases h.stop with hstop | hstop
    · exact .inl hstop
    · refine .inr ?_
      by_contra hne
      exact hstop ⟨hnext, by simpa using hne⟩
  · intro hcond
    obtain ⟨rfl, hcan, hnext, hle, hstop⟩ := hcond
    rw [← hallocs] at hle hstop
    have ht : s.stackPage + frames.length = slotOf esp := by
      rcases Nat.lt_trichotomy (s.stackPage + frames.length) (slotOf esp) with hless | heq | hmore
      · exfalso
        rcases h.stop with hs | hs
        · omega
        · exact hs (hcan _ (by omega) (by omega))
      · exact heq
      · exfalso
        rcases hstop with hs | hs
        · omega
        · have hc := (h.could (slotOf esp + 1) (by omega) (by omega)).2
          rw [hs] at hc
          cases hc
    have hold : ∀ i, s.stackPage + frames.length < i → i ≤ 786432 → s'.pages (slot i) = s.pages (slot i) :=
      fun i h1 h2 => h.others _ (by unfold slot; omega)
    refine ⟨fun i h1 h2 => h.page h1 (by omega), fun i h1 h2 hne => ?_, ?_⟩
    · rwa [hold i (by omega) h1] at hne
    · rw [hpage]
      refine ⟨fun i h1 h2 => ?_, fun hm => hm.2.2 ?_⟩
      · rcases lt_or_ge s.stackPage i with hlt | hge
        · obtain ⟨frame, hm⟩ := h.page hlt h2
          exact ⟨h1, by omega, by rw [hm]; nofun⟩
        · have hm := hk.1 i h1 hge
          refine ⟨h1, hm.2.1, ?_⟩
          rw [h.others _ (by unfold slot; omega)]
          exact hm.2.2
      · rw [hold _ (by omega) (by omega), show s.stackPage + frames.length + 1 = slotOf esp + 1 by omega]
        exact hnext

/-- A process with one page of stack, and memory for page tables. -/
def oneStackPage (free : List Word) (stackPage : ℕ) : Vm where
  pages p := if p = 786431 then some (0xc0300000#32, true) else none
  free := free
  tables _ := true
  stackPage := stackPage

end Pintos
