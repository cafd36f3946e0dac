/-
  Subject:   Loadable segments: `validate_segment`, the `PT_LOAD` case of `load`, and `load_segment`
             (process.c).

  * The fields of a program header are 32-bit words, and all arithmetic of the source is done on
    them.
  * A read from the file gives fewer bytes than asked for at the end of the file, or when the file
    system has no memory for its buffer (`ExecFile.caps`); a page may be mapped already, or there
    may be no page table for it (`Vm.installPage`).
  * **`elf_segment_loading`**: the arguments, the pages and the bytes of a valid segment.
-/
import Pintos.Userprog.StackGrowth

namespace Pintos

open Function BitVec Nat

/-! ## 1. The code -/

/-- The fields of `struct Elf32_Phdr` that describe a segment. -/
structure Phdr where
  pOffset : Word
  pVaddr : Word
  pFilesz : Word
  pMemsz : Word
  pFlags : Word

/-- An open file. `caps` says of the coming reads how many bytes the file system can deliver; those
    it does not name are not limited. -/
structure ExecFile where
  bytes : ℕ → UInt8
  length : ℕ
  pos : ℕ
  caps : List ℕ

/-- `file_read`: how many bytes it has read. -/
def ExecFile.read (f : ExecFile) (n : ℕ) : ExecFile × ℕ :=
  let got := min (min n (f.length - f.pos)) (f.caps.headD n)
  ({ f with pos := f.pos + got, caps := f.caps.tail }, got)

/-- `validate_segment`. -/
def validateSegment (ph : Phdr) (fileLength : ℕ) : Bool :=
  decide (pgOfs ph.pOffset = pgOfs ph.pVaddr) &&
  decide (ph.pOffset ≤ BitVec.ofNat 32 fileLength) &&
  decide (ph.pFilesz ≤ ph.pMemsz) &&
  decide (ph.pMemsz ≠ 0#32) &&
  isUserVaddr ph.pVaddr &&
  isUserVaddr (ph.pVaddr + ph.pMemsz) &&
  decide (ph.pVaddr ≤ ph.pVaddr + ph.pMemsz) &&
  decide (4096#32 ≤ ph.pVaddr)

/-- `ROUND_UP (x, PGSIZE)`. -/
def roundUpPage (x : Word) : Word := (x + 4096#32 - 1#32) / 4096#32 * 4096#32

/-- The arguments of `load_segment`. -/
structure SegmentArgs where
  filePage : Word
  memPage : Word
  readBytes : Word
  zeroBytes : Word
  writable : Bool

/-- The `PT_LOAD` case of `load`. -/
def segmentArgs (ph : Phdr) : SegmentArgs :=
  let pageOffset := pgOfs ph.pVaddr
  let readBytes := if 0#32 < ph.pFilesz then pageOffset + ph.pFilesz else 0#32
  { filePage := pgRoundDown ph.pOffset
    memPage := pgRoundDown ph.pVaddr
    readBytes := readBytes
    zeroBytes := if 0#32 < ph.pFilesz then roundUpPage (pageOffset + ph.pMemsz) - readBytes
      else roundUpPage (pageOffset + ph.pMemsz)
    writable := decide (ph.pFlags &&& 2#32 ≠ 0#32) }

/-- What `load_segment` works on: the address space, the bytes of the frames, and the file. -/
structure Loader where
  vm : Vm
  frames : Word → ℕ → UInt8
  file : ExecFile

/-- `palloc_free_page`, which fills the page with `0xcc`. -/
def Loader.freePage (s : Loader) (kpage : Word) : Loader :=
  { s with
    vm := { s.vm with free := kpage :: s.vm.free }
    frames := update s.frames kpage fun _ => 0xcc }

/-- The body of the loop of `load_segment`, up to "Advance". -/
def loadPage (s : Loader) (upage pageReadBytes : Word) (writable : Bool) : Option (Loader × Bool) :=
  match s.vm.free with
  | [] => some (s, false)
  | knpage :: free =>
    let n := pageReadBytes.toNat
    let (file, got) := s.file.read n
    let page := fun j => if j < got then s.file.bytes (s.file.pos + j) else s.frames knpage j
    let s : Loader :=
      { vm := { s.vm with free := free }
        frames := update s.frames knpage page
        file := file }
    if got ≠ n then some (s.freePage knpage, false)
    else
      let page := fun j => if n ≤ j ∧ j < 4096 then 0 else page j
      let s := { s with frames := update s.frames knpage page }
      (s.vm.installPage upage knpage writable).map fun (vm, success) =>
        if success then ({ s with vm := vm }, true)
        else ({ s with vm := vm }.freePage knpage, false)

/-- The loop of `load_segment`. -/
def segmentLoop (writable : Bool) : ℕ → Loader → Word → Word → Word → Option (Loader × Bool)
  | 0, _, _, _, _ => none
  | fuel + 1, s, upage, readBytes, zeroBytes =>
    if 0#32 < readBytes ∨ 0#32 < zeroBytes then
      let pageReadBytes := if readBytes < 4096#32 then readBytes else 4096#32
      let pageZeroBytes := 4096#32 - pageReadBytes
      (loadPage s upage pageReadBytes writable).bind fun (s, success) =>
        if success then
          segmentLoop writable fuel s (upage + 4096#32) (readBytes - pageReadBytes)
            (zeroBytes - pageZeroBytes)
        else some (s, false)
    else some (s, true)

/-- `load_segment`; `none` is a failed assertion, or a loop that goes on. -/
def loadSegment (fuel : ℕ) (s : Loader) (a : SegmentArgs) : Option (Loader × Bool) :=
  if (a.readBytes + a.zeroBytes) % 4096#32 = 0#32 ∧ pgOfs a.memPage = 0#32 ∧
      a.filePage.srem 4096#32 = 0#32 then
    -- `file_seek` asserts that the position is not negative
    if 0 ≤ a.filePage.toInt then
      segmentLoop a.writable fuel { s with file := { s.file with pos := a.filePage.toNat } }
        a.memPage a.readBytes a.zeroBytes
    else none
  else none

/-! ## 2. The tests, in numbers -/

/-- **What `validate_segment` lets through.** -/
structure ValidSegment (ph : Phdr) (fileLength : ℕ) : Prop where
  offset : ph.pOffset.toNat % 4096 = ph.pVaddr.toNat % 4096
  inFile : ph.pOffset.toNat ≤ fileLength
  sizes : ph.pFilesz.toNat ≤ ph.pMemsz.toNat
  nonempty : 0 < ph.pMemsz.toNat
  user : ph.pVaddr.toNat + ph.pMemsz.toNat < 0xc0000000
  page : 4096 ≤ ph.pVaddr.toNat

theorem isUserVaddr_iff (va : Word) : isUserVaddr va = true ↔ va.toNat < 0xc0000000 := by
  unfold isUserVaddr
  rw [decide_eq_true_eq, lt_def]
  exact Iff.rfl

variable {ph : Phdr}

variable {fuel i j n z : ℕ}

theorem validateSegment_spec (hn : n < 2 ^ 31) (h : validateSegment ph n = true) :
    ValidSegment ph n := by
  unfold validateSegment at h
  simp only [Bool.and_eq_true, decide_eq_true_eq, isUserVaddr_iff] at h
  obtain ⟨⟨⟨⟨⟨⟨⟨hofs, hin⟩, hsz⟩, hne⟩, hu⟩, hend⟩, hwrap⟩, hpage⟩ := h
  have hofs := congrArg BitVec.toNat hofs
  rw [pgOfs_toNat, pgOfs_toNat] at hofs
  rw [le_def] at hin hsz hwrap hpage
  rw [toNat_ofNat, mod_eq_of_lt (by omega)] at hin
  rw [toNat_add] at hend hwrap
  have hmem : ph.pMemsz.toNat ≠ 0 := fun hz => hne (eq_of_toNat_eq hz)
  have hc : (4096#32).toNat = 4096 := rfl
  exact ⟨hofs, hin, hsz, by omega, by omega, by omega⟩

/-- The number of pages of the segment. -/
def Phdr.pages (ph : Phdr) : ℕ := (ph.pVaddr.toNat % 4096 + ph.pMemsz.toNat + 4095) / 4096

/-- The number of bytes that are read. -/
def Phdr.readCount (ph : Phdr) : ℕ :=
  if 0 < ph.pFilesz.toNat then ph.pVaddr.toNat % 4096 + ph.pFilesz.toNat else 0

theorem roundUpPage_toNat {x : Word} (hx : x.toNat + 4096 < 2 ^ 32) :
    (roundUpPage x).toNat = (x.toNat + 4095) / 4096 * 4096 := by
  have hc : (4096#32).toNat = 4096 := rfl
  have hone : (1#32).toNat = 1 := rfl
  have hadd : (x + 4096#32).toNat = x.toNat + 4096 := by
    rw [toNat_add, hc]
    exact mod_eq_of_lt hx
  have hsub : (x + 4096#32 - 1#32).toNat = x.toNat + 4095 := by
    rw [toNat_sub_of_le (by rw [le_def, hadd, hone]; omega), hadd, hone]
    omega
  unfold roundUpPage
  rw [toNat_mul, toNat_udiv, hsub, hc]
  exact mod_eq_of_lt (by omega)

/-- **The arguments, in numbers**: none of the sums and differences wraps around. -/
structure ArgsOk (ph : Phdr) (a : SegmentArgs) : Prop where
  read : a.readBytes.toNat = ph.readCount
  zero : a.readBytes.toNat + a.zeroBytes.toNat = 4096 * ph.pages
  mem : a.memPage.toNat = 4096 * (ph.pVaddr.toNat / 4096)
  file : a.filePage.toNat = 4096 * (ph.pOffset.toNat / 4096)

theorem segmentArgs_ok (h : ValidSegment ph n) : ArgsOk ph (segmentArgs ph) := by
  obtain ⟨hofs, hin, hsz, hne, huser, hpage⟩ := h
  have hpo : (pgOfs ph.pVaddr).toNat = ph.pVaddr.toNat % 4096 := pgOfs_toNat _
  have hup : (roundUpPage (pgOfs ph.pVaddr + ph.pMemsz)).toNat = 4096 * ph.pages := by
    have hadd : (pgOfs ph.pVaddr + ph.pMemsz).toNat = ph.pVaddr.toNat % 4096 + ph.pMemsz.toNat := by
      rw [toNat_add, hpo]
      exact mod_eq_of_lt (by omega)
    rw [roundUpPage_toNat (by rw [hadd]; omega), hadd, mul_comm]
    rfl
  have hpos : 0#32 < ph.pFilesz ↔ 0 < ph.pFilesz.toNat := by
    rw [lt_def]
    exact Iff.rfl
  have hread : (pgOfs ph.pVaddr + ph.pFilesz).toNat =
      ph.pVaddr.toNat % 4096 + ph.pFilesz.toNat := by
    rw [toNat_add, hpo]
    exact mod_eq_of_lt (by omega)
  refine ⟨?_, ?_, ?_, ?_⟩
  · show (if 0#32 < ph.pFilesz then pgOfs ph.pVaddr + ph.pFilesz else 0#32).toNat = ph.readCount
    unfold Phdr.readCount
    by_cases hfz : 0 < ph.pFilesz.toNat
    · rw [if_pos (hpos.mpr hfz), if_pos hfz, hread]
    · rw [if_neg (mt hpos.mp hfz), if_neg hfz]
      rfl
  · unfold segmentArgs
    by_cases hfz : 0 < ph.pFilesz.toNat
    · have hle : pgOfs ph.pVaddr + ph.pFilesz ≤ roundUpPage (pgOfs ph.pVaddr + ph.pMemsz) := by
        rw [le_def, hread, hup]
        unfold Phdr.pages
        omega
      simp only [if_pos (hpos.mpr hfz)]
      rw [toNat_sub_of_le hle, hup]
      rw [le_def, hup] at hle
      omega
    · simp only [if_neg (mt hpos.mp hfz)]
      rw [hup]
      exact zero_add _
  · rw [mul_comm]
    exact pgRoundDown_toNat ph.pVaddr
  · rw [mul_comm]
    exact pgRoundDown_toNat ph.pOffset

/-! ## 3. The loop -/

/-- The bytes of the page with number `i` of the segment: `r` bytes come from the file. -/
def segmentByte (f : ExecFile) (r i j : ℕ) : UInt8 :=
  if 4096 * i + j < r then f.bytes (f.pos + (4096 * i + j)) else 0

/-- **What the loop has done** with the `n` pages from page `p` on. On success all of them are new,
    each on a frame of its own. -/
structure Loaded (w : Bool) (p n r : ℕ) (s s' : Loader) (success : Bool) : Prop where
  inside : ∀ q, s'.vm.pages q ≠ s.vm.pages q → p ≤ q ∧ q < p + n
  fresh : success = true → ∀ i, i < n → s.vm.pages (p + i) = none
  mapped : success = true → ∀ i, i < n → ∃ k ∈ s.vm.free, s'.vm.pages (p + i) = some (k, w) ∧
    ∀ j, j < 4096 → s'.frames k j = segmentByte s.file r i j
  others : success = true → ∀ k, k ∉ s.vm.free → s'.frames k = s.frames k

variable {s : Loader} {w : Bool} {upage : Word} {p n r : ℕ}

/-- The state after a page has been loaded. -/
def Loader.withPage (s : Loader) (free : List Word) (p : ℕ) (k : Word) (w : Bool) (n : ℕ) :
    Loader :=
  { vm := { s.vm with free := free, pages := update s.vm.pages p (some (k, w)) }
    frames := update s.frames k fun j =>
      if n ≤ j ∧ j < 4096 then 0 else if j < n then s.file.bytes (s.file.pos + j) else s.frames k j
    file := { s.file with pos := s.file.pos + n, caps := s.file.caps.tail } }

/-- **One page**: it is loaded, or the address space is left as it was. -/
theorem loadPage_cases (hu : isUserVaddr upage = true) (c : Word) :
    (∃ k free, s.vm.free = k :: free ∧ s.vm.pages (pageNo upage) = none ∧
        loadPage s upage c w = some (s.withPage free (pageNo upage) k w c.toNat, true)) ∨
      ∃ s', loadPage s upage c w = some (s', false) ∧ s'.vm.pages = s.vm.pages := by
  unfold loadPage
  cases hf : s.vm.free with
  | nil => exact .inr ⟨s, rfl, rfl⟩
  | cons k free =>
    dsimp only
    by_cases hgot : (s.file.read c.toNat).2 = c.toNat
    · rw [if_neg (not_not.mpr hgot), Vm.installPage_user _ hu, Option.map_some]
      by_cases hc : s.vm.pages (pageNo upage) = none ∧ s.vm.tables (pageNo upage) = true
      · refine .inl ⟨k, free, rfl, hc.1, ?_⟩
        rw [if_pos hc, hgot, update_idem]
        have hfile : (s.file.read c.toNat).1 =
            { s.file with pos := s.file.pos + c.toNat, caps := s.file.caps.tail } := by
          have hpos : (s.file.read c.toNat).1 = { s.file with
              pos := s.file.pos + (s.file.read c.toNat).2, caps := s.file.caps.tail } := rfl
          rw [hpos, hgot]
        simp only [if_true, hfile]
        rfl
      · rw [if_neg hc]
        exact .inr ⟨_, rfl, rfl⟩
    · rw [if_pos hgot]
      exact .inr ⟨_, rfl, rfl⟩

theorem segment_shift (f : ExecFile) :
    segmentByte { f with pos := f.pos + min r 4096, caps := f.caps.tail } (r - min r 4096) i j =
      segmentByte f r (i + 1) j := by
  unfold segmentByte
  by_cases h : 4096 * (i + 1) + j < r
  · rw [if_pos h, if_pos (by omega)]
    refine congrArg f.bytes ?_
    show f.pos + min r 4096 + (4096 * i + j) = _
    omega
  · rw [if_neg h, if_neg (by omega)]

theorem Loaded.cons {s' : Loader} {success : Bool} {k : Word} {free : List Word}
    (hf : s.vm.free = k :: free) (hk : k ∉ free) (hnone : s.vm.pages p = none)
    (hl : Loaded w (p + 1) n (r - min r 4096) (s.withPage free p k w (min r 4096)) s' success) :
    Loaded w p (n + 1) r s s' success := by
  have hold : ∀ q, q ≠ p → (s.withPage free p k w (min r 4096)).vm.pages q = s.vm.pages q :=
    fun q hq => update_of_ne hq ..
  refine ⟨fun q hq => ?_, fun ok i hi => ?_, fun ok i hi => ?_, fun ok k' hk' => ?_⟩
  · by_cases hqp : q = p
    · omega
    · have hin := hl.inside q (by rwa [hold q hqp])
      omega
  · cases i with
    | zero => exact hnone
    | succ i =>
      have hfresh := hl.fresh ok i (by omega)
      rwa [hold _ (by omega), add_right_comm] at hfresh
  · cases i with
    | zero =>
      have hpage : s'.vm.pages p = (s.withPage free p k w (min r 4096)).vm.pages p := by
        by_contra hne
        have hin := hl.inside p hne
        omega
      refine ⟨k, hf ▸ List.mem_cons_self, hpage.trans (update_self ..), fun j hj => ?_⟩
      rw [hl.others ok k hk]
      show update s.frames k _ k j = _
      rw [update_self]
      unfold segmentByte
      by_cases hjr : 4096 * 0 + j < r
      · rw [if_neg (by omega), if_pos (by omega), if_pos hjr, Nat.mul_zero, Nat.zero_add]
      · rw [if_pos (by omega), if_neg hjr]
    | succ i =>
      obtain ⟨k', hk', hpage, hbytes⟩ := hl.mapped ok i (by omega)
      refine ⟨k', hf ▸ List.mem_cons_of_mem k hk', ?_, fun j hj => ?_⟩
      · rwa [add_right_comm] at hpage
      · rw [hbytes j hj]
        exact segment_shift s.file
  · rw [hf] at hk'
    rw [hl.others ok k' fun hm => hk' (List.mem_cons_of_mem k hm)]
    exact update_of_ne (fun e : k' = k => hk' (e ▸ List.mem_cons_self)) ..

/-- **The loop of `load_segment`**, by induction on the pages that are left. -/
theorem segmentLoop_spec {readBytes zeroBytes : Word} (hr : readBytes.toNat = r)
    (hz : zeroBytes.toNat = z) (hn : r + z = 4096 * n) (hp : upage.toNat = 4096 * p)
    (hend : p + n ≤ 786432) (hnd : s.vm.free.Nodup) (hfuel : n < fuel) :
    ∃ s' success, segmentLoop w fuel s upage readBytes zeroBytes = some (s', success) ∧
      Loaded w p n r s s' success := by
  induction n generalizing s upage p r z fuel readBytes zeroBytes with
  | zero =>
    obtain ⟨fuel, rfl⟩ := exists_eq_succ_of_ne_zero (ne_zero_of_lt hfuel)
    refine ⟨s, true, ?_, fun q hq => absurd rfl hq, fun _ i hi => absurd hi (not_lt_zero i),
      fun _ i hi => absurd hi (not_lt_zero i), fun _ k _ => rfl⟩
    unfold segmentLoop
    refine if_neg fun hc => ?_
    rw [lt_def, lt_def, hr, hz] at hc
    have h0 : (0#32).toNat = 0 := rfl
    omega
  | succ n ih =>
    obtain ⟨fuel, rfl⟩ := exists_eq_succ_of_ne_zero (ne_zero_of_lt hfuel)
    have h0 : (0#32).toNat = 0 := rfl
    have hpg : (4096#32).toNat = 4096 := rfl
    have hmore : 0#32 < readBytes ∨ 0#32 < zeroBytes := by
      rw [lt_def, lt_def, hr, hz]
      omega
    let c : Word := if readBytes < 4096#32 then readBytes else 4096#32
    have hc : c.toNat = min r 4096 := by
      show (if readBytes < 4096#32 then readBytes else 4096#32).toNat = _
      by_cases hlt : readBytes < 4096#32
      · rw [if_pos hlt, hr]
        rw [lt_def, hr, hpg] at hlt
        omega
      · rw [if_neg hlt]
        rw [lt_def, hr, hpg] at hlt
        omega
    have huser : isUserVaddr upage = true := (isUserVaddr_iff upage).mpr (by omega)
    have hno : pageNo upage = p := by
      unfold pageNo
      omega
    have hstep : segmentLoop w (fuel + 1) s upage readBytes zeroBytes =
        (loadPage s upage c w).bind fun x =>
          if x.2 then segmentLoop w fuel x.1 (upage + 4096#32) (readBytes - c)
            (zeroBytes - (4096#32 - c))
          else some (x.1, false) := if_pos hmore
    rw [hstep]
    rcases loadPage_cases (s := s) (w := w) huser c with ⟨k, free, hf, hnone, hload⟩ |
      ⟨s', hload, hpages⟩
    · -- the page is loaded, and the rest follows
      rw [hno] at hnone hload
      rw [hc] at hload
      let s₁ := s.withPage free p k w (min r 4096)
      have hle : c ≤ readBytes := by
        rw [le_def, hc, hr]
        omega
      have hc4 : c ≤ 4096#32 := by
        rw [le_def, hc, hpg]
        omega
      have hlez : 4096#32 - c ≤ zeroBytes := by
        rw [le_def, toNat_sub_of_le hc4, hc, hz, hpg]
        omega
      have hnd1 : k ∉ free ∧ free.Nodup := List.nodup_cons.mp (hf ▸ hnd)
      obtain ⟨s', success, hrun, hl⟩ := ih (s := s₁) (p := p + 1)
        (show (readBytes - c).toNat = r - min r 4096 by
          rw [toNat_sub_of_le hle, hr, hc])
        (show (zeroBytes - (4096#32 - c)).toNat = z - (4096 - min r 4096) by
          rw [toNat_sub_of_le hlez, toNat_sub_of_le hc4, hz, hc, hpg])
        (by omega)
        (show (upage + 4096#32).toNat = 4096 * (p + 1) by
          rw [toNat_add, hp, hpg, mod_eq_of_lt (by omega)]
          omega)
        (by omega) hnd1.2 (show n < fuel by omega)
      refine ⟨s', success, ?_, hl.cons hf hnd1.1 hnone⟩
      rw [hload, Option.bind_some]
      exact hrun
    · -- the page is not loaded
      refine ⟨s', false, ?_, fun q hq => absurd (congrFun hpages q) hq, nofun, nofun, nofun⟩
      rw [hload]
      rfl

/-! ## 4. The segment -/

theorem loadSegment_eq {a : SegmentArgs} (h : ArgsOk ph a) (fuel : ℕ) (s : Loader)
    (hpages : 4096 * ph.pages < 2 ^ 32) (hfile : a.filePage.toNat < 2 ^ 31) :
    loadSegment fuel s a = segmentLoop a.writable fuel
      { s with file := { s.file with pos := a.filePage.toNat } } a.memPage a.readBytes
        a.zeroBytes := by
  have hsum : (a.readBytes + a.zeroBytes) % 4096#32 = 0#32 := by
    apply eq_of_toNat_eq
    rw [toNat_umod, toNat_add, h.zero, mod_eq_of_lt hpages]
    exact mul_mod_right 4096 ph.pages
  have hmem : pgOfs a.memPage = 0#32 := by
    apply eq_of_toNat_eq
    rw [pgOfs_toNat, h.mem]
    exact mul_mod_right 4096 _
  have hint : a.filePage.toInt = (a.filePage.toNat : Int) :=
    toInt_eq_toNat_of_lt (by omega)
  have hrem : a.filePage.srem 4096#32 = 0#32 := by
    apply eq_of_toInt_eq
    rw [toInt_srem, hint, h.file, show (4096#32).toInt = 4096 from rfl, Int.natCast_mul]
    exact Int.mul_tmod_right _ _
  unfold loadSegment
  rw [if_pos ⟨hsum, hmem, hrem⟩, if_pos (by rw [hint]; omega)]

/-- The byte at a user address. -/
def Loader.byteAt (s : Loader) (a : ℕ) : Option UInt8 :=
  (s.vm.pages (a / 4096)).map fun k => s.frames k.1 (a % 4096)

/-- **ELF segment loading.** For every header that `validate_segment` accepts, the arguments meet
    the assertions of `load_segment`, and no sum in them wraps around. `load_segment` ends without a
    failed assertion, and the pages it maps are user pages other than page 0. If it succeeds, the
    pages of the segment, and no others, are newly mapped, writable as the header says; the first
    bytes are those of the file, and the others up to the end of the last page are 0. -/
theorem elf_segment_loading (ph : Phdr) (s : Loader) (fuel : ℕ) (hlen : s.file.length < 2 ^ 31)
    (hv : validateSegment ph s.file.length = true) (hnd : s.vm.free.Nodup)
    (hfuel : ph.pages < fuel) : let a := segmentArgs ph
    let last := ph.pVaddr.toNat + ph.pMemsz.toNat - 1
    ((a.readBytes.toNat + a.zeroBytes.toNat) % 4096 = 0 ∧
      a.readBytes.toNat + a.zeroBytes.toNat < 2 ^ 32 ∧ a.readBytes.toNat = ph.readCount ∧
      a.memPage.toNat % 4096 = 0 ∧ a.filePage.toNat % 4096 = 0 ∧ a.filePage.toNat < 2 ^ 31) ∧
    ∃ s' success, loadSegment fuel s a = some (s', success) ∧
      (∀ p, s'.vm.pages p ≠ s.vm.pages p → 4096 ≤ 4096 * p ∧ 4096 * p + 4096 ≤ 0xc0000000) ∧
      (success = true →
        (∀ p, ph.pVaddr.toNat / 4096 ≤ p → p ≤ last / 4096 → s.vm.pages p = none ∧
          ∃ k, s'.vm.pages p = some (k, decide (ph.pFlags &&& 2#32 ≠ 0#32))) ∧
        (∀ p, ¬ (ph.pVaddr.toNat / 4096 ≤ p ∧ p ≤ last / 4096) → s'.vm.pages p = s.vm.pages p) ∧
        (∀ x, a.memPage.toNat ≤ x → x < a.memPage.toNat + a.readBytes.toNat →
          s'.byteAt x = some (s.file.bytes (a.filePage.toNat + (x - a.memPage.toNat)))) ∧
        (∀ x, a.memPage.toNat + a.readBytes.toNat ≤ x → x / 4096 ≤ last / 4096 →
          s'.byteAt x = some 0)) := by
  intro a last
  have hval := validateSegment_spec hlen hv
  have hargs := segmentArgs_ok hval
  obtain ⟨hofs, hin, hsz, hne, huser, hpage⟩ := hval
  have hread : a.readBytes.toNat = ph.readCount := hargs.read
  have hzero : a.readBytes.toNat + a.zeroBytes.toNat = 4096 * ph.pages := hargs.zero
  have hmem : a.memPage.toNat = 4096 * (ph.pVaddr.toNat / 4096) := hargs.mem
  have hfile : a.filePage.toNat = 4096 * (ph.pOffset.toNat / 4096) := hargs.file
  have hcount : ph.pVaddr.toNat / 4096 + ph.pages = last / 4096 + 1 := by
    unfold Phdr.pages
    omega
  have hpages : 4096 * ph.pages < 2 ^ 32 := by omega
  have hfile31 : a.filePage.toNat < 2 ^ 31 := by omega
  refine ⟨⟨by omega, by omega, hread, by omega, by omega, hfile31⟩, ?_⟩
  let s₀ : Loader := { s with file := { s.file with pos := a.filePage.toNat } }
  obtain ⟨s', success, hrun, hl⟩ := segmentLoop_spec (s := s₀) (w := a.writable) hread rfl
    (show ph.readCount + a.zeroBytes.toNat = 4096 * ph.pages by rw [← hread]; exact hzero) hmem
    (by omega) hnd hfuel
  refine ⟨s', success, ?_, fun p hp => ?_, fun ok => ⟨fun p h1 h2 => ?_, fun p hp => ?_,
    fun x h1 h2 => ?_, fun x h1 h2 => ?_⟩⟩
  · rw [loadSegment_eq hargs fuel s hpages hfile31]
    exact hrun
  · have hin := hl.inside p hp
    omega
  · -- the page is the one with number `i` of the segment
    obtain ⟨i, rfl⟩ := Nat.exists_eq_add_of_le h1
    obtain ⟨k, -, hk, -⟩ := hl.mapped ok i (by omega)
    exact ⟨hl.fresh ok i (by omega), k, hk⟩
  · by_contra hne
    exact hp (by have hin := hl.inside p hne; omega)
  · obtain ⟨i, hi⟩ := Nat.exists_eq_add_of_le (show ph.pVaddr.toNat / 4096 ≤ x / 4096 by omega)
    obtain ⟨k, -, hk, hbytes⟩ := hl.mapped ok i (by omega)
    unfold Loader.byteAt
    rw [hi, hk, Option.map_some, hbytes _ (mod_lt x (by decide))]
    unfold segmentByte
    rw [if_pos (by omega)]
    refine congrArg (fun y => some (s.file.bytes y)) ?_
    show a.filePage.toNat + (4096 * i + x % 4096) = _
    omega
  · obtain ⟨i, hi⟩ := Nat.exists_eq_add_of_le (show ph.pVaddr.toNat / 4096 ≤ x / 4096 by omega)
    obtain ⟨k, -, hk, hbytes⟩ := hl.mapped ok i (by omega)
    unfold Loader.byteAt
    rw [hi, hk, Option.map_some, hbytes _ (mod_lt x (by decide))]
    unfold segmentByte
    rw [if_neg (by omega)]

/-- A segment of two bytes at `0x8048001`, of which one comes from a file of 2 bytes. -/
def smallSegment : Phdr := ⟨1#32, 0x8048001#32, 1#32, 2#32, 6#32⟩

def smallLoader : Loader :=
  ⟨⟨fun _ => none, [0xc0100000#32], fun _ => true, 0⟩, fun _ _ => 0xcc, ⟨fun _ => 7, 2, 0, []⟩⟩

theorem elf_segment_loading_small : ∃ s',
    loadSegment 2 smallLoader (segmentArgs smallSegment) = some (s', true) ∧
      s'.byteAt 0x8048001 = some 7 ∧ s'.byteAt 0x8048002 = some 0 := by
  have hsome : (loadSegment 2 smallLoader (segmentArgs smallSegment)).map Prod.snd = some true := by
    decide
  obtain ⟨-, s', success, hrun, -, hok⟩ := elf_segment_loading smallSegment smallLoader 2
    (by decide) (by decide) (by decide) (by decide)
  rw [hrun] at hsome
  have ok : success = true := Option.some.inj hsome
  obtain ⟨-, -, hfile, hzero⟩ := hok ok
  exact ⟨s', ok ▸ hrun, hfile 0x8048001 (by decide) (by decide),
    hzero 0x8048002 (by decide) (by decide)⟩

end Pintos
