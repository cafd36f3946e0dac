/-
  Subject:   `partition_scan` of devices/partition.c.

  * A disk is the bytes of its sectors. Whatever `sector` it is called for,
    `read_partition_table` reads sector 0; `sector` only serves as the base of the offsets it finds
    there. Memory is always granted.
  * The recursion is cut off by fuel, and whether it ends depends on sector 0 alone.
  * `Listed` is what the tables describe, each read from its own sector.
  * **`partition_scan_ends`**: the disks on which the recursion is finite;
    **`partition_scan_finds`**: those on which the scan finds what is described.
-/
import Pintos.Lib.Memory

namespace Pintos

open Lib List

/-! ## 1. The code -/

/-- A block device that holds partitions. -/
structure Disk where
  size : ℕ
  sector : ℕ → ℕ → UInt8
  size_lt : size < 2 ^ 32

/-- `struct partition_table_entry`, as far as it is read. -/
structure PartEntry where
  type : ℕ
  offset : ℕ
  size : ℕ

/-- `pt->signature`. -/
def signature (pt : ℕ → UInt8) : ℕ := (pt 510).toNat + 256 * (pt 511).toNat

/-- `pt->partitions[i]`. -/
def partEntry (pt : ℕ → UInt8) (i : ℕ) : PartEntry where
  type := (pt (446 + 16 * i + 4)).toNat
  offset := word pt (446 + 16 * i + 8)
  size := word pt (446 + 16 * i + 12)

/-- `pt->partitions`. -/
def tableEntries (pt : ℕ → UInt8) : List PartEntry := (List.range 4).map (partEntry pt)

def PartEntry.isEmpty (e : PartEntry) : Bool := e.size = 0 || e.type = 0

def PartEntry.isExtended (e : PartEntry) : Bool :=
  e.type = 0x05 || e.type = 0x0f || e.type = 0x85 || e.type = 0xc5

/-- `enum block_type`, as far as partitions have one. -/
inductive BlockType where
  | kernel
  | filesys
  | scratch
  | swap
  | foreign
  deriving DecidableEq

/-- The type of the block device of a partition. -/
def blockTypeOf (partType : ℕ) : BlockType :=
  if partType = 0x20 then .kernel
  else if partType = 0x21 then .filesys
  else if partType = 0x22 then .scratch
  else if partType = 0x23 then .swap
  else .foreign

/-- A call of `block_register`. -/
structure BlockDev where
  nr : ℕ
  type : BlockType
  start : ℕ
  size : ℕ
  deriving DecidableEq

/-- What is printed. -/
inductive ScanMessage where
  | noPartitions
  | tablePastEnd (sector : ℕ)
  | invalidSignature
  | invalidExtended (sector : ℕ)
  | extendedPartition (sector : ℕ)
  | startsPastEnd (partNr start : ℕ)
  | endPastEnd (partNr stop size : ℕ)

/-- `*part_nr`, the devices registered and the messages, in order. -/
structure Scan where
  partNr : ℕ
  found : List BlockDev
  messages : List ScanMessage

def Scan.print (st : Scan) (msg : ScanMessage) : Scan :=
  { st with messages := st.messages ++ [msg] }

/-- `++*part_nr` and `found_partition`. -/
def foundPartition (disk : Disk) (st : Scan) (partType start size : ℕ) : Scan :=
  let st := { st with partNr := st.partNr + 1 }
  let stop := (start + size) % 2 ^ 32
  if start ≥ disk.size then st.print (.startsPastEnd st.partNr start)
  else if stop < start ∨ stop > disk.size then st.print (.endPastEnd st.partNr stop disk.size)
  else { st with found := st.found ++ [⟨st.partNr, blockTypeOf partType, start, size⟩] }

/-- One turn of the loop over the entries; `nested` is the recursive call. -/
def tableTurn (disk : Disk) (nested : ℕ → ℕ → Scan → Option Scan)
    (sector primaryExtendedSector : ℕ) (st : Scan) (e : PartEntry) : Option Scan :=
  if e.isEmpty then some st
  else if e.isExtended then
    let st := st.print (.extendedPartition sector)
    if sector = 0 then nested e.offset e.offset st
    else nested ((e.offset + primaryExtendedSector) % 2 ^ 32) primaryExtendedSector st
  else some (foundPartition disk st e.type ((e.offset + sector) % 2 ^ 32) e.size)

/-- `read_partition_table`. `none`: the recursion goes deeper than the fuel. -/
def readPartitionTable (disk : Disk) : ℕ → ℕ → ℕ → Scan → Option Scan
  | 0, _, _, _ => none
  | fuel + 1, sector, primaryExtendedSector, st =>
    if sector ≥ disk.size then some (st.print (.tablePastEnd sector))
    else
      -- `block_read (block, 0, pt)`
      let pt := disk.sector 0
      if signature pt ≠ 0xaa55 then
        if primaryExtendedSector = 0 then some (st.print .invalidSignature)
        else some (st.print (.invalidExtended sector))
      else
        (tableEntries pt).foldlM
          (tableTurn disk (readPartitionTable disk fuel) sector primaryExtendedSector) st

/-- `partition_scan`. -/
def partitionScan (fuel : ℕ) (disk : Disk) : Option Scan :=
  (readPartitionTable disk fuel 0 0 ⟨0, [], []⟩).map fun st =>
    if st.partNr = 0 then st.print .noPartitions else st

/-! ## 2. Whether the recursion ends -/

/-- There is a table in a sector. -/
def HasTable (disk : Disk) (sector : ℕ) : Prop :=
  sector < disk.size ∧ signature (disk.sector sector) = 0xaa55

/-- The offsets of the extended partitions that a table lists. -/
def extendedOffsets (es : List PartEntry) : List ℕ :=
  (es.filter fun e => !e.isEmpty && e.isExtended).map PartEntry.offset

/-- The extended partitions of the table in sector 0. -/
def Disk.primaryExtended (disk : Disk) : List ℕ := extendedOffsets (tableEntries (disk.sector 0))

/-- The recursion of `read_partition_table` without its output. -/
def endsIn (disk : Disk) : ℕ → ℕ → ℕ → Prop
  | 0, _, _ => False
  | fuel + 1, sector, primary =>
    disk.size ≤ sector ∨ signature (disk.sector 0) ≠ 0xaa55 ∨
      ∀ o ∈ disk.primaryExtended,
        if sector = 0 then endsIn disk fuel o o
        else endsIn disk fuel ((o + primary) % 2 ^ 32) primary

theorem foldlM_isSome {σ ε : Type*} {f : σ → ε → Option σ} {ok : ε → Prop}
    (h : ∀ s e, (f s e).isSome ↔ ok e) : ∀ (es : List ε) (s : σ),
    (es.foldlM f s).isSome ↔ ∀ e ∈ es, ok e
  | [], s => by simp
  | e :: es, s => by
    have he := h s e
    rw [foldlM_cons, forall_mem_cons]
    cases hs : f s e with
    | none =>
      rw [hs] at he
      have hno : ¬ok e := fun hok => by simpa using he.mpr hok
      exact iff_of_false (by simp) fun hall => hno hall.1
    | some s' =>
      rw [hs] at he
      have hok : ok e := he.mp rfl
      rw [show (some s' >>= fun s' => es.foldlM f s') = es.foldlM f s' from rfl,
        foldlM_isSome h es s']
      exact ⟨fun hall => ⟨hok, hall⟩, fun hall => hall.2⟩

/-- **The recursion ends or not, whatever has been found so far.** -/
theorem readPartitionTable_isSome (disk : Disk) : ∀ (fuel sector primary : ℕ) (st : Scan),
    (readPartitionTable disk fuel sector primary st).isSome ↔ endsIn disk fuel sector primary
  | 0, _, _, _ => by simp [readPartitionTable, endsIn]
  | fuel + 1, sector, primary, st => by
    have ih := readPartitionTable_isSome disk fuel
    have hturn : ∀ st e,
        (tableTurn disk (readPartitionTable disk fuel) sector primary st e).isSome ↔
          (e.isEmpty = false → e.isExtended = true → if sector = 0 then
            endsIn disk fuel e.offset e.offset
            else endsIn disk fuel ((e.offset + primary) % 2 ^ 32) primary) := by
      intro st e
      unfold tableTurn
      cases he : e.isEmpty with
      | true => simp
      | false =>
        cases hx : e.isExtended with
        | false => simp
        | true =>
          simp only [Bool.false_eq_true, if_false, if_true, forall_const]
          split
          · exact ih _ _ _
          · exact ih _ _ _
    have hloop := foldlM_isSome hturn (tableEntries (disk.sector 0)) st
    unfold readPartitionTable endsIn
    by_cases hend : disk.size ≤ sector
    · simp [hend]
    · by_cases hsig : signature (disk.sector 0) = 0xaa55
      · simp only [ge_iff_le, hend, if_false, hsig, ne_eq, not_true_eq_false, false_or]
        rw [hloop]
        unfold Disk.primaryExtended extendedOffsets
        simp only [mem_map, mem_filter, Bool.and_eq_true, Bool.not_eq_true']
        constructor
        · rintro hall o ⟨e, ⟨he, hempty, hext⟩, rfl⟩
          exact hall e he hempty hext
        · intro hall e he hempty hext
          exact hall e.offset ⟨e, ⟨he, hempty, hext⟩, rfl⟩
      · simp only [ge_iff_le, hend, if_false, ne_eq, hsig, not_false_eq_true, if_true, true_or,
          or_true, iff_true]
        split <;> rfl

theorem partitionScan_isSome (disk : Disk) (fuel : ℕ) :
    (partitionScan fuel disk).isSome ↔ endsIn disk fuel 0 0 := by
  unfold partitionScan
  rw [Option.isSome_map]
  exact readPartitionTable_isSome disk fuel 0 0 _

variable {o o' size start : ℕ} {ts : List ℕ}

variable {disk disk' : Disk}

/-- Two extended partitions whose offsets add up to a sector of the device: the recursion comes back
    to that sector, or to sector 0. -/
theorem not_endsIn (hsig : signature (disk.sector 0) = 0xaa55) (ho : o ∈ disk.primaryExtended)
    (ho' : o' ∈ disk.primaryExtended) (hin : o < disk.size) (hin' : (o' + o) % 2 ^ 32 < disk.size) :
    ∀ fuel,
    (∀ primary, ¬endsIn disk fuel 0 primary) ∧ ¬endsIn disk fuel o o ∧
      ¬endsIn disk fuel ((o' + o) % 2 ^ 32) o
  | 0 => ⟨fun _ => id, id, id⟩
  | fuel + 1 => by
    obtain ⟨-, ihFirst, ihNext⟩ := not_endsIn hsig ho ho' hin hin' fuel
    have htop : ∀ primary, ¬endsIn disk (fuel + 1) 0 primary := by
      rintro primary (hend | hbad | hall)
      · omega
      · exact hbad hsig
      · have hcall := hall o ho
        rw [if_pos rfl] at hcall
        exact ihFirst hcall
    -- a table that is not taken for the one in sector 0 has the sum as its successor
    have hnested : ∀ sector, sector < disk.size → ¬endsIn disk (fuel + 1) sector o := by
      intro sector hsector
      by_cases hzero : sector = 0
      · rw [hzero]
        exact htop o
      · rintro (hend | hbad | hall)
        · omega
        · exact hbad hsig
        · have hcall := hall o' ho'
          rw [if_neg hzero] at hcall
          exact ihNext hcall
    exact ⟨htop, hnested o hin, hnested _ hin'⟩

/-- **When the recursion of `read_partition_table` is finite**: no two offsets of extended partitions
    in sector 0, the first of them inside the device, lead to a sector of the device. -/
theorem partition_scan_ends (disk : Disk) : (∃ fuel, (partitionScan fuel disk).isSome) ↔
    (HasTable disk 0 → ∀ o ∈ disk.primaryExtended, o < disk.size →
      ∀ o' ∈ disk.primaryExtended, disk.size ≤ (o' + o) % 2 ^ 32) := by
  simp only [partitionScan_isSome]
  constructor
  · rintro ⟨fuel, hends⟩ ⟨-, hsig⟩ o ho hin o' ho'
    by_contra hin'
    exact (not_endsIn hsig ho ho' hin (Nat.lt_of_not_le hin') fuel).1 0 hends
  · intro hcond
    by_cases htable : HasTable disk 0
    · -- the call for an extended partition ends at once, or all its own calls do
      refine ⟨3, .inr (.inr fun o ho => ?_)⟩
      rw [if_pos rfl]
      by_cases hin : o < disk.size
      · refine .inr (.inr fun o' ho' => ?_)
        have hout := hcond htable o ho hin
        have hzero : o ≠ 0 := by
          rintro rfl
          have hself := hout 0 ho
          omega
        rw [if_neg hzero]
        exact .inl (hout o' ho')
      · exact .inl (Nat.le_of_not_lt hin)
    · refine ⟨1, ?_⟩
      by_cases hsize : 0 < disk.size
      · exact .inr (.inl fun hsig => htable ⟨hsize, hsig⟩)
      · exact .inl (Nat.le_of_not_lt hsize)

/-- A table that lists one extended partition. -/
def oneExtended (offset : UInt8) (i : ℕ) : UInt8 :=
  if i = 450 then 0x05 else if i = 454 then offset else if i = 458 then 1
  else if i = 510 then 0x55 else if i = 511 then 0xaa else 0

/-- An extended partition at sector 10 of 1000: the tables at sectors 10 and 20 are that of sector 0,
    and the one at 20 leads to sector 20. -/
theorem partition_scan_hangs :
    ¬∃ fuel, (partitionScan fuel ⟨1000, fun _ => oneExtended 10, by decide⟩).isSome := by
  rintro ⟨fuel, hsome⟩
  have hends := (partitionScan_isSome _ fuel).mp hsome
  have h10 : 10 ∈ Disk.primaryExtended ⟨1000, fun _ => oneExtended 10, by decide⟩ := by decide
  exact (not_endsIn (by decide) h10 h10 (by decide) (by decide) fuel).1 0 hends

/-! ## 3. What the tables describe -/

/-- A partition as a table describes it. -/
structure Part where
  type : ℕ
  start : ℕ
  size : ℕ

/-- **The tables below a list of entries**, each in its own sector: their sectors and their
    partitions, in the order of the traversal. `sector` is the sector of the entries' table. -/
inductive Listed (disk : Disk) : ℕ → ℕ → List PartEntry → List ℕ → List Part → Prop
  | nil {sector primary : ℕ} : Listed disk sector primary [] [] []
  | empty {sector primary : ℕ} {e : PartEntry} {es : List PartEntry} {ts : List ℕ} {ps : List Part}
      (he : e.isEmpty = true) (hrest : Listed disk sector primary es ts ps) :
      Listed disk sector primary (e :: es) ts ps
  | partition {sector primary : ℕ} {e : PartEntry} {es : List PartEntry} {ts : List ℕ}
      {ps : List Part} (he : e.isEmpty = false) (hx : e.isExtended = false)
      (hrest : Listed disk sector primary es ts ps) :
      Listed disk sector primary (e :: es) ts (⟨e.type, e.offset + sector, e.size⟩ :: ps)
  | extended {sector primary next : ℕ} {e : PartEntry} {es : List PartEntry} {ts ts' : List ℕ}
      {ps ps' : List Part} (he : e.isEmpty = false) (hx : e.isExtended = true)
      (hnext : next = if sector = 0 then e.offset else e.offset + primary)
      (htable : HasTable disk next)
      (hnested : Listed disk next (if sector = 0 then e.offset else primary)
        (tableEntries (disk.sector next)) ts ps)
      (hrest : Listed disk sector primary es ts' ps') :
      Listed disk sector primary (e :: es) (next :: (ts ++ ts')) (ps ++ ps')

/-- **The tables of a disk form a finite tree** with distinct sectors inside the device, and `ps` is
    what they describe. A disk without a table in sector 0 has none. -/
structure Described (disk : Disk) (ts : List ℕ) (ps : List Part) : Prop where
  listed : HasTable disk 0 → Listed disk 0 0 (tableEntries (disk.sector 0)) ts ps
  bare : ¬HasTable disk 0 → ts = [] ∧ ps = []
  distinct : (0 :: ts).Nodup

/-- The devices to register: those inside the disk, numbered in the order of the traversal. -/
def expectedDevs (disk : Disk) : ℕ → List Part → List BlockDev
  | _, [] => []
  | nr, p :: ps =>
    if p.start + p.size ≤ disk.size then
      ⟨nr + 1, blockTypeOf p.type, p.start, p.size⟩ :: expectedDevs disk (nr + 1) ps
    else expectedDevs disk (nr + 1) ps

/-- **The scan ends and has registered what is described.** -/
def FindsAll (disk : Disk) (ps : List Part) : Prop :=
  ∃ st, (∃ enough, ∀ fuel, enough ≤ fuel → partitionScan fuel disk = some st) ∧
    st.found = expectedDevs disk 0 ps

/-! ## 4. Without extended partitions -/

variable {ps : List Part}

section Plain

variable {disk : Disk}

theorem foundPartition_spec (st : Scan) (partType : ℕ) (hpos : 0 < size) (hstart : start < 2 ^ 32)
    (hsize : size < 2 ^ 32) : (foundPartition disk st partType start size).partNr = st.partNr + 1 ∧
      (foundPartition disk st partType start size).found =
        st.found ++ expectedDevs disk st.partNr [⟨partType, start, size⟩] := by
  have hdisk := disk.size_lt
  unfold foundPartition
  dsimp only
  split
  · rename_i hend
    have hout : ¬start + size ≤ disk.size := by omega
    refine ⟨rfl, ?_⟩
    simp [Scan.print, expectedDevs, hout]
  · split
    · rename_i hin hend
      have hout : ¬start + size ≤ disk.size := by omega
      refine ⟨rfl, ?_⟩
      simp [Scan.print, expectedDevs, hout]
    · rename_i hin hend
      have hfit : start + size ≤ disk.size := by omega
      refine ⟨rfl, ?_⟩
      simp [expectedDevs, hfit]

theorem expectedDevs_cons (nr : ℕ) (p : Part) (ps : List Part) : expectedDevs disk nr (p :: ps) =
      expectedDevs disk nr [p] ++ expectedDevs disk (nr + 1) ps := by
  simp only [expectedDevs]
  split <;> rfl

/-- **The loop over the entries of the table in sector 0**, if it lists no extended partition. -/
theorem plain_loop : ∀ {es : List PartEntry} {ts : List ℕ} {ps : List Part}
    (_ : Listed disk 0 0 es ts ps) (_ : extendedOffsets es = [])
    (_ : ∀ e ∈ es, e.offset < 2 ^ 32 ∧ e.size < 2 ^ 32) (st : Scan),
    ∃ st', (∀ nested, es.foldlM (tableTurn disk nested 0 0) st = some st') ∧
      st'.found = st.found ++ expectedDevs disk st.partNr ps
  | [], _, _, .nil, _, _, st => ⟨st, fun _ => rfl, (List.append_nil _).symm⟩
  | e :: es, _, _, .empty he hrest, hplain, hwords, st => by
    have hplain' : extendedOffsets es = [] := by simpa [extendedOffsets, he] using hplain
    obtain ⟨st', hrun, hfound⟩ := plain_loop hrest hplain'
      (fun e' he' => hwords e' (mem_cons_of_mem e he')) st
    refine ⟨st', fun nested => ?_, hfound⟩
    rw [foldlM_cons]
    unfold tableTurn
    rw [if_pos he]
    exact hrun nested
  | e :: es, _, _, .partition he hx hrest, hplain, hwords, st => by
    have hplain' : extendedOffsets es = [] := by simpa [extendedOffsets, he, hx] using hplain
    obtain ⟨hoffset, hsize⟩ := hwords e mem_cons_self
    have hpos : 0 < e.size := by
      have hne : e.size ≠ 0 := by
        intro h0
        simp [PartEntry.isEmpty, h0] at he
      omega
    have hstart : (e.offset + 0) % 2 ^ 32 = e.offset + 0 := Nat.mod_eq_of_lt hoffset
    obtain ⟨hnr, hdevs⟩ := foundPartition_spec st e.type hpos hoffset hsize
    obtain ⟨st', hrun, hfound⟩ := plain_loop hrest hplain'
      (fun e' he' => hwords e' (mem_cons_of_mem e he'))
      (foundPartition disk st e.type e.offset e.size)
    refine ⟨st', fun nested => ?_, ?_⟩
    · rw [foldlM_cons]
      unfold tableTurn
      rw [he, hx, hstart]
      exact hrun nested
    · rw [hfound, hdevs, hnr, append_assoc]
      exact congrArg (st.found ++ ·) (expectedDevs_cons st.partNr _ _).symm
  | e :: es, _, _, .extended he hx _ _ _ _, hplain, _, _ => by
    simp [extendedOffsets, he, hx] at hplain

theorem tableEntries_words (pt : ℕ → UInt8) :
    ∀ e ∈ tableEntries pt, e.offset < 2 ^ 32 ∧ e.size < 2 ^ 32 := by
  intro e he
  obtain ⟨i, -, rfl⟩ := mem_map.mp he
  exact ⟨word_lt pt _, word_lt pt _⟩

theorem findsAll_of_read (st : Scan)
    (hread : ∀ fuel, readPartitionTable disk (fuel + 1) 0 0 ⟨0, [], []⟩ = some st)
    (hfound : st.found = expectedDevs disk 0 ps) : FindsAll disk ps := by
  refine ⟨if st.partNr = 0 then st.print .noPartitions else st, ⟨1, fun fuel hfuel => ?_⟩, ?_⟩
  · obtain ⟨fuel, rfl⟩ := Nat.exists_eq_add_of_le' hfuel
    unfold partitionScan
    rw [hread, Option.map_some]
  · split
    · exact hfound
    · exact hfound

/-- **A disk without extended partitions.** -/
theorem plain_findsAll (hd : Described disk ts ps)
    (hplain : HasTable disk 0 → disk.primaryExtended = []) : FindsAll disk ps := by
  by_cases htable : HasTable disk 0
  · have hin : ¬0 ≥ disk.size := Nat.not_le.mpr htable.1
    obtain ⟨st, hrun, hfound⟩ := plain_loop (hd.listed htable) (hplain htable)
      (tableEntries_words _) ⟨0, [], []⟩
    refine findsAll_of_read st (fun fuel => ?_) hfound
    unfold readPartitionTable
    rw [if_neg hin]
    rw [if_neg (fun hbad => hbad htable.2)]
    exact hrun _
  · obtain ⟨-, rfl⟩ := hd.bare htable
    by_cases hin : 0 ≥ disk.size
    · refine findsAll_of_read (Scan.print ⟨0, [], []⟩ (.tablePastEnd 0)) (fun fuel => ?_) rfl
      unfold readPartitionTable
      rw [if_pos hin]
    · have hsig : signature (disk.sector 0) ≠ 0xaa55 :=
        fun h => htable ⟨Nat.lt_of_not_le hin, h⟩
      refine findsAll_of_read (Scan.print ⟨0, [], []⟩ .invalidSignature) (fun fuel => ?_) rfl
      unfold readPartitionTable
      rw [if_neg hin]
      rw [if_pos hsig, if_pos rfl]

end Plain

/-! ## 5. With extended partitions -/

section Extended

/-- **Only sector 0 is read.** -/
theorem readPartitionTable_front (hsize : disk'.size = disk.size)
    (hfront : disk'.sector 0 = disk.sector 0) : ∀ fuel,
    readPartitionTable disk' fuel = readPartitionTable disk fuel
  | 0 => rfl
  | fuel + 1 => by
    have hfound : foundPartition disk' = foundPartition disk := by
      funext st partType start size
      unfold foundPartition
      rw [hsize]
    have hturn : tableTurn disk' = tableTurn disk := by
      funext nested sector primary st e
      unfold tableTurn
      rw [hfound]
    funext sector primary st
    unfold readPartitionTable
    rw [hsize, hfront, hturn, readPartitionTable_front hsize hfront fuel]

variable {disk : Disk}

/-- The extended partitions of a table in sector 0 lead to sectors of the device, which are among
    those of the tree. -/
theorem Listed.offsets : ∀ {es : List PartEntry} {ts : List ℕ} {ps : List Part}
    (_ : Listed disk 0 0 es ts ps), (extendedOffsets es).Sublist ts ∧
      ∀ o ∈ extendedOffsets es, o < disk.size
  | [], _, _, .nil => ⟨List.Sublist.refl _, fun _ ho => absurd ho List.not_mem_nil⟩
  | e :: es, _, _, .empty he hrest => by
    have hskip : extendedOffsets (e :: es) = extendedOffsets es := by simp [extendedOffsets, he]
    rw [hskip]
    exact hrest.offsets
  | e :: es, _, _, .partition he hx hrest => by
    have hskip : extendedOffsets (e :: es) = extendedOffsets es := by simp [extendedOffsets, hx]
    rw [hskip]
    exact hrest.offsets
  | e :: es, _, _, .extended he hx hnext htable hnested hrest => by
    have htake : extendedOffsets (e :: es) = e.offset :: extendedOffsets es := by
      simp [extendedOffsets, he, hx]
    rw [if_pos rfl] at hnext
    obtain ⟨hsub, hin⟩ := hrest.offsets
    rw [htake]
    refine ⟨?_, fun o ho => ?_⟩
    · rw [hnext]
      exact (hsub.trans (sublist_append_right _ _)).cons_cons _
    · rcases mem_cons.mp ho with rfl | ho
      · rw [← hnext]
        exact htable.1
      · exact hin o ho

/-- A table that lists one partition, of the sector it stands in, or none. -/
def leafTable (full : Bool) (i : ℕ) : UInt8 :=
  if full = true ∧ i = 450 then 0x83 else if full = true ∧ i = 458 then 1
  else if i = 510 then 0x55 else if i = 511 then 0xaa else 0

/-- The disk with the same sector 0 and such a table in every other sector. -/
def leafDisk (disk : Disk) (full : ℕ → Bool) : Disk where
  size := disk.size
  sector s := if s = 0 then disk.sector 0 else leafTable (full s)
  size_lt := disk.size_lt

theorem leafDisk_front (disk : Disk) (full : ℕ → Bool) :
    (leafDisk disk full).sector 0 = disk.sector 0 := rfl

/-- What it describes. -/
def leafParts (full : ℕ → Bool) (e : PartEntry) : List Part :=
  if e.isEmpty then []
  else if e.isExtended then if full e.offset then [⟨0x83, e.offset, 1⟩] else []
  else [⟨e.type, e.offset, e.size⟩]

theorem leafTable_listed (disk : Disk) (full : Bool) (sector primary : ℕ) :
    Listed disk sector primary (tableEntries (leafTable full)) []
      (if full then [⟨0x83, sector, 1⟩] else []) := by
  cases full with
  | true =>
    have hentries : tableEntries (leafTable true) =
        [⟨0x83, 0, 1⟩, ⟨0, 0, 0⟩, ⟨0, 0, 0⟩, ⟨0, 0, 0⟩] := rfl
    have hlisted : Listed disk sector primary
        [⟨0x83, 0, 1⟩, ⟨0, 0, 0⟩, ⟨0, 0, 0⟩, ⟨0, 0, 0⟩] [] [⟨0x83, 0 + sector, 1⟩] :=
      .partition rfl rfl (.empty rfl (.empty rfl (.empty rfl .nil)))
    rw [Nat.zero_add] at hlisted
    rw [hentries]
    exact hlisted
  | false =>
    have hentries : tableEntries (leafTable false) =
        [⟨0, 0, 0⟩, ⟨0, 0, 0⟩, ⟨0, 0, 0⟩, ⟨0, 0, 0⟩] := rfl
    rw [hentries]
    exact .empty rfl (.empty rfl (.empty rfl (.empty rfl .nil)))

theorem leafDisk_listed (full : ℕ → Bool) : ∀ (es : List PartEntry),
    (∀ o ∈ extendedOffsets es, o ≠ 0 ∧ o < disk.size) →
    Listed (leafDisk disk full) 0 0 es (extendedOffsets es) (es.flatMap (leafParts full))
  | [], _ => .nil
  | e :: es, h => by
    have ih := leafDisk_listed full es
    rw [flatMap_cons]
    cases he : e.isEmpty with
    | true =>
      have hskip : extendedOffsets (e :: es) = extendedOffsets es := by
        simp [extendedOffsets, he]
      have hnone : leafParts full e = [] := if_pos he
      rw [hskip] at h ⊢
      rw [hnone]
      exact .empty he (ih h)
    | false =>
      cases hx : e.isExtended with
      | false =>
        have hskip : extendedOffsets (e :: es) = extendedOffsets es := by
          simp [extendedOffsets, hx]
        have hone : leafParts full e = [⟨e.type, e.offset, e.size⟩] := by
          simp [leafParts, he, hx]
        rw [hskip] at h ⊢
        rw [hone]
        exact .partition he hx (ih h)
      | true =>
        have htake : extendedOffsets (e :: es) = e.offset :: extendedOffsets es := by
          simp [extendedOffsets, he, hx]
        have hparts : leafParts full e =
            if full e.offset then [⟨0x83, e.offset, 1⟩] else [] := by
          simp [leafParts, he, hx]
        rw [htake] at h ⊢
        rw [hparts]
        obtain ⟨hzero, hin⟩ := h e.offset mem_cons_self
        have hsector : (leafDisk disk full).sector e.offset = leafTable (full e.offset) :=
          if_neg hzero
        have hsig : ∀ b, signature (leafTable b) = 0xaa55 := by decide
        have hnested :=
          leafTable_listed (leafDisk disk full) (full e.offset) e.offset e.offset
        rw [← hsector] at hnested
        have hnext : e.offset = if (0 : ℕ) = 0 then e.offset else e.offset + 0 := rfl
        have htable : HasTable (leafDisk disk full) e.offset := by
          refine ⟨hin, ?_⟩
          rw [hsector]
          exact hsig _
        exact .extended he hx hnext htable hnested
          (ih fun o ho => h o (mem_cons_of_mem _ ho))

/-- **A disk with an extended partition** shares its sector 0 with disks that describe more or fewer
    partitions. -/
theorem leafDisk_described (hd : Described disk ts ps) (htable : HasTable disk 0)
    (full : ℕ → Bool) : Described (leafDisk disk full) disk.primaryExtended
      ((tableEntries (disk.sector 0)).flatMap (leafParts full)) := by
  obtain ⟨hsub, hin⟩ := (hd.listed htable).offsets
  have hdist : (0 :: disk.primaryExtended).Nodup := hd.distinct.sublist (hsub.cons_cons 0)
  have htable' : HasTable (leafDisk disk full) 0 := by
    unfold HasTable
    rw [leafDisk_front]
    exact htable
  refine ⟨fun _ => ?_, fun hno => absurd htable' hno, hdist⟩
  rw [leafDisk_front]
  refine leafDisk_listed full _ fun o ho => ⟨fun h0 => ?_, hin o ho⟩
  exact (nodup_cons.mp hdist).1 (h0 ▸ ho)

theorem length_expectedDevs (disk : Disk) : ∀ (nr : ℕ) (ps : List Part),
    (expectedDevs disk nr ps).length = ps.countP fun p => p.start + p.size ≤ disk.size
  | _, [] => rfl
  | nr, p :: ps => by
    have ih := length_expectedDevs disk (nr + 1) ps
    unfold expectedDevs
    rw [countP_cons]
    split
    · rename_i hin
      simp [ih, hin]
    · rename_i hout
      simp [ih, hout]

/-- One more device, if the table of the extended partition at `o` is not empty. -/
theorem countP_leafParts (f : Part → Bool) (hf : f ⟨0x83, o, 1⟩ = true) :
    ∀ es : List PartEntry, o ∈ extendedOffsets es →
      (es.flatMap (leafParts fun _ => false)).countP f <
        (es.flatMap (leafParts fun s => s = o)).countP f := by
  have hle : ∀ e : PartEntry, (leafParts (fun _ => false) e).countP f ≤
      (leafParts (fun s => s = o) e).countP f := by
    intro e
    unfold leafParts
    split
    · exact Nat.le_refl _
    · split
      · simp
      · exact Nat.le_refl _
  have hle' : ∀ es : List PartEntry, (es.flatMap (leafParts fun _ => false)).countP f ≤
      (es.flatMap (leafParts fun s => s = o)).countP f := by
    intro es
    induction es with
    | nil => exact Nat.le_refl _
    | cons e es ih =>
      rw [flatMap_cons, flatMap_cons, countP_append, countP_append]
      exact Nat.add_le_add (hle e) ih
  intro es ho
  induction es with
  | nil => exact absurd ho not_mem_nil
  | cons e es ih =>
    rw [flatMap_cons, flatMap_cons, countP_append, countP_append]
    by_cases he : e.isEmpty = false ∧ e.isExtended = true ∧ e.offset = o
    · obtain ⟨hempty, hext, rfl⟩ := he
      have hone : (leafParts (fun _ => false) e).countP f <
          (leafParts (fun s => s = e.offset) e).countP f := by
        simp [leafParts, hempty, hext, hf]
      exact Nat.add_lt_add_of_lt_of_le hone (hle' es)
    · have htail : o ∈ extendedOffsets es := by
        obtain ⟨e', he', heo⟩ := mem_map.mp ho
        obtain ⟨hmem, hkind⟩ := mem_filter.mp he'
        rw [Bool.and_eq_true, Bool.not_eq_true'] at hkind
        rcases mem_cons.mp hmem with rfl | hmem
        · exact absurd ⟨hkind.1, hkind.2, heo⟩ he
        · refine mem_map.mpr ⟨e', mem_filter.mpr ⟨hmem, ?_⟩, heo⟩
          rw [hkind.1, hkind.2]
          rfl
      exact Nat.add_lt_add_of_le_of_lt (hle e) (ih htail)

/-- **The scan misses something on one of two disks** with the same sector 0. -/
theorem extended_misses (hd : Described disk ts ps) (htable : HasTable disk 0)
    (ho : o ∈ disk.primaryExtended) : ∃ full,
    ¬FindsAll (leafDisk disk full) ((tableEntries (disk.sector 0)).flatMap (leafParts full)) := by
  obtain ⟨-, hin⟩ := (hd.listed htable).offsets
  by_contra hall
  push Not at hall
  obtain ⟨st₁, ⟨enough₁, hrun1⟩, hfound1⟩ := hall fun _ => false
  obtain ⟨st₂, ⟨enough₂, hrun2⟩, hfound2⟩ := hall fun s => s = o
  have hsame : ∀ full fuel, partitionScan fuel (leafDisk disk full) = partitionScan fuel disk := by
    intro full fuel
    have hsize : (leafDisk disk full).size = disk.size := rfl
    unfold partitionScan
    rw [readPartitionTable_front hsize (leafDisk_front disk full)]
  have hst : st₁ = st₂ := by
    have h1 := hrun1 (enough₁ + enough₂) (Nat.le_add_right _ _)
    have h2 := hrun2 (enough₁ + enough₂) (Nat.le_add_left _ _)
    rw [hsame] at h1 h2
    exact Option.some.inj (h1.symm.trans h2)
  have hlength := congrArg List.length (hfound1.symm.trans ((congrArg Scan.found hst).trans hfound2))
  rw [length_expectedDevs, length_expectedDevs] at hlength
  refine absurd hlength (Nat.ne_of_lt (countP_leafParts _ ?_ _ ho))
  exact decide_eq_true (hin o ho)

end Extended

/-- **When `partition_scan` finds what is described**: on every disk whose sector 0 lists no extended
    partition, and on no other sector 0 for all that the rest of the disk may describe. -/
theorem partition_scan_finds (disk : Disk) (hd : ∃ ts ps, Described disk ts ps) :
    (∀ disk' : Disk, disk'.size = disk.size → disk'.sector 0 = disk.sector 0 →
      ∀ ts ps, Described disk' ts ps → FindsAll disk' ps) ↔
      (HasTable disk 0 → disk.primaryExtended = []) := by
  constructor
  · intro hall htable
    obtain ⟨ts, ps, hdesc⟩ := hd
    by_contra hne
    obtain ⟨o, ho⟩ := exists_mem_of_ne_nil _ hne
    obtain ⟨full, hmiss⟩ := extended_misses hdesc htable ho
    exact hmiss (hall (leafDisk disk full) rfl (leafDisk_front disk full) _ _
      (leafDisk_described hdesc htable full))
  · intro hplain disk' hsize hfront ts ps hdesc
    refine plain_findsAll hdesc fun htable => ?_
    unfold Disk.primaryExtended
    rw [hfront]
    refine hplain ?_
    unfold HasTable at htable ⊢
    rw [← hsize, ← hfront]
    exact htable

/-- One partition, listed in sector 0. -/
theorem partition_scan_finds_one :
    FindsAll ⟨100, fun _ => leafTable true, by decide⟩ [⟨0x83, 0, 1⟩] := by
  have hdesc : Described ⟨100, fun _ => leafTable true, by decide⟩ [] [⟨0x83, 0, 1⟩] :=
    ⟨fun _ => leafTable_listed _ true 0 0, fun hno => absurd ⟨by decide, by decide⟩ hno, by decide⟩
  exact (partition_scan_finds _ ⟨_, _, hdesc⟩).mpr (fun _ => by decide) _ rfl rfl _ _ hdesc

/-- An extended partition at sector 60 of 100 whose table lists one partition: sector 0 is read in its
    place, and nothing is found. -/
def nestedDisk : Disk where
  size := 100
  sector s := if s = 0 then oneExtended 60 else leafTable true
  size_lt := by decide

theorem partition_scan_misses : ¬∀ ts ps, Described nestedDisk ts ps → FindsAll nestedDisk ps := by
  intro hall
  have htable : HasTable nestedDisk 60 := ⟨by decide, by decide⟩
  have hnested : Listed nestedDisk 60 60 (tableEntries (nestedDisk.sector 60)) [] [⟨0x83, 60, 1⟩] :=
    leafTable_listed nestedDisk true 60 60
  have hentries : tableEntries (nestedDisk.sector 0) =
      [⟨5, 60, 1⟩, ⟨0, 0, 0⟩, ⟨0, 0, 0⟩, ⟨0, 0, 0⟩] := rfl
  have hrest : Listed nestedDisk 0 0 [⟨0, 0, 0⟩, ⟨0, 0, 0⟩, ⟨0, 0, 0⟩] [] [] :=
    .empty rfl (.empty rfl (.empty rfl .nil))
  have hlisted : Listed nestedDisk 0 0 (tableEntries (nestedDisk.sector 0)) [60]
      [⟨0x83, 60, 1⟩] := by
    rw [hentries]
    exact Listed.extended (e := ⟨5, 60, 1⟩) rfl rfl rfl htable hnested hrest
  have hdesc : Described nestedDisk [60] [⟨0x83, 60, 1⟩] :=
    ⟨fun _ => hlisted, fun hno => absurd ⟨by decide, by decide⟩ hno, by decide⟩
  obtain ⟨st, ⟨enough, hrun⟩, hfound⟩ := hall _ _ hdesc
  have hscan : (partitionScan (enough + 3) nestedDisk).map Scan.found = some [] := rfl
  rw [hrun (enough + 3) (Nat.le_add_right _ _), Option.map_some, hfound] at hscan
  revert hscan
  decide

end Pintos
