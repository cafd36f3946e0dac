/-
  Subject:   The lower half of the file system: block.c as far as the file system device goes, the
             bitmap of free-map.c, and inode.c. Definitions only.

  * The device is an array of sectors of 512 bytes. `block_read` and `block_write` sleep in the driver
    before and after the transfer, so each is two pauses around it.
  * `struct inode` and `struct file` are on the heap; a number stands for the address. An address
    is not used twice.
  * `allocs` are the outcomes of the calls to `malloc`, `calloc` and `realloc` to come, `true` for
    granted; those after the end of the list are granted too.
  * A failed `ASSERT`, a `PANIC` and a page fault in the kernel stop the machine (`FsCrash`).

  Left out: `magic` of an inode on disk, which nothing reads, and the read and write counts of the
  device.
-/
import Pintos.Lib.Prog
import Pintos.Lib.Memory

namespace Pintos

open Lib

/-! ## 1. The state -/

/-- `struct inode_disk`. `inode_create` asserts that `length` is not negative. -/
structure InodeDisk where
  start : ℕ
  length : ℕ
  deriving DecidableEq, Repr

/-- `struct inode`. -/
structure Inode where
  sector : ℕ
  openCnt : ℕ
  removed : Bool
  denyWriteCnt : ℕ
  data : InodeDisk
  /-- `value` of the semaphore `sema`. -/
  sema : ℕ
  deriving DecidableEq, Repr

/-- `struct file`. `file_seek` asserts that `pos` is not negative. -/
structure File where
  inode : ℕ
  pos : ℕ
  denyWrite : Bool
  deriving DecidableEq, Repr

structure FileSys where
  /-- `block_size (fs_device)`. -/
  size : ℕ
  disk : ℕ → ℕ → UInt8
  /-- `free_map`; what lies above its `bit_cnt` bits is the rest of its last word. -/
  freeMap : ℕ → Bool
  freeMapFile : Option ℕ
  inode : ℕ → Inode
  openInodes : List ℕ
  nextInode : ℕ
  file : ℕ → File
  /-- The `struct file`s that exist. -/
  openFiles : List ℕ
  nextFile : ℕ
  /-- `lock_filesys` is held. -/
  locked : Bool
  allocs : List Bool

inductive FsCrash where
  | assertion (expr : String)
  | panic (message : String)
  /-- An access through a null pointer or outside an object. -/
  | fault (pointer : String)
  deriving DecidableEq, Repr

/-- Where a thread can be switched away from in the file system. -/
inductive Pause where
  | read (sector : ℕ)
  | write (sector : ℕ)
  /-- The transfer is over; the driver waits for the completion interrupt. -/
  | completion
  | semaDown (inode : ℕ)
  | semaUp (inode : ℕ)
  | lockFilesys
  deriving DecidableEq, Repr

abbrev FsM (α : Type) := Prog Pause FileSys FsCrash α

/-- `ASSERT`. -/
def assert (c : Bool) (expr : String) : FsM Unit :=
  if c then pure () else .stop (.assertion expr)

/-- `malloc` and `calloc` of something that is not empty. -/
def malloc : FsM Bool := do
  let s ← get
  match s.allocs with
  | [] => return true
  | granted :: rest =>
    set { s with allocs := rest }
    return granted

namespace FileSys

/-- The 512 bytes of a sector are stored. -/
def setDisk (s : FileSys) (sector : ℕ) (b : ℕ → UInt8) : FileSys :=
  { s with disk := fun x k => if x = sector ∧ k < 512 then b k else s.disk x k }

def setMap (s : FileSys) (m : ℕ → Bool) : FileSys := { s with freeMap := m }

def setInode (s : FileSys) (h : ℕ) (i : Inode) : FileSys :=
  { s with inode := Function.update s.inode h i }

def setFile (s : FileSys) (f : ℕ) (x : File) : FileSys :=
  { s with file := Function.update s.file f x }

end FileSys

/-! ## 2. The device -/

/-- `block_read`. -/
def blockRead (sector : ℕ) : FsM (ℕ → UInt8) := do
  let s ← get
  if sector < s.size then
    .yieldAt (.read sector)
    let s ← get
    .yieldAt .completion
    return s.disk sector
  else .stop (.panic "Access past end of device")

/-- `block_write`. -/
def blockWrite (sector : ℕ) (b : ℕ → UInt8) : FsM Unit := do
  let s ← get
  if sector < s.size then
    .yieldAt (.write sector)
    modify (·.setDisk sector b)
    .yieldAt .completion
  else .stop (.panic "Access past end of device")

/-- Byte `k` of a word in memory. -/
def wordByte (n k : ℕ) : UInt8 := UInt8.ofNat (n / 256 ^ k)

def inodeDiskBytes (d : InodeDisk) (k : ℕ) : UInt8 :=
  if k < 4 then wordByte d.start k else if k < 8 then wordByte d.length (k - 4) else 0

def inodeDiskOf (b : ℕ → UInt8) : InodeDisk := ⟨word b 0, word b 4⟩

/-! ## 3. Reading and writing inodes -/

/-- `byte_to_sector`; `-1` is the highest sector number. -/
def byteToSector (d : InodeDisk) (pos : ℕ) : ℕ :=
  if pos < d.length then d.start + pos / 512 else 2 ^ 32 - 1

/-- `chunk_size` of the loops of `inode_read_at` and `inode_write_at`; it is 0 past the end of the
    file, where the source computes a negative number. -/
def chunkSize (d : InodeDisk) (size offset : ℕ) : ℕ :=
  min size (min (d.length - offset) (512 - offset % 512))

/-- The loop of `inode_read_at`; `bounce` says that the bounce buffer has been allocated. Every round
    moves at least one byte, so `fuel` is the number of bytes asked for. -/
def readLoop (h : ℕ) : (fuel : ℕ) → (bounce : Bool) → (size offset : ℕ) → FsM (List UInt8)
  | 0, _, _, _ => return []
  | fuel + 1, bounce, size, offset => do
      let s ← get
      let d := (s.inode h).data
      let sectorOfs := offset % 512
      let chunk := chunkSize d size offset
      if chunk = 0 then return []
      else if sectorOfs = 0 ∧ chunk = 512 then
        let b ← blockRead (byteToSector d offset)
        let rest ← readLoop h fuel bounce (size - chunk) (offset + chunk)
        return (List.range chunk).map b ++ rest
      else
        let granted ← if bounce then pure true else malloc
        if granted then
          let b ← blockRead (byteToSector d offset)
          let rest ← readLoop h fuel true (size - chunk) (offset + chunk)
          return (List.range chunk).map (fun i => b (sectorOfs + i)) ++ rest
        else return []

/-- `inode_read_at`: the bytes read. -/
def inodeReadAt (h : ℕ) (size : Int) (offset : ℕ) : FsM (List UInt8) :=
  readLoop h size.toNat false size.toNat offset

/-- The `n` bytes at `ofs` of the sector `b` are replaced by the first `n` of `buffer`. -/
def patch (b : ℕ → UInt8) (ofs n : ℕ) (buffer : ℕ → UInt8) (k : ℕ) : UInt8 :=
  if ofs ≤ k ∧ k < ofs + n then buffer (k - ofs) else b k

/-- The loop of `inode_write_at`: the number of bytes written. -/
def writeLoop (h : ℕ) : (fuel : ℕ) → (bounce : Bool) → (buffer : ℕ → UInt8) → (size offset : ℕ) →
    FsM ℕ
  | 0, _, _, _, _ => return 0
  | fuel + 1, bounce, buffer, size, offset => do
      let s ← get
      let d := (s.inode h).data
      let sectorOfs := offset % 512
      let chunk := chunkSize d size offset
      let sector := byteToSector d offset
      if chunk = 0 then return 0
      else if sectorOfs = 0 ∧ chunk = 512 then
        blockWrite sector buffer
        let rest ← writeLoop h fuel bounce (fun k => buffer (chunk + k)) (size - chunk)
          (offset + chunk)
        return chunk + rest
      else
        let granted ← if bounce then pure true else malloc
        if granted then
          let b ← if 0 < sectorOfs ∨ chunk < 512 - sectorOfs then blockRead sector
            else pure fun _ => 0
          blockWrite sector (patch b sectorOfs chunk buffer)
          let rest ← writeLoop h fuel true (fun k => buffer (chunk + k)) (size - chunk)
            (offset + chunk)
          return chunk + rest
        else return 0

/-- `inode_write_at`. -/
def inodeWriteAt (h : ℕ) (buffer : ℕ → UInt8) (size : Int) (offset : ℕ) : FsM ℕ := do
  let s ← get
  if (s.inode h).denyWriteCnt ≠ 0 then return 0
  else
    .await (.semaDown h) fun s => 0 < (s.inode h).sema
    modify fun s => s.setInode h { s.inode h with sema := (s.inode h).sema - 1 }
    let n ← writeLoop h size.toNat false buffer size.toNat offset
    modify fun s => s.setInode h { s.inode h with sema := (s.inode h).sema + 1 }
    .yieldAt (.semaUp h)
    return n

/-- `inode_deny_write`. -/
def inodeDenyWrite (h : ℕ) : FsM Unit := do
  modify fun s => s.setInode h { s.inode h with denyWriteCnt := (s.inode h).denyWriteCnt + 1 }
  let s ← get
  assert ((s.inode h).denyWriteCnt ≤ (s.inode h).openCnt) "inode->deny_write_cnt <= inode->open_cnt"

/-- `inode_allow_write`. -/
def inodeAllowWrite (h : ℕ) : FsM Unit := do
  let s ← get
  assert (0 < (s.inode h).denyWriteCnt) "inode->deny_write_cnt > 0"
  assert ((s.inode h).denyWriteCnt ≤ (s.inode h).openCnt) "inode->deny_write_cnt <= inode->open_cnt"
  set (s.setInode h { s.inode h with denyWriteCnt := (s.inode h).denyWriteCnt - 1 })
  assert ((s.inode h).denyWriteCnt - 1 ≤ (s.inode h).openCnt)
    "inode->deny_write_cnt <= inode->open_cnt"

/-! ## 4. The free map -/

/-- `byte_cnt` of bitmap.c. -/
def byteCnt (bitCnt : ℕ) : ℕ := 4 * ((bitCnt + 31) % 2 ^ 32 / 32)

/-- Byte `k` of the elements of a bitmap in memory. -/
def mapByte (m : ℕ → Bool) (k : ℕ) : UInt8 :=
  UInt8.ofNat (((List.range 8).map fun i => if m (8 * k + i) then 2 ^ i else 0).sum)

/-- `bitmap_contains`. -/
def bitmapContains (m : ℕ → Bool) (start cnt : ℕ) (value : Bool) : Bool :=
  (List.range cnt).any fun i => m (start + i) == value

/-- `bitmap_scan` from bit 0 for unset bits; `none` is `BITMAP_ERROR`. -/
def bitmapScan (bitCnt : ℕ) (m : ℕ → Bool) (cnt : ℕ) : Option ℕ :=
  if cnt ≤ bitCnt then
    (List.range (bitCnt - cnt + 1)).find? fun i => !bitmapContains m i cnt true
  else none

/-- `bitmap_set_multiple`. -/
def bitmapSetMultiple (m : ℕ → Bool) (start cnt : ℕ) (value : Bool) (k : ℕ) : Bool :=
  if start ≤ k ∧ k < start + cnt then value else m k

/-- `bitmap_write`. -/
def bitmapWrite (f : ℕ) : FsM Bool := do
  let s ← get
  let size := byteCnt s.size
  let n ← inodeWriteAt (s.file f).inode (mapByte s.freeMap) size 0
  return n == size

/-- `free_map_allocate`. -/
def freeMapAllocate (cnt : ℕ) : FsM (Option ℕ) := do
  let s ← get
  match bitmapScan s.size s.freeMap cnt with
  | none => return none
  | some sector =>
    set (s.setMap (bitmapSetMultiple s.freeMap sector cnt true))
    match s.freeMapFile with
    | none => return some sector
    | some f =>
      if ← bitmapWrite f then return some sector
      else
        modify fun s => s.setMap (bitmapSetMultiple s.freeMap sector cnt false)
        return none

/-- `free_map_release`. -/
def freeMapRelease (sector cnt : ℕ) : FsM Unit := do
  let s ← get
  assert (sector ≤ s.size ∧ sector + cnt ≤ s.size) "start + cnt <= b->bit_cnt"
  assert (!bitmapContains s.freeMap sector cnt false) "bitmap_all (free_map, sector, cnt)"
  set (s.setMap (bitmapSetMultiple s.freeMap sector cnt false))
  match s.freeMapFile with
  | none => .stop (.fault "free_map_file")
  | some f =>
    let _ ← bitmapWrite f
    return ()

/-! ## 5. Inodes -/

/-- `bytes_to_sectors`: `off_t` is a signed word and `size_t` an unsigned one. -/
def bytesToSectors (size : ℕ) : ℕ :=
  if size + 511 < 2 ^ 31 then (size + 511) / 512 else 2 ^ 32 - (2 ^ 32 - (size + 511)) / 512

/-- The loop of `inode_create`. -/
def zeroSectors : (sector cnt : ℕ) → FsM Unit
  | _, 0 => return ()
  | sector, cnt + 1 => do
      blockWrite sector fun _ => 0
      zeroSectors (sector + 1) cnt

/-- `inode_create`. -/
def inodeCreate (sector : ℕ) (length : Int) : FsM Bool := do
  assert (0 ≤ length) "length >= 0"
  if ← malloc then
    let sectors := bytesToSectors length.toNat
    match ← freeMapAllocate sectors with
    | none => return false
    | some start =>
      blockWrite sector (inodeDiskBytes ⟨start, length.toNat⟩)
      zeroSectors start sectors
      return true
  else return false

/-- `inode_reopen`. -/
def inodeReopen (h : ℕ) : FsM Unit :=
  modify fun s => s.setInode h { s.inode h with openCnt := (s.inode h).openCnt + 1 }

/-- `inode_open`. -/
def inodeOpen (sector : ℕ) : FsM (Option ℕ) := do
  let s ← get
  match s.openInodes.find? fun h => (s.inode h).sector == sector with
  | some h =>
    inodeReopen h
    return some h
  | none =>
    if ← malloc then
      let h := s.nextInode
      modify fun s =>
        { s.setInode h ⟨sector, 1, false, 0, (s.inode h).data, 1⟩ with
          openInodes := h :: s.openInodes
          nextInode := h + 1 }
      let b ← blockRead sector
      modify fun s => s.setInode h { s.inode h with data := inodeDiskOf b }
      return some h
    else return none

/-- `inode_close`. -/
def inodeClose (inode : Option ℕ) : FsM Unit := do
  match inode with
  | none => return ()
  | some h =>
    let s ← get
    let i := s.inode h
    set (s.setInode h { i with openCnt := i.openCnt - 1 })
    if i.openCnt = 1 then
      modify fun s => { s with openInodes := s.openInodes.erase h }
      if i.removed then
        freeMapRelease i.sector 1
        freeMapRelease i.data.start (bytesToSectors i.data.length)

/-- `inode_remove`. -/
def inodeRemove (h : ℕ) : FsM Unit :=
  modify fun s => s.setInode h { s.inode h with removed := true }

end Pintos
