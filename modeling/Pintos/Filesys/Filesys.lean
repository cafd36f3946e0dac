/-
  Subject:   The upper half of the file system: file.c, directory.c, free-map.c as far as formatting
             and mounting go, and filesys.c. Definitions only.

  A null pointer is `none`. `struct dir` lives only inside one call; `pos` of it belongs to
  `dir_readdir`, which no call here makes, so a directory is its inode.
-/
import Pintos.Filesys.Inode

namespace Pintos

open Lib

/-! ## 1. Files -/

/-- `file_open`. -/
def fileOpen (inode : Option ℕ) : FsM (Option ℕ) := do
  let granted ← malloc
  match inode, granted with
  | some h, true =>
    let s ← get
    let f := s.nextFile
    set { s.setFile f ⟨h, 0, false⟩ with openFiles := f :: s.openFiles, nextFile := f + 1 }
    return some f
  | _, _ =>
    inodeClose inode
    return none

/-- `file_deny_write`. -/
def fileDenyWrite (file : Option ℕ) : FsM Unit := do
  match file with
  | none => .stop (.assertion "file != NULL")
  | some f =>
    let s ← get
    if !(s.file f).denyWrite then
      set (s.setFile f { s.file f with denyWrite := true })
      inodeDenyWrite (s.file f).inode

/-- `file_allow_write`. -/
def fileAllowWrite (file : Option ℕ) : FsM Unit := do
  match file with
  | none => .stop (.assertion "file != NULL")
  | some f =>
    let s ← get
    if (s.file f).denyWrite then
      set (s.setFile f { s.file f with denyWrite := false })
      inodeAllowWrite (s.file f).inode

/-- `file_close`. -/
def fileClose (file : Option ℕ) : FsM Unit := do
  match file with
  | none => return ()
  | some f =>
    fileAllowWrite (some f)
    let s ← get
    set { s with openFiles := s.openFiles.erase f }
    inodeClose (some (s.file f).inode)

/-- `file_read`: the bytes read. -/
def fileRead (file : Option ℕ) (size : Int) : FsM (List UInt8) := do
  match file with
  | none => .stop (.fault "file->inode")
  | some f =>
    let s ← get
    let b ← inodeReadAt (s.file f).inode size (s.file f).pos
    modify fun s => s.setFile f { s.file f with pos := (s.file f).pos + b.length }
    return b

/-- `file_write`. -/
def fileWrite (file : Option ℕ) (buffer : ℕ → UInt8) (size : Int) : FsM ℕ := do
  match file with
  | none => .stop (.fault "file->inode")
  | some f =>
    let s ← get
    let n ← inodeWriteAt (s.file f).inode buffer size (s.file f).pos
    modify fun s => s.setFile f { s.file f with pos := (s.file f).pos + n }
    return n

/-- `file_length`. -/
def fileLength (file : Option ℕ) : FsM ℕ := do
  match file with
  | none => .stop (.assertion "file != NULL")
  | some f =>
    let s ← get
    return (s.inode (s.file f).inode).data.length

/-- `file_seek`. -/
def fileSeek (file : Option ℕ) (newPos : Int) : FsM Unit := do
  match file with
  | none => .stop (.assertion "file != NULL")
  | some f =>
    assert (0 ≤ newPos) "new_pos >= 0"
    modify fun s => s.setFile f { s.file f with pos := newPos.toNat }

/-- `file_tell`. -/
def fileTell (file : Option ℕ) : FsM ℕ := do
  match file with
  | none => .stop (.assertion "file != NULL")
  | some f =>
    let s ← get
    return (s.file f).pos

/-! ## 2. Directories -/

/-- The bytes of a C string, without the null that ends it. -/
abbrev CString := { l : List UInt8 // (0 : UInt8) ∉ l }

/-- `struct dir_entry`; `name` are the 15 bytes of the field. -/
structure DirEntry where
  inodeSector : ℕ
  name : List UInt8
  inUse : Bool
  deriving DecidableEq, Repr

def dirEntryBytes (e : DirEntry) (k : ℕ) : UInt8 :=
  if k < 4 then wordByte e.inodeSector k
  else if k < 19 then e.name.getD (k - 4) 0
  else if e.inUse then 1 else 0

def dirEntryOf (b : ℕ → UInt8) : DirEntry :=
  ⟨word b 0, (List.range 15).map fun k => b (4 + k), b 19 != 0⟩

/-- The string in the field `name`. -/
def DirEntry.string (e : DirEntry) : List UInt8 := e.name.takeWhile (· != 0)

/-- `strlcpy` into a field of 15 bytes: what follows the null stays. -/
def strlcpy (old : List UInt8) (name : List UInt8) : List UInt8 :=
  let l := name.take 14
  l ++ 0 :: old.drop (l.length + 1)

/-- `inode_read_at (dir->inode, &e, sizeof e, ofs) == sizeof e`, with the entry read. -/
def readEntry (dir ofs : ℕ) : FsM (Option DirEntry) := do
  let b ← inodeReadAt dir 20 ofs
  return if b.length = 20 then some (dirEntryOf fun k => b.getD k 0) else none

/-- The loop of `lookup`: the entry and its offset. A directory ends after `length / 20` entries, so
    one more round is enough. -/
def lookupLoop (dir : ℕ) (name : CString) : (fuel ofs : ℕ) → FsM (Option (DirEntry × ℕ))
  | 0, _ => return none
  | fuel + 1, ofs => do
      match ← readEntry dir ofs with
      | none => return none
      | some e =>
        if e.inUse ∧ e.string = name.val then return some (e, ofs)
        else lookupLoop dir name fuel (ofs + 20)

/-- `lookup`. -/
def lookup (dir : ℕ) (name : CString) : FsM (Option (DirEntry × ℕ)) := do
  let s ← get
  lookupLoop dir name ((s.inode dir).data.length / 20 + 1) 0

/-- The loop of `dir_add` that looks for a free slot: its offset, and the entry last read, whose bytes
    `e` still holds. -/
def slotLoop (dir : ℕ) : (fuel : ℕ) → (e : DirEntry) → (ofs : ℕ) → FsM (ℕ × DirEntry)
  | 0, e, ofs => return (ofs, e)
  | fuel + 1, e, ofs => do
      match ← readEntry dir ofs with
      | none => return (ofs, e)
      | some e => if !e.inUse then return (ofs, e) else slotLoop dir fuel e (ofs + 20)

/-- `dir_open`. -/
def dirOpen (inode : Option ℕ) : FsM (Option ℕ) := do
  let granted ← malloc
  match inode, granted with
  | some h, true => return some h
  | _, _ =>
    inodeClose inode
    return none

/-- `dir_open_root`. -/
def dirOpenRoot : FsM (Option ℕ) := do
  dirOpen (← inodeOpen 1)

/-- `dir_close`. -/
def dirClose (dir : Option ℕ) : FsM Unit := inodeClose dir

/-- `dir_lookup`: the inode, or null. -/
def dirLookup (dir : ℕ) (name : CString) : FsM (Option ℕ) := do
  match ← lookup dir name with
  | some (e, _) => inodeOpen e.inodeSector
  | none => return none

/-- `dir_lookup_file`. -/
def dirLookupFile (name : CString) : FsM Bool := do
  match ← dirOpenRoot with
  | none => .stop (.assertion "dir != NULL")
  | some dir => return (← lookup dir name).isSome

/-- `dir_add`. Before the first entry is read, `e` is uninitialised; nothing looks at the bytes of it
    that are written. -/
def dirAdd (dir : ℕ) (name : CString) (inodeSector : ℕ) : FsM Bool := do
  if name.val = [] ∨ 14 < name.val.length then return false
  else
    match ← lookup dir name with
    | some _ => return false
    | none =>
      let s ← get
      let (ofs, e) ← slotLoop dir ((s.inode dir).data.length / 20 + 1)
        ⟨0, List.replicate 15 0, false⟩ 0
      let n ← inodeWriteAt dir
        (dirEntryBytes ⟨inodeSector, strlcpy e.name name.val, true⟩) 20 ofs
      return n == 20

/-- `dir_remove`. -/
def dirRemove (dir : ℕ) (name : CString) : FsM Bool := do
  match ← lookup dir name with
  | none => return false
  | some (e, ofs) =>
    match ← inodeOpen e.inodeSector with
    | none => return false
    | some h =>
      let n ← inodeWriteAt dir (dirEntryBytes { e with inUse := false }) 20 ofs
      if n = 20 then
        inodeRemove h
        inodeClose (some h)
        return true
      else
        inodeClose (some h)
        return false

/-! ## 3. The file system -/

/-- `filesys_create`. -/
def filesysCreate (name : CString) (initialSize : Int) : FsM Bool := do
  match ← dirOpenRoot with
  | none => return false
  | some dir =>
    match ← freeMapAllocate 1 with
    | none =>
      dirClose (some dir)
      return false
    | some inodeSector =>
      let created ← inodeCreate inodeSector initialSize
      let success ← if created then dirAdd dir name inodeSector else pure false
      if !success ∧ inodeSector ≠ 0 then freeMapRelease inodeSector 1
      dirClose (some dir)
      return success

/-- `filesys_open`. -/
def filesysOpen (name : CString) : FsM (Option ℕ) := do
  .await .lockFilesys fun s => !s.locked
  modify fun s => { s with locked := true }
  let dir ← dirOpenRoot
  let inode ← match dir with
    | none => pure none
    | some d => dirLookup d name
  dirClose dir
  modify fun s => { s with locked := false }
  .yieldAt .lockFilesys
  fileOpen inode

/-- `filesys_remove`. -/
def filesysRemove (name : CString) : FsM Bool := do
  let dir ← dirOpenRoot
  let success ← match dir with
    | none => pure false
    | some d => dirRemove d name
  dirClose dir
  return success

/-! ## 4. Formatting and mounting -/

/-- `free_map_init`. The bits of a new bitmap are cleared; its last word can be longer than that. -/
def freeMapInit : FsM Unit := do
  let granted ← malloc
  let granted' ← malloc
  let s ← get
  if granted ∧ (granted' ∧ byteCnt s.size ≠ 0 ∨ s.size = 0) then
    if s.size = 0 then .stop (.fault "free_map->bits")
    else
      let m := bitmapSetMultiple s.freeMap 0 s.size false
      set (s.setMap (bitmapSetMultiple m 0 2 true))
  else .stop (.panic "bitmap creation failed--file system device is too large")

/-- `bitmap_read`. -/
def bitmapRead (f : ℕ) : FsM Bool := do
  let s ← get
  let size := byteCnt s.size
  let b ← inodeReadAt (s.file f).inode size 0
  modify fun s =>
    let m k := if k / 8 < b.length then ((b.getD (k / 8) 0).toNat).testBit (k % 8) else s.freeMap k
    -- `last_mask`
    s.setMap (bitmapSetMultiple m s.size (8 * size - s.size) false)
  return b.length == size

/-- `free_map_open`. -/
def freeMapOpen : FsM Unit := do
  let file ← fileOpen (← inodeOpen 0)
  modify fun s => { s with freeMapFile := file }
  match file with
  | none => .stop (.panic "can't open free map")
  | some f => if !(← bitmapRead f) then .stop (.panic "can't read free map")

/-- `free_map_close`. -/
def freeMapClose : FsM Unit := do
  let s ← get
  fileClose s.freeMapFile

/-- `free_map_create`. -/
def freeMapCreate : FsM Unit := do
  let s ← get
  if ← inodeCreate 0 (byteCnt s.size) then
    let file ← fileOpen (← inodeOpen 0)
    modify fun s => { s with freeMapFile := file }
    match file with
    | none => .stop (.panic "can't open free map")
    | some f => if !(← bitmapWrite f) then .stop (.panic "can't write free map")
  else .stop (.panic "free map creation failed")

/-- `do_format`; the root directory has 16 entries of 20 bytes. -/
def doFormat : FsM Unit := do
  freeMapCreate
  if ← inodeCreate 1 (16 * 20) then freeMapClose
  else .stop (.panic "root directory creation failed")

/-- `filesys_init`. -/
def filesysInit (format : Bool) : FsM Unit := do
  modify fun s => { s with openInodes := [] }
  freeMapInit
  if format then doFormat
  freeMapOpen
  modify fun s => { s with locked := false }

/-- The state before `filesys_init`: a device with `size` sectors that hold anything, a heap that
    holds anything, and no `struct inode` or `struct file`. -/
def powerOn (size : ℕ) (disk : ℕ → ℕ → UInt8) (heap : ℕ → Bool) (allocs : List Bool) : FileSys where
  size := size
  disk := disk
  freeMap := heap
  freeMapFile := none
  inode := fun _ => ⟨0, 0, false, 0, ⟨0, 0⟩, 0⟩
  openInodes := []
  nextInode := 0
  file := fun _ => ⟨0, 0, false⟩
  openFiles := []
  nextFile := 0
  locked := false
  allocs := allocs

end Pintos
