/-
  Subject:   What `inode_read_at` and `inode_write_at` do to the bytes of a file, in one call and in a
             sequence of calls (inode.c).

  A file is its bytes: byte `k` lies in sector `start + k / 512` at `k % 512` (`byteAt`). The loops cut
  a transfer into chunks that end at sector boundaries; one `malloc` for the bounce buffer is made
  when a chunk is not a whole sector, and a refusal ends the transfer there.

  * `inodeReadAt_run`, `inodeWriteAt_run`: a call that is not interfered with.
  * `lastWritten`: the content after a sequence of calls, byte by byte the most recent write to it.
    **`inode_byte_semantics`**: one write, one read, and a read after any sequence of calls.
-/
import Pintos.Filesys.Filesys
import Mathlib.Data.List.Range

namespace Pintos

open Lib Function

/-! ## 1. The bytes of a file -/

variable (disk : ℕ → ℕ → UInt8)

def byteAt (d : InodeDisk) (k : ℕ) : UInt8 :=
  disk (d.start + k / 512) (k % 512)

/-- Bytes `offset`, …, `offset + n - 1`. -/
def bytesAt (d : InodeDisk) (offset n : ℕ) : List UInt8 :=
  (List.range n).map fun i => byteAt disk d (offset + i)

/-- The data of the file lies on the device. -/
def OnDevice (s : FileSys) (d : InodeDisk) : Prop := ∀ k < d.length, d.start + k / 512 < s.size

/-- The number of bytes that a transfer of `size` bytes at `offset` is to move. -/
def count (d : InodeDisk) (size offset : ℕ) : ℕ := min size (d.length - offset)

@[simp]
theorem bytesAt_length (d : InodeDisk) (offset n : ℕ) : (bytesAt disk d offset n).length = n := by
  simp [bytesAt]

theorem bytesAt_add (d : InodeDisk) (offset m n : ℕ) :
    bytesAt disk d offset (m + n) = bytesAt disk d offset m ++ bytesAt disk d (offset + m) n := by
  unfold bytesAt
  rw [List.range_add, List.map_append, List.map_map]
  refine congrArg _ (List.map_congr_left fun i _ => ?_)
  show byteAt disk d (offset + (m + i)) = byteAt disk d (offset + m + i)
  rw [Nat.add_assoc]

/-! ## 2. Chunks -/

variable {c fuel k m n x : ℕ} {s : FileSys} {Q : Unit → FileSys → Prop}

section Chunk

variable {d : InodeDisk} {size offset : ℕ}

theorem chunkSize_eq : chunkSize d size offset = min (count d size offset) (512 - offset % 512) := by
  unfold chunkSize count
  omega

theorem count_eq_zero (h : chunkSize d size offset = 0) : count d size offset = 0 := by
  unfold chunkSize at h
  unfold count
  omega

theorem chunkSize_le_count (d : InodeDisk) (size offset : ℕ) :
    chunkSize d size offset ≤ count d size offset := by
  rw [chunkSize_eq]
  exact Nat.min_le_left _ _

theorem count_after_chunk :
    count d (size - chunkSize d size offset) (offset + chunkSize d size offset) =
      count d size offset - chunkSize d size offset := by
  unfold count
  omega

theorem offset_lt_length (h : chunkSize d size offset ≠ 0) : offset < d.length := by
  unfold chunkSize at h
  omega

theorem bytesAt_chunk (hc : c ≤ 512 - offset % 512) : bytesAt disk d offset c =
      (List.range c).map fun i => disk (d.start + offset / 512) (offset % 512 + i) := by
  unfold bytesAt
  refine List.map_congr_left fun i hi => ?_
  have hlt : i < c := List.mem_range.mp hi
  have hdiv : (offset + i) / 512 = offset / 512 := by omega
  have hmod : (offset + i) % 512 = offset % 512 + i := by omega
  show disk (d.start + (offset + i) / 512) ((offset + i) % 512) = _
  rw [hdiv, hmod]

theorem byteToSector_of_lt (h : offset < d.length) : byteToSector d offset = d.start + offset / 512 :=
  if_pos h

end Chunk

/-! ## 3. Allocations and the device -/

namespace FileSys

/-- The outcome of the next allocation. -/
def granted (s : FileSys) : Bool := s.allocs.headD true

/-- The next allocation has been made. -/
def pop (s : FileSys) : FileSys := { s with allocs := s.allocs.tail }

end FileSys

/-- Moving `n` bytes at `offset` takes a bounce buffer: the transfer does not consist of whole
    sectors. -/
def bounceNeeded (n offset : ℕ) : Bool := decide (0 < n ∧ (offset % 512 ≠ 0 ∨ n % 512 ≠ 0))

variable {offset size : ℕ} {d : InodeDisk}

namespace FileSys

/-- The number of bytes moved out of `n`: all, or the whole sectors before the chunk for which no
    bounce buffer was granted. -/
def moved (s : FileSys) (n offset : ℕ) : ℕ :=
  if bounceNeeded n offset && !s.granted then if offset % 512 = 0 then n / 512 * 512 else 0 else n

/-- The state after the bounce buffer has been asked for, if one is needed. -/
def bounced (s : FileSys) (n offset : ℕ) : FileSys := if bounceNeeded n offset then s.pop else s

theorem moved_le (s : FileSys) (n offset : ℕ) : s.moved n offset ≤ n := by
  unfold moved
  split
  · split
    · exact Nat.div_mul_le_self n 512
    · exact Nat.zero_le n
  · exact Nat.le_refl n

/-- The bytes moved and the state after them, where `bounce` says that the buffer is there. -/
def carried (s : FileSys) (bounce : Bool) (n offset : ℕ) : ℕ :=
  if bounce then n else s.moved n offset

def asked (s : FileSys) (bounce : Bool) (n offset : ℕ) : FileSys :=
  if bounce then s else s.bounced n offset

/-- The buffer is there, or the next allocation has been made. -/
def having (s : FileSys) (bounce : Bool) : FileSys :=
  { s with allocs := if bounce then s.allocs else s.allocs.tail }

theorem carried_zero (s : FileSys) (bounce : Bool) (offset : ℕ) :
    s.carried bounce 0 offset = 0 ∧ s.asked bounce 0 offset = s := by
  cases bounce <;> exact ⟨rfl, rfl⟩

theorem carried_whole_sector (s : FileSys) (bounce : Bool) (ho : offset % 512 = 0) (hn : 512 ≤ n) :
    s.carried bounce n offset = 512 + s.carried bounce (n - 512) (offset + 512) ∧
      s.asked bounce n offset = s.asked bounce (n - 512) (offset + 512) := by
  have hb : bounceNeeded n offset = bounceNeeded (n - 512) (offset + 512) := by
    unfold bounceNeeded
    rw [decide_eq_decide]
    omega
  have ho' : (offset + 512) % 512 = 0 := by omega
  unfold carried asked moved bounced
  rw [hb, if_pos ho, if_pos ho']
  refine ⟨?_, rfl⟩
  split
  · omega
  · split <;> omega

theorem carried_part_sector (s : FileSys) (bounce : Bool) (hn : 0 < n)
    (hp : ¬(offset % 512 = 0 ∧ min n (512 - offset % 512) = 512)) :
    s.carried bounce n offset = (if bounce || s.granted then n else 0) ∧
      s.asked bounce n offset = s.having bounce := by
  have hb : bounceNeeded n offset = true := by
    unfold bounceNeeded
    rw [decide_eq_true_eq]
    omega
  cases bounce with
  | true => exact ⟨rfl, rfl⟩
  | false =>
    have hm : s.moved n offset = if s.granted then n else 0 := by
      unfold moved
      rw [hb]
      cases s.granted
      · show (if offset % 512 = 0 then n / 512 * 512 else 0) = 0
        split <;> omega
      · rfl
    exact ⟨hm, if_pos hb⟩

end FileSys

@[simp]
theorem runs_malloc {Q : Bool → FileSys → Prop} : Runs malloc s Q ↔ Q s.granted s.pop := by
  obtain ⟨_, _, _, _, _, _, _, _, _, _, _, allocs⟩ := s
  cases allocs <;> exact runs_of_run rfl

theorem runs_buffer {α : Type} {bounce : Bool} {f : Bool → FsM α} {Q : α → FileSys → Prop} :
    Runs (if bounce then pure true >>= f else malloc >>= f) s Q ↔
      Runs (f (bounce || s.granted)) (s.having bounce) Q := by
  cases bounce with
  | false => exact runs_bind.trans runs_malloc
  | true => exact runs_bind.trans runs_pure

@[simp]
theorem runs_assert {c : Bool} {expr : String} : Runs (assert c expr) s Q ↔ c = true ∧ Q () s := by
  unfold assert
  cases c <;> simp

theorem runs_blockRead {sector : ℕ} {Q : (ℕ → UInt8) → FileSys → Prop} (h : sector < s.size) :
    Runs (blockRead sector) s Q ↔ Q (s.disk sector) s := by
  simp [blockRead, h]

theorem runs_blockWrite {sector : ℕ} {b : ℕ → UInt8} (h : sector < s.size) :
    Runs (blockWrite sector b) s Q ↔ Q () (s.setDisk sector b) := by
  simp [blockWrite, h]

/-! ## 4. Reading -/

section Read

variable {s : FileSys} {h : ℕ}

theorem OnDevice.sector (hd : OnDevice s d) (hc : chunkSize d size offset ≠ 0) :
    byteToSector d offset = d.start + offset / 512 ∧ byteToSector d offset < s.size := by
  have hlt := offset_lt_length hc
  rw [byteToSector_of_lt hlt]
  exact ⟨rfl, hd offset hlt⟩

theorem bytesAt_first_chunk (d : InodeDisk) (size offset : ℕ) :
    bytesAt disk d offset (count d size offset) =
      (List.range (chunkSize d size offset)).map
          (fun i => disk (d.start + offset / 512) (offset % 512 + i)) ++
        bytesAt disk d (offset + chunkSize d size offset)
          (count d (size - chunkSize d size offset) (offset + chunkSize d size offset)) := by
  have hle : chunkSize d size offset ≤ 512 - offset % 512 := by
    rw [chunkSize_eq]
    exact Nat.min_le_right _ _
  rw [← bytesAt_chunk disk hle, count_after_chunk, ← bytesAt_add,
    Nat.add_sub_cancel' (chunkSize_le_count _ _ _)]

/-- The loop of `inode_read_at`, with the bounce buffer at hand or without it. -/
theorem readLoop_run (bounce : Bool) (hd : OnDevice s (s.inode h).data) (hf : size ≤ fuel) :
    (readLoop h fuel bounce size offset).run s =
      .ok (bytesAt s.disk (s.inode h).data offset
        (s.carried bounce (count (s.inode h).data size offset) offset),
        s.asked bounce (count (s.inode h).data size offset) offset) := by
  induction fuel generalizing size offset s bounce with
  | zero =>
    have hsize : count (s.inode h).data size offset = 0 := by
      unfold count
      omega
    rw [hsize, (s.carried_zero bounce offset).1, (s.carried_zero bounce offset).2]
    rfl
  | succ fuel ih =>
    apply Runs.run_eq
    unfold readLoop
    simp only [runs_bind, runs_get]
    by_cases hc : chunkSize (s.inode h).data size offset = 0
    · rw [if_pos hc, runs_pure, count_eq_zero hc, (s.carried_zero bounce offset).1]
      exact ⟨rfl, (s.carried_zero bounce offset).2.symm⟩
    · obtain ⟨hsec, hlt⟩ := hd.sector hc
      have hfuel : size - chunkSize (s.inode h).data size offset ≤ fuel := by omega
      have hpos : 0 < count (s.inode h).data size offset := by
        have hle := chunkSize_le_count (s.inode h).data size offset
        omega
      rw [if_neg hc]
      split
      · -- a whole sector goes straight to the caller's buffer
        rename_i hfull
        simp only [runs_bind, runs_blockRead hlt, runs_of_run (ih bounce hd hfuel), runs_pure]
        obtain ⟨hm, hb⟩ := s.carried_whole_sector bounce hfull.1
          (n := count (s.inode h).data size offset)
          (by rw [← hfull.2]; exact chunkSize_le_count _ _ _)
        have hfirst : bytesAt s.disk (s.inode h).data offset 512 =
            (List.range 512).map (s.disk (byteToSector (s.inode h).data offset)) := by
          rw [bytesAt_chunk s.disk (by omega), hfull.1, hsec]
          simp
        rw [hm, hb, bytesAt_add, count_after_chunk, hfull.2, hfirst]
        exact ⟨rfl, rfl⟩
      · rename_i hpart
        rw [chunkSize_eq] at hpart
        obtain ⟨hm, hb⟩ := s.carried_part_sector bounce hpos hpart
        rw [runs_buffer, hm, hb]
        split
        · simp only [runs_bind, runs_pure]
          rw [runs_blockRead (s := s.having bounce) hlt,
            runs_of_run (ih (s := s.having bounce) true hd hfuel),
            bytesAt_first_chunk s.disk (s.inode h).data size offset, ← hsec]
          exact ⟨rfl, rfl⟩
        · exact runs_pure.mpr ⟨rfl, rfl⟩

theorem inodeReadAt_run (size : Int) (offset : ℕ) (hd : OnDevice s (s.inode h).data) :
    (inodeReadAt h size offset).run s =
      .ok (bytesAt s.disk (s.inode h).data offset
        (s.moved (count (s.inode h).data size.toNat offset) offset),
        s.bounced (count (s.inode h).data size.toNat offset) offset) :=
  readLoop_run false hd (Nat.le_refl _)

end Read

/-! ## 5. Writing -/

/-- The device after the first `n` bytes of `buffer` have been written at `offset` of the file. -/
def writeBytes (d : InodeDisk) (offset n : ℕ) (buffer : ℕ → UInt8) (x k : ℕ) : UInt8 :=
  if k < 512 ∧ d.start ≤ x ∧ offset ≤ 512 * (x - d.start) + k ∧
      512 * (x - d.start) + k < offset + n then buffer (512 * (x - d.start) + k - offset)
  else disk x k

/-- The state after such a write. -/
def FileSys.write (s : FileSys) (d : InodeDisk) (offset n : ℕ) (buffer : ℕ → UInt8) : FileSys :=
  { s with disk := writeBytes s.disk d offset n buffer }

section WriteBytes

variable {disk : ℕ → ℕ → UInt8} {d : InodeDisk} {buffer : ℕ → UInt8}

@[simp]
theorem writeBytes_zero : writeBytes disk d offset 0 buffer = disk := by
  funext x k
  unfold writeBytes
  rw [if_neg (by omega)]

theorem writeBytes_add : writeBytes disk d offset (m + n) buffer =
      writeBytes (writeBytes disk d offset m buffer) d (offset + m) n fun k => buffer (m + k) := by
  funext x k
  unfold writeBytes
  by_cases hk : k < 512 ∧ d.start ≤ x ∧ offset ≤ 512 * (x - d.start) + k ∧
      512 * (x - d.start) + k < offset + (m + n)
  · rw [if_pos hk]
    by_cases hm : 512 * (x - d.start) + k < offset + m
    · rw [if_neg (by omega), if_pos ⟨hk.1, hk.2.1, hk.2.2.1, hm⟩]
    · rw [if_pos ⟨hk.1, hk.2.1, by omega, by omega⟩]
      exact congrArg buffer (by omega)
  · rw [if_neg hk, if_neg (by omega), if_neg (by omega)]

theorem byteAt_writeBytes : byteAt (writeBytes disk d offset n buffer) d k =
    if offset ≤ k ∧ k < offset + n then buffer (k - offset) else byteAt disk d k := by
  have hk : 512 * (d.start + k / 512 - d.start) + k % 512 = k := by
    rw [Nat.add_sub_cancel_left]
    exact Nat.div_add_mod k 512
  have hm : k % 512 < 512 := Nat.mod_lt _ (by omega)
  unfold byteAt writeBytes
  rw [hk]
  simp only [hm, Nat.le_add_right, true_and]

theorem writeBytes_other (hn : offset + n ≤ d.length)
    (hx : ¬(d.start ≤ x ∧ 512 * (x - d.start) < d.length)) :
    writeBytes disk d offset n buffer x = disk x := by
  funext k
  unfold writeBytes
  rw [if_neg (by omega)]

/-- A sector patched with a chunk is the chunk written to the file. -/
theorem setDisk_patch (s : FileSys) (hc : c ≤ 512 - offset % 512) :
    s.setDisk (d.start + offset / 512)
        (patch (s.disk (d.start + offset / 512)) (offset % 512) c buffer) =
      s.write d offset c buffer := by
  have hdisk : (fun x k => if x = d.start + offset / 512 ∧ k < 512 then
        patch (s.disk (d.start + offset / 512)) (offset % 512) c buffer k else s.disk x k) =
      writeBytes s.disk d offset c buffer := by
    funext x k
    unfold patch writeBytes
    by_cases hx : x = d.start + offset / 512 ∧ k < 512
    · obtain ⟨rfl, hk⟩ := hx
      rw [if_pos ⟨rfl, hk⟩]
      by_cases hin : offset % 512 ≤ k ∧ k < offset % 512 + c
      · rw [if_pos hin, if_pos (by omega)]
        exact congrArg buffer (by omega)
      · rw [if_neg hin, if_neg (by omega)]
    · rw [if_neg hx, if_neg (by omega)]
  unfold FileSys.setDisk FileSys.write
  rw [hdisk]

theorem setDisk_whole (s : FileSys) (h : offset % 512 = 0 ∧ c = 512) :
    s.setDisk (d.start + offset / 512) buffer = s.write d offset c buffer := by
  obtain ⟨ho, rfl⟩ := h
  rw [← setDisk_patch s (by omega)]
  unfold FileSys.setDisk patch
  congr
  funext x k
  rw [ho]
  by_cases hx : x = d.start + offset / 512 ∧ k < 512
  · rw [if_pos hx, if_pos hx, if_pos (by omega)]
    rfl
  · rw [if_neg hx, if_neg hx]

end WriteBytes

section Write

variable {s : FileSys} {h : ℕ}

theorem write_zero {buffer : ℕ → UInt8} (s : FileSys) : s.write d offset 0 buffer = s := by
  unfold FileSys.write
  rw [writeBytes_zero]

theorem write_first_chunk (s : FileSys) (d : InodeDisk) (size offset : ℕ) (buffer : ℕ → UInt8) :
    s.write d offset (count d size offset) buffer =
      (s.write d offset (chunkSize d size offset) buffer).write d
        (offset + chunkSize d size offset)
        (count d (size - chunkSize d size offset) (offset + chunkSize d size offset))
        fun k => buffer (chunkSize d size offset + k) := by
  unfold FileSys.write
  rw [count_after_chunk, ← writeBytes_add, Nat.add_sub_cancel' (chunkSize_le_count _ _ _)]

/-- The loop of `inode_write_at`, with the bounce buffer at hand or without it. -/
theorem writeLoop_run (bounce : Bool) (offset : ℕ) (buffer : ℕ → UInt8) (hs : (s.inode h).data = d)
    (hd : OnDevice s d) (hf : size ≤ fuel) : (writeLoop h fuel bounce buffer size offset).run s =
      .ok (s.carried bounce (count d size offset) offset,
        (s.asked bounce (count d size offset) offset).write d offset
          (s.carried bounce (count d size offset) offset) buffer) := by
  induction fuel generalizing size offset s buffer bounce with
  | zero =>
    have hsize : count d size offset = 0 := by
      unfold count
      omega
    rw [hsize, (s.carried_zero bounce offset).1, (s.carried_zero bounce offset).2, write_zero]
    rfl
  | succ fuel ih =>
    apply Runs.run_eq
    unfold writeLoop
    simp only [runs_bind, runs_get, hs]
    by_cases hc : chunkSize d size offset = 0
    · rw [if_pos hc, runs_pure, count_eq_zero hc, (s.carried_zero bounce offset).1,
        (s.carried_zero bounce offset).2, write_zero]
      exact ⟨rfl, rfl⟩
    · obtain ⟨hsec, hlt⟩ := hd.sector hc
      have hfuel : size - chunkSize d size offset ≤ fuel := by omega
      have hpos : 0 < count d size offset := by
        have hle := chunkSize_le_count d size offset
        omega
      rw [if_neg hc]
      split
      · rename_i hfull
        have hrest := ih bounce (offset + chunkSize d size offset)
          (fun k => buffer (chunkSize d size offset + k))
          (s := s.write d offset (chunkSize d size offset) buffer) hs hd hfuel
        obtain ⟨hm, hb⟩ := s.carried_whole_sector bounce hfull.1 (n := count d size offset)
          (by rw [← hfull.2]; exact chunkSize_le_count _ _ _)
        rw [runs_bind, runs_blockWrite hlt, hsec, setDisk_whole s hfull, runs_bind,
          runs_of_run hrest, runs_pure, count_after_chunk, hfull.2, hm, hb]
        unfold FileSys.write
        rw [writeBytes_add]
        refine ⟨rfl, ?_⟩
        unfold FileSys.asked FileSys.bounced
        split
        · rfl
        · split <;> rfl
      · rename_i hpart
        have hle : chunkSize d size offset ≤ 512 - offset % 512 := by
          rw [chunkSize_eq]
          exact Nat.min_le_right _ _
        have hpart' := hpart
        rw [chunkSize_eq] at hpart'
        obtain ⟨hm, hb⟩ := s.carried_part_sector bounce hpos hpart'
        have hsum : chunkSize d size offset + (count d size offset - chunkSize d size offset) =
            count d size offset := Nat.add_sub_cancel' (chunkSize_le_count _ _ _)
        rw [runs_buffer, hm, hb]
        by_cases hg : (bounce || s.granted) = true
        · -- the sector is read first: a part of it stays
          have hrest := ih true (offset + chunkSize d size offset)
            (fun k => buffer (chunkSize d size offset + k))
            (s := (s.having bounce).write d offset (chunkSize d size offset) buffer) hs hd hfuel
          rw [if_pos hg, if_pos hg, if_pos (by omega), runs_bind,
            runs_blockRead (s := s.having bounce) hlt, runs_bind,
            runs_blockWrite (s := s.having bounce) hlt, hsec, setDisk_patch (s.having bounce) hle,
            runs_bind, runs_of_run hrest, runs_pure,
            write_first_chunk _ d size offset buffer, count_after_chunk]
          exact ⟨hsum, rfl⟩
        · rw [if_neg hg, if_neg hg, runs_pure]
          exact ⟨rfl, (write_zero _).symm⟩

theorem sema_back {f : ℕ → Inode} (hsema : 0 < (f h).sema) (t : FileSys)
    (ht : t.inode = update f h { f h with sema := (f h).sema - 1 }) :
    t.setInode h { t.inode h with sema := (t.inode h).sema + 1 } = { t with inode := f } := by
  have hback : { t.inode h with sema := (t.inode h).sema + 1 } = f h := by
    rw [ht, update_self]
    rw [Nat.sub_add_cancel hsema]
  unfold FileSys.setInode
  rw [hback, ht, update_idem, update_eq_self]

theorem inodeWriteAt_run (buffer : ℕ → UInt8) (size : Int) (offset : ℕ) (hs : (s.inode h).data = d)
    (hd : OnDevice s d) (hsema : 0 < (s.inode h).sema) (hdeny : (s.inode h).denyWriteCnt = 0) :
    (inodeWriteAt h buffer size offset).run s =
      .ok (s.moved (count d size.toNat offset) offset,
        (s.bounced (count d size.toNat offset) offset).write d offset
          (s.moved (count d size.toNat offset) offset) buffer) := by
  let i : Inode := { s.inode h with sema := (s.inode h).sema - 1 }
  have hi : ((s.setInode h i).inode h) = i := update_self ..
  have hrest := writeLoop_run false offset buffer (s := s.setInode h i) (h := h) (d := d)
    (by rw [hi]; exact hs) hd (Nat.le_refl size.toNat)
  apply Runs.run_eq
  unfold inodeWriteAt
  simp only [runs_bind, runs_get, runs_ite]
  rw [if_neg (not_not.mpr hdeny)]
  simp only [runs_await, runs_modify, runs_yieldAt, runs_pure, decide_eq_true_eq]
  refine ⟨hsema, ?_⟩
  rw [runs_of_run hrest]
  refine ⟨rfl, ?_⟩
  have hinode : ∀ t : FileSys, t.inode = (s.setInode h i).inode → (t.setInode h
      { t.inode h with sema := (t.inode h).sema + 1 }) = { t with inode := s.inode } :=
    fun t ht => sema_back hsema t ht
  unfold FileSys.write FileSys.asked
  rw [if_neg (by decide)]
  unfold FileSys.bounced
  split
  · exact hinode _ rfl
  · exact hinode _ rfl

theorem inodeWriteAt_denied {size : Int} {buffer : ℕ → UInt8}
    (hdeny : (s.inode h).denyWriteCnt ≠ 0) :
    (inodeWriteAt h buffer size offset).run s = .ok (0, s) := by
  apply Runs.run_eq
  unfold inodeWriteAt
  simp [hdeny]

end Write

/-! ## 6. One call -/

/-- The number of bytes a call for `size` bytes at `offset` moves. -/
def transferred (length : ℕ) (size : Int) (offset : ℕ) : ℕ :=
  (max 0 (min size ((length : Int) - offset))).toNat

theorem count_eq_transferred (d : InodeDisk) (size : Int) (offset : ℕ) :
    count d size.toNat offset = transferred d.length size offset := by
  unfold count transferred
  omega

theorem transferred_le (length : ℕ) (size : Int) (offset : ℕ) (h : transferred length size offset ≠ 0) :
    offset + transferred length size offset ≤ length := by
  unfold transferred at *
  omega

/-- **A file that can be read and written**: its data lies on the device, nobody is writing to it or
    denies writes, and the allocations to come are granted. -/
structure Usable (s : FileSys) (h : ℕ) : Prop where
  onDevice : OnDevice s (s.inode h).data
  sema : 0 < (s.inode h).sema
  allowed : (s.inode h).denyWriteCnt = 0
  grants : ∀ g ∈ s.allocs, g = true

namespace Usable

variable {s : FileSys} {h : ℕ}

theorem granted (hu : Usable s h) : s.granted = true := by
  unfold FileSys.granted
  cases ha : s.allocs with
  | nil => rfl
  | cons g l => exact hu.grants g (by rw [ha]; exact List.mem_cons_self)

theorem moved (hu : Usable s h) (n offset : ℕ) : s.moved n offset = n := by
  unfold FileSys.moved
  simp [hu.granted]

theorem congr (hu : Usable s h) {s' : FileSys} (hsize : s'.size = s.size)
    (hinode : s'.inode = s.inode) (hallocs : ∀ g ∈ s'.allocs, g ∈ s.allocs) : Usable s' h where
  onDevice k hk := by
    rw [hinode] at hk ⊢
    rw [hsize]
    exact hu.onDevice k hk
  sema := hinode ▸ hu.sema
  allowed := hinode ▸ hu.allowed
  grants g hg := hu.grants g (hallocs g hg)

theorem bounced (hu : Usable s h) (n offset : ℕ) : Usable (s.bounced n offset) h := by
  unfold FileSys.bounced
  split
  · exact hu.congr rfl rfl fun g hg => List.mem_of_mem_tail hg
  · exact hu

theorem bounced_disk (s : FileSys) (n offset : ℕ) : (s.bounced n offset).disk = s.disk := by
  unfold FileSys.bounced
  split <;> rfl

theorem bounced_inode (s : FileSys) (n offset : ℕ) : (s.bounced n offset).inode = s.inode := by
  unfold FileSys.bounced
  split <;> rfl

theorem read (hu : Usable s h) (size : Int) (offset : ℕ) : ∃ s',
    (inodeReadAt h size offset).run s = .ok (bytesAt s.disk (s.inode h).data offset
      (transferred (s.inode h).data.length size offset), s') ∧
    s'.disk = s.disk ∧ s'.inode = s.inode ∧ Usable s' h := by
  let n := transferred (s.inode h).data.length size offset
  refine ⟨s.bounced n offset, ?_, bounced_disk s n offset, bounced_inode s n offset,
    hu.bounced n offset⟩
  rw [inodeReadAt_run size offset hu.onDevice, hu.moved, count_eq_transferred]

theorem write (hu : Usable s h) (buffer : ℕ → UInt8) (size : Int) (offset : ℕ) : ∃ s',
    (inodeWriteAt h buffer size offset).run s =
      .ok (transferred (s.inode h).data.length size offset, s') ∧
    s'.disk = writeBytes s.disk (s.inode h).data offset
      (transferred (s.inode h).data.length size offset) buffer ∧
    s'.inode = s.inode ∧ Usable s' h := by
  let n := transferred (s.inode h).data.length size offset
  refine ⟨(s.bounced n offset).write (s.inode h).data offset n buffer, ?_, ?_, ?_, ?_⟩
  · rw [inodeWriteAt_run buffer size offset rfl hu.onDevice hu.sema hu.allowed, hu.moved,
      count_eq_transferred]
  · exact congrArg (writeBytes · _ _ _ _) (bounced_disk s _ _)
  · exact bounced_inode s _ _
  · exact (hu.bounced _ _).congr rfl rfl fun g hg => hg

end Usable

/-! ## 7. Sequences of calls -/

inductive ByteOp where
  | read (size : Int) (offset : ℕ)
  | write (buffer : ℕ → UInt8) (size : Int) (offset : ℕ)

/-- The calls of a list, one after another; what they return is not looked at. -/
def callAll (h : ℕ) : List ByteOp → FsM Unit
  | [] => return ()
  | .read size offset :: ops => do
      let _ ← inodeReadAt h size offset
      callAll h ops
  | .write buffer size offset :: ops => do
      let _ ← inodeWriteAt h buffer size offset
      callAll h ops

/-- **The most recent write to a byte**, in a list of calls with the latest first; without one, what
    the file held at the beginning. -/
def lastWritten (length : ℕ) (init : ℕ → UInt8) : List ByteOp → ℕ → UInt8
  | [], k => init k
  | .read _ _ :: ops, k => lastWritten length init ops k
  | .write buffer size offset :: ops, k =>
    if offset ≤ k ∧ k < offset + transferred length size offset then buffer (k - offset)
    else lastWritten length init ops k

theorem lastWritten_append (length : ℕ) (init : ℕ → UInt8) (ops ops' : List ByteOp) (k : ℕ) :
    lastWritten length init (ops ++ ops') k =
      lastWritten length (lastWritten length init ops') ops k := by
  induction ops with
  | nil => rfl
  | cons op ops ih =>
    cases op with
    | read size offset => exact ih
    | write buffer size offset =>
      simp only [List.cons_append, lastWritten, ih]

/-- **A sequence of calls**, by induction on it: the file holds the most recent writes. -/
theorem callAll_run {s : FileSys} {h : ℕ} (ops : List ByteOp) (hu : Usable s h) : ∃ s',
    (callAll h ops).run s = .ok ((), s') ∧ s'.inode = s.inode ∧ Usable s' h ∧
      ∀ k, byteAt s'.disk (s.inode h).data k =
        lastWritten (s.inode h).data.length (byteAt s.disk (s.inode h).data) ops.reverse k := by
  induction ops generalizing s with
  | nil => exact ⟨s, rfl, rfl, hu, fun _ => rfl⟩
  | cons op ops ih =>
    cases op with
    | read size offset =>
      obtain ⟨s₁, hrun, hdisk, hinode, hu1⟩ := hu.read size offset
      obtain ⟨s₂, hrest, hinode2, hu2, hbytes⟩ := ih hu1
      refine ⟨s₂, ?_, hinode2.trans hinode, hu2, fun k => ?_⟩
      · unfold callAll
        rw [Prog.run_bind_ok hrun, hrest]
      · rw [List.reverse_cons, lastWritten_append]
        have hk := hbytes k
        rwa [hinode, hdisk] at hk
    | write buffer size offset =>
      obtain ⟨s₁, hrun, hdisk, hinode, hu1⟩ := hu.write buffer size offset
      obtain ⟨s₂, hrest, hinode2, hu2, hbytes⟩ := ih hu1
      refine ⟨s₂, ?_, hinode2.trans hinode, hu2, fun k => ?_⟩
      · unfold callAll
        rw [Prog.run_bind_ok hrun, hrest]
      · rw [List.reverse_cons, lastWritten_append]
        have hk := hbytes k
        rw [hinode, hdisk] at hk
        rw [hk]
        congr 1
        funext j
        exact byteAt_writeBytes

/-! ## 8. The file as an array of bytes -/

/-- **Inodes are arrays of bytes.** -/
theorem inode_byte_semantics {s : FileSys} {h : ℕ} {d : InodeDisk} (hd : (s.inode h).data = d)
    (hu : Usable s h) : (∀ (buffer : ℕ → UInt8) (size : Int) (offset : ℕ), ∃ n s',
      (inodeWriteAt h buffer size offset).run s = .ok (n, s') ∧
      (n : Int) = max 0 (min size ((d.length : Int) - offset)) ∧
      (∀ k, byteAt s'.disk d k =
        if offset ≤ k ∧ k < offset + n then buffer (k - offset) else byteAt s.disk d k) ∧
      (∀ x, ¬(d.start ≤ x ∧ 512 * (x - d.start) < d.length) → s'.disk x = s.disk x)) ∧
    (∀ (size : Int) (offset : ℕ), ∃ n s',
      (inodeReadAt h size offset).run s =
        .ok ((List.range n).map fun i => byteAt s.disk d (offset + i), s') ∧
      (n : Int) = max 0 (min size ((d.length : Int) - offset)) ∧ s'.disk = s.disk) ∧
    (∀ (ops : List ByteOp) (size : Int) (offset : ℕ), ∃ s₁ n s₂,
      (callAll h ops).run s = .ok ((), s₁) ∧
      (inodeReadAt h size offset).run s₁ = .ok ((List.range n).map fun i =>
        lastWritten d.length (byteAt s.disk d) ops.reverse (offset + i), s₂) ∧
      (n : Int) = max 0 (min size ((d.length : Int) - offset))) := by
  have hcount : ∀ (size : Int) (offset : ℕ), ((transferred d.length size offset : ℕ) : Int) =
      max 0 (min size ((d.length : Int) - offset)) := by
    intro size offset
    unfold transferred
    omega
  refine ⟨fun buffer size offset => ?_, fun size offset => ?_, fun ops size offset => ?_⟩
  · obtain ⟨s', hrun, hdisk, -, -⟩ := hu.write buffer size offset
    rw [hd] at hrun hdisk
    refine ⟨_, s', hrun, hcount size offset, fun k => ?_, fun x hx => ?_⟩
    · rw [hdisk, byteAt_writeBytes]
    · rw [hdisk]
      by_cases hz : transferred d.length size offset = 0
      · rw [hz, writeBytes_zero]
      · exact writeBytes_other (transferred_le _ _ _ hz) hx
  · obtain ⟨s', hrun, hdisk, -, -⟩ := hu.read size offset
    rw [hd] at hrun
    exact ⟨_, s', hrun, hcount size offset, hdisk⟩
  · obtain ⟨s₁, hrun, hinode, hu1, hbytes⟩ := callAll_run ops hu
    obtain ⟨s₂, hread, -⟩ := hu1.read size offset
    rw [hinode, hd] at hread
    rw [hd] at hbytes
    refine ⟨s₁, _, s₂, hrun, ?_, hcount size offset⟩
    rw [hread]
    simp only [bytesAt, hbytes]

/-- A file of one sector and a bit on a small device: its inode is open, nobody writes to it. -/
def twoSectors : FileSys :=
  { powerOn 8 (fun _ _ => 0) (fun _ => true) [] with
    inode := fun _ => ⟨2, 1, false, 0, ⟨3, 600⟩, 1⟩
    openInodes := [0] }

/-- Nine bytes written across the sector boundary of `twoSectors`, and five of them read back. -/
theorem inode_byte_semantics_twoSectors : Usable twoSectors 0 ∧ ∃ s₁ n s₂,
    (callAll 0 [.write (fun k => UInt8.ofNat (k + 1)) 9 508]).run twoSectors = .ok ((), s₁) ∧
    (inodeReadAt 0 5 510).run s₁ = .ok ((List.range n).map fun i =>
      lastWritten 600 (byteAt twoSectors.disk ⟨3, 600⟩)
        [.write (fun k => UInt8.ofNat (k + 1)) 9 508] (510 + i), s₂) ∧ n = 5 := by
  have hu : Usable twoSectors 0 := by
    refine ⟨fun k hk => ?_, by decide, rfl, fun g hg => by cases hg⟩
    change k < 600 at hk
    change 3 + k / 512 < 8
    omega
  obtain ⟨s₁, n, s₂, hrun, hread, hn⟩ := (inode_byte_semantics (d := ⟨3, 600⟩) rfl hu).2.2
    [.write (fun k => UInt8.ofNat (k + 1)) 9 508] 5 510
  refine ⟨hu, s₁, n, s₂, hrun, hread, ?_⟩
  change (n : Int) = max 0 (min 5 ((600 : ℕ) - (510 : ℕ) : Int)) at hn
  omega

end Pintos
