/-
  Subject:   The interrupt queue of devices/intq.c: a ring of `INTQ_BUFSIZE` bytes and at most one
             thread waiting for each of its two conditions.

  `wait` and `signal` block and wake threads, so they belong to the kernel machine
  (Threads/Synch.lean); here are the ring and its tests.

  * A run is a sequence of `intq_putc`, while the queue is not full, and `intq_getc`, while it is
    not empty; nobody sleeps, so `signal` is its assertion.
  * **`intq_fifo`**: bytes come out in the order they went in, and one slot stays free.
-/
import Pintos.Threads.Thread

namespace Pintos

open Lib Function List

/-! ## 1. The queue -/

/-- `INTQ_BUFSIZE`. -/
def intqBufsize : ℕ := 64

/-- `struct intq`; its lock is named by the kernel machine. -/
structure Intq where
  notFull : Option Tid
  notEmpty : Option Tid
  buf : ℕ → UInt8
  head : ℕ
  tail : ℕ

namespace Intq

/-- `intq_init`. -/
def init : Intq := ⟨none, none, fun _ => 0, 0, 0⟩

def next (pos : ℕ) : ℕ := (pos + 1) % intqBufsize

def empty (q : Intq) : Bool := q.head == q.tail

def full (q : Intq) : Bool := next q.head == q.tail

/-- The two statements of `intq_putc` between its loop and `signal`. -/
def store (q : Intq) (byte : UInt8) : Intq :=
  { q with buf := Function.update q.buf q.head byte, head := next q.head }

/-- The two statements of `intq_getc` between its loop and `signal`: the byte and the queue. -/
def take (q : Intq) : UInt8 × Intq := (q.buf q.tail, { q with tail := next q.tail })

end Intq

/-! ## 2. Calls -/

inductive FifoOp where
  | putc (byte : UInt8)
  | getc

/-- The queue, and the bytes put and returned so far. -/
structure FifoRun where
  q : Intq
  put : List UInt8
  got : List UInt8

/-- One call that does not wait. -/
def fifoStep (r : FifoRun) : FifoOp → Option FifoRun
  | .putc byte =>
    if r.q.full then none
    else
      let q := r.q.store byte
      -- the assertion of `signal (q, &q->not_empty)`
      if q.empty then none else some ⟨q, r.put ++ [byte], r.got⟩
  | .getc =>
    if r.q.empty then none
    else
      let (byte, q) := r.q.take
      if q.full then none else some ⟨q, r.put, r.got ++ [byte]⟩

/-- After `intq_init`, which leaves the buffer as it is. -/
def fifoStart (buf : ℕ → UInt8) : FifoRun := ⟨{ Intq.init with buf := buf }, [], []⟩

/-- The `n` bytes from `tail` on. -/
def Intq.pending (q : Intq) (n : ℕ) : List UInt8 :=
  (List.range n).map fun i => q.buf ((q.tail + i) % intqBufsize)

/-- **The ring holds `n` bytes**, which follow those that were returned. -/
structure RingInv (r : FifoRun) (n : ℕ) : Prop where
  room : n < intqBufsize
  tail : r.q.tail < intqBufsize
  head : r.q.head = (r.q.tail + n) % intqBufsize
  queued : r.put = r.got ++ r.q.pending n

namespace RingInv

variable {r : FifoRun} {n : ℕ} (h : RingInv r n)

include h

theorem empty_iff : r.q.empty = true ↔ n = 0 := by
  obtain ⟨hn, ht, hh, -⟩ := h
  unfold Intq.empty
  unfold intqBufsize at *
  rw [beq_iff_eq, hh]
  omega

theorem full_iff : r.q.full = true ↔ n = intqBufsize - 1 := by
  obtain ⟨hn, ht, hh, -⟩ := h
  unfold Intq.full Intq.next
  unfold intqBufsize at *
  rw [beq_iff_eq, hh]
  omega

theorem store (byte : UInt8) (hfull : n + 1 < intqBufsize) :
    RingInv ⟨r.q.store byte, r.put ++ [byte], r.got⟩ (n + 1) where
  room := hfull
  tail := h.tail
  head := by
    show Intq.next r.q.head = (r.q.tail + (n + 1)) % intqBufsize
    rw [h.head, Intq.next, Nat.mod_add_mod, Nat.add_assoc]
  queued := by
    have hold : (r.q.store byte).pending n = r.q.pending n := by
      refine map_congr_left fun i hi => update_of_ne ?_ ..
      show (r.q.tail + i) % intqBufsize ≠ r.q.head
      have hlt := mem_range.mp hi
      rw [h.head]
      unfold intqBufsize at *
      omega
    have hnew : (r.q.store byte).pending (n + 1) = r.q.pending n ++ [byte] := by
      rw [← hold, Intq.pending, range_succ, map_append]
      refine congrArg _ (congrArg (fun b => [b]) ?_)
      show update r.q.buf r.q.head byte ((r.q.tail + n) % intqBufsize) = byte
      rw [← h.head, update_self]
    rw [hnew, h.queued, append_assoc]

end RingInv

theorem RingInv.take {r : FifoRun} {n : ℕ} (h : RingInv r (n + 1)) :
    RingInv ⟨r.q.take.2, r.put, r.got ++ [r.q.take.1]⟩ n where
  room := Nat.lt_of_succ_lt h.room
  tail := Nat.mod_lt _ (by decide)
  head := by
    show r.q.head = (Intq.next r.q.tail + n) % intqBufsize
    rw [h.head, Intq.next, Nat.mod_add_mod, Nat.add_assoc, Nat.add_comm 1 n]
  queued := by
    have hfirst : (r.q.tail + 0) % intqBufsize = r.q.tail := Nat.mod_eq_of_lt h.tail
    have hrest : r.q.take.2.pending n =
        (List.range n).map fun i => r.q.buf ((r.q.tail + (i + 1)) % intqBufsize) := by
      refine map_congr_left fun i _ => congrArg r.q.buf ?_
      show (Intq.next r.q.tail + i) % intqBufsize = _
      rw [Intq.next, Nat.mod_add_mod, Nat.add_assoc, Nat.add_comm 1 i]
    rw [h.queued, Intq.pending, range_succ_eq_map, map_cons, hfirst, map_map, hrest,
      append_assoc]
    rfl

/-- **Every call keeps the invariant**, and is possible where it need not wait. -/
theorem fifoStep_spec {r : FifoRun} {n : ℕ} (h : RingInv r n) :
    (∀ byte, r.q.full = false → ∃ r', fifoStep r (.putc byte) = some r' ∧ RingInv r' (n + 1)) ∧
      (r.q.empty = false → ∃ r' m, fifoStep r .getc = some r' ∧ RingInv r' m) := by
  refine ⟨fun byte hfull => ?_, fun hempty => ?_⟩
  · have hroom : n + 1 < intqBufsize := by
      have hn := h.room
      have := mt h.full_iff.mpr (by simp [hfull])
      omega
    have h' := h.store byte hroom
    refine ⟨_, ?_, h'⟩
    simp [fifoStep, hfull, mt h'.empty_iff.mp n.succ_ne_zero]
  · obtain ⟨m, rfl⟩ : ∃ m, n = m + 1 :=
      Nat.exists_eq_succ_of_ne_zero (mt h.empty_iff.mpr (by simp [hempty]))
    have h' := h.take
    refine ⟨_, m, ?_, h'⟩
    have hm := h.room
    simp [fifoStep, hempty, mt h'.full_iff.mp (by omega)]

theorem fifoStep_inv {r r' : FifoRun} {op : FifoOp} (h : ∃ n, RingInv r n)
    (hs : fifoStep r op = some r') : ∃ n, RingInv r' n := by
  obtain ⟨n, h⟩ := h
  obtain ⟨hput, hget⟩ := fifoStep_spec h
  cases op with
  | putc byte =>
    cases hfull : r.q.full with
    | true => simp [fifoStep, hfull] at hs
    | false =>
      obtain ⟨s, he, h'⟩ := hput byte hfull
      cases he.symm.trans hs
      exact ⟨_, h'⟩
  | getc =>
    cases hempty : r.q.empty with
    | true => simp [fifoStep, hempty] at hs
    | false =>
      obtain ⟨s, m, he, h'⟩ := hget hempty
      cases he.symm.trans hs
      exact ⟨m, h'⟩

/-- **The interrupt queue is a queue**: at every point of a run the bytes returned are a prefix of
    the bytes put, `intq_empty` and `intq_full` say how many are pending, and a call that need not
    wait goes through. -/
theorem intq_fifo (buf : ℕ → UInt8) (r : FifoRun) (h : Reach fifoStep always (fifoStart buf) r) :
    ∃ pending, r.put = r.got ++ pending ∧ r.q.head < intqBufsize ∧ r.q.tail < intqBufsize ∧
      (r.q.empty = true ↔ pending = []) ∧ (r.q.full = true ↔ pending.length = intqBufsize - 1) ∧
      (∀ byte, r.q.full = false → (fifoStep r (.putc byte)).isSome = true) ∧
      (r.q.empty = false → (fifoStep r .getc).isSome = true) := by
  have hstart : RingInv (fifoStart buf) 0 := ⟨by decide, (by decide : 0 < 64), rfl, rfl⟩
  obtain ⟨n, hr⟩ := h.invariant (I := fun r => ∃ n, RingInv r n) ⟨0, hstart⟩
    fun _ _ _ hi _ hs => fifoStep_inv hi hs
  obtain ⟨hput, hget⟩ := fifoStep_spec hr
  have hlen : (r.q.pending n).length = n := by simp [Intq.pending]
  refine ⟨r.q.pending n, hr.queued, ?_, hr.tail, ?_, ?_, fun byte hfull => ?_, fun hempty => ?_⟩
  · rw [hr.head]
    exact Nat.mod_lt _ (by decide)
  · rw [hr.empty_iff, ← length_eq_zero_iff, hlen]
  · rw [hr.full_iff, hlen]
  · obtain ⟨s, hs, -⟩ := hput byte hfull
    rw [hs]
    rfl
  · obtain ⟨s, m, hs, -⟩ := hget hempty
    rw [hs]
    rfl

theorem intq_fifo_two : ∃ r pending, runList fifoStep (fifoStart fun _ => 0)
    [.putc 7, .putc 8, .getc] = some r ∧ r.got = [7] ∧ r.put = r.got ++ pending := by
  obtain ⟨r, hr⟩ : ∃ r,
      runList fifoStep (fifoStart fun _ => 0) [.putc 7, .putc 8, .getc] = some r := ⟨_, rfl⟩
  obtain ⟨pending, hp, -⟩ := intq_fifo _ r (reach_runList _ (fun _ _ _ => trivial) hr)
  refine ⟨r, pending, hr, ?_, hp⟩
  cases hr
  rfl

end Pintos
