/-
  Subject:   What the device interrupt handlers do to the order of priorities.

  `timer_interrupt` asks for a yield after each thread it wakes. The handlers of ide.c, kbd.c and
  serial.c wake threads too, through `sema_up` and through `signal` of intq.c, and do not ask: both
  run with interrupts off, where neither `sema_up` nor `thread_unblock` yields by itself.

  **`device_interrupt_iff`**: so the running thread is the highest after the interrupt if and only if it
  was before and no woken thread is above it.
-/
import Pintos.Threads.Preempt

namespace Pintos

open Lib List

/-! ## 1. Which threads a device interrupt wakes -/

/-- The output of `n` bytes finds the queue full on the way. -/
def Intq.Overflows (q : Intq) (n : ℕ) : Prop := ∃ i < n, Intq.next (Intq.next^[i] q.head) = q.tail

/-- **Device interrupt `d` wakes thread `u`.** The disk: the highest waiter of a channel that
    expects an interrupt; otherwise the message may make room in a full output queue. The keyboard
    and the serial port: the thread that waits for input, if a byte comes and is taken; the thread
    that waits for room in the output queue, if a byte leaves. -/
def Wakes (k : Kernel) (u : Tid) : DeviceIntr → Prop
  | .ide c =>
    (k.expecting c = true ∧ maxElem k.sched.priority (k.sema (.completion c)).waiters = some u) ∨
    (k.expecting c = false ∧ ((k.intq .txq).notEmpty = some u ∨
      ((k.intq .txq).Overflows (unexpectedInterrupt c).length ∧ (k.intq .txq).notFull = some u)))
  | .keyboard key => key.isSome ∧ (k.intq .input).full = false ∧ (k.intq .input).notEmpty = some u
  | .serial received ready =>
    (received ≠ [] ∧ (k.intq .input).full = false ∧ (k.intq .input).notEmpty = some u) ∨
    (0 < ready ∧ (k.intq .txq).empty = false ∧ (k.intq .txq).notFull = some u)

/-- **Threads are woken and nothing else happens to the scheduler**: those in `W` join the queues;
    who runs, the priorities and the request for a yield stay. -/
structure Woke (k k' : Kernel) (W : Tid → Prop) : Prop where
  running : k'.sched.running = k.sched.running
  priority : ∀ u, k'.sched.priority u = k.sched.priority u
  ret : k'.sched.yieldOnReturn = k.sched.yieldOnReturn
  queued : ∀ u, Queued k'.sched.readyList u ↔ Queued k.sched.readyList u ∨ W u

theorem Woke.refl (k : Kernel) : Woke k k fun _ => False :=
  ⟨rfl, fun _ => rfl, rfl, fun _ => by simp⟩

variable {W W' : Tid → Prop} {k k' k₁ k₂ k₃ : Kernel} {q : IntqRef}

theorem Woke.trans (h : Woke k₁ k₂ W) (h' : Woke k₂ k₃ W') : Woke k₁ k₃ fun u => W u ∨ W' u where
  running := h'.running.trans h.running
  priority u := (h'.priority u).trans (h.priority u)
  ret := h'.ret.trans h.ret
  queued u := by rw [h'.queued, h.queued, or_assoc]

theorem Woke.congr (h : Woke k k' W) (hw : ∀ u, W u ↔ W' u) : Woke k k' W' :=
  ⟨h.running, h.priority, h.ret, fun u => by rw [h.queued, hw]⟩

/-- **The order of priorities after a wake-up**, for any threads woken. -/
theorem Woke.noHigher_iff (h : Woke k k' W) : NoHigher k'.sched ↔
      NoHigher k.sched ∧ ∀ u, W u → k.sched.priority u ≤ k.sched.priority k.cur := by
  constructor
  · intro hno
    refine ⟨fun u hu => ?_, fun u hu => ?_⟩
    · have hle := hno u ((h.queued u).mpr (.inl hu))
      rwa [h.priority, h.priority, h.running] at hle
    · have hle := hno u ((h.queued u).mpr (.inr hu))
      rwa [h.priority, h.priority, h.running] at hle
  · rintro ⟨hno, hw⟩ u hu
    rw [h.priority, h.priority, h.running]
    rcases (h.queued u).mp hu with hold | hnew
    · exact hno u hold
    · exact hw u hnew

/-! ## 2. The handlers -/

theorem unblockSection_woke {w : Tid} {topPri : Int} {s : Sched}
    (hu : unblockSection k.sched w = some (topPri, s)) : Woke k { k with sched := s } (· = w) := by
  unfold unblockSection at hu
  split at hu
  · cases hu
    exact ⟨rfl, fun u => Sched.priority_setStatus _ _ _ _, rfl, fun u => queued_push⟩
  · cases hu

theorem signal_woke {waiter : Option Tid} (hs : signal k waiter = some k') :
    Woke k k' (waiter = some ·) ∧ k'.intq = k.intq := by
  cases waiter with
  | none =>
    cases hs
    exact ⟨(Woke.refl k).congr fun u => by simp, rfl⟩
  | some w =>
    obtain ⟨⟨topPri, s⟩, hu, rfl⟩ := Option.map_eq_some_iff.mp hs
    exact ⟨(unblockSection_woke hu).congr fun u => by simp [eq_comm], rfl⟩

theorem intqPutcNow_woke {byte : UInt8} (h : intqPutcNow k q byte = some k') :
    Woke k k' ((k.intq q).notEmpty = some ·) ∧
      k'.intq = Function.update k.intq q { (k.intq q).store byte with notEmpty := none } := by
  obtain ⟨hw, hq⟩ := signal_woke h
  exact ⟨⟨hw.running, hw.priority, hw.ret, hw.queued⟩, hq⟩

theorem intqGetcNow_woke (h : intqGetcNow k q = some k') : Woke k k' ((k.intq q).notFull = some ·) ∧
      k'.intq = Function.update k.intq q { (k.intq q).take.2 with notFull := none } := by
  obtain ⟨hw, hq⟩ := signal_woke h
  exact ⟨⟨hw.running, hw.priority, hw.ret, hw.queued⟩, hq⟩

/-- **The receiving loop of `serial_interrupt`**: the first byte wakes the waiter; after that there
    is none. -/
theorem serialReceive_woke : ∀ (bs : List UInt8) (k k' : Kernel), serialReceive k bs = some k' →
    Woke k k' (fun u => bs ≠ [] ∧ (k.intq .input).full = false ∧
      (k.intq .input).notEmpty = some u) ∧ k'.intq .txq = k.intq .txq
  | [], k, k', h => by
    cases h
    exact ⟨(Woke.refl k).congr fun u => by simp, rfl⟩
  | b :: bs, k, k', h => by
    unfold serialReceive at h
    split at h
    · rename_i hfull
      cases h
      exact ⟨(Woke.refl k).congr fun u => by simp [hfull], rfl⟩
    · rename_i hfull
      obtain ⟨k₁, hp, hr⟩ := Option.bind_eq_some_iff.mp h
      obtain ⟨hw, hq⟩ := intqPutcNow_woke hp
      obtain ⟨hw', hq'⟩ := serialReceive_woke bs k₁ k' hr
      have hnone : (k₁.intq .input).notEmpty = none := by
        rw [hq, Function.update_self]
      refine ⟨(hw.trans hw').congr fun u => ?_, ?_⟩
      · simp [hnone, hfull]
      · rw [hq', hq]
        rfl

theorem serialTransmit_woke : ∀ (n : ℕ) (k k' : Kernel), serialTransmit k n = some k' →
    Woke k k' fun u => 0 < n ∧ (k.intq .txq).empty = false ∧ (k.intq .txq).notFull = some u
  | 0, k, k', h => by
    cases h
    exact (Woke.refl k).congr fun u => by simp
  | n + 1, k, k', h => by
    unfold serialTransmit at h
    split at h
    · rename_i hempty
      cases h
      exact (Woke.refl k).congr fun u => by simp [hempty]
    · rename_i hempty
      obtain ⟨k₁, hg, hr⟩ := Option.bind_eq_some_iff.mp h
      obtain ⟨hw, hq⟩ := intqGetcNow_woke hg
      have hw' := serialTransmit_woke n k₁ k' hr
      have hnone : (k₁.intq .txq).notFull = none := by
        rw [hq, Function.update_self]
      refine (hw.trans hw').congr fun u => ?_
      simp [hnone, hempty]

theorem Intq.overflows_succ (q : Intq) (n : ℕ) :
    q.Overflows (n + 1) ↔ q.full = true ∨ ∃ i < n, next (next^[i] (next q.head)) = q.tail := by
  constructor
  · rintro ⟨i, hi, he⟩
    cases i with
    | zero => exact .inl (beq_iff_eq.mpr he)
    | succ i => exact .inr ⟨i, Nat.lt_of_succ_lt_succ hi, he⟩
  · rintro (hfull | ⟨i, hi, he⟩)
    · exact ⟨0, Nat.succ_pos n, beq_iff_eq.mp hfull⟩
    · exact ⟨i + 1, Nat.succ_lt_succ hi, he⟩

/-- **Output from a handler**: the first byte wakes a thread that waits for output to appear, the
    first byte that finds the queue full wakes the one that waits for room. -/
theorem printfOff_woke : ∀ (bs : List UInt8) (k k' : Kernel), printfOff k bs = some k' →
    Woke k k' fun u => (bs ≠ [] ∧ (k.intq .txq).notEmpty = some u) ∨
      ((k.intq .txq).Overflows bs.length ∧ (k.intq .txq).notFull = some u)
  | [], k, k', h => by
    cases h
    exact (Woke.refl k).congr fun u => by simp [Intq.Overflows]
  | b :: bs, k, k', h => by
    obtain ⟨k₁, hput, hr⟩ := Option.bind_eq_some_iff.mp h
    have hrest := printfOff_woke bs k₁ k' hr
    unfold serialPutcOff at hput
    split at hput
    · -- full: a byte leaves first, and both waiters are gone
      rename_i hfull
      obtain ⟨k₀, hg, hp⟩ := Option.bind_eq_some_iff.mp hput
      obtain ⟨hw, hq⟩ := intqGetcNow_woke hg
      obtain ⟨hw', hq'⟩ := intqPutcNow_woke hp
      have he : (k₁.intq .txq).notEmpty = none := by
        rw [hq', Function.update_self]
      have hf : (k₁.intq .txq).notFull = none := by
        rw [hq', Function.update_self, hq, Function.update_self]
        rfl
      have hsame : (k₀.intq .txq).notEmpty = (k.intq .txq).notEmpty := by
        rw [hq, Function.update_self]
        rfl
      have hover : (k.intq .txq).Overflows (bs.length + 1) :=
        (Intq.overflows_succ _ _).mpr (.inl hfull)
      refine ((hw.trans hw').trans hrest).congr fun u => ?_
      simp [he, hf, hsame, hover, or_comm]
    · rename_i hfull
      obtain ⟨hw, hq⟩ := intqPutcNow_woke hput
      have he : (k₁.intq .txq).notEmpty = none := by
        rw [hq, Function.update_self]
      have hf : (k₁.intq .txq).notFull = (k.intq .txq).notFull := by
        rw [hq, Function.update_self]
        rfl
      have hover : (k₁.intq .txq).Overflows bs.length ↔
          (k.intq .txq).Overflows (bs.length + 1) := by
        rw [Intq.overflows_succ, or_iff_right hfull, hq, Function.update_self]
        rfl
      refine (hw.trans hrest).congr fun u => ?_
      simp [he, hf, hover]

/-- **Each handler wakes the threads that `Wakes` names**, and asks for no yield. -/
theorem deviceHandler_woke {d : DeviceIntr} (h : deviceHandler k d = some k') :
    Woke k k' fun u => Wakes k u d := by
  cases d with
  | ide c =>
    simp only [deviceHandler] at h
    split at h
    · split at h
      · rename_i hexp
        obtain ⟨⟨w, k₁⟩, hs, rfl⟩ := Option.map_eq_some_iff.mp h
        refine Woke.congr (W := fun u =>
          maxElem k.sched.priority (k.sema (.completion c)).waiters = some u) ?_ fun u => ?_
        · unfold semaUpSection at hs
          dsimp only at hs
          split at hs
          · rename_i hnone
            cases hs
            refine ⟨rfl, fun _ => rfl, rfl, fun u => ?_⟩
            simp [hnone, Kernel.setSema]
          · rename_i v hv
            split at hs
            · rename_i topPri s hu
              cases hs
              have hw := unblockSection_woke (k := k) hu
              refine ⟨hw.running, hw.priority, hw.ret, fun u => ?_⟩
              rw [hv, Option.some.injEq, eq_comm (a := v)]
              exact hw.queued u
            · cases hs
        · simp [Wakes, hexp]
      · rename_i hexp
        have hne : unexpectedInterrupt c ≠ [] := by
          simp [unexpectedInterrupt]
        refine (printfOff_woke _ k k' h).congr fun u => ?_
        simp [Wakes, hexp, hne]
    · cases h
  | keyboard key =>
    cases key with
    | none =>
      cases h
      exact (Woke.refl k).congr fun u => by simp [Wakes]
    | some key =>
      simp only [deviceHandler] at h
      split at h
      · rename_i hfull
        cases h
        exact (Woke.refl k).congr fun u => by simp [Wakes, hfull]
      · rename_i hfull
        exact (intqPutcNow_woke h).1.congr fun u => by simp [Wakes, hfull]
  | serial received ready =>
    obtain ⟨k₁, hrec, htr⟩ := Option.bind_eq_some_iff.mp h
    obtain ⟨hw, hq⟩ := serialReceive_woke received k k₁ hrec
    have hw' := serialTransmit_woke ready k₁ k' htr
    rw [hq] at hw'
    exact hw.trans hw'

/-! ## 3. The whole interrupt -/

/-- **Preemption after a device interrupt.** No queued thread is above the interrupted thread when
    the interrupt returns to it, if and only if none was before and the handler wakes none that
    is. -/
theorem device_interrupt_iff (k k' : Kernel) (d : DeviceIntr)
    (h : kernelStep k (.device d) = some k') : NoHigher k'.sched ↔
      NoHigher k.sched ∧ ∀ u, Wakes k u d → k.sched.priority u ≤ k.sched.priority k.cur := by
  simp only [kernelStep] at h
  split at h
  · obtain ⟨k₁, hd, hr⟩ := Option.bind_eq_some_iff.mp h
    have hw := deviceHandler_woke hd
    -- no handler asks for a yield, so the interrupted thread goes on
    rcases interruptReturn_cases hr with ⟨hy, _⟩ | ⟨_, rfl⟩
    · rw [hw.ret] at hy
      cases hy
    · exact hw.noHigher_iff
  · cases h

/-- "main" creates a thread, which starts a disk transfer and sleeps. -/
def diskRun (priority : Int) : List KEvent :=
  createRun priority ++ .call (.ideTransfer 0) :: replicate 6 (.run 0)

/-- The disk's interrupt wakes a thread of the priority of "main", and nobody is above "main". -/
theorem device_interrupt_iff_disk : ∃ k k',
    runList kernelStep (kernelBoot false false fun _ => 0) (diskRun 31) = some k ∧ Wakes k 2 (.ide 0) ∧
    kernelStep k (.device (.ide 0)) = some k' ∧ k'.sched.readyList 31 = [2] ∧ k'.cur = 0 ∧
    NoHigher k'.sched := by
  have hsome : ((runList kernelStep (kernelBoot false false fun _ => 0) (diskRun 31)).bind fun k =>
      (kernelStep k (.device (.ide 0))).map fun k' =>
        decide ((k.sched.intr = .on ∧ k.pend k.cur = [] ∧ k.expecting 0 = true ∧
            maxElem k.sched.priority (k.sema (.completion 0)).waiters = some 2 ∧
            k.sched.priority 2 = 31 ∧ k.sched.priority k.cur = 31) ∧
          k'.cur = 0 ∧ k'.sched.readyList 31 = [2])) = some true := by
    decide +kernel
  obtain ⟨k, hk, he⟩ := Option.bind_eq_some_iff.mp hsome
  obtain ⟨k', hk', he'⟩ := Option.map_eq_some_iff.mp he
  obtain ⟨⟨hon, hpend, hexp, hmax, hp2, hp0⟩, hcur, hq⟩ := of_decide_eq_true he'
  have hev : ∀ k, ∀ e ∈ diskRun 31, threadEvent k e := by
    intro k e he
    simp only [diskRun, createRun, mem_append, mem_cons, mem_replicate] at he
    rcases he with (rfl | he) | rfl | he
    all_goals first | rfl | (rw [he.2]; trivial)
  obtain ⟨hwf, hret, hno⟩ := kernelBoot_ok false false fun _ => 0
  have hok : KernelOk k := (reach_runList _ hev hk).invariant (hwf.ok hret hno)
    fun _ _ _ hi he hs => kernelStep_ok hi he hs
  have hhead := (hok.on hon).2
  rw [hpend] at hhead
  refine ⟨k, k', hk, .inl ⟨hexp, hmax⟩, hk', hq, hcur,
    (device_interrupt_iff k k' _ hk').mpr ⟨hhead, fun u hu => ?_⟩⟩
  rcases hu with ⟨_, hu⟩ | ⟨hno, _⟩
  · rw [hmax] at hu
    cases hu
    rw [hp2, hp0]
  · rw [hexp] at hno
    cases hno

/-- **The disk's interrupt leaves "main" (31) running while the thread it has woken (40) is
    queued.** Before the interrupt nobody was above "main", which was in no call. -/
theorem device_interrupt_overtaken : ∃ k k',
    runList kernelStep (kernelBoot false false fun _ => 0) (diskRun 40) = some k ∧
    Returned k ∧ (∀ i : ℕ, i < 64 → k.sched.readyList i = []) ∧
    kernelStep k (.device (.ide 0)) = some k' ∧
    k'.cur = 0 ∧ k'.sched.intr = .on ∧ ¬ NoHigher k'.sched := by
  have hsome : ((runList kernelStep (kernelBoot false false fun _ => 0) (diskRun 40)).bind fun k =>
      (kernelStep k (.device (.ide 0))).map fun k' =>
        decide ((k.sched.intr = .on ∧ k.pend k.cur = [] ∧
            ∀ i ∈ range 64, k.sched.readyList (i : ℕ) = []) ∧
          k'.cur = 0 ∧ k'.sched.intr = .on ∧ k'.sched.readyList 40 = [2] ∧
          k'.sched.priority 2 = 40 ∧ k'.sched.priority k'.sched.running = 31)) = some true := by
    decide +kernel
  obtain ⟨k, hk, he⟩ := Option.bind_eq_some_iff.mp hsome
  obtain ⟨k', hk', he'⟩ := Option.map_eq_some_iff.mp he
  obtain ⟨⟨hon, hpend, hempty⟩, hcur, hon', hq, hp2, hp0⟩ := of_decide_eq_true he'
  refine ⟨k, k', hk, ⟨hon, .inl hpend⟩, fun i hi => hempty i (mem_range.mpr hi), hk', hcur,
    hon', fun hno => ?_⟩
  have hle := hno 2 ⟨40, by rw [hq]; exact mem_cons_self⟩
  rw [hp2, hp0] at hle
  omega

end Pintos
