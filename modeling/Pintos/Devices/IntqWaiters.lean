/-
  Subject:   One interrupt queue with any number of threads in `intq_getc` and `intq_putc`.

  Both functions run with interrupts off, so a thread is switched only where it sleeps: in
  `lock_acquire`, if the lock is taken, and in the `thread_block` of `wait`. Between two such points its
  code is one step. A thread that waits for a byte or for room keeps the lock of the queue all the time,
  so a second one that finds the queue empty, or full, sleeps in `lock_acquire`; when it gets the lock it
  goes on to `wait` without looking at the queue again.

  A failed assertion stops the kernel: `failed`. `slept` is not in the source: what the awaited test
  said each time a thread was put to sleep by `wait`.

  **`intq_waiters_safe`**: the queue is safe in every run where a thread that has to wait finds the lock
  free. With two readers the assertion of `wait` can fail.
-/
import Pintos.Threads.Semaphore

namespace Pintos

open Lib Function

/-! ## 1. The functions of intq.c -/

/-- The two conditions of a queue, by the thread that waits for them. -/
inductive Side where
  | notEmpty
  | notFull
  deriving DecidableEq, Repr

/-- The call a thread is in. -/
inductive IntqCall where
  | getc
  | putc (byte : UInt8)
  deriving DecidableEq, Repr

/-- The condition that `intq_getc` or `intq_putc` waits for. -/
def IntqCall.side : IntqCall → Side
  | .getc => .notEmpty
  | .putc _ => .notFull

namespace Intq

/-- The test of the loop: the condition does not hold. -/
def mustWait (q : Intq) : Side → Bool
  | .notEmpty => q.empty
  | .notFull => q.full

def slot (q : Intq) : Side → Option Tid
  | .notEmpty => q.notEmpty
  | .notFull => q.notFull

def setSlot (q : Intq) (t : Option Tid) : Side → Intq
  | .notEmpty => { q with notEmpty := t }
  | .notFull => { q with notFull := t }

end Intq

/-- Where a thread is that is not running a section. -/
inductive IntqPlace where
  | out
  /-- In the `sema_down` of `lock_acquire`. -/
  | lockWait (c : IntqCall)
  /-- In the `thread_block` of `wait`. -/
  | asleep (c : IntqCall)
  deriving DecidableEq, Repr

structure IntqSys where
  q : Intq
  /-- The semaphore of the queue's lock, among the threads. -/
  sys : SemaSys
  holder : Option Tid
  place : Tid → IntqPlace
  failed : Bool
  slept : List Bool
  /-- What `intq_getc` returned, and to whom. -/
  received : List (Tid × UInt8)

namespace IntqSys

/-- `intq_init`. -/
def init (status : Tid → ThreadStatus) (priority : Tid → Int) : IntqSys :=
  ⟨.init, .semaInit 1 status priority, none, fun _ => .out, false, [], []⟩

def status (s : IntqSys) (t : Tid) : ThreadStatus := s.sys.status t

def setStatus (s : IntqSys) (t : Tid) (st : ThreadStatus) : IntqSys :=
  { s with sys := { s.sys with status := update s.sys.status t st } }

def setPlace (s : IntqSys) (t : Tid) (p : IntqPlace) : IntqSys :=
  { s with place := update s.place t p }

/-- A failed assertion. -/
def fail (s : IntqSys) : IntqSys := { s with failed := true }

/-- `signal`. -/
def signal (s : IntqSys) (d : Side) : IntqSys :=
  if s.q.mustWait d then s.fail
  else
    match s.q.slot d with
    | none => s
    | some t =>
      if s.status t = .blocked then
        { s.setStatus t .ready with q := s.q.setSlot none d }
      else s.fail

/-- The end of `intq_getc` and `intq_putc`, by a thread (`t`) or by an interrupt handler. -/
def finish (s : IntqSys) (t : Option Tid) : IntqCall → IntqSys
  | .getc =>
    { s with
      q := s.q.take.2
      received := (t.map fun u => (u, s.q.take.1)).toList ++ s.received }.signal .notFull
  | .putc byte => { s with q := s.q.store byte }.signal .notEmpty

/-- `wait`, by thread `t`. -/
def wait (s : IntqSys) (t : Tid) (c : IntqCall) : IntqSys :=
  if s.q.mustWait c.side then
    { s.setStatus t .blocked with
      q := s.q.setSlot (some t) c.side
      place := update s.place t (.asleep c)
      slept := s.q.mustWait c.side :: s.slept }
  else s.fail

/-- `sema_down` in `lock_acquire` from its test on: the thread sleeps, or has the lock and goes on to
    `wait`. -/
def lockTest (s : IntqSys) (t : Tid) (c : IntqCall) : IntqSys :=
  let r := s.sys.semaTest t
  if r.1 then { s with sys := r.2, holder := some t }.wait t c
  else { s with sys := r.2 }.setPlace t (.lockWait c)

/-- The loop of `intq_getc` and `intq_putc` from its test on, up to the first sleep or to the end. -/
def loop (s : IntqSys) (t : Tid) (c : IntqCall) : IntqSys :=
  if s.q.mustWait c.side then
    if s.holder = some t then s.fail else s.lockTest t c
  else (s.setPlace t .out).finish (some t) c

/-- `lock_release` after `wait`, and the loop again. -/
def release (s : IntqSys) (t : Tid) (c : IntqCall) : IntqSys :=
  if s.holder = some t then
    match s.sys.semaUp with
    | some x => { s with sys := x, holder := none }.loop t c
    | none => s.fail
  else s.fail

end IntqSys

inductive IntqEvent where
  | call (t : Tid) (c : IntqCall)
  /-- `t` is switched to again and goes on. -/
  | resume (t : Tid)
  /-- An interrupt handler gets a byte from a queue that is not empty, or puts one into a queue that is
      not full. -/
  | handler (c : IntqCall)
  | setPriority (t : Tid) (priority : Int)
  /-- A status given to `t` by anything else. -/
  | elsewhere (t : Tid) (status : ThreadStatus)
  deriving DecidableEq, Repr

def intqStep (s : IntqSys) (e : IntqEvent) : Option IntqSys :=
  if s.failed then none
  else
    match e with
    | .call t c =>
      if s.place t = .out ∧ s.status t ≠ .blocked then some (s.loop t c) else none
    | .resume t =>
      if s.status t = .blocked then none
      else
        match s.place t with
        | .out => none
        | .lockWait c =>
          some ({ s with sys := { s.sys with woken := s.sys.woken.erase t } }.lockTest t c)
        | .asleep c => some (s.release t c)
    | .handler c => if s.q.mustWait c.side then none else some (s.finish none c)
    | .setPriority t p =>
      some { s with sys := { s.sys with priority := update s.sys.priority t p } }
    | .elsewhere t st =>
      if s.place t = .out ∨ (s.status t ≠ .blocked ∧ st ≠ .blocked) then some (s.setStatus t st)
      else none

/-- **No assertion fails, and nobody was put to sleep for a condition that held.** -/
structure IntqSafe (s : IntqSys) : Prop where
  sound : s.failed = false
  slept : ∀ b ∈ s.slept, b = true

/-- A thread that has to wait when it calls `intq_getc` or `intq_putc` finds the queue's lock free. -/
def LockFree (s : IntqSys) : IntqEvent → Prop
  | .call _ c => s.q.mustWait c.side = true → s.holder = none
  | _ => True

instance (s : IntqSys) (e : IntqEvent) : Decidable (LockFree s e) :=
  match e with
  | .call _ _ => inferInstanceAs (Decidable (_ → _))
  | .resume _ => inferInstanceAs (Decidable True)
  | .handler _ => inferInstanceAs (Decidable True)
  | .setPriority _ _ => inferInstanceAs (Decidable True)
  | .elsewhere _ _ => inferInstanceAs (Decidable True)

/-! ## 2. The ring -/

def Side.other : Side → Side
  | .notEmpty => .notFull
  | .notFull => .notEmpty

variable {d d' : Side}

theorem Side.eq_other (h : d ≠ d') : d.other = d' := by
  cases d <;> cases d' <;> first | rfl | exact absurd rfl h

namespace Intq

/-- The queue after a byte was taken or stored. -/
def after (q : Intq) : IntqCall → Intq
  | .getc => q.take.2
  | .putc byte => q.store byte

/-- The positions are in the ring. -/
def InRing (q : Intq) : Prop := q.head < intqBufsize ∧ q.tail < intqBufsize

variable {q : Intq} {c : IntqCall}

theorem InRing.after (h : q.InRing) (c : IntqCall) : (q.after c).InRing := by
  cases c with
  | getc => exact ⟨h.1, Nat.mod_lt _ (by decide)⟩
  | putc byte => exact ⟨Nat.mod_lt _ (by decide), h.2⟩

/-- **What `signal` asserts**: a byte that was taken makes room, one that was stored can be taken. -/
theorem after_not_mustWait (h : q.InRing) (hc : q.mustWait c.side = false) :
    (q.after c).mustWait c.side.other = false := by
  cases c with
  | getc =>
    have hne : q.head ≠ q.tail := by simpa [mustWait, IntqCall.side, empty] using hc
    have hnext : next q.head ≠ next q.tail := by
      simp only [InRing, next, intqBufsize] at h ⊢
      omega
    simpa [mustWait, Side.other, IntqCall.side, full, after, take] using hnext
  | putc byte =>
    have hne : next q.head ≠ q.tail := by simpa [mustWait, IntqCall.side, full] using hc
    simpa [mustWait, Side.other, IntqCall.side, empty, after, store] using hne

theorem slot_after (c : IntqCall) (d : Side) : (q.after c).slot d = q.slot d := by
  cases c <;> cases d <;> rfl

theorem slot_setSlot (t : Option Tid) (d d' : Side) :
    (q.setSlot t d).slot d' = if d' = d then t else q.slot d' := by
  cases d <;> cases d' <;> rfl

theorem mustWait_setSlot (t : Option Tid) (d d' : Side) :
    (q.setSlot t d).mustWait d' = q.mustWait d' := by
  cases d <;> cases d' <;> rfl

theorem InRing.setSlot (h : q.InRing) (t : Option Tid) (d : Side) : (q.setSlot t d).InRing := by
  cases d <;> exact h

end Intq

/-! ## 3. The invariant -/

/-- Nobody has the lock; of the others than `t` nobody is in a call. -/
structure Idle (s : IntqSys) (t : Tid) : Prop where
  holder : s.holder = none
  value : s.sys.sema.value = 1
  slots : ∀ d, s.q.slot d = none
  place : ∀ u, u ≠ t → s.place u = .out

/-- `t` is in `wait` and has the lock: it sleeps for its condition, or was woken. -/
structure InWait (s : IntqSys) (t : Tid) (c : IntqCall) : Prop where
  holder : s.holder = some t
  value : s.sys.sema.value = 0
  here : s.place t = .asleep c
  place : ∀ u, u ≠ t → s.place u = .out
  state : (s.status t = .blocked ∧ s.q.mustWait c.side = true ∧
      ∀ d, s.q.slot d = if d = c.side then some t else none) ∨
    (s.status t ≠ .blocked ∧ ∀ d, s.q.slot d = none)

/-- What holds in any case. -/
structure IntqBase (s : IntqSys) : Prop where
  safe : IntqSafe s
  ring : s.q.InRing
  alone : s.sys.sema.waiters = []

structure IntqInv (s : IntqSys) : Prop where
  base : IntqBase s
  phase : (∃ t, Idle s t ∧ s.place t = .out) ∨ ∃ t c, InWait s t c

namespace IntqInv

variable {s s' : IntqSys} {t : Tid} {c : IntqCall}

theorem init (status : Tid → ThreadStatus) (priority : Tid → Int) :
    IntqInv (.init status priority) where
  base := ⟨⟨rfl, fun _ h => absurd h List.not_mem_nil⟩, ⟨Nat.zero_lt_succ 63, Nat.zero_lt_succ 63⟩, rfl⟩
  phase := .inl ⟨0, ⟨rfl, rfl, fun d => by cases d <;> rfl, fun _ _ => rfl⟩, rfl⟩

theorem signal_none (ha : s.q.mustWait d = false) (hs : s.q.slot d = none) : s.signal d = s := by
  simp only [IntqSys.signal, ha, hs, Bool.false_eq_true, if_false]

theorem signal_some (ha : s.q.mustWait d = false) (hs : s.q.slot d = some t)
    (hb : s.status t = .blocked) :
    s.signal d = { s.setStatus t .ready with q := s.q.setSlot none d } := by
  simp only [IntqSys.signal, ha, hs, Bool.false_eq_true, if_false, if_pos hb]

/-- The end of a call in two steps: the ring, then `signal` for the other condition. -/
theorem finish_eq (s : IntqSys) (u : Option Tid) (c : IntqCall) :
    ∃ r, s.finish u c = IntqSys.signal { s with q := s.q.after c, received := r } c.side.other := by
  cases c with
  | getc => exact ⟨_, rfl⟩
  | putc byte => exact ⟨s.received, rfl⟩

/-- **The end of a call**, of a thread or of a handler: nobody goes on sleeping. -/
theorem finish (h : IntqInv s) (hc : s.q.mustWait c.side = false) (u : Option Tid) :
    IntqInv (s.finish u c) := by
  obtain ⟨r, hr⟩ := finish_eq s u c
  rw [hr]
  have hassert : ({ s with q := s.q.after c, received := r } : IntqSys).q.mustWait c.side.other =
      false := Intq.after_not_mustWait h.base.ring hc
  have hring := h.base.ring.after c
  rcases h.phase with ⟨t, hi, hp⟩ | ⟨t, c₀, hw⟩
  · rw [signal_none hassert ((Intq.slot_after ..).trans (hi.slots _))]
    refine ⟨⟨⟨h.base.safe.sound, h.base.safe.slept⟩, hring, h.base.alone⟩, .inl ⟨t, ?_, hp⟩⟩
    exact ⟨hi.holder, hi.value, fun d => (Intq.slot_after c d).trans (hi.slots d), hi.place⟩
  · rcases hw.state with ⟨hb, hm, hs⟩ | ⟨hb, hs⟩
    · -- the condition it sleeps for is not the one that this call found true
      have hside : c.side.other = c₀.side := by
        refine Side.eq_other fun e => ?_
        rw [e, hm] at hc
        cases hc
      have hslot : s.q.slot c.side.other = some t := by rw [hs, if_pos hside]
      rw [signal_some hassert ((Intq.slot_after ..).trans hslot) hb]
      refine ⟨⟨⟨h.base.safe.sound, h.base.safe.slept⟩, hring.setSlot .., h.base.alone⟩,
        .inr ⟨t, c₀, hw.holder, hw.value, hw.here, hw.place, .inr ⟨?_, fun d => ?_⟩⟩⟩
      · show update s.sys.status t .ready t ≠ .blocked
        rw [update_self]
        nofun
      · rw [Intq.slot_setSlot, Intq.slot_after, hs, hside]
        split <;> rfl
    · rw [signal_none hassert ((Intq.slot_after ..).trans (hs _))]
      refine ⟨⟨⟨h.base.safe.sound, h.base.safe.slept⟩, hring, h.base.alone⟩,
        .inr ⟨t, c₀, hw.holder, hw.value, hw.here, hw.place, .inr ⟨hb, fun d => ?_⟩⟩⟩
      exact (Intq.slot_after c d).trans (hs d)

/-- **The loop with the lock free**: the thread gets the lock at once and sleeps for a condition that
    does not hold, or its call ends. -/
theorem loop (hb : IntqBase s) (hi : Idle s t) : IntqInv (s.loop t c) := by
  unfold IntqSys.loop
  cases hm : s.q.mustWait c.side with
  | true =>
    have hne : s.holder ≠ some t := by
      rw [hi.holder]
      nofun
    have htest : s.sys.semaTest t = (true, s.sys.take) := by
      unfold SemaSys.semaTest
      rw [if_neg (by rw [hi.value]; nofun)]
    simp only [if_true, if_neg hne, IntqSys.lockTest, htest, IntqSys.wait, hm]
    refine ⟨⟨⟨hb.safe.sound, fun b hbm => ?_⟩, hb.ring.setSlot .., hb.alone⟩,
      .inr ⟨t, c, rfl, ?_, update_self .., fun u hu => ?_, .inl ⟨?_, ?_, fun d => ?_⟩⟩⟩
    · rcases List.mem_cons.mp hbm with rfl | hbm
      · rfl
      · exact hb.safe.slept b hbm
    · show s.sys.sema.value - 1 = 0
      rw [hi.value]
    · exact (update_of_ne hu ..).trans (hi.place u hu)
    · exact update_self ..
    · exact (Intq.mustWait_setSlot ..).trans hm
    · rw [Intq.slot_setSlot, hi.slots]
  | false =>
    have hinv : IntqInv (s.setPlace t .out) := by
      refine ⟨⟨⟨hb.safe.sound, hb.safe.slept⟩, hb.ring, hb.alone⟩, .inl ⟨t, ?_,
        update_self ..⟩⟩
      exact ⟨hi.holder, hi.value, hi.slots, fun u hu =>
        (update_of_ne hu ..).trans (hi.place u hu)⟩
    exact hinv.finish hm (some t)

theorem idle (h : IntqInv s) (hn : s.holder = none) (t : Tid) : Idle s t := by
  rcases h.phase with ⟨t₀, hi, hp⟩ | ⟨t₀, c₀, hw⟩
  · refine ⟨hn, hi.value, hi.slots, fun u _ => ?_⟩
    by_cases hu : u = t₀
    · rw [hu]
      exact hp
    · exact hi.place u hu
  · rw [hw.holder] at hn
    cases hn

theorem call (h : IntqInv s) (hp : s.place t = .out)
    (hfree : s.q.mustWait c.side = true → s.holder = none) : IntqInv (s.loop t c) := by
  cases hm : s.q.mustWait c.side with
  | true => exact loop h.base (h.idle (hfree hm) t)
  | false =>
    have hsame : s.setPlace t .out = s := by
      unfold IntqSys.setPlace
      rw [← hp, update_eq_self]
    unfold IntqSys.loop
    rw [hm, hsame]
    exact h.finish hm (some t)

/-- **A thread comes back from `wait`**: it has the lock, and releases it. -/
theorem release (h : IntqInv s) (hp : s.place t = .asleep c) (ht : s.status t ≠ .blocked) :
    IntqInv (s.release t c) := by
  rcases h.phase with ⟨t₀, hi, hp0⟩ | ⟨t₀, c₀, hw⟩
  · have hout : s.place t = .out := by
      by_cases hu : t = t₀
      · rw [hu]
        exact hp0
      · exact hi.place t hu
    rw [hp] at hout
    cases hout
  · have hu : t = t₀ := by
      by_contra hne
      have hout := hw.place t hne
      rw [hp] at hout
      cases hout
    subst hu
    have hup : s.sys.semaUp = some s.sys.give := by
      simp only [SemaSys.semaUp, h.base.alone, maxElem]
    unfold IntqSys.release
    rw [if_pos hw.holder, hup]
    refine loop ⟨⟨h.base.safe.sound, h.base.safe.slept⟩, h.base.ring, h.base.alone⟩
      ⟨rfl, ?_, ?_, hw.place⟩
    · show (s.sys.sema.value + 1) % 2 ^ 32 = 1
      have hv := hw.value
      omega
    · rcases hw.state with ⟨hb, -⟩ | ⟨-, hs⟩
      · exact absurd hb ht
      · exact hs

theorem elsewhere (h : IntqInv s) {st : ThreadStatus}
    (ha : s.place t = .out ∨ (s.status t ≠ .blocked ∧ st ≠ .blocked)) :
    IntqInv (s.setStatus t st) := by
  refine ⟨⟨⟨h.base.safe.sound, h.base.safe.slept⟩, h.base.ring, h.base.alone⟩, ?_⟩
  rcases h.phase with ⟨t₀, hi, hp⟩ | ⟨t₀, c₀, hw⟩
  · exact .inl ⟨t₀, ⟨hi.holder, hi.value, hi.slots, hi.place⟩, hp⟩
  · refine .inr ⟨t₀, c₀, hw.holder, hw.value, hw.here, hw.place, ?_⟩
    by_cases hu : t₀ = t
    · subst hu
      rcases ha with ha | ⟨hb, hst⟩
      · rw [hw.here] at ha
        cases ha
      · rcases hw.state with ⟨hb', -⟩ | ⟨-, hs⟩
        · exact absurd hb' hb
        · refine .inr ⟨?_, hs⟩
          show update s.sys.status t₀ st t₀ ≠ .blocked
          rw [update_self]
          exact hst
    · have hsame : (s.setStatus t st).status t₀ = s.status t₀ := update_of_ne hu ..
      rw [hsame]
      exact hw.state

/-- **One step**, of a thread that finds the lock free if it has to wait. -/
theorem step (h : IntqInv s) {e : IntqEvent} (ho : LockFree s e) (hs : intqStep s e = some s') :
    IntqInv s' := by
  simp only [intqStep, h.base.safe.sound, Bool.false_eq_true, if_false] at hs
  cases e with
  | call t c =>
    simp only at hs
    split at hs
    · rename_i hg
      cases hs
      exact h.call hg.1 ho
    · cases hs
  | resume t =>
    simp only at hs
    split at hs
    · cases hs
    · rename_i hb
      cases hp : s.place t with
      | out =>
        rw [hp] at hs
        cases hs
      | lockWait c =>
        -- nobody ever waits for the lock
        rcases h.phase with ⟨t₀, hi, hp0⟩ | ⟨t₀, c₀, hw⟩
        · by_cases hu : t = t₀
          · rw [hu, hp0] at hp
            cases hp
          · rw [hi.place t hu] at hp
            cases hp
        · by_cases hu : t = t₀
          · rw [hu, hw.here] at hp
            cases hp
          · rw [hw.place t hu] at hp
            cases hp
      | asleep c =>
        rw [hp] at hs
        cases hs
        exact h.release hp hb
  | handler c =>
    simp only at hs
    split at hs
    · cases hs
    · rename_i hm
      cases hs
      exact h.finish (Bool.eq_false_iff.mpr hm) none
  | setPriority t p =>
    cases hs
    exact ⟨⟨⟨rfl, h.base.safe.slept⟩, h.base.ring, h.base.alone⟩, h.phase.imp
      (fun ⟨t₀, hi, hp⟩ => ⟨t₀, ⟨hi.holder, hi.value, hi.slots, hi.place⟩, hp⟩)
      fun ⟨t₀, c₀, hw⟩ => ⟨t₀, c₀, hw.holder, hw.value, hw.here, hw.place, hw.state⟩⟩
  | elsewhere t st =>
    simp only at hs
    split at hs
    · rename_i ha
      cases hs
      exact h.elsewhere ha
    · cases hs

end IntqInv

/-! ## 4. Every run -/

/-- **The queue is safe** in every run in which a thread that has to wait finds the lock free. -/
theorem intq_waiters_safe (status : Tid → ThreadStatus) (priority : Tid → Int) (s : IntqSys)
    (hr : Reach intqStep LockFree (.init status priority) s) : IntqSafe s :=
  (hr.invariant (IntqInv.init status priority) fun _ _ _ h ho hs => h.step ho hs).base.safe

def intqStart : IntqSys := .init (fun _ => .ready) fun _ => 31

/-- One reader sleeps, two bytes arrive, it takes one; a second reader takes the other. -/
theorem intq_waiters_safe_readers : ∃ s, runList (stepIf intqStep LockFree) intqStart
      [.call 1 .getc, .handler (.putc 7), .handler (.putc 8), .resume 1, .call 2 .getc] = some s ∧
      s.received = [(2, 8), (1, 7)] ∧ IntqSafe s := by
  have hrun : ((runList (stepIf intqStep LockFree) intqStart
      [.call 1 .getc, .handler (.putc 7), .handler (.putc 8), .resume 1, .call 2 .getc]).map
        fun s => s.received) = some [(2, 8), (1, 7)] := by decide
  obtain ⟨s, hs, hrec⟩ := Option.map_eq_some_iff.mp hrun
  exact ⟨s, hs, hrec, intq_waiters_safe _ _ s (reach_runIf _ hs)⟩

/-- **The second reader**: it found the queue empty and slept for the lock; two bytes arrive, the first
    reader takes one and releases the lock, and the second goes on to `wait` with a byte in the queue. -/
theorem intq_second_reader_fails : ∃ s,
    Reach intqStep always intqStart s ∧ s.q.empty = false ∧ s.failed = true ∧ ¬ IntqSafe s := by
  have hrun : ((runList intqStep intqStart [.call 1 .getc, .call 2 .getc, .handler (.putc 7),
      .handler (.putc 8), .resume 1, .resume 2]).map fun s => (s.q.empty, s.failed)) =
      some (false, true) := by decide
  obtain ⟨s, hs, he⟩ := Option.map_eq_some_iff.mp hrun
  have hq : s.q.empty = false := congrArg Prod.fst he
  have hf : s.failed = true := congrArg Prod.snd he
  exact ⟨s, reach_runList _ (fun _ _ _ => trivial) hs, hq, hf, fun h => nomatch hf.symm.trans h.sound⟩

end Pintos
