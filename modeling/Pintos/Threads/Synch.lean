/-
  Subject:   The kernel machine: threads that run the calls of thread.c, synch.c, timer.c, ide.c
             and intq.c, one step at a time, under timer and device interrupts. Definitions only.

  * A call is a list of steps (`Micro`); `pend t` is what thread `t` still has to do of the call it
    is in, so `pend t = []` says that `t` is in no call. A step is a stretch of the source that no
    interrupt can divide: a section with interrupts off, or a store or a test with interrupts on.
    Between two steps a timer or device interrupt may come if interrupts are on.
  * A thread that blocks or yields leaves the rest of its call on `pend`, to be taken up when it is
    switched to again. `intr_set_level (old_level)` after a switch is such a rest.
  * Semaphores, locks and condition variables are named: by a number for those of the program, by
    their owner for the locks inside `struct thread`, by a serial number for the
    `struct semaphore_elem` that `cond_wait` has on its stack.
  * A failed `ASSERT` is a kernel panic: `none`.

  Left out: the busy waiting of the disk driver and its sleeps, `malloc` inside `timer_sleep`
  (interrupts are off and the switch follows at once), and `process_exit`.
-/
import Pintos.Devices.Intq

namespace Pintos

open Lib Function

/-- The two interrupt queues of the kernel: `buffer` of input.c and `txq` of serial.c. -/
inductive IntqRef where
  | input
  | txq
  deriving DecidableEq, Repr

inductive LockRef where
  | user (n : ℕ)
  | tidLock
  /-- The lock of the kernel pool of palloc.c. -/
  | pool
  | exec (t : Tid)
  | wait (t : Tid)
  | exit (t : Tid)
  | exit2 (t : Tid)
  | channel (c : ℕ)
  | intq (q : IntqRef)
  deriving DecidableEq, Repr

inductive SemaRef where
  | user (n : ℕ)
  | lock (l : LockRef)
  /-- The semaphore of the `n`-th `struct semaphore_elem`. -/
  | elem (n : ℕ)
  /-- `completion_wait` of an IDE channel. -/
  | completion (c : ℕ)
  deriving DecidableEq, Repr

structure Semaphore where
  value : ℕ
  waiters : List Tid
  deriving DecidableEq, Repr

/-- One indivisible step of a call. -/
inductive Micro where
  | setLevel (level : IntrLevel)
  | threadYield
  | semaDown (r : SemaRef)
  /-- The loop of `sema_down` after a switch back; `old` is `old_level`. -/
  | semaLoop (r : SemaRef) (old : IntrLevel)
  | semaUp (r : SemaRef)
  /-- The last test of `sema_up`. -/
  | semaUpTail (priMax : Int)
  | unblock (t : Tid)
  /-- The last test of `thread_unblock`. -/
  | unblockTail (topPri : Int) (t : Tid)
  | lockAcquire (l : LockRef)
  | setHolder (l : LockRef)
  | lockRelease (l : LockRef)
  | condWait (c : ℕ) (l : LockRef)
  | condSignal (c : ℕ) (l : LockRef)
  /-- `init_thread` on the page that `palloc_get_page` gave, if it gave one. -/
  | initThread (name : String) (priority : Int) (page : Bool)
  | storePriority (newPriority : Int)
  | storeNice (nice : Int)
  | storeBsdPriority
  /-- The loop of `thread_top_priority` in `thread_set_priority` and `thread_set_nice`, with `i`
      queues still to be looked at, and the test on its result. -/
  | topScan (priority : Int) (i : ℕ)
  /-- `intr_disable (); thread_block ();` -/
  | park
  | sleep (ticks : Int)
  | sleepTest (start ticks : Int)
  /-- `if (lock_held_by_current_thread (l)) lock_release (l);` -/
  | releaseHeld (l : LockRef)
  /-- The last section of `thread_exit`. -/
  | die
  | idleBlock
  /-- `sti; hlt`. -/
  | idleHalt
  | ideIssue (c : ℕ)
  | intqGetc (q : IntqRef)
  | intqPutc (q : IntqRef) (byte : UInt8)
  | intqWaitNotEmpty (q : IntqRef)
  | intqWaitNotFull (q : IntqRef)
  deriving DecidableEq, Repr

structure Kernel where
  sched : Sched
  sema : SemaRef → Semaphore
  holder : LockRef → Option Tid
  /-- `waiters` of each condition variable, by serial number. -/
  cond : ℕ → List ℕ
  nextElem : ℕ
  /-- `list_alarm`: `time_wake` and `thread`. -/
  alarm : List (Int × Tid)
  /-- The threads that called `thread_block` themselves and may be passed to `thread_unblock`. -/
  parked : List Tid
  intq : IntqRef → Intq
  /-- `expecting_interrupt` of each IDE channel. -/
  expecting : ℕ → Bool
  pend : Tid → List Micro

namespace Kernel

def cur (k : Kernel) : Tid := k.sched.running

/-- The running thread has `l` left to do. -/
def next (k : Kernel) (l : List Micro) : Kernel :=
  { k with pend := update k.pend k.cur l }

def setLevel (k : Kernel) (level : IntrLevel) : Kernel :=
  { k with sched := { k.sched with intr := level } }

def setSema (k : Kernel) (r : SemaRef) (x : Semaphore) : Kernel :=
  { k with sema := update k.sema r x }

def setHolder (k : Kernel) (l : LockRef) (t : Option Tid) : Kernel :=
  { k with holder := update k.holder l t }

def setIntq (k : Kernel) (q : IntqRef) (x : Intq) : Kernel :=
  { k with intq := update k.intq q x }

/-- The running thread leaves the CPU through `f`, with `l` to do when it is back. -/
def switch (k : Kernel) (f : Sched → Option Sched) (l : List Micro) : Option Kernel :=
  (f k.sched).map fun s => { k.next l with sched := s }

end Kernel

/-! ## 1. Semaphores -/

/-- The scan of `sema_up`: `max_elem` moves on to a strictly higher priority only. -/
def maxElem (priority : Tid → Int) : List Tid → Option Tid
  | [] => none
  | t :: l => some (l.foldl (fun m u => if priority u > priority m then u else m) t)

/-- `sema->value++`, on an `unsigned`. -/
def Semaphore.give (x : Semaphore) : Semaphore := { x with value := (x.value + 1) % 2 ^ 32 }

/-- The section of `sema_up` with interrupts off. `thread_unblock` does not yield in it. The answer
    carries the thread that was woken. -/
def semaUpSection (k : Kernel) (r : SemaRef) : Option (Option Tid × Kernel) :=
  let x := k.sema r
  match maxElem k.sched.priority x.waiters with
  | none => some (none, k.setSema r x.give)
  | some w =>
    match unblockSection k.sched w with
    | some (_, s) =>
      some (some w, { k with sched := s }.setSema r { x.give with waiters := x.waiters.erase w })
    | none => none

/-- `sema_down` from its loop on, interrupts off. -/
def semaDownLoop (k : Kernel) (r : SemaRef) (old : IntrLevel) (rest : List Micro) : Option Kernel :=
  let x := k.sema r
  if x.value = 0 then
    (k.setSema r { x with waiters := x.waiters ++ [k.cur] }).switch threadBlock
      (.semaLoop r old :: rest)
  else some (((k.setSema r { x with value := x.value - 1 }).setLevel old).next rest)

/-! ## 2. Interrupt queues -/

/-- `signal`: wake the waiter, if there is one. It runs with interrupts off, so nothing yields. -/
def signal (k : Kernel) (waiter : Option Tid) : Option Kernel :=
  match waiter with
  | none => some k
  | some w => (unblockSection k.sched w).map fun x => { k with sched := x.2 }

/-- `intq_putc` on a queue that is not full. -/
def intqPutcNow (k : Kernel) (q : IntqRef) (byte : UInt8) : Option Kernel :=
  let x := (k.intq q).store byte
  signal (k.setIntq q { x with notEmpty := none }) x.notEmpty

/-- `intq_getc` on a queue that is not empty. -/
def intqGetcNow (k : Kernel) (q : IntqRef) : Option Kernel :=
  let x := (k.intq q).take.2
  signal (k.setIntq q { x with notFull := none }) x.notFull

/-! ## 3. The steps of a call -/

/-- The steps that end in `thread_yield ()` when a test succeeds. -/
def yieldIf (k : Kernel) (test : Prop) [Decidable test] (rest : List Micro) : Kernel :=
  if test ∧ k.sched.intr = .on then k.next (.threadYield :: rest) else k.next rest

/-- `init_thread` as far as the locks in `struct thread` go: `lock_exec`, `lock_wait` and
    `lock_exit2` are taken for the new thread, `lock_exit` is free. -/
def initThreadLocks (k : Kernel) (t : Tid) : Kernel :=
  { k with
    sema := fun r =>
      if r = .lock (.exec t) ∨ r = .lock (.wait t) ∨ r = .lock (.exit2 t) then ⟨0, []⟩
      else if r = .lock (.exit t) then ⟨1, []⟩ else k.sema r
    holder := fun l =>
      if l = .exec t ∨ l = .wait t ∨ l = .exit2 t then some t
      else if l = .exit t then none else k.holder l }

/-- The step `m` of the running thread, which has `rest` to do after it. `garbage` is what the
    uninitialised `pri_max` of `sema_up` holds. -/
def exec (k : Kernel) (garbage : Int) (m : Micro) (rest : List Micro) : Option Kernel :=
  let cur := k.cur
  let old := k.sched.intr
  match m with
  | .setLevel level => some ((k.setLevel level).next rest)
  | .threadYield => k.switch threadYield (.setLevel old :: rest)
  | .semaDown r => semaDownLoop (k.setLevel .off) r old rest
  | .semaLoop r old => semaDownLoop k r old rest
  | .semaUp r =>
    match semaUpSection k r with
    | some (some w, k') => some (k'.next (.semaUpTail (k.sched.priority w) :: rest))
    | some (none, k') => some (k'.next (.semaUpTail garbage :: rest))
    | none => none
  | .semaUpTail priMax => some (yieldIf k (priMax > k.sched.priority cur) rest)
  | .unblock t =>
    match unblockSection k.sched t with
    | some (topPri, s) =>
      some ({ k with sched := s, parked := k.parked.erase t }.next
        (.unblockTail topPri t :: rest))
    | none => none
  | .unblockTail topPri t => some (yieldIf k (topPri < k.sched.priority t) rest)
  | .lockAcquire l =>
    if k.holder l = some cur then none
    else some (k.next (.semaDown (.lock l) :: .setHolder l :: rest))
  | .setHolder l => some ((k.setHolder l (some cur)).next rest)
  | .lockRelease l =>
    if k.holder l = some cur then
      some ((k.setHolder l none).next (.semaUp (.lock l) :: rest))
    else none
  | .condWait c l =>
    if k.holder l = some cur then
      let n := k.nextElem
      let k := k.setSema (.elem n) ⟨0, []⟩
      let k := { k with cond := update k.cond c (k.cond c ++ [n]), nextElem := n + 1 }
      some (k.next (.lockRelease l :: .semaDown (.elem n) :: .lockAcquire l :: rest))
    else none
  | .condSignal c l =>
    if k.holder l = some cur then
      match k.cond c with
      | [] => some (k.next rest)
      | n :: ns =>
        some ({ k with cond := update k.cond c ns }.next (.semaUp (.elem n) :: rest))
    else none
  | .initThread name priority page =>
    if !page then some (k.next rest)
    else if priMin ≤ priority ∧ priority ≤ priMax then
      let t := k.sched.nextThread
      let k := { initThreadLocks k t with
        sched := addThread k.sched name priority
        -- `kernel_thread` begins with `intr_enable ()`
        pend := update k.pend t [.setLevel .on] }
      some (k.next (.lockAcquire .tidLock :: .lockRelease .tidLock :: .unblock t :: rest))
    else none
  | .storePriority p =>
    some ({ k with sched := k.sched.setPriority cur p }.next (.topScan p 64 :: rest))
  | .storeNice nice =>
    some ({ k with sched := k.sched.modify cur fun th => { th with nice := nice } }.next
      (.storeBsdPriority :: rest))
  | .storeBsdPriority =>
    let p := bsdCalcPriorityThis (k.sched.thr cur).recentCpu (k.sched.thr cur).nice
    some ({ k with sched := k.sched.setPriority cur p }.next (.topScan p 64 :: rest))
  | .topScan p i =>
    match i with
    | 0 => some (yieldIf k (p < 0) rest)
    | i + 1 =>
      if k.sched.readyList i = [] then some (k.next (.topScan p i :: rest))
      else some (yieldIf k (p < i) rest)
  | .park =>
    { k.setLevel .off with parked := cur :: k.parked }.switch threadBlock (.setLevel old :: rest)
  | .sleep n => some (k.next (.sleepTest k.sched.ticks n :: rest))
  | .sleepTest start n =>
    if k.sched.ticks - start < n then
      { k.setLevel .off with alarm := k.alarm ++ [(start + n, cur)] }.switch threadBlock
        (.setLevel old :: rest)
    else some (k.next rest)
  | .releaseHeld l =>
    if k.holder l = some cur then some (k.next (.lockRelease l :: rest)) else some (k.next rest)
  | .die =>
    let r := SemaRef.lock (.exit2 cur)
    let x := k.sema r
    -- `idle` never calls `thread_exit`
    if k.holder (.exit2 cur) = some cur ∧ k.sched.idleThread ≠ some cur then
      let waiter := maxElem k.sched.priority x.waiters
      let waiters := match waiter with
        | some w => x.waiters.erase w
        | none => x.waiters
      ((k.setHolder (.exit2 cur) none).setSema r { x.give with waiters }).switch
        (threadExit · waiter) []
    else none
  | .idleBlock => (k.setLevel .off).switch threadBlock [.idleHalt]
  | .idleHalt => some ((k.setLevel .on).next [.idleBlock])
  | .ideIssue c =>
    some ({ k with expecting := update k.expecting c true }.next rest)
  | .intqGetc q =>
    if (k.intq q).empty then
      some (k.next (.lockAcquire (.intq q) :: .intqWaitNotEmpty q :: .lockRelease (.intq q) ::
        .intqGetc q :: rest))
    else (intqGetcNow k q).map (·.next rest)
  | .intqPutc q byte =>
    if (k.intq q).full then
      some (k.next (.lockAcquire (.intq q) :: .intqWaitNotFull q :: .lockRelease (.intq q) ::
        .intqPutc q byte :: rest))
    else (intqPutcNow k q byte).map (·.next rest)
  | .intqWaitNotEmpty q =>
    if (k.intq q).empty then
      (k.setIntq q { k.intq q with notEmpty := some cur }).switch threadBlock rest
    else none
  | .intqWaitNotFull q =>
    if (k.intq q).full then
      (k.setIntq q { k.intq q with notFull := some cur }).switch threadBlock rest
    else none

/-! ## 4. Calls -/

/-- A call that a thread can make, with the outcomes the model leaves open: whether `thread_create`
    gets a page, and whether `exit_soon` is set when `thread_exit` looks. -/
inductive Call where
  | threadCreate (name : String) (priority : Int) (page : Bool)
  | threadUnblock (t : Tid)
  | threadYield
  | threadExit (exitSoon : Bool)
  | threadSetPriority (newPriority : Int)
  | threadSetNice (nice : Int)
  | semaDown (n : ℕ)
  | semaUp (n : ℕ)
  | lockAcquire (l : LockRef)
  | lockRelease (l : LockRef)
  | condWait (c : ℕ) (l : LockRef)
  | condSignal (c : ℕ) (l : LockRef)
  | threadBlock
  | timerSleep (ticks : Int)
  | ideTransfer (c : ℕ)
  | inputGetc
  | serialPutc (byte : UInt8)
  deriving DecidableEq, Repr

/-- The condition under which a caller may make the call. -/
def Call.allowed (k : Kernel) : Call → Bool
  | .threadSetPriority p => decide (priMin ≤ p ∧ p ≤ priMax)
  | .threadSetNice nice => k.sched.mlfqs && decide (-20 ≤ nice ∧ nice ≤ 20)
  | .threadUnblock t => t ∈ k.parked
  | _ => true

/-- The steps of a call of thread `t`. -/
def Call.steps (t : Tid) : Call → List Micro
  | .threadCreate name priority page =>
    [.lockAcquire .pool, .lockRelease .pool, .initThread name priority page]
  | .threadUnblock u => [.unblock u]
  | .threadYield => [.threadYield]
  | .threadExit exitSoon =>
    .releaseHeld (.exec t) :: .lockRelease (.wait t) ::
      (if exitSoon then [.die] else [.lockAcquire (.exit t), .die])
  | .threadSetPriority p => [.storePriority p]
  | .threadSetNice nice => [.storeNice nice]
  | .semaDown n => [.semaDown (.user n)]
  | .semaUp n => [.semaUp (.user n)]
  | .lockAcquire l => [.lockAcquire l]
  | .lockRelease l => [.lockRelease l]
  | .condWait c l => [.condWait c l]
  | .condSignal c l => [.condSignal c l]
  | .threadBlock => [.park]
  | .timerSleep n => [.sleep n]
  -- `ide_read`; `ide_write` takes the same steps
  | .ideTransfer c =>
    [.lockAcquire (.channel c), .ideIssue c, .semaDown (.completion c),
      .lockRelease (.channel c)]
  | .inputGetc => [.setLevel .off, .intqGetc .input, .setLevel .on]
  | .serialPutc byte => [.setLevel .off, .intqPutc .txq byte, .setLevel .on]

/-! ## 5. Interrupts -/

/-- An interrupt of a device, with what the hardware has for the handler: the byte that the
    scancode means, the bytes received, how many bytes it takes for transmission. -/
inductive DeviceIntr where
  | ide (c : ℕ)
  | keyboard (key : Option UInt8)
  | serial (received : List UInt8) (ready : ℕ)
  deriving DecidableEq, Repr

/-- `serial_putc` with interrupts off: room is made by polling. -/
def serialPutcOff (k : Kernel) (byte : UInt8) : Option Kernel :=
  if (k.intq .txq).full then (intqGetcNow k .txq).bind fun k => intqPutcNow k .txq byte
  else intqPutcNow k .txq byte

/-- `printf` in an interrupt handler takes no lock; the serial port is its only output that wakes
    anybody. -/
def printfOff : Kernel → List UInt8 → Option Kernel
  | k, [] => some k
  | k, b :: bs => (serialPutcOff k b).bind fun k => printfOff k bs

def unexpectedInterrupt (c : ℕ) : List UInt8 :=
  ("ide" ++ toString c ++ ": unexpected interrupt\n").toList.map fun ch => UInt8.ofNat ch.toNat

/-- The first loop of `serial_interrupt`. -/
def serialReceive : Kernel → List UInt8 → Option Kernel
  | k, [] => some k
  | k, b :: bs =>
    if (k.intq .input).full then some k
    else (intqPutcNow k .input b).bind fun k => serialReceive k bs

/-- The second loop of `serial_interrupt`. -/
def serialTransmit : Kernel → ℕ → Option Kernel
  | k, 0 => some k
  | k, n + 1 =>
    if (k.intq .txq).empty then some k
    else (intqGetcNow k .txq).bind fun k => serialTransmit k n

/-- The handlers `interrupt_handler` of ide.c, `keyboard_interrupt` and `serial_interrupt`. -/
def deviceHandler (k : Kernel) : DeviceIntr → Option Kernel
  | .ide c =>
    if c < 2 then
      if k.expecting c then (semaUpSection k (.completion c)).map Prod.snd
      else printfOff k (unexpectedInterrupt c)
    else none
  | .keyboard none => some k
  | .keyboard (some key) =>
    if (k.intq .input).full then some k else intqPutcNow k .input key
  | .serial received ready => (serialReceive k received).bind fun k => serialTransmit k ready

/-- The end of `intr_handler`: a yield takes the interrupted thread off the CPU with the `iret` to
    do, otherwise it goes on. -/
def interruptReturn (k : Kernel) : Option Kernel :=
  (intrExit k.sched).map fun s =>
    if k.sched.yieldOnReturn then { k.next (.setLevel .on :: k.pend k.cur) with sched := s }
    else { k with sched := s }

/-- `timer_interrupt`: the tick, and the sleepers whose time has come. -/
def timerHandler (k : Kernel) : Option Kernel :=
  let ticks := k.sched.ticks + 1
  let woken := (k.alarm.filter fun a => decide (a.1 ≤ ticks)).map Prod.snd
  (timerInterrupt k.sched woken).map fun s =>
    { k with sched := s, alarm := k.alarm.filter fun a => !decide (a.1 ≤ ticks) }

/-! ## 6. The machine -/

inductive KEvent where
  /-- The running thread, which is in no call, makes one. -/
  | call (c : Call)
  /-- The running thread takes its next step. -/
  | run (garbage : Int)
  | timer
  | device (d : DeviceIntr)
  deriving DecidableEq, Repr

def kernelStep (k : Kernel) : KEvent → Option Kernel
  | .call c =>
    if k.pend k.cur = [] ∧ k.sched.intr = .on ∧ c.allowed k then
      some (k.next (c.steps k.cur))
    else none
  | .run garbage =>
    match k.pend k.cur with
    | m :: rest => exec k garbage m rest
    | [] => none
  | .timer =>
    if k.sched.intr = .on then
      (timerHandler { k with sched := intrEnter k.sched }).bind interruptReturn
    else none
  | .device d =>
    if k.sched.intr = .on then
      (deviceHandler { k with sched := intrEnter k.sched } d).bind interruptReturn
    else none

end Pintos
