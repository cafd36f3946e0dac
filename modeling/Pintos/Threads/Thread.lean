/-
  Subject:   The scheduler of threads/thread.c: 64 ready queues, one running thread, the mlfqs
             and the aging scheduler. Definitions only.

  * A `struct thread` is named by a `Tid`; pages are not reused, so a thread that has exited keeps
    its last record with status `dying`. `allelem` and `elem` are membership of the thread in
    `allList` and in a ready queue: `list_push_back` appends, `list_remove (&t->elem)` takes the
    thread out of whichever queue holds it (`Lib.remove`).
  * `ready_list[PRI_MAX + 1]` is a family of lists indexed by `int`; the indices that exist are
    `PRI_MIN .. PRI_MAX`, and that no other one is ever used is proved, not built in.
  * A failed `ASSERT` is a kernel panic, and the model's functions answer `none` there.
  * `intr` is the interrupt flag of the CPU. `schedule` switches stacks, so what follows it in the
    source (`intr_set_level (old_level)`) runs when the thread is switched to again; the functions
    here end at the switch.
  * `fp_t` and `int` are 32-bit words; a word is the integer it denotes, and an operation that can
    leave the range goes through `int32`. The products and quotients that the source takes through
    `int64_t` cannot leave 64 bits, so only their result is cut back to a word.
-/
import Mathlib.Tactic.Linarith
import Pintos.Lib.Run
import Pintos.Lib.MultiQueue

namespace Pintos

open Lib

/-! ## 1. Fixed-point numbers (`struct fixed_point fp`) -/

/-- The value a 32-bit signed word holds after storing `x`. -/
def int32 (x : Int) : Int := Int.bmod x (2 ^ 32)

/-- `FP_FORMAT_32BIT`, the scale `fp.fp_format` that `thread_init` stores. -/
def fpFormat : Int := 16384

/-- `FP_REAR` / `INT_REAR`. -/
inductive Rear where
  | fp
  | int
  deriving DecidableEq, Repr

def fpConvertToFp (n : Int) : Int := int32 (n * fpFormat)

def fpConvertToIntDown (x : Int) : Int := x.tdiv fpFormat

def fpAdd (a b : Int) : Rear → Int
  | .fp => int32 (a + b)
  | .int => int32 (a + int32 (b * fpFormat))

def fpSub (a b : Int) : Rear → Int
  | .fp => int32 (a - b)
  | .int => int32 (a - int32 (b * fpFormat))

def fpMult (a b : Int) : Rear → Int
  | .fp => int32 ((a * b).tdiv fpFormat)
  | .int => int32 (a * b)

def fpDevide (a b : Int) : Rear → Int
  | .fp => int32 ((a * fpFormat).tdiv b)
  | .int => int32 (a.tdiv b)

/-! ## 2. Threads -/

/-- The identity of a `struct thread`. -/
abbrev Tid := ℕ

/-- `enum thread_status`. -/
inductive ThreadStatus where
  | running
  | ready
  | blocked
  | dying
  deriving DecidableEq, Repr

/-- `enum intr_level`. -/
inductive IntrLevel where
  | off
  | on
  deriving DecidableEq, Repr

def priMin : Int := 0
def priDefault : Int := 31
def priMax : Int := 63

/-- `TIME_SLICE`, in timer ticks. -/
def timeSlice : ℕ := 4

/-- `TIMER_FREQ`, ticks per second. -/
def timerFreq : Int := 100

/-- The fields of `struct thread` the scheduler uses. -/
structure Thread where
  name : String
  status : ThreadStatus
  priority : Int
  nice : Int
  recentCpu : Int
  recentUnused : Int
  deriving DecidableEq, Repr

/-- The static variables of thread.c, and of timer.c and interrupt.c as far as thread.c uses
    them. -/
structure Sched where
  thr : Tid → Thread
  allList : List Tid
  readyList : Int → List Tid
  /-- `running_thread ()`: the thread whose stack the CPU is on. -/
  running : Tid
  idleThread : Option Tid
  /-- The thread that `thread_start` created to run `idle`. -/
  idleFunc : Option Tid
  /-- The page the next `thread_create` gets. -/
  nextThread : Tid
  intr : IntrLevel
  inExternalIntr : Bool
  yieldOnReturn : Bool
  ticks : Int
  threadTicks : ℕ
  loadAvg : Int
  mlfqs : Bool
  priorAging : Bool

namespace Sched

def status (s : Sched) (t : Tid) : ThreadStatus := (s.thr t).status
def priority (s : Sched) (t : Tid) : Int := (s.thr t).priority
def name (s : Sched) (t : Tid) : String := (s.thr t).name

/-- A store to the fields of one thread. -/
def modify (s : Sched) (t : Tid) (f : Thread → Thread) : Sched :=
  { s with thr := Function.update s.thr t (f (s.thr t)) }

def setStatus (s : Sched) (t : Tid) (st : ThreadStatus) : Sched :=
  s.modify t fun th => { th with status := st }

def setPriority (s : Sched) (t : Tid) (p : Int) : Sched :=
  s.modify t fun th => { th with priority := p }

/-- `list_push_back (&ready_list[i], &t->elem)`. -/
def pushReady (s : Sched) (i : Int) (t : Tid) : Sched :=
  { s with readyList := push s.readyList i t }

/-- `list_remove (&t->elem)`, for a thread on a ready queue. -/
def removeReady (s : Sched) (t : Tid) : Sched :=
  { s with readyList := remove s.readyList t }

/-- The three stores that give a ready thread a new priority: the field, `list_remove`,
    `list_push_back`. -/
def requeue (s : Sched) (t : Tid) (p : Int) : Sched :=
  ((s.setPriority t p).removeReady t).pushReady p t

end Sched

/-! ## 3. Choosing and switching -/

/-- The queue `for (i = PRI_MAX; i >= PRI_MIN; i--) if (!list_empty (&ready_list[i]))` stops
    at. -/
def topQueue (s : Sched) : Option ℕ := highest (fun i : ℕ => s.readyList i) 64

def threadTopPriority (s : Sched) : Int :=
  match topQueue s with
  | some i => i
  | none => 0

def nextThreadToRun (s : Sched) : Option (Tid × Sched) :=
  match topQueue s with
  | some i =>
    match s.readyList i with
    | t :: l => some (t, { s with readyList := Function.update s.readyList i l })
    | [] => none
  | none =>
    match s.idleThread with
    | some t => some (t, s)
    | none => none

/-- `thread_schedule_tail`, on the stack of the thread switched to. The page of a dying
    predecessor goes back to the allocator; its record is not looked at again. -/
def threadScheduleTail (s : Sched) : Sched :=
  { s.setStatus s.running .running with threadTicks := 0 }

/-- `schedule`: `none` is the failed `ASSERT (is_thread (next))` of a kernel that has nothing to
    run and no idle thread yet. -/
def schedule (s : Sched) : Option Sched :=
  match nextThreadToRun s with
  | some (next, s') => some (threadScheduleTail { s' with running := next })
  | none => none

def threadYield (s : Sched) : Option Sched :=
  if s.inExternalIntr then none
  else
    let cur := s.running
    let s := { s with intr := .off }
    let s :=
      if s.idleThread = some cur then s
      else (s.pushReady (s.priority cur) cur).modify cur fun th =>
        { th with recentUnused := s.ticks }
    schedule (s.setStatus cur .ready)

def threadBlock (s : Sched) : Option Sched :=
  if s.inExternalIntr ∨ s.intr = .on then none
  else schedule (s.setStatus s.running .blocked)

/-- The part of `thread_unblock` that runs with interrupts off, up to
    `intr_set_level (old_level)`. The answer carries `top_pri`. -/
def unblockSection (s : Sched) (t : Tid) : Option (Int × Sched) :=
  if s.status t = .blocked then
    some (threadTopPriority s, (s.pushReady (s.priority t) t).setStatus t .ready)
  else none

/-- The test that ends `thread_unblock`. -/
def unblockTail (topPri : Int) (t : Tid) (s : Sched) : Option Sched :=
  if topPri < s.priority t ∧ s.intr = .on then threadYield s else some s

def threadUnblock (s : Sched) (t : Tid) : Option Sched :=
  match unblockSection s t with
  | some (topPri, s') => unblockTail topPri t s'
  | none => none

/-! ## 4. Creation and exit -/

/-- `init_thread`. The name is stored in 16 bytes; it is only ever compared with "idle", which
    the cut does not change. -/
def initThread (s : Sched) (name : String) (priority : Int) : Thread where
  name := name
  status := .blocked
  priority := priority
  nice := if s.mlfqs && name != "main" then (s.thr s.running).nice else 0
  recentCpu := if s.mlfqs && name != "main" then (s.thr s.running).recentCpu else fpConvertToFp 0
  recentUnused := s.ticks

/-- A blocked thread on its own page, on `all_list`. -/
def addThread (s : Sched) (name : String) (priority : Int) : Sched :=
  { s with
    thr := Function.update s.thr s.nextThread (initThread s name priority)
    allList := s.allList ++ [s.nextThread]
    nextThread := s.nextThread + 1 }

/-- `thread_create`; `page` is the answer of `palloc_get_page`. -/
def threadCreate (s : Sched) (name : String) (priority : Int) (page : Bool) : Option Sched :=
  if !page then some s
  else if priMin ≤ priority ∧ priority ≤ priMax then
    threadUnblock (addThread s name priority) s.nextThread
  else none

/-- `thread_start`, up to the first switch: the idle thread is created. -/
def threadStart (s : Sched) : Option Sched :=
  if s.idleFunc = none then
    (threadCreate s "idle" priMin true).map fun s' => { s' with idleFunc := some s.nextThread }
  else none

/-- The first statement of `idle`. -/
def idleEntry (s : Sched) : Option Sched :=
  if s.idleFunc = some s.running then some { s with idleThread := some s.running } else none

/-- The last section of `thread_exit`, from `intr_disable` on. `waiter` is the thread that the
    release of `lock_exit2` finds waiting, if any: it becomes ready here, and with interrupts off
    nothing yields to it. -/
def threadExit (s : Sched) (waiter : Option Tid) : Option Sched :=
  let s := { s with intr := .off }
  let woken := match waiter with
    | some w => (unblockSection s w).map Prod.snd
    | none => some s
  match woken with
  | some s =>
    schedule
      ({ s with allList := s.allList.erase s.running }.setStatus s.running .dying)
  | none => none

/-! ## 5. Priorities -/

def threadSetPriority (s : Sched) (newPriority : Int) : Option Sched :=
  let s := s.setPriority s.running newPriority
  if newPriority < threadTopPriority s ∧ s.intr = .on then threadYield s else some s

/-- `BSD_calc_priority_this`; the loop of `BSD_calc_priority` spells the same expression out. -/
def bsdCalcPriorityThis (recentCpu nice : Int) : Int :=
  let rcpu4 := fpDevide recentCpu 4 .int
  let priority := fpSub (fpConvertToFp (int32 (priMax - int32 (nice * 2)))) rcpu4 .fp
  let priority := fpConvertToIntDown priority
  let priority := if priority > priMax then priMax else priority
  if priority < priMin then priMin else priority

def threadSetNice (s : Sched) (nice : Int) : Option Sched :=
  if -20 ≤ nice ∧ nice ≤ 20 then
    let cur := s.running
    let s := s.modify cur fun th => { th with nice := nice }
    let s := s.setPriority cur (bsdCalcPriorityThis (s.thr cur).recentCpu nice)
    if s.priority cur < threadTopPriority s ∧ s.intr = .on then threadYield s else some s
  else none

/-- One turn of the loop of `BSD_calc_priority`, with its flag `yield`. The source tests for a
    running thread after either branch; the one it has just moved is ready. -/
def bsdCalcPriorityStep (sy : Sched × Bool) (t : Tid) : Sched × Bool :=
  let (s, yield) := sy
  if s.name t = "idle" then (s, yield)
  else
    let new := bsdCalcPriorityThis (s.thr t).recentCpu (s.thr t).nice
    if s.status t = .ready ∧ s.priority t ≠ new then
      let s := s.requeue t new
      (s, yield || decide (new > s.priority s.running))
    else
      let s := s.setPriority t new
      (s, if s.status t = .running then yield || decide (new < threadTopPriority s) else yield)

def bsdCalcPriority (s : Sched) : Sched :=
  let (s, yield) := s.allList.foldl bsdCalcPriorityStep (s, false)
  if yield && s.inExternalIntr then { s with yieldOnReturn := true } else s

def bsdCalcLoadAverage (s : Sched) : Sched :=
  let queued : ℕ := ((List.range 64).map fun i : ℕ => (s.readyList i).length).sum
  let readyThreads : Int := queued + (if s.name s.running = "idle" then 0 else 1)
  let d59 := fpDevide (fpConvertToFp 59) 60 .int
  let d1 := fpDevide (fpConvertToFp 1) 60 .int
  { s with loadAvg :=
      fpAdd (fpMult s.loadAvg d59 .fp) (fpMult d1 (int32 readyThreads) .int) .fp }

/-- One turn of the loop of `BSD_calc_recent_cpu`. -/
def bsdCalcRecentCpuStep (coef : Int) (s : Sched) (t : Tid) : Sched :=
  if s.name t = "idle" then s
  else s.modify t fun th =>
    { th with recentCpu := fpAdd (fpMult coef th.recentCpu .fp) th.nice .int }

def bsdCalcRecentCpu (s : Sched) : Sched :=
  let coef := fpMult s.loadAvg 2 .int
  let coef := fpDevide coef (fpAdd coef 1 .int) .fp
  s.allList.foldl (bsdCalcRecentCpuStep coef) s

def bsdSchedule (s : Sched) : Sched :=
  let s :=
    if s.name s.running ≠ "idle" then
      s.modify s.running fun th => { th with recentCpu := fpAdd th.recentCpu 1 .int }
    else s
  let s := if s.ticks.tmod timerFreq = 0 then bsdCalcRecentCpu (bsdCalcLoadAverage s) else s
  if s.ticks.tmod 4 = 0 then bsdCalcPriority s else s

/-- One turn of the inner loop of `thread_aging`. -/
def agingStep (sy : Sched × Bool) (t : Tid) : Sched × Bool :=
  let (s, yield) := sy
  if (s.ticks - (s.thr t).recentUnused).tmod 100 = 0 then
    let p := s.priority t + 1
    let s := s.requeue t p
    (s, yield || decide (p > s.priority s.running))
  else (s, yield)

/-- The inner loop of `thread_aging` on `ready_list[i]`. A thread that moves leaves for another
    queue and `e = list_prev (e_tp)` steps back to before the gap, so the loop meets each thread
    that was on the queue at its start once, in order. -/
def agingLevel (sy : Sched × Bool) (i : ℕ) : Sched × Bool :=
  (sy.1.readyList i).foldl agingStep sy

/-- `thread_aging`: the levels `PRI_MAX - 1` down to `PRI_MIN`. -/
def threadAging (s : Sched) : Sched :=
  let (s, yield) := (List.range 63).reverse.foldl agingLevel (s, false)
  if yield then { s with yieldOnReturn := true } else s

def threadTick (s : Sched) : Sched :=
  let s := { s with threadTicks := s.threadTicks + 1 }
  let s := if timeSlice ≤ s.threadTicks then { s with yieldOnReturn := true } else s
  let s := if s.mlfqs then bsdSchedule s else s
  if s.priorAging then threadAging s else s

/-! ## 6. External interrupts -/

/-- `intr_handler` before the handler: an external interrupt turns interrupts off. -/
def intrEnter (s : Sched) : Sched :=
  { s with intr := .off, inExternalIntr := true, yieldOnReturn := false }

/-- `intr_handler` after the handler: the pending yield, else the `iret` to the interrupted
    thread, which runs with interrupts on. -/
def intrExit (s : Sched) : Option Sched :=
  let s := { s with inExternalIntr := false }
  if s.yieldOnReturn then threadYield s else some { s with intr := .on }

/-- One thread that `timer_interrupt` wakes. -/
def wakeStep (s : Option Sched) (t : Tid) : Option Sched :=
  match s with
  | some s => (threadUnblock s t).map fun s => { s with yieldOnReturn := true }
  | none => none

/-- `timer_interrupt`; `woken` are the sleepers whose time has come, in the order of
    `list_alarm`. -/
def timerInterrupt (s : Sched) (woken : List Tid) : Option Sched :=
  woken.foldl wakeStep (some (threadTick { s with ticks := s.ticks + 1 }))

/-- What stands on a page that holds no thread. -/
def noThread : Thread := ⟨"", .dying, priMin, 0, 0, 0⟩

/-- `thread_init`: the running code becomes the thread "main". -/
def threadInit (mlfqs priorAging : Bool) : Sched where
  thr := Function.update (fun _ => noThread) 0
    ⟨"main", .running, priDefault, 0, fpConvertToFp 0, 0⟩
  allList := [0]
  readyList _ := []
  running := 0
  idleThread := none
  idleFunc := none
  nextThread := 1
  intr := .off
  inExternalIntr := false
  yieldOnReturn := false
  ticks := 0
  threadTicks := 0
  loadAvg := fpConvertToFp 0
  mlfqs := mlfqs
  priorAging := priorAging

end Pintos
