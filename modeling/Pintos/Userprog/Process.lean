/-
  Subject:   Processes: `process_execute`, `start_process`, `process_wait` and `thread_exit`, run by
             any number of processes in any interleaving. Definitions only.

  * Each process has a program counter (`PC`), one value for each point between two indivisible
    stretches of the source: a section with interrupts off, a look at `all_list`
    (`thread_from_tid`), or one access to a `struct thread`. Any process that is not blocked may take
    the next step.
  * A `struct thread` is named by its tid. It is on `all_list` while its process is `alive`; the last
    section of `thread_exit` takes it off the list and the next thread's `thread_schedule_tail`
    frees its page before interrupts come on again, so that is one step (`die`).
  * An access to a freed page is recorded in `uaf`. What it reads is left open (`garbage`), what it
    writes is lost.
  * A failed `ASSERT` and a null `struct thread *` that is dereferenced stop the machine (`crashed`).
  * Priorities are not modelled: `sema_up` wakes any of the waiters.
  * `thread_create` is one step: that the new thread is on `all_list` with tid 0 until `allocate_tid`
    has returned, with interrupts on, is left out.
  * `parent`, `loaded`, `ended`, `execResult` and `waitResult` are for the statements only: no step
    reads them.
-/
import Pintos.Threads.Thread

namespace Pintos

open Function

/-- `TID_ERROR`. -/
def tidError : Int := -1

/-- The four locks in `struct thread`. -/
inductive LockName where
  | exec
  | wait
  | exit
  | exit2
  deriving DecidableEq, Repr

structure PLock where
  value : ℕ
  holder : Option Tid
  waiters : List Tid
  deriving DecidableEq, Repr

/-- The points of `lock_acquire (&thread_from_tid (c)->l)`. -/
inductive Acq where
  | lookup
  | check
  | down
  | hold
  deriving DecidableEq, Repr

/-- The points of `lock_release (&thread_from_tid (c)->l)`. -/
inductive Rel where
  | lookup
  | check
  | clear
  | up
  deriving DecidableEq, Repr

inductive PC where
  /-- A kernel thread that makes none of these calls. -/
  | kernel
  /-- In user code; for "main", between two calls. -/
  | user
  -- `process_execute`
  | create
  | soonLookup (c : Tid)
  | soonWrite (c : Tid)
  | execExit (c : Tid) (a : Acq)
  | execExec (c : Tid) (a : Acq)
  | execTest (c : Tid)
  | execTest2 (c : Tid)
  | execRead (c : Tid)
  -- `process_wait`
  | waitGuard (tid : Int)
  | waitWait (c : Tid) (a : Acq)
  | statusLookup (c : Tid)
  | statusRead (c : Tid)
  | waitExit (c : Tid) (status : Int) (r : Rel)
  | waitExit2 (c : Tid) (status : Int) (a : Acq)
  | waitReturn (c : Tid) (status : Int)
  -- `start_process`
  | load
  | startRel (r : Rel)
  | failStatus
  | failSoon
  | failRel (r : Rel)
  -- `thread_exit`
  | exitHeld
  | exitExec (r : Rel)
  | exitWait (r : Rel)
  | exitTest
  | exitExit (a : Acq)
  | die
  /-- The last section, reached with `exit_soon` set. -/
  | dieSoon
  | dead
  deriving DecidableEq, Repr

inductive Life where
  | unborn
  | alive
  | freed
  deriving DecidableEq, Repr

/-- `struct thread` as far as these calls use it, and the state of the process. -/
structure Proc where
  life : Life
  exitSoon : Bool
  exitStatus : Int
  lock : LockName → PLock
  pc : PC
  /-- The lock on whose semaphore the process is blocked. -/
  blockedOn : Option (Tid × LockName)
  /-- What the last call returned. -/
  eax : Int
  parent : Option Tid
  /-- How `load` ended. -/
  loaded : Option Bool
  /-- The status that a waiting parent is owed. -/
  ended : Option Int
  /-- What the `process_execute` that created the process returned. -/
  execResult : Option Int
  /-- What the parent's first `process_wait` for the process returned. -/
  waitResult : Option Int

inductive Crash where
  | assertion
  | nullDeref
  deriving DecidableEq, Repr

structure PSys where
  proc : Tid → Proc
  /-- `next_tid`; `tid_range` answers the one before it. -/
  nextTid : Tid
  uaf : Bool
  /-- The crash, the process that caused it and where it was. -/
  crashed : Option (Crash × Tid × PC)

namespace PSys

def modify (s : PSys) (t : Tid) (f : Proc → Proc) : PSys :=
  { s with proc := update s.proc t (f (s.proc t)) }

def goto (s : PSys) (t : Tid) (pc : PC) : PSys := s.modify t fun x => { x with pc := pc }

def setLock (s : PSys) (c : Tid) (l : LockName) (x : PLock) : PSys :=
  s.modify c fun y => { y with lock := update y.lock l x }

def block (s : PSys) (t c : Tid) (l : LockName) : PSys :=
  s.modify t fun x => { x with blockedOn := some (c, l) }

def unblock (s : PSys) (t : Tid) : PSys := s.modify t fun x => { x with blockedOn := none }

def crash (s : PSys) (e : Crash) (t : Tid) : PSys :=
  { s with crashed := some (e, t, (s.proc t).pc) }

/-- An access to the page of `c`. -/
def touch (s : PSys) (c : Tid) : PSys :=
  if (s.proc c).life = .alive then s else { s with uaf := true }

/-- `thread_from_tid (c) != NULL`. -/
def onAllList (s : PSys) (c : Tid) : Bool := (s.proc c).life = .alive

end PSys

/-! ## 1. Locks of a thread that may be gone -/

/-- The waiter that `sema_up` finds, by the priorities. -/
def PLock.found (x : PLock) (g : ℕ) : Option Tid := x.waiters[g % x.waiters.length]?

/-- `sema_up` on a lock of the live thread `c`. -/
def plockUp (s : PSys) (c : Tid) (l : LockName) (g : ℕ) : PSys :=
  let x := (s.proc c).lock l
  match x.found g with
  | none => s.setLock c l { x with value := x.value + 1 }
  | some w => (s.setLock c l { x with value := x.value + 1, waiters := x.waiters.erase w }).unblock w

/-- One step of thread `t` in `lock_acquire` on lock `l` of thread `c`; `k` says where `t` is and
    `done` where it goes on. -/
def acquireStep (s : PSys) (t c : Tid) (l : LockName) (garbage : ℕ) (k : Acq → PC) (done : PC) :
    Acq → PSys
  | .lookup => if s.onAllList c then s.goto t (k .check) else s.crash .nullDeref t
  | .check =>
    let held := if s.onAllList c then ((s.proc c).lock l).holder = some t else garbage = t
    if held then (s.touch c).crash .assertion t else (s.touch c).goto t (k .down)
  | .down =>
    let x := (s.proc c).lock l
    if s.onAllList c then
      if x.value = 0 then (s.setLock c l { x with waiters := x.waiters ++ [t] }).block t c l
      else (s.setLock c l { x with value := x.value - 1 }).goto t (k .hold)
    else if garbage = 0 then (s.touch c).block t c l
    else (s.touch c).goto t (k .hold)
  | .hold =>
    let x := (s.proc c).lock l
    if s.onAllList c then (s.setLock c l { x with holder := some t }).goto t done
    else (s.touch c).goto t done

/-- One step of thread `t` in `lock_release` on lock `l` of thread `c`. -/
def releaseStep (s : PSys) (t c : Tid) (l : LockName) (garbage : ℕ) (k : Rel → PC) (done : PC) :
    Rel → PSys
  | .lookup => if s.onAllList c then s.goto t (k .check) else s.crash .nullDeref t
  | .check =>
    let held := if s.onAllList c then ((s.proc c).lock l).holder = some t else garbage = t
    if held then (s.touch c).goto t (k .clear) else (s.touch c).crash .assertion t
  | .clear =>
    let x := (s.proc c).lock l
    if s.onAllList c then (s.setLock c l { x with holder := none }).goto t (k .up)
    else (s.touch c).goto t (k .up)
  | .up =>
    if s.onAllList c then (plockUp s c l garbage).goto t done else (s.touch c).goto t done

/-! ## 2. Returning to the caller -/

/-- `process_execute` returns. -/
def returnExec (s : PSys) (t c : Tid) (r : Int) : PSys :=
  (s.modify c fun x => { x with execResult := some r }).modify t fun x =>
    { x with pc := .user, eax := r }

/-- `process_wait (tid)` returns. -/
def returnWait (s : PSys) (t : Tid) (tid r : Int) : PSys :=
  (s.modify tid.toNat fun x =>
    if x.parent = some t ∧ x.waitResult = none then { x with waitResult := some r } else x).modify t
    fun x => { x with pc := .user, eax := r }

/-- The test with which `process_wait` begins: the tid is `TID_ERROR`, out of range, or on no thread
    of `all_list`. -/
def waitRefuses (s : PSys) (tid : Int) : Bool :=
  tid == tidError || decide ((s.nextTid : Int) - 1 < tid) || decide (0 > tid) ||
    !s.onAllList tid.toNat

/-! ## 3. The steps -/

/-- The last section of `thread_exit`, up to the freeing of the page. -/
def dieStep (s : PSys) (t : Tid) (garbage : ℕ) : PSys :=
  let x := (s.proc t).lock .exit2
  if x.holder = some t then
    (plockUp (s.setLock t .exit2 { x with holder := none }) t .exit2 garbage).modify t fun y =>
      { y with life := .freed, pc := .dead }
  else s.crash .assertion t

/-- The next step of thread `t`. -/
def runStep (s : PSys) (t : Tid) (garbage : ℕ) : Option PSys :=
  match (s.proc t).pc with
  | .kernel | .user | .create | .load | .dead => none
  | .soonLookup c =>
    some (if s.onAllList c then s.goto t (.soonWrite c) else s.crash .nullDeref t)
  | .soonWrite c =>
    some (if s.onAllList c then
        (s.modify c fun x => { x with exitSoon := false }).goto t (.execExit c .lookup)
      else (s.touch c).goto t (.execExit c .lookup))
  | .execExit c a =>
    some (acquireStep s t c .exit garbage (.execExit c) (.execExec c .lookup) a)
  | .execExec c a => some (acquireStep s t c .exec garbage (.execExec c) (.execTest c) a)
  | .execTest c =>
    some (if s.onAllList c then s.goto t (.execTest2 c) else returnExec s t c tidError)
  | .execTest2 c =>
    some (if s.onAllList c then s.goto t (.execRead c) else s.crash .nullDeref t)
  | .execRead c =>
    let soon := if s.onAllList c then (s.proc c).exitSoon else decide (garbage ≠ 0)
    some (returnExec (s.touch c) t c (if soon then tidError else c))
  | .waitGuard tid =>
    some (if waitRefuses s tid then returnWait s t tid (-1)
      else s.goto t (.waitWait tid.toNat .lookup))
  | .waitWait c a => some (acquireStep s t c .wait garbage (.waitWait c) (.statusLookup c) a)
  | .statusLookup c =>
    some (if s.onAllList c then s.goto t (.statusRead c) else s.crash .nullDeref t)
  | .statusRead c =>
    let status := if s.onAllList c then (s.proc c).exitStatus else (garbage : Int)
    some ((s.touch c).goto t (.waitExit c status .lookup))
  | .waitExit c status r =>
    some (releaseStep s t c .exit garbage (.waitExit c status) (.waitExit2 c status .lookup) r)
  | .waitExit2 c status a =>
    some (acquireStep s t c .exit2 garbage (.waitExit2 c status) (.waitReturn c status) a)
  | .waitReturn c status => some (returnWait s t c status)
  | .startRel r => some (releaseStep s t t .exec garbage .startRel .user r)
  | .failStatus => some ((s.modify t fun x => { x with exitStatus := -1 }).goto t .failSoon)
  | .failSoon => some ((s.modify t fun x => { x with exitSoon := true }).goto t (.failRel .check))
  | .failRel r => some (releaseStep s t t .exec garbage .failRel .exitHeld r)
  | .exitHeld =>
    some (s.goto t
      (if ((s.proc t).lock .exec).holder = some t then .exitExec .check else .exitWait .check))
  | .exitExec r => some (releaseStep s t t .exec garbage .exitExec (.exitWait .check) r)
  | .exitWait r => some (releaseStep s t t .wait garbage .exitWait .exitTest r)
  | .exitTest => some (s.goto t (if (s.proc t).exitSoon then .dieSoon else .exitExit .check))
  | .exitExit a => some (acquireStep s t t .exit garbage .exitExit .die a)
  | .die | .dieSoon => some (dieStep s t garbage)

/-- How `load` ends: it succeeds, it fails with the executable open, or it fails before
    `filesys_open` gave a file, and `file_deny_write (NULL)` fails its assertion. -/
inductive LoadOutcome where
  | success
  | failOpened
  | failNoFile
  deriving DecidableEq, Repr

/-- The exceptions that `exception_init` registers. -/
def exceptionVectors : List ℕ := [0, 1, 3, 4, 5, 6, 7, 11, 12, 13, 14, 16, 19]

inductive PEvent where
  /-- `process_execute`; `copy` is the answer of `palloc_get_page` for the copy of the name. -/
  | execute (t : Tid) (copy : Bool)
  | wait (t : Tid) (tid : Int)
  /-- `sys_exit`. -/
  | exit (t : Tid) (status : Int)
  /-- `terminate_process`. -/
  | terminate (t : Tid)
  /-- An exception in user code. -/
  | kill (t : Tid) (vec : ℕ)
  /-- `thread_create`; `page` is the answer of `palloc_get_page`. -/
  | create (t : Tid) (page : Bool)
  | load (t : Tid) (outcome : LoadOutcome)
  | run (t : Tid) (garbage : ℕ)
  deriving DecidableEq, Repr

def PEvent.thread : PEvent → Tid
  | .execute t _ | .wait t _ | .exit t _ | .terminate t | .kill t _ | .create t _ | .load t _
  | .run t _ => t

/-- A new `struct thread` after `init_thread`. -/
def newProc (c : Tid) (parent : Option Tid) (pc : PC) : Proc where
  life := .alive
  exitSoon := false
  exitStatus := 0
  lock
    | .exit => ⟨1, none, []⟩
    | _ => ⟨0, some c, []⟩
  pc := pc
  blockedOn := none
  eax := 0
  parent := parent
  loaded := none
  ended := none
  execResult := none
  waitResult := none

/-- `thread_exit` from user code, with `status` stored in `exit_status` if the path stores one. -/
def startExit (s : PSys) (t : Tid) (status : Option Int) (owed : Int) : PSys :=
  s.modify t fun x =>
    { x with pc := .exitHeld, exitStatus := status.getD x.exitStatus, ended := some owed }

/-- One event of a thread that can run. -/
def pEvent (s : PSys) : PEvent → Option PSys
  | .execute t copy =>
    if (s.proc t).pc = .user then
      some (if copy then s.goto t .create else s.modify t fun x => { x with eax := tidError })
    else none
  | .wait t tid => if (s.proc t).pc = .user then some (s.goto t (.waitGuard tid)) else none
  | .exit t status =>
    if (s.proc t).pc = .user ∧ 2 < t then some (startExit s t (some status) status) else none
  | .terminate t =>
    if (s.proc t).pc = .user ∧ 2 < t then some (startExit s t (some (-1)) (-1)) else none
  | .kill t vec =>
    if (s.proc t).pc = .user ∧ 2 < t ∧ vec ∈ exceptionVectors then
      -- `page_fault` stores -1 before it calls `kill`
      some (startExit s t (if vec = 14 then some (-1) else none) (-1))
    else none
  | .create t page =>
    if (s.proc t).pc = .create then
      if page then
        let c := s.nextTid
        some ({ s with
          proc := update s.proc c (newProc c (some t) .load)
          nextTid := c + 1 }.goto t (.soonLookup c))
      else
        -- `thread_from_tid (TID_ERROR)` is null
        some (s.crash .nullDeref t)
    else none
  | .load t outcome =>
    if (s.proc t).pc = .load then
      match outcome with
      | .success =>
        some (s.modify t fun x => { x with pc := .startRel .check, loaded := some true })
      | .failOpened =>
        some (s.modify t fun x => { x with pc := .failStatus, loaded := some false })
      | .failNoFile =>
        some ((s.modify t fun x => { x with loaded := some false }).crash .assertion t)
    else none
  | .run t garbage => runStep s t garbage

/-- The machine: the threads that can run are those alive and not blocked, and nothing runs after a
    crash. -/
def pStep (s : PSys) (e : PEvent) : Option PSys :=
  if s.crashed = none ∧ (s.proc e.thread).life = .alive ∧ (s.proc e.thread).blockedOn = none then
    pEvent s e
  else none

/-- A tid that no thread has had yet. -/
def noProc : Proc := { newProc 0 none .dead with life := .unborn }

/-- The kernel before its first process: "main" (tid 1) and the idle thread (tid 2). -/
def pInit : PSys where
  proc := update (update (fun _ => noProc) 1 (newProc 1 none .user)) 2
    (newProc 2 none .kernel)
  nextTid := 3
  uaf := false
  crashed := none

end Pintos
