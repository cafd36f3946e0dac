/-
  Subject:   Every run of the scheduler keeps its ready queues in order.

  The machine takes the public calls of thread.c and timer interrupts in any order, from
  `thread_init` on. A call that can be interrupted between its stores is there twice: whole, and as its
  first part alone (`initThread`, `unblockOnly`, `storePriority`), after which any other event may come
  before the rest.
-/
import Pintos.Threads.Tick

namespace Pintos

open Lib

/-- An event of the scheduler. -/
inductive SchedOp where
  | intrSetLevel (level : IntrLevel)
  | threadStart
  /-- The idle thread runs its first statement. -/
  | idle
  | threadCreate (name : String) (priority : Int) (page : Bool)
  /-- `thread_create` with its page, interrupted before its `thread_unblock`. -/
  | initThread (name : String) (priority : Int)
  | threadYield
  | threadBlock
  | threadUnblock (t : Tid)
  /-- `thread_unblock`, interrupted before its last test. -/
  | unblockOnly (t : Tid)
  | threadExit (waiter : Option Tid)
  | threadSetPriority (newPriority : Int)
  /-- `thread_set_priority` or `thread_set_nice`, interrupted between the store and the test. -/
  | storePriority (newPriority : Int)
  | threadSetNice (nice : Int)
  /-- A timer interrupt that wakes the sleepers `woken`. -/
  | timerTick (woken : List Tid)

/-- One event. `none`: it cannot happen here, or a kernel assertion fails. -/
def schedStep (s : Sched) : SchedOp → Option Sched
  | .intrSetLevel level => some { s with intr := level }
  | .threadStart => threadStart s
  | .idle => idleEntry s
  | .threadCreate name priority page => threadCreate s name priority page
  | .initThread name p => if priMin ≤ p ∧ p ≤ priMax then some (addThread s name p) else none
  | .threadYield => threadYield s
  | .threadBlock => threadBlock s
  | .threadUnblock t => threadUnblock s t
  | .unblockOnly t => (unblockSection s t).map Prod.snd
  | .threadExit waiter =>
    -- `idle` is a loop without an end
    if s.idleThread = some s.running then none else threadExit s waiter
  | .threadSetPriority p => if priMin ≤ p ∧ p ≤ priMax then threadSetPriority s p else none
  | .storePriority p =>
    if priMin ≤ p ∧ p ≤ priMax then some (s.setPriority s.running p) else none
  | .threadSetNice nice => if s.mlfqs then threadSetNice s nice else none
  | .timerTick woken =>
    if s.intr = .on then (timerInterrupt (intrEnter s) woken).bind intrExit else none

variable {s s' : Sched}

theorem schedStep_inv (op : SchedOp) (h : RunInv s) (hs : schedStep s op = some s') :
    RunInv s' := by
  cases op with
  | intrSetLevel level =>
    cases hs
    exact h.congr (fun _ => rfl) (fun _ => rfl) (fun _ => rfl) rfl rfl rfl rfl rfl rfl
  | threadStart => exact threadStart_inv h hs
  | idle => exact idleEntry_inv h hs
  | threadCreate name priority page => exact threadCreate_inv h hs
  | initThread name p =>
    simp only [schedStep] at hs
    split at hs
    · rename_i hp
      cases hs
      exact addThread_inv h name hp
    · cases hs
  | threadYield => exact (threadYield_inv h hs).1
  | threadBlock => exact (threadBlock_inv h hs).1
  | threadUnblock t => exact threadUnblock_inv h hs
  | unblockOnly t =>
    obtain ⟨⟨topPri, s₁⟩, hu, rfl⟩ := Option.map_eq_some_iff.mp hs
    exact (unblockSection_spec h hu).1
  | threadExit waiter =>
    simp only [schedStep] at hs
    split at hs
    · cases hs
    · rename_i hidle
      exact (threadExit_inv h hidle hs).1
  | threadSetPriority p =>
    simp only [schedStep] at hs
    split at hs
    · rename_i hp
      exact threadSetPriority_inv h hp hs
    · cases hs
  | storePriority p =>
    simp only [schedStep] at hs
    split at hs
    · rename_i hp
      cases hs
      exact h.setPriority h.running_not_queued hp
    · cases hs
  | threadSetNice nice =>
    simp only [schedStep] at hs
    split at hs
    · exact threadSetNice_inv h hs
    · cases hs
  | timerTick woken =>
    simp only [schedStep] at hs
    split at hs
    · obtain ⟨s₁, ht, he⟩ := Option.bind_eq_some_iff.mp hs
      exact intrExit_inv (timerInterrupt_spec h ht).1 he
    · cases hs

theorem threadInit_inv (mlfqs priorAging : Bool) : RunInv (threadInit mlfqs priorAging) := by
  have hst : ∀ t, (threadInit mlfqs priorAging).status t = if t = 0 then .running else .dying := by
    intro t
    by_cases ht : t = 0
    · subst ht
      rfl
    · simp [threadInit, Sched.status, noThread, ht]
  have hnq : ∀ t, ¬ Queued (threadInit mlfqs priorAging).readyList t := by
    rintro t ⟨_, ht⟩
    exact List.not_mem_nil ht
  refine ⟨⟨filed_empty _, fun t ht => absurd ht (hnq t), fun t ht _ => ?_, fun t => ?_,
    by intros; contradiction, by intros; contradiction, by intros; contradiction, fun t ht => ?_,
    fun t ht => ?_⟩, fun t => ?_⟩
  · rw [hst] at ht
    split at ht <;> cases ht
  · by_cases ht : t = 0
    · simp [threadInit, Sched.priority, ht, priMin, priDefault, priMax]
    · simp [threadInit, Sched.priority, noThread, ht, priMin, priMax]
  · have hpos : 1 ≤ t := ht
    have hne : t ≠ 0 := Nat.ne_of_gt hpos
    rw [hst, if_neg hne]
  · rw [hst] at ht
    split at ht
    · rename_i e
      rw [e]
      exact List.mem_cons_self
    · exact absurd rfl ht
  · rw [hst]
    split
    · rename_i e
      exact iff_of_true rfl e
    · rename_i e
      exact iff_of_false (by decide) e

/-- **Every run keeps the invariant.** -/
theorem schedReach_inv {mlfqs priorAging : Bool}
    (h : Reach schedStep always (threadInit mlfqs priorAging) s) : RunInv s :=
  h.invariant (threadInit_inv mlfqs priorAging) fun _ op _ hi _ hs => schedStep_inv op hi hs

/-- **The ready queues are in order after every run**, with either scheduler and with or without
    aging: a ready thread other than the idle one stands once, in the queue of its priority, which
    is one of the 64; no other thread stands in a queue; one thread runs; and priorities index a
    queue. -/
theorem ready_queues_in_order (mlfqs priorAging : Bool) (s : Sched)
    (h : Reach schedStep always (threadInit mlfqs priorAging) s) :
    (∀ t, s.status t = .ready → s.idleThread ≠ some t →
      (0 ≤ s.priority t ∧ s.priority t ≤ 63) ∧
      ∀ i, (s.readyList i).count t = if i = s.priority t then 1 else 0) ∧
    (∀ t i, s.status t ≠ .ready → t ∉ s.readyList i) ∧ (∃! t, s.status t = .running) ∧
    ∀ t, 0 ≤ s.priority t ∧ s.priority t ≤ 63 := by
  have hinv := schedReach_inv h
  refine ⟨fun t ht hidle => ⟨hinv.prio t, ?_⟩, fun t i ht hm => ?_, ?_, hinv.prio⟩
  · exact hinv.filed.count_eq (hinv.ready_queued t ht hidle)
  · exact hinv.not_queued ht ⟨i, hm⟩
  · exact ⟨s.running, hinv.running_status, fun t ht => (hinv.running t).mp ht⟩

/-- A run of both schedulers: the boot, a thread of priority 40 that takes the CPU, a tick. -/
theorem ready_queues_in_order_run : ∃ s, runList schedStep (threadInit true true)
      [.threadStart, .intrSetLevel .on, .threadCreate "a" 40 true, .intrSetLevel .on,
        .timerTick []] = some s ∧
    s.running = 2 ∧ s.readyList 31 = [0] ∧ (s.readyList 31).count 0 = 1 := by
  have hsome : ((runList schedStep (threadInit true true)
      [.threadStart, .intrSetLevel .on, .threadCreate "a" 40 true, .intrSetLevel .on,
        .timerTick []]).map fun s => (s.running, s.readyList 31, s.status 0, s.idleThread,
          s.priority 0)) = some (2, [0], .ready, none, 31) := by
    decide +kernel
  obtain ⟨s, hs, he⟩ := Option.map_eq_some_iff.mp hsome
  have hr : s.running = 2 := congrArg Prod.fst he
  have hl : s.readyList 31 = [0] := congrArg (fun x => x.2.1) he
  have hst : s.status 0 = .ready := congrArg (fun x => x.2.2.1) he
  have hi : s.idleThread = none := congrArg (fun x => x.2.2.2.1) he
  have hp : s.priority 0 = 31 := congrArg (fun x => x.2.2.2.2) he
  have hord := (ready_queues_in_order true true s (reach_runList _ (fun _ _ _ => trivial) hs)).1 0
    hst (by simp [hi])
  refine ⟨s, hs, hr, hl, ?_⟩
  rw [hord.2 31, hp]
  rfl

end Pintos
