/-
  Subject:   Strict priority preemption: whenever a thread is back from a call or from a timer
             interrupt with interrupts on, and in no call, no queued thread has a higher priority.

  Each call decides by a test of its own whether to yield, and an interrupt may come between the
  store that makes a thread ready and the test. So the invariant (`KernelOk`) says, for the step
  the running thread is about to take, what that test will see: nobody is above the running thread, or
  the test that comes next will notice (`HeadOk`). A thread off the CPU comes back with interrupts off,
  right after a switch that has picked it as the highest, and turns them on before it does anything else
  (`Stopped`).
-/
import Pintos.Threads.ReadyQueues
import Pintos.Threads.Synch

namespace Pintos

open Lib List

/-! ## 1. Where a thread can be -/

/-- The steps that the calls of thread.c, synch.c, timer.c and ide.c take with interrupts on. -/
def Micro.plain : Micro → Bool
  | .setLevel _ | .semaLoop _ _ | .idleHalt | .intqGetc _ | .intqPutc _ _
  | .intqWaitNotEmpty _ | .intqWaitNotFull _ => false
  | .storePriority p => decide (priMin ≤ p ∧ p ≤ priMax)
  | _ => true

def Plain (l : List Micro) : Prop := ∀ m ∈ l, m.plain = true

/-- What a thread off the CPU has left to do: it is in the loop of `sema_down` or before the
    `intr_set_level (old_level)`, `intr_enable ()` or `iret` that turns interrupts on again, or it
    is the idle thread before its `sti`. -/
def Stopped : List Micro → Prop
  | [] => True
  | .setLevel .on :: l => Plain l
  | .semaLoop _ .on :: l => Plain l
  | [.idleHalt] => True
  | _ => False

/-- **Nobody is above the running thread, or the test at the head of its list will notice.** -/
def HeadOk (s : Sched) : List Micro → Prop
  | .threadYield :: _ => True
  | .semaUpTail pri :: _ => NoHigher s ∨ s.priority s.running < pri
  | .unblockTail topPri t :: _ => ∀ u, Queued s.readyList u →
      s.priority u ≤ s.priority s.running ∨ (u = t ∧ topPri < s.priority t)
  | .topScan p i :: _ => ∀ u, Queued s.readyList u →
      s.priority u ≤ s.priority s.running ∨ (s.priority s.running = p ∧ s.priority u < i)
  | _ => NoHigher s

variable {s s' : Sched} {l rest : List Micro} {k k' : Kernel} {r : SemaRef} {m : Micro}
  {garbage p : Int}

theorem HeadOk.of_noHigher (h : NoHigher s) (l : List Micro) : HeadOk s l := by
  unfold HeadOk
  split
  · trivial
  · exact .inl h
  · exact fun u hu => .inl (h u hu)
  · exact fun u hu => .inl (h u hu)
  · exact h

/-- **A quiet tick between two steps changes nothing for the test that follows.** -/
theorem HeadOk.quiet (h : HeadOk s l) (hq : Quiet s s') : HeadOk s' l := by
  unfold HeadOk at h ⊢
  split at h
  · trivial
  · rename_i pri _
    rcases h with hn | hlt
    · exact .inl (hn.quiet hq)
    · -- either the running thread kept its priority or the tick has left nobody above it
      by_cases hrun : s'.priority s'.running = s.priority s.running
      · right
        rw [hrun]
        exact hlt
      · left
        intro u hu
        rcases hq u hu with hle | ⟨hr, _⟩
        · exact hle
        · exact absurd hr hrun
  · intro u hu
    rcases hq u hu with hle | ⟨hr, hp, hu'⟩
    · exact .inl hle
    · rcases h u hu' with hle | ⟨rfl, hlt⟩
      · left
        rw [hr, hp]
        exact hle
      · exact .inr ⟨rfl, by rw [hp]; exact hlt⟩
  · intro u hu
    rcases hq u hu with hle | ⟨hr, hp, hu'⟩
    · exact .inl hle
    · rw [hr, hp]
      exact h u hu'
  · exact h.quiet hq

/-! ## 2. The invariant -/

/-- **The invariant of the kernel machine.** -/
structure KernelOk (k : Kernel) : Prop where
  run : RunInv k.sched
  stopped : ∀ t, t ≠ k.cur → Stopped (k.pend t)
  on : k.sched.intr = .on → Plain (k.pend k.cur) ∧ HeadOk k.sched (k.pend k.cur)
  off : k.sched.intr = .off → Stopped (k.pend k.cur) ∧ NoHigher k.sched

/-- The running thread goes on with interrupts on. -/
theorem KernelOk.next (hrun : RunInv k.sched) (hst : ∀ t, t ≠ k.cur → Stopped (k.pend t))
    (hon : k.sched.intr = .on) (hl : Plain l) (hh : HeadOk k.sched l) : KernelOk (k.next l) := by
  have hcur : (k.next l).pend k.cur = l := Function.update_self ..
  refine ⟨hrun, fun t ht => ?_, fun _ => ?_, fun hoff => ?_⟩
  · have hsame : (k.next l).pend t = k.pend t := Function.update_of_ne ht ..
    rw [hsame]
    exact hst t ht
  · show Plain ((k.next l).pend k.cur) ∧ HeadOk k.sched ((k.next l).pend k.cur)
    rw [hcur]
    exact ⟨hl, hh⟩
  · have hoff' : k.sched.intr = .off := hoff
    rw [hon] at hoff'
    cases hoff'

theorem KernelOk.switch {f : Sched → Option Sched} (hk : k.switch f l = some k')
    (hst : ∀ t, t ≠ k.cur → Stopped (k.pend t)) (hl : Stopped l)
    (hf : ∀ s, f k.sched = some s → (RunInv s ∧ NoHigher s) ∧ s.intr = .off) : KernelOk k' := by
  obtain ⟨s, hs, rfl⟩ := Option.map_eq_some_iff.mp hk
  obtain ⟨⟨hrun, hno⟩, hoff⟩ := hf s hs
  have hall : ∀ t, Stopped (Function.update k.pend k.cur l t) := by
    intro t
    by_cases ht : t = k.cur
    · subst ht
      rw [Function.update_self]
      exact hl
    · rw [Function.update_of_ne ht]
      exact hst t ht
  refine ⟨hrun, fun t _ => hall t, fun hon => ?_, fun _ => ⟨hall _, hno⟩⟩
  have hon' : s.intr = .on := hon
  rw [hoff] at hon'
  cases hon'

theorem threadYield_switch (h : RunInv s) (hy : threadYield s = some s') :
    (RunInv s' ∧ NoHigher s') ∧ s'.intr = .off :=
  ⟨threadYield_inv h hy, (threadYield_keeps hy).1⟩

theorem threadBlock_switch (h : RunInv s) (hb : threadBlock s = some s') :
    (RunInv s' ∧ NoHigher s') ∧ s'.intr = .off :=
  ⟨threadBlock_inv h hb, threadBlock_intr hb⟩

theorem threadExit_switch {waiter : Option Tid} (h : RunInv s)
    (hidle : s.idleThread ≠ some s.running) (he : threadExit s waiter = some s') :
    (RunInv s' ∧ NoHigher s') ∧ s'.intr = .off := by
  refine ⟨threadExit_inv h hidle he, ?_⟩
  have h0 := h.setIntr .off
  unfold threadExit at he
  dsimp only at he
  split at he
  · rename_i s₁ hs
    have hi : s₁.intr = .off := by
      cases waiter with
      | none =>
        cases hs
        rfl
      | some w =>
        obtain ⟨⟨topPri, s₂⟩, hu, rfl⟩ := Option.map_eq_some_iff.mp hs
        exact (unblockSection_spec h0 hu).2.2.2.1
    rw [(schedule_keeps he).1]
    exact hi
  · cases he

/-! ## 3. The steps that wake, wait and test -/

theorem Plain.cons (hm : m.plain = true) (hl : Plain l) : Plain (m :: l) := by
  intro x hx
  rcases mem_cons.mp hx with rfl | hx
  · exact hm
  · exact hl x hx

theorem addThread_noHigher (h : RunInv s) (hno : NoHigher s) (name : String) (prio : Int) :
    NoHigher (addThread s name prio) := by
  have hold : ∀ u, s.status u ≠ .dying → (addThread s name prio).priority u = s.priority u := by
    intro u hu
    have hne : u ≠ s.nextThread := Nat.ne_of_lt (h.lt_next hu)
    simp [addThread, Sched.priority, hne]
  intro u hu
  have hq : Queued s.readyList u := hu
  have hready := h.queued_ready u hq
  show (addThread s name prio).priority u ≤ (addThread s name prio).priority s.running
  rw [hold u (by rw [hready]; decide), hold _ h.running_live]
  exact hno u hq

/-- A priority stored by the running thread itself, before the scan that checks it. -/
theorem setPriority_scan (h : RunInv s) (p : Int) (rest : List Micro) :
    HeadOk (s.setPriority s.running p) (.topScan p 64 :: rest) := by
  intro u hu
  have hne : u ≠ s.running := fun e => h.running_not_queued (e ▸ hu)
  refine .inr ⟨?_, ?_⟩
  · show (s.setPriority s.running p).priority s.running = p
    rw [Sched.priority_setPriority, if_pos rfl]
  · have hhi := (h.prio u).2
    rw [Sched.priority_setPriority, if_neg hne]
    simp only [priMax] at hhi
    push_cast
    omega

/-- **The section of `sema_up`**: it wakes at most one thread, which joins the queue of its
    priority; the thread that runs stays. -/
theorem semaUpSection_spec {w : Option Tid} (h : RunInv k.sched)
    (hs : semaUpSection k r = some (w, k')) :
    RunInv k'.sched ∧ k'.cur = k.cur ∧ k'.sched.intr = k.sched.intr ∧ k'.pend = k.pend ∧
      (∀ u, k'.sched.priority u = k.sched.priority u) ∧
      ∀ u, Queued k'.sched.readyList u ↔ Queued k.sched.readyList u ∨ w = some u := by
  unfold semaUpSection at hs
  dsimp only at hs
  split at hs
  · cases hs
    refine ⟨h, rfl, rfl, rfl, fun u => rfl, fun u => ?_⟩
    exact ⟨.inl, fun hu => hu.elim id (fun e => by cases e)⟩
  · rename_i v hv
    split at hs
    · rename_i topPri s hu
      cases hs
      obtain ⟨hrun, _, hcur, hi, hp, hq⟩ := unblockSection_spec h hu
      refine ⟨hrun, hcur, hi, rfl, hp, fun u => ?_⟩
      rw [Option.some.injEq, eq_comm (a := v)]
      exact hq u
    · cases hs

section Steps

variable (h : RunInv k.sched) (hst : ∀ t, t ≠ k.cur → Stopped (k.pend t))

include h hst

theorem semaDownLoop_ok (hno : NoHigher k.sched) (hl : Plain rest)
    (hk : semaDownLoop k r .on rest = some k') : KernelOk k' := by
  unfold semaDownLoop at hk
  dsimp only at hk
  split at hk
  · have hstop : Stopped (.semaLoop r .on :: rest) := hl
    exact KernelOk.switch hk hst hstop fun s hs => threadBlock_switch h hs
  · cases hk
    exact KernelOk.next (h.setIntr .on) hst rfl hl (HeadOk.of_noHigher hno rest)

variable (hon : k.sched.intr = .on) (hl : Plain rest)

include hon hl

/-- **A test that ends in `thread_yield ()`** is strong enough if its failure means that nobody is
    above the running thread. -/
theorem yieldIf_ok {test : Prop} [Decidable test] (hno : ¬ test → NoHigher k.sched) :
    KernelOk (yieldIf k test rest) := by
  unfold yieldIf
  split
  · refine KernelOk.next h hst hon (fun m hm => ?_) trivial
    rcases mem_cons.mp hm with rfl | hm
    · rfl
    · exact hl m hm
  · rename_i hc
    have hno' := hno fun ht => hc ⟨ht, hon⟩
    exact KernelOk.next h hst hon hl (HeadOk.of_noHigher hno' rest)

/-- **The semaphore section with interrupts on**: the woken thread is below the running one, or
    the test that follows compares just these two. -/
theorem semaUp_ok (hno : NoHigher k.sched) (hk : exec k garbage (.semaUp r) rest = some k') :
    KernelOk k' := by
  simp only [exec] at hk
  split at hk
  · rename_i w k₁ hs
    cases hk
    obtain ⟨hrun, hcur, hi, hpend, hp, hq⟩ := semaUpSection_spec h hs
    refine KernelOk.next hrun ?_ (hi.trans hon) (hl.cons rfl) ?_
    · rw [hcur, hpend]
      exact hst
    · have hpcur : k₁.sched.priority k₁.sched.running = k.sched.priority k.sched.running := by
        rw [hp]
        exact congrArg _ hcur
      by_cases hw : k.sched.priority w ≤ k.sched.priority k.sched.running
      · left
        intro u hu
        rw [hpcur, hp]
        rcases (hq u).mp hu with hu' | e
        · exact hno u hu'
        · cases e
          exact hw
      · right
        rw [hpcur]
        exact Int.not_le.mp hw
  · rename_i k₁ hs
    cases hk
    obtain ⟨hrun, hcur, hi, hpend, hp, hq⟩ := semaUpSection_spec h hs
    refine KernelOk.next hrun ?_ (hi.trans hon) (hl.cons rfl) (HeadOk.of_noHigher ?_ _)
    · rw [hcur, hpend]
      exact hst
    · intro u hu
      rw [hp, hp]
      rcases (hq u).mp hu with hu' | e
      · have hle := hno u hu'
        rw [show k₁.sched.running = k.sched.running from hcur]
        exact hle
      · cases e
  · cases hk

/-- **The section of `thread_unblock` with interrupts on**: `top_pri` was at most the running
    thread's priority, so a woken thread above that is above `top_pri`. -/
theorem unblock_ok {t : Tid} (hno : NoHigher k.sched)
    (hk : exec k garbage (.unblock t) rest = some k') : KernelOk k' := by
  simp only [exec] at hk
  split at hk
  · rename_i topPri s hu
    cases hk
    obtain ⟨hrun, htop, hcur, hi, hp, hq⟩ := unblockSection_spec h hu
    have hle := threadTopPriority_le h.toReadyInv hno
    refine KernelOk.next hrun ?_ (hi.trans hon) (hl.cons rfl) ?_
    · show ∀ t, t ≠ s.running → _
      rw [hcur]
      exact hst
    · intro u hu'
      rw [hcur, hp, hp, hp]
      rcases (hq u).mp hu' with hold | rfl
      · exact .inl (hno u hold)
      · by_cases hc : k.sched.priority u ≤ k.sched.priority k.sched.running
        · exact .inl hc
        · refine .inr ⟨rfl, ?_⟩
          rw [htop]
          omega
  · cases hk

theorem topScan_ok {i : ℕ} (hh : HeadOk k.sched (.topScan p i :: rest))
    (hk : exec k garbage (.topScan p i) rest = some k') : KernelOk k' := by
  cases i with
  | zero =>
    simp only [exec] at hk
    cases hk
    refine yieldIf_ok h hst hon hl fun _ u hu => ?_
    rcases hh u hu with hle | ⟨_, hlt⟩
    · exact hle
    · have hpos := (h.prio u).1
      simp only [priMin] at hpos
      push_cast at hlt
      omega
  | succ i =>
    simp only [exec] at hk
    split at hk
    · rename_i hempty
      cases hk
      refine KernelOk.next h hst hon (hl.cons rfl) fun u hu => ?_
      rcases hh u hu with hle | ⟨hp, hlt⟩
      · exact .inl hle
      · -- queue `i` is empty, so nobody has priority `i`
        have hne : k.sched.priority u ≠ i := by
          intro e
          have hm := h.filed.mem_key hu
          rw [e, hempty] at hm
          exact not_mem_nil hm
        push_cast at hlt
        exact .inr ⟨hp, by omega⟩
    · cases hk
      refine yieldIf_ok h hst hon hl fun hnot u hu => ?_
      rcases hh u hu with hle | ⟨hp, hlt⟩
      · exact hle
      · push_cast at hlt
        omega

/-! ## 4. Every step -/

theorem exec_on (hm : m.plain = true) (hh : HeadOk k.sched (m :: rest))
    (hk : exec k garbage m rest = some k') : KernelOk k' := by
  have hstop : Stopped (.setLevel .on :: rest) := hl
  cases m with
  | setLevel _ => cases hm
  | semaLoop _ _ => cases hm
  | idleHalt => cases hm
  | intqGetc _ => cases hm
  | intqPutc _ _ => cases hm
  | intqWaitNotEmpty _ => cases hm
  | intqWaitNotFull _ => cases hm
  | threadYield =>
    simp only [exec, hon] at hk
    exact KernelOk.switch hk hst hstop fun s hs => threadYield_switch h hs
  | semaDown r =>
    simp only [exec, hon] at hk
    exact semaDownLoop_ok (k := k.setLevel .off) (h.setIntr .off) hst hh hl hk
  | semaUp r => exact semaUp_ok h hst hon hl hh hk
  | semaUpTail pri =>
    cases hk
    refine yieldIf_ok h hst hon hl fun hnot => ?_
    rcases hh with hno | hlt
    · exact hno
    · exact absurd hlt hnot
  | unblock t => exact unblock_ok h hst hon hl hh hk
  | unblockTail topPri t =>
    cases hk
    refine yieldIf_ok h hst hon hl fun hnot u hu => ?_
    rcases hh u hu with hle | ⟨rfl, hlt⟩
    · exact hle
    · exact absurd hlt hnot
  | lockAcquire l =>
    simp only [exec] at hk
    split at hk
    · cases hk
    · cases hk
      exact KernelOk.next h hst hon ((hl.cons rfl).cons rfl) (HeadOk.of_noHigher hh _)
  | setHolder l | ideIssue c =>
    cases hk
    exact KernelOk.next h hst hon hl (HeadOk.of_noHigher hh _)
  | lockRelease l =>
    simp only [exec] at hk
    split at hk
    · cases hk
      exact KernelOk.next h hst hon (hl.cons rfl) (HeadOk.of_noHigher hh _)
    · cases hk
  | condWait c l =>
    simp only [exec] at hk
    split at hk
    · cases hk
      exact KernelOk.next h hst hon (((hl.cons rfl).cons rfl).cons rfl)
        (HeadOk.of_noHigher hh _)
    · cases hk
  | condSignal c l =>
    simp only [exec] at hk
    split at hk
    · split at hk
      · cases hk
        exact KernelOk.next h hst hon hl (HeadOk.of_noHigher hh _)
      · cases hk
        exact KernelOk.next h hst hon (hl.cons rfl) (HeadOk.of_noHigher hh _)
    · cases hk
  | initThread name prio page =>
    simp only [exec] at hk
    split at hk
    · cases hk
      exact KernelOk.next h hst hon hl (HeadOk.of_noHigher hh _)
    · split at hk
      · rename_i hp
        cases hk
        refine KernelOk.next (addThread_inv h name hp) (fun t ht => ?_) hon
          (((hl.cons rfl).cons rfl).cons rfl)
          (HeadOk.of_noHigher (addThread_noHigher h hh name prio) _)
        show Stopped (Function.update k.pend k.sched.nextThread [.setLevel .on] t)
        by_cases e : t = k.sched.nextThread
        · subst e
          rw [Function.update_self]
          exact fun m hm => absurd hm not_mem_nil
        · rw [Function.update_of_ne e]
          exact hst t ht
      · cases hk
  | storePriority p =>
    cases hk
    have hp : priMin ≤ p ∧ p ≤ priMax := of_decide_eq_true hm
    exact KernelOk.next (h.setPriority h.running_not_queued hp) hst hon (hl.cons rfl)
      (setPriority_scan h p rest)
  | storeNice nice =>
    cases hk
    have h1 : RunInv (k.sched.modify k.cur fun th => { th with nice := nice }) :=
      h.modify rfl rfl rfl
    refine KernelOk.next h1 hst hon (hl.cons rfl) (HeadOk.of_noHigher ?_ _)
    have hp := k.sched.priority_modify (t := k.cur) (f := fun th => { th with nice := nice }) rfl
    exact NoHigher.quiet hh (Quiet.of_eq rfl hp rfl)
  | storeBsdPriority =>
    cases hk
    exact KernelOk.next (h.setPriority h.running_not_queued (bsdCalcPriorityThis_range _ _)) hst
      hon (hl.cons rfl) (setPriority_scan h _ rest)
  | topScan p i => exact topScan_ok h hst hon hl hh hk
  | park =>
    simp only [exec, hon] at hk
    exact KernelOk.switch hk hst hstop fun s hs => threadBlock_switch (h.setIntr .off) hs
  | sleep n =>
    cases hk
    exact KernelOk.next h hst hon (hl.cons rfl) (HeadOk.of_noHigher hh _)
  | sleepTest start n =>
    simp only [exec, hon] at hk
    split at hk
    · exact KernelOk.switch hk hst hstop fun s hs => threadBlock_switch (h.setIntr .off) hs
    · cases hk
      exact KernelOk.next h hst hon hl (HeadOk.of_noHigher hh _)
  | releaseHeld l =>
    simp only [exec] at hk
    split at hk
    · cases hk
      exact KernelOk.next h hst hon (hl.cons rfl) (HeadOk.of_noHigher hh _)
    · cases hk
      exact KernelOk.next h hst hon hl (HeadOk.of_noHigher hh _)
  | die =>
    simp only [exec] at hk
    split at hk
    · rename_i hc
      exact KernelOk.switch hk hst trivial fun s hs => threadExit_switch h hc.2 hs
    · cases hk
  | idleBlock =>
    simp only [exec] at hk
    exact KernelOk.switch hk hst trivial fun s hs => threadBlock_switch (h.setIntr .off) hs

omit hon hl in
/-- **One step with interrupts off**: the thread is just back on the CPU. -/
theorem exec_off (hm : Stopped (m :: rest)) (hno : NoHigher k.sched)
    (hk : exec k garbage m rest = some k') : KernelOk k' := by
  unfold Stopped at hm
  split at hm
  · rename_i heq
    cases heq
  · rename_i heq
    cases heq
    cases hk
    exact KernelOk.next (h.setIntr .on) hst rfl hm (HeadOk.of_noHigher hno _)
  · rename_i heq
    cases heq
    exact semaDownLoop_ok h hst hno hm hk
  · rename_i heq
    cases heq
    cases hk
    have hno' : NoHigher (k.setLevel .on).sched := hno
    refine KernelOk.next (h.setIntr .on) hst rfl (fun m hm => ?_) (HeadOk.of_noHigher hno' _)
    cases mem_singleton.mp hm
    rfl
  · exact hm.elim

end Steps

/-- **The end of `intr_handler`**, either way. -/
theorem interruptReturn_cases (hr : interruptReturn k = some k') :
    (k.sched.yieldOnReturn = true ∧ ∃ s, threadYield { k.sched with inExternalIntr := false } =
      some s ∧ k' = { k.next (.setLevel .on :: k.pend k.cur) with sched := s }) ∨
    (k.sched.yieldOnReturn = false ∧
      k' = { k with sched := { k.sched with inExternalIntr := false, intr := .on } }) := by
  obtain ⟨s, he, rfl⟩ := Option.map_eq_some_iff.mp hr
  unfold intrExit at he
  by_cases hy : k.sched.yieldOnReturn = true
  · rw [if_pos hy] at he
    rw [if_pos hy]
    exact .inl ⟨hy, s, he, rfl⟩
  · rw [if_neg hy] at he
    rw [if_neg hy]
    cases he
    exact .inr ⟨Bool.not_eq_true _ ▸ hy, rfl⟩

/-- **A timer interrupt.** It returns to the interrupted step, or takes the thread off the CPU. -/
theorem timer_ok (h : KernelOk k) (hk : kernelStep k .timer = some k') : KernelOk k' := by
  simp only [kernelStep] at hk
  split at hk
  · rename_i hon
    obtain ⟨k₁, ht, hr⟩ := Option.bind_eq_some_iff.mp hk
    obtain ⟨s, hs, rfl⟩ := Option.map_eq_some_iff.mp ht
    obtain ⟨hrun, hcur, hquiet⟩ := timerInterrupt_spec h.run hs
    have hcur' : s.running = k.cur := hcur
    obtain ⟨hplain, hhead⟩ := h.on hon
    rcases interruptReturn_cases hr with ⟨_, s', hy, rfl⟩ | ⟨hy, rfl⟩
    · have hrun0 : RunInv { s with inExternalIntr := false } :=
        hrun.congr (fun _ => rfl) (fun _ => rfl) (fun _ => rfl) rfl rfl rfl rfl rfl rfl
      obtain ⟨⟨hrun', hno⟩, hoff⟩ := threadYield_switch hrun0 hy
      have hall : ∀ t, Stopped (Function.update k.pend s.running
          (.setLevel .on :: k.pend s.running) t) := by
        intro t
        by_cases e : t = s.running
        · subst e
          rw [Function.update_self]
          rw [hcur']
          exact hplain
        · rw [Function.update_of_ne e]
          exact h.stopped t (by rw [← hcur']; exact e)
      refine ⟨hrun', fun t _ => hall t, fun hon' => ?_, fun _ => ⟨hall _, hno⟩⟩
      have hon'' : s'.intr = .on := hon'
      rw [hoff] at hon''
      cases hon''
    · have hrun' : RunInv { s with inExternalIntr := false, intr := .on } :=
        hrun.congr (fun _ => rfl) (fun _ => rfl) (fun _ => rfl) rfl rfl rfl rfl rfl rfl
      have hhead' : HeadOk { s with inExternalIntr := false, intr := .on } (k.pend k.cur) :=
        (hhead.quiet (hquiet hy)).quiet (Quiet.of_eq rfl (fun _ => rfl) rfl)
      refine ⟨hrun', fun t ht => h.stopped t (by rw [← hcur']; exact ht), fun _ => ?_,
        fun hoff => by cases hoff⟩
      rw [← hcur'] at hplain hhead'
      exact ⟨hplain, hhead'⟩
  · cases hk

/-! ## 5. Every run -/

/-- The calls of thread.c, synch.c, timer.c and ide.c. -/
def Call.ofThreads : Call → Bool
  | .inputGetc | .serialPutc _ => false
  | _ => true

/-- A run of such calls under timer interrupts. -/
def threadEvent (_ : Kernel) : KEvent → Prop
  | .call c => c.ofThreads = true
  | .run _ => True
  | .timer => True
  | .device _ => False

theorem steps_plain {c : Call} (hc : c.ofThreads = true) (ha : c.allowed k = true) (t : Tid) :
    Plain (c.steps t) := by
  have hnil : Plain [] := fun m hm => absurd hm not_mem_nil
  cases c with
  | ideTransfer _ => exact (((hnil.cons rfl).cons rfl).cons rfl).cons rfl
  | inputGetc => cases hc
  | serialPutc _ => cases hc
  | threadCreate name prio page => exact ((hnil.cons rfl).cons rfl).cons rfl
  | threadExit exitSoon =>
    refine Plain.cons rfl (Plain.cons rfl ?_)
    split
    · exact hnil.cons rfl
    · exact (hnil.cons rfl).cons rfl
  | threadSetPriority p => exact hnil.cons ha
  | _ => exact hnil.cons rfl

theorem kernelStep_ok {e : KEvent} (h : KernelOk k) (he : threadEvent k e)
    (hk : kernelStep k e = some k') : KernelOk k' := by
  cases e with
  | call c =>
    simp only [kernelStep] at hk
    split at hk
    · rename_i hc
      obtain ⟨hpend, hon, ha⟩ := hc
      cases hk
      have hno : NoHigher k.sched := by
        have hh := (h.on hon).2
        rw [hpend] at hh
        exact hh
      exact KernelOk.next h.run h.stopped hon (steps_plain he ha _) (HeadOk.of_noHigher hno _)
    · cases hk
  | run garbage =>
    simp only [kernelStep] at hk
    split at hk
    · rename_i m rest hpend
      cases hi : k.sched.intr with
      | on =>
        obtain ⟨hplain, hhead⟩ := h.on hi
        rw [hpend] at hplain hhead
        exact exec_on h.run h.stopped hi (fun x hx => hplain x (mem_cons_of_mem _ hx))
          (hplain m mem_cons_self) hhead hk
      | off =>
        obtain ⟨hstop, hno⟩ := h.off hi
        rw [hpend] at hstop
        exact exec_off h.run h.stopped hstop hno hk
    · cases hk
  | timer => exact timer_ok h hk
  | device d => exact he.elim

/-- A kernel in which every thread off the CPU stands where a switch can have left it. -/
structure WellFormed (k : Kernel) : Prop where
  run : RunInv k.sched
  stopped : ∀ t, t ≠ k.cur → Stopped (k.pend t)

/-- The running thread runs with interrupts on and is in no call: it has returned from the last one,
    or it is the idle thread between two turns of its loop. -/
def Returned (k : Kernel) : Prop :=
  k.sched.intr = .on ∧ (k.pend k.cur = [] ∨ k.pend k.cur = [.idleBlock])

theorem WellFormed.ok (h : WellFormed k) (hret : Returned k) (hno : NoHigher k.sched) :
    KernelOk k := by
  obtain ⟨hon, hpend⟩ := hret
  refine ⟨h.run, h.stopped, fun _ => ⟨?_, HeadOk.of_noHigher hno _⟩, fun hoff => ?_⟩
  · rcases hpend with hp | hp
    · rw [hp]
      exact fun m hm => absurd hm not_mem_nil
    · rw [hp]
      exact Plain.cons rfl fun m hm => absurd hm not_mem_nil
  · rw [hon] at hoff
    cases hoff

/-- **Strict priority preemption.** Start where no queued thread is above the running one. After
    any calls by any threads, any steps inside these calls and any timer interrupts, whenever the
    running thread is back from its call with interrupts on, no queued thread is above it. -/
theorem strict_preemption (k k' : Kernel) (hwf : WellFormed k) (hret : Returned k)
    (hno : NoHigher k.sched) (hr : Reach kernelStep threadEvent k k') (hret' : Returned k') :
    NoHigher k'.sched := by
  have hok : KernelOk k' :=
    hr.invariant (hwf.ok hret hno) fun _ _ _ hi he hs => kernelStep_ok hi he hs
  obtain ⟨hon, hpend⟩ := hret'
  have hh := (hok.on hon).2
  rcases hpend with hp | hp
  · rw [hp] at hh
    exact hh
  · rw [hp] at hh
    exact hh

/-! ## 6. The kernel after `thread_start` -/

/-- `thread_start` and the first turn of `idle`, as the scheduler sees them: "main" creates the idle
    thread and goes to sleep on `start_idle`, the idle thread wakes it and yields to it. -/
def bootOps : List SchedOp :=
  [.threadStart, .intrSetLevel .on, .intrSetLevel .off, .threadBlock, .intrSetLevel .on, .idle,
    .unblockOnly 0, .threadYield, .intrSetLevel .on]

def bootSched (mlfqs priorAging : Bool) : Sched :=
  (runList schedStep (threadInit mlfqs priorAging) bootOps).getD (threadInit mlfqs priorAging)

/-- A kernel with two threads, the second of them the idle thread before its first turn, and with
    `init n` in the `n`-th semaphore. -/
def bootKernel (s : Sched) (init : ℕ → ℕ) : Kernel where
  sched := s
  sema
    | .user n => ⟨init n, []⟩
    | .lock (.exec t) | .lock (.wait t) | .lock (.exit2 t) => ⟨if t < 2 then 0 else 1, []⟩
    | .lock _ => ⟨1, []⟩
    | .elem _ => ⟨0, []⟩
    | .completion _ => ⟨0, []⟩
  holder
    | .exec t | .wait t | .exit2 t => if t < 2 then some t else none
    | _ => none
  cond _ := []
  nextElem := 0
  alarm := []
  parked := []
  intq _ := Intq.init
  expecting _ := false
  pend t := if t = 1 then [.setLevel .on, .idleBlock] else []

/-- The kernel that `thread_start` leaves behind. -/
def kernelBoot (mlfqs priorAging : Bool) (init : ℕ → ℕ) : Kernel :=
  bootKernel (bootSched mlfqs priorAging) init

theorem bootSched_run (mlfqs priorAging : Bool) :
    runList schedStep (threadInit mlfqs priorAging) bootOps = some (bootSched mlfqs priorAging) := by
  have hsome : (runList schedStep (threadInit mlfqs priorAging) bootOps).isSome = true := by
    cases mlfqs <;> cases priorAging <;> decide
  obtain ⟨s, hs⟩ := Option.isSome_iff_exists.mp hsome
  rw [bootSched, hs]
  rfl

theorem bootSched_facts (mlfqs priorAging : Bool) : let s := bootSched mlfqs priorAging
    s.running = 0 ∧ s.intr = .on ∧ s.nextThread = 2 ∧ s.priority 1 = 0 := by
  cases mlfqs <;> cases priorAging <;> decide

theorem bootKernel_ok (hinv : RunInv s) (hrun : s.running = 0) (hon : s.intr = .on)
    (hnext : s.nextThread = 2) (hp1 : s.priority 1 = 0) (init : ℕ → ℕ) :
    WellFormed (bootKernel s init) ∧ Returned (bootKernel s init) ∧ NoHigher s := by
  have hcur : (bootKernel s init).cur = 0 := hrun
  refine ⟨⟨hinv, fun t _ => ?_⟩, ⟨hon, .inl ?_⟩, fun t ht => ?_⟩
  · show Stopped (if t = 1 then [.setLevel .on, .idleBlock] else [])
    split
    · exact Plain.cons rfl fun m hm => absurd hm not_mem_nil
    · trivial
  · rw [hcur]
    rfl
  · -- only the idle thread can be queued, and nobody is below it
    have hready := hinv.queued_ready t ht
    have hlt := hinv.lt_next (t := t) (by rw [hready]; decide)
    rw [hnext] at hlt
    have ht1 : t = 1 := by
      match t, hlt with
      | 0, _ => exact absurd ht (hrun ▸ hinv.running_not_queued)
      | 1, _ => rfl
    rw [ht1, hp1]
    exact (hinv.prio _).1

theorem kernelBoot_ok (mlfqs priorAging : Bool) (init : ℕ → ℕ) :
    WellFormed (kernelBoot mlfqs priorAging init) ∧ Returned (kernelBoot mlfqs priorAging init) ∧
      NoHigher (kernelBoot mlfqs priorAging init).sched := by
  obtain ⟨hrun, hon, hnext, hp1⟩ := bootSched_facts mlfqs priorAging
  have hinv : RunInv (bootSched mlfqs priorAging) :=
    schedReach_inv (reach_runList _ (fun _ _ _ => trivial) (bootSched_run mlfqs priorAging))
  exact bootKernel_ok hinv hrun hon hnext hp1 init

/-- "main" creates a thread, which runs at once if its priority is not below that of "main". -/
def createRun (priority : Int) : List KEvent :=
  .call (.threadCreate "a" priority true) :: replicate 17 (.run 0)

/-- The new thread has priority 40; when it runs, "main" is queued below it. -/
theorem strict_preemption_create : ∃ k,
    runList kernelStep (kernelBoot false false fun _ => 0) (createRun 40) = some k ∧
    k.cur = 2 ∧ k.sched.readyList 31 = [0] ∧ NoHigher k.sched := by
  have hsome : ((runList kernelStep (kernelBoot false false fun _ => 0) (createRun 40)).map fun k =>
      (k.cur, k.sched.readyList 31, k.sched.intr, k.pend k.cur)) = some (2, [0], .on, []) := by
    decide +kernel
  obtain ⟨k, hk, he⟩ := Option.map_eq_some_iff.mp hsome
  have hcur : k.cur = 2 := congrArg Prod.fst he
  have hl : k.sched.readyList 31 = [0] := congrArg (fun x => x.2.1) he
  have hon : k.sched.intr = .on := congrArg (fun x => x.2.2.1) he
  have hpend : k.pend k.cur = [] := congrArg (fun x => x.2.2.2) he
  have hev : ∀ k, ∀ e ∈ createRun 40, threadEvent k e := by
    intro k e hmem
    rcases mem_cons.mp hmem with rfl | hmem
    · rfl
    · rw [eq_of_mem_replicate hmem]
      trivial
  obtain ⟨hwf, hret, hno⟩ := kernelBoot_ok false false fun _ => 0
  exact ⟨k, hk, hcur, hl,
    strict_preemption _ k hwf hret hno (reach_runList _ hev hk) ⟨hon, .inl hpend⟩⟩

/-- A tick comes between the push of the new thread and the last test of `thread_unblock`. -/
def tickRun : List KEvent :=
  .call (.threadCreate "a" 40 true) :: replicate 14 (.run 0) ++ [.timer]

/-- **Inside a call it fails**: the timer interrupt returns to "main" with interrupts on, and the new
    thread is queued above it. -/
theorem strict_preemption_tick : Returned (kernelBoot false false fun _ => 0) ∧
    NoHigher (kernelBoot false false fun _ => 0).sched ∧ (∀ k, ∀ e ∈ tickRun, threadEvent k e) ∧
    ∃ k, runList kernelStep (kernelBoot false false fun _ => 0) tickRun = some k ∧
      k.cur = 0 ∧ k.sched.intr = .on ∧ k.pend 0 = [.unblockTail 0 2] ∧ k.sched.priority 0 = 31 ∧
      k.sched.readyList 40 = [2] ∧ ¬ NoHigher k.sched := by
  obtain ⟨-, hret, hno⟩ := kernelBoot_ok false false fun _ => 0
  refine ⟨hret, hno, fun k e hmem => ?_, ?_⟩
  · rcases mem_cons.mp hmem with rfl | hmem
    · rfl
    · rcases mem_append.mp hmem with hmem | hmem
      · rw [eq_of_mem_replicate hmem]
        trivial
      · rw [mem_singleton.mp hmem]
        trivial
  have hsome : ((runList kernelStep (kernelBoot false false fun _ => 0) tickRun).map fun k =>
      (k.cur, k.sched.intr, k.pend 0, [k.sched.priority 0, k.sched.priority 2],
        k.sched.readyList 40)) = some (0, .on, [.unblockTail 0 2], [31, 40], [2]) := by
    decide +kernel
  obtain ⟨k, hk, he⟩ := Option.map_eq_some_iff.mp hsome
  simp only [Prod.mk.injEq, cons.injEq, and_true] at he
  obtain ⟨hcur, hon, hpend, ⟨hp0, hp2⟩, hl⟩ := he
  refine ⟨k, hk, hcur, hon, hpend, hp0, hl, fun hle => ?_⟩
  have h2 := hle 2 ⟨40, by rw [hl]; exact mem_cons_self⟩
  rw [show k.sched.running = 0 from hcur, hp0, hp2] at h2
  exact absurd h2 (by decide)

end Pintos
