/-
  Subject:   Whom `sema_up` and `cond_signal` wake, and when `sema_up` yields (synch.c).

  * `SemaUpped`: all that a call of `sema_up` does, on the kernel machine of Synch.lean. The
    `pri_max` that its last test reads is assigned only if there is a waiter; otherwise it is what
    the stack held.
  * **`sema_up_reason_iff`**: the call yields for a reason exactly if there is a waiter, or that
    value happens to be low, or interrupts are off.
  * `cond_signal` takes the first `struct semaphore_elem` of the condition, and behind each of them
    is one thread, so that the choice of `sema_up` has nothing to choose from.
  * **`cond_signal_order_iff`**: waiters are woken by priority exactly if they registered in that
    order.
-/
import Pintos.Threads.Preempt
import Pintos.Threads.Semaphore

namespace Pintos

open Lib List

/-! ## 1. A call of `sema_up` -/

/-- The thread that `sema_up` wakes. -/
def wokenBy (k : Kernel) (r : SemaRef) : Option Tid := maxElem k.sched.priority (k.sema r).waiters

/-- `pri_max` at the last test of `sema_up`. -/
def priMaxOf (k : Kernel) (r : SemaRef) (garbage : Int) : Int :=
  (wokenBy k r).elim garbage k.sched.priority

/-- **What a call of `sema_up` does**, from the state in which it begins to the one after its last
    test. -/
structure SemaUpped (k : Kernel) (r : SemaRef) (garbage : Int) (rest : List Micro) (k' : Kernel) :
    Prop where
  cur : k'.cur = k.cur
  cond : k'.cond = k.cond
  holder : k'.holder = k.holder
  priority : ∀ t, k'.sched.priority t = k.sched.priority t
  status : ∀ t, k'.sched.status t = if wokenBy k r = some t then .ready else k.sched.status t
  value : (k'.sema r).value = (k.sema r).give.value
  otherSemas : ∀ r', r' ≠ r → k'.sema r' = k.sema r'
  pend : k'.pend k.cur =
    if priMaxOf k r garbage > k.sched.priority k.cur ∧ k.sched.intr = .on then
      .threadYield :: rest
    else rest
  otherPends : ∀ t, t ≠ k.cur → k'.pend t = k.pend t

/-- One semaphore of the kernel machine as a system of its own; `w` is the thread just woken. -/
def Kernel.semaView (k : Kernel) (r : SemaRef) (w : Option Tid) : SemaSys :=
  ⟨k.sema r, k.sched.priority, k.sched.status, w.toList, 0, 0⟩

/-- **The section of the kernel machine is that of Semaphore.lean**, one semaphore at a time. -/
theorem semaUpSection_view (k : Kernel) (r : SemaRef) :
    (k.semaView r none).semaUp = (semaUpSection k r).map fun x => x.2.semaView r x.1 := by
  unfold semaUpSection SemaSys.semaUp
  dsimp only [Kernel.semaView]
  cases maxElem k.sched.priority (k.sema r).waiters with
  | none => simp [Kernel.setSema, SemaSys.give]
  | some w =>
    dsimp only
    unfold SemaSys.wake unblockSection
    dsimp only
    split
    · have hpri : ((k.sched.pushReady (k.sched.priority w) w).setStatus w .ready).priority =
          k.sched.priority := funext fun t => Sched.priority_setStatus _ _ _ _
      have hst : ((k.sched.pushReady (k.sched.priority w) w).setStatus w .ready).status =
          Function.update k.sched.status w .ready := funext fun t => by
        rw [Sched.status_setStatus, Function.update_apply]
        rfl
      simp [Kernel.setSema, SemaSys.give, Semaphore.give, hpri, hst]
    · rfl

variable {rest : List Micro} {t : Tid} {r : SemaRef} {garbage : Int}

variable {k k' k₁ : Kernel}

theorem kernelStep_run {m : Micro} (garbage : Int) (hp : k.pend k.cur = m :: rest) :
    kernelStep k (.run garbage) = exec k garbage m rest := by
  unfold kernelStep
  rw [hp]

theorem Kernel.next_pend (k : Kernel) (l : List Micro) : (k.next l).pend k.cur = l :=
  Function.update_self _ _ _

theorem Kernel.next_pend_ne (k : Kernel) (l : List Micro) (ht : t ≠ k.cur) :
    (k.next l).pend t = k.pend t :=
  Function.update_of_ne ht _ _

theorem yieldIf_eq (k : Kernel) (test : Prop) [Decidable test] (rest : List Micro) :
    yieldIf k test rest =
      k.next (if test ∧ k.sched.intr = .on then .threadYield :: rest else rest) := by
  unfold yieldIf
  split <;> rfl

theorem semaUp_of_section (hp : k.pend k.cur = .semaUp r :: rest)
    (hsec : semaUpSection k r = some (wokenBy k r, k₁)) (hcur : k₁.cur = k.cur)
    (hprio : ∀ t, k₁.sched.priority t = k.sched.priority t) (hintr : k₁.sched.intr = k.sched.intr) :
    runList kernelStep k [.run garbage, .run garbage] =
      some ((k₁.next (.semaUpTail (priMaxOf k r garbage) :: rest)).next
        (if priMaxOf k r garbage > k.sched.priority k.cur ∧ k.sched.intr = .on then
          .threadYield :: rest else rest)) := by
  have hfirst : kernelStep k (.run garbage) =
      some (k₁.next (.semaUpTail (priMaxOf k r garbage) :: rest)) := by
    rw [kernelStep_run garbage hp]
    simp only [exec]
    rw [hsec]
    unfold priMaxOf
    cases wokenBy k r <;> rfl
  have hsecond : kernelStep (k₁.next (.semaUpTail (priMaxOf k r garbage) :: rest)) (.run garbage) =
      some ((k₁.next (.semaUpTail (priMaxOf k r garbage) :: rest)).next
        (if priMaxOf k r garbage > k.sched.priority k.cur ∧ k.sched.intr = .on then
          .threadYield :: rest else rest)) := by
    have htest : priMaxOf k r garbage > k₁.sched.priority k₁.cur ∧ k₁.sched.intr = .on ↔
        priMaxOf k r garbage > k.sched.priority k.cur ∧ k.sched.intr = .on := by
      rw [hcur, hprio, hintr]
    rw [kernelStep_run garbage (k₁.next_pend _)]
    simp only [exec]
    rw [yieldIf_eq]
    exact congrArg (fun l => some (Kernel.next _ l)) (if_congr htest rfl rfl)
  unfold runList
  rw [hfirst, Option.bind_some]
  unfold runList
  rw [hsecond]
  rfl

theorem next_next_pend_ne (k : Kernel) (l l' : List Micro) (ht : t ≠ k.cur) :
    ((k.next l).next l').pend t = k.pend t :=
  ((k.next l).next_pend_ne l' ht).trans (k.next_pend_ne l ht)

theorem semaUp_run (garbage : Int) (hp : k.pend k.cur = .semaUp r :: rest)
    (hw : ∀ w ∈ (k.sema r).waiters, k.sched.status w = .blocked) :
    ∃ k', runList kernelStep k [.run garbage, .run garbage] = some k' ∧
      SemaUpped k r garbage rest k' := by
  cases hm : wokenBy k r with
  | none =>
    have hsec : semaUpSection k r =
        some (wokenBy k r, k.setSema r (k.sema r).give) := by
      unfold semaUpSection
      dsimp only
      rw [show maxElem k.sched.priority (k.sema r).waiters = none from hm, hm]
    refine ⟨_, semaUp_of_section hp hsec rfl (fun _ => rfl) rfl, rfl, rfl, rfl, fun _ => rfl,
      fun t => ?_, ?_, fun r' hr => Function.update_of_ne hr _ _, Kernel.next_pend _ _,
      fun t ht => next_next_pend_ne _ _ _ ht⟩
    · simp only [hm, reduceCtorEq, if_false]
      rfl
    · show (Function.update k.sema r _ r).value = _
      rw [Function.update_self]
  | some w =>
    have hblk := hw w (maxElem_mem (p := k.sched.priority) hm)
    have hunb : unblockSection k.sched w = some (threadTopPriority k.sched,
        (k.sched.pushReady (k.sched.priority w) w).setStatus w .ready) := if_pos hblk
    have hsec : semaUpSection k r = some (wokenBy k r,
        { k with sched := (k.sched.pushReady (k.sched.priority w) w).setStatus w .ready }.setSema r
          { (k.sema r).give with waiters := (k.sema r).waiters.erase w }) := by
      unfold semaUpSection
      dsimp only
      rw [show maxElem k.sched.priority (k.sema r).waiters = some w from hm, hm]
      dsimp only
      rw [hunb]
    refine ⟨_, semaUp_of_section hp hsec rfl (fun t => Sched.priority_setStatus _ _ _ _) rfl, rfl,
      rfl, rfl, fun t => Sched.priority_setStatus _ _ _ _, fun t => ?_, ?_,
      fun r' hr => Function.update_of_ne hr _ _, Kernel.next_pend _ _,
      fun t ht => next_next_pend_ne _ _ _ ht⟩
    · show (Sched.setStatus _ w .ready).status t = _
      rw [Sched.status_setStatus, hm]
      simp only [Option.some.injEq, eq_comm]
      rfl
    · show (Function.update k.sema r _ r).value = _
      rw [Function.update_self]

/-! ## 2. Yielding for a reason -/

/-- **`sema_up` yields only for a reason**: exactly if interrupts are on and it has unblocked a
    waiter above the running thread; and not at all without waiters. -/
def YieldsForReason (k : Kernel) (r : SemaRef) (garbage : Int) (rest : List Micro) : Prop :=
  ∃ k', runList kernelStep k [.run garbage, .run garbage] = some k' ∧
    (k'.pend k.cur = .threadYield :: rest ↔ k.sched.intr = .on ∧
      ∃ w ∈ (k.sema r).waiters, k.sched.status w = .blocked ∧ k'.sched.status w = .ready ∧
        k.sched.priority k.cur < k.sched.priority w) ∧
    ((k.sema r).waiters = [] → k'.pend k.cur ≠ .threadYield :: rest)

theorem SemaUpped.yields_iff (h : SemaUpped k r garbage rest k') :
    k'.pend k.cur = .threadYield :: rest ↔
      k.sched.priority k.cur < priMaxOf k r garbage ∧ k.sched.intr = .on := by
  rw [h.pend]
  split
  · rename_i hc
    exact iff_of_true rfl hc
  · rename_i hc
    refine iff_of_false (fun e => ?_) hc
    have := congrArg length e
    simp at this

/-- **When `sema_up` yields only for a reason**: when it has a waiter, or what the stack holds in
    the place of `pri_max` is not above the running thread's priority, or interrupts are off. The
    waiters of a semaphore are blocked. -/
theorem sema_up_reason_iff {k : Kernel} {r : SemaRef} {rest : List Micro} (garbage : Int)
    (hp : k.pend k.cur = .semaUp r :: rest)
    (hw : ∀ w ∈ (k.sema r).waiters, k.sched.status w = .blocked) :
    YieldsForReason k r garbage rest ↔
      (k.sema r).waiters ≠ [] ∨ garbage ≤ k.sched.priority k.cur ∨ k.sched.intr = .off := by
  obtain ⟨k', hrun, hup⟩ := semaUp_run garbage hp hw
  have hyield := hup.yields_iff
  have hlaw : YieldsForReason k r garbage rest ↔
      (k'.pend k.cur = .threadYield :: rest ↔ k.sched.intr = .on ∧
        ∃ w ∈ (k.sema r).waiters, k.sched.status w = .blocked ∧ k'.sched.status w = .ready ∧
          k.sched.priority k.cur < k.sched.priority w) ∧
      ((k.sema r).waiters = [] → k'.pend k.cur ≠ .threadYield :: rest) := by
    refine ⟨fun ⟨k₂, hrun2, h⟩ => ?_, fun h => ⟨k', hrun, h⟩⟩
    cases hrun.symm.trans hrun2
    exact h
  rw [hlaw, hyield]
  cases hm : wokenBy k r with
  | none =>
    have hnil : (k.sema r).waiters = [] := maxElem_eq_none (p := k.sched.priority) hm
    have hpri : priMaxOf k r garbage = garbage := by
      unfold priMaxOf
      rw [hm]
      rfl
    rw [hpri, hnil]
    simp only [not_mem_nil, false_and, exists_false, and_false, iff_false]
    constructor
    · rintro ⟨h, -⟩
      by_cases hlt : k.sched.priority k.cur < garbage
      · cases hi : k.sched.intr with
        | off => exact .inr (.inr rfl)
        | on => exact absurd ⟨hlt, hi⟩ h
      · exact .inr (.inl (by omega))
    · intro h
      have hno : ¬(k.sched.priority k.cur < garbage ∧ k.sched.intr = .on) := by
        rintro ⟨hlt, hon⟩
        rcases h with hne | hle | hoff
        · exact hne rfl
        · omega
        · rw [hoff] at hon
          cases hon
      exact ⟨hno, fun _ hy => hno (hpri ▸ hyield.mp hy)⟩
  | some w =>
    have hmem := maxElem_mem (p := k.sched.priority) hm
    have hpri : priMaxOf k r garbage = k.sched.priority w := by
      unfold priMaxOf
      rw [hm]
      rfl
    have hne : (k.sema r).waiters ≠ [] := ne_nil_of_mem hmem
    refine iff_of_true ⟨?_, fun hnil => absurd hnil hne⟩ (.inl hne)
    rw [hpri]
    constructor
    · rintro ⟨hlt, hon⟩
      refine ⟨hon, w, hmem, hw w hmem, ?_, hlt⟩
      rw [hup.status, if_pos hm]
    · rintro ⟨hon, v, hv, hblk, hready, hlt⟩
      -- only the thread that was woken has become ready
      have hvw : wokenBy k r = some v := by
        by_contra hvw
        rw [hup.status, if_neg hvw, hblk] at hready
        cases hready
      rw [hm] at hvw
      cases hvw
      exact ⟨hlt, hon⟩

/-- The thread "main" in a call of `sema_up` on a semaphore without waiters. -/
def upKernel : Kernel := (kernelBoot false false fun _ => 0).next [.semaUp (.user 0)]

theorem sema_up_reason_low : YieldsForReason upKernel (.user 0) 0 [] := by
  have hp : upKernel.pend upKernel.cur = [.semaUp (.user 0)] := by decide
  refine (sema_up_reason_iff 0 hp fun w hw => absurd hw (not_mem_nil)).mpr (.inr (.inl ?_))
  decide

/-- **A yield without a waiter**, with 64 on the stack. -/
theorem sema_up_reason_garbage : (upKernel.sema (.user 0)).waiters = [] ∧
    (runList kernelStep upKernel [.run 64, .run 64]).map (fun k => k.pend upKernel.cur) =
      some [.threadYield] ∧ ¬ YieldsForReason upKernel (.user 0) 64 [] := by
  have hnil : (upKernel.sema (.user 0)).waiters = [] := rfl
  have hrun : (runList kernelStep upKernel [.run 64, .run 64]).map
      (fun k => k.pend upKernel.cur) = some [.threadYield] := by decide
  refine ⟨hnil, hrun, ?_⟩
  rintro ⟨k', hk', -, hno⟩
  rw [hk'] at hrun
  exact hno hnil (Option.some.inj hrun)

/-! ## 3. The waiters of a condition -/

/-- Thread `t` waits in `cond_wait` on its own semaphore, the `n`-th: it sleeps, or it has not come
    to `sema_down` yet. -/
def WaitsOn (k : Kernel) (n : ℕ) (t : Tid) : Prop :=
  (k.sema (.elem n) = ⟨0, [t]⟩ ∧ k.sched.status t = .blocked) ∨
    (k.sema (.elem n) = ⟨0, []⟩ ∧ .semaDown (.elem n) ∈ k.pend t)

/-- **The threads registered on a condition**, in the order of registration, each with its
    `struct semaphore_elem`. -/
structure Registered (k : Kernel) (c : ℕ) (ws : List (ℕ × Tid)) : Prop where
  list : k.cond c = ws.map Prod.fst
  elems : (ws.map Prod.fst).Nodup
  threads : (ws.map Prod.snd).Nodup
  waits : ∀ w ∈ ws, WaitsOn k w.1 w.2
  others : ∀ w ∈ ws, w.2 ≠ k.cur

/-- The running thread holds the lock and calls `cond_signal`. -/
def Signals (k : Kernel) (c : ℕ) (l : LockRef) : Prop :=
  k.holder l = some k.cur ∧ ∃ rest, k.pend k.cur = .condSignal c l :: rest

/-- A waiter is woken: its semaphore is up, and if it slept, it is ready. -/
def WokenUp (k k' : Kernel) (w : ℕ × Tid) : Prop :=
  (k'.sema (.elem w.1)).value = 1 ∧
    ((k.sema (.elem w.1)).waiters = [w.2] → k'.sched.status w.2 = .ready)

/-- The steps of a call of `cond_signal`. -/
def signalCall (k : Kernel) (garbage : Int) : Option Kernel :=
  runList kernelStep k [.run garbage, .run garbage, .run garbage]

theorem wokenBy_elem {n : ℕ} (h : WaitsOn k n t) (u : Tid) :
    wokenBy k (.elem n) = some u → u = t ∧ (k.sema (.elem n)).waiters = [t] := by
  intro hu
  have hmem : u ∈ (k.sema (.elem n)).waiters := maxElem_mem (p := k.sched.priority) hu
  rcases h with ⟨hs, -⟩ | ⟨hs, -⟩
  · rw [hs] at hmem ⊢
    exact ⟨mem_singleton.mp hmem, rfl⟩
  · rw [hs] at hmem
    exact absurd hmem not_mem_nil

/-- **`cond_signal`** wakes the thread that registered first, and leaves the others registered. -/
theorem condSignal_first {c : ℕ} {l : LockRef} {w : ℕ × Tid} {ws : List (ℕ × Tid)} (garbage : Int)
    (hr : Registered k c (w :: ws)) (hs : Signals k c l) :
    ∃ k', signalCall k garbage = some k' ∧ WokenUp k k' w ∧ Registered k' c ws ∧
      (∀ v ∈ ws, ¬ WokenUp k k' v) ∧ k'.holder = k.holder ∧ k'.cur = k.cur ∧
      ∀ t, k'.sched.priority t = k.sched.priority t := by
  obtain ⟨hhold, rest, hp⟩ := hs
  obtain ⟨n, t⟩ := w
  have hwait : WaitsOn k n t := hr.waits _ mem_cons_self
  obtain ⟨hnew, helems⟩ := nodup_cons.mp hr.elems
  obtain ⟨hnewt, hthreads⟩ := nodup_cons.mp hr.threads
  let k₁ : Kernel := { k with cond := Function.update k.cond c (ws.map Prod.fst) }.next
    (.semaUp (.elem n) :: rest)
  have hfirst : kernelStep k (.run garbage) = some k₁ := by
    rw [kernelStep_run garbage hp]
    simp only [exec]
    rw [if_pos hhold, hr.list]
    rfl
  have hp1 : k₁.pend k₁.cur = .semaUp (.elem n) :: rest :=
    Kernel.next_pend { k with cond := Function.update k.cond c (ws.map Prod.fst) } _
  have hblk : ∀ u ∈ (k₁.sema (.elem n)).waiters, k₁.sched.status u = .blocked := by
    intro u hu
    have hu : u ∈ (k.sema (.elem n)).waiters := hu
    rcases hwait with ⟨hsem, hb⟩ | ⟨hsem, -⟩
    · rw [hsem, mem_singleton] at hu
      subst hu
      exact hb
    · rw [hsem] at hu
      exact absurd hu not_mem_nil
  obtain ⟨k', hrun, hup⟩ := semaUp_run garbage hp1 hblk
  have hzero : (k.sema (.elem n)).value = 0 := by
    rcases hwait with ⟨hsem, -⟩ | ⟨hsem, -⟩ <;> rw [hsem]
  have hother : ∀ v ∈ ws, k'.sema (.elem v.1) = k.sema (.elem v.1) := by
    intro v hv
    refine hup.otherSemas (.elem v.1) fun e => hnew ?_
    rw [SemaRef.elem.injEq] at e
    exact mem_map.mpr ⟨v, hv, e⟩
  have hwaits : ∀ v ∈ ws, WaitsOn k' v.1 v.2 := by
    intro v hv
    rcases hr.waits v (mem_cons_of_mem _ hv) with ⟨hsem, hb⟩ | ⟨hsem, hpend⟩
    · refine .inl ⟨(hother v hv).trans hsem, ?_⟩
      rw [hup.status, if_neg]
      · exact hb
      · intro hw
        obtain ⟨hvt, -⟩ := wokenBy_elem (k := k) hwait v.2 hw
        exact hnewt (mem_map.mpr ⟨v, hv, hvt⟩)
    · refine .inr ⟨(hother v hv).trans hsem, ?_⟩
      have hne := hr.others v (mem_cons_of_mem _ hv)
      rw [hup.otherPends v.2 hne]
      show .semaDown (.elem v.1) ∈ Function.update k.pend k.cur _ v.2
      rw [Function.update_of_ne hne]
      exact hpend
  refine ⟨k', ?_, ⟨?_, fun hw => ?_⟩, ⟨?_, helems, hthreads, hwaits, fun v hv => ?_⟩, fun v hv hv' => ?_,
    hup.holder, hup.cur, hup.priority⟩
  · unfold signalCall runList
    rw [hfirst]
    exact hrun
  · rw [hup.value]
    exact congrArg (fun v => (v + 1) % 2 ^ 32) hzero
  · have hwok : wokenBy k₁ (.elem n) = some t := by
      show maxElem k.sched.priority (k.sema (.elem n)).waiters = some t
      rw [hw]
      rfl
    rw [hup.status, if_pos hwok]
  · rw [hup.cond]
    exact Function.update_self _ _ _
  · rw [hup.cur]
    exact hr.others v (mem_cons_of_mem _ hv)
  · have hval := hv'.1
    rw [hother v hv] at hval
    rcases hr.waits v (mem_cons_of_mem _ hv) with ⟨hsem, -⟩ | ⟨hsem, -⟩ <;>
      · rw [hsem] at hval
        cases hval

/-! ## 4. The order of wake-ups -/

/-- **Successive signals** and the waiters they wake, in order. Between two of them anything may
    happen that leaves the remaining waiters registered, with their priorities. -/
inductive SignalRun (c : ℕ) (l : LockRef) : Kernel → List (ℕ × Tid) → List (ℕ × Tid) → Prop
  | done {k : Kernel} {ws : List (ℕ × Tid)} : SignalRun c l k ws []
  | signal {k k' k'' : Kernel} {ws order : List (ℕ × Tid)} {w : ℕ × Tid} {garbage : Int} :
      Registered k c ws → Signals k c l → signalCall k garbage = some k' → w ∈ ws →
      WokenUp k k' w → Registered k'' c (ws.erase w) →
      (∀ v ∈ ws.erase w, k''.sched.priority v.2 = k.sched.priority v.2) →
      SignalRun c l k'' (ws.erase w) order → SignalRun c l k ws (w :: order)

/-- **By priority**: a signal wakes a waiter that no other one is above, and successive signals wake
    them in non-increasing order of priority. -/
structure WakesByPriority (k : Kernel) (c : ℕ) (l : LockRef) (ws : List (ℕ × Tid)) : Prop where
  highest : ∀ garbage k', signalCall k garbage = some k' → ws ≠ [] →
    ∃ w ∈ ws, WokenUp k k' w ∧ ∀ v ∈ ws, k.sched.priority v.2 ≤ k.sched.priority w.2
  order : ∀ order, SignalRun c l k ws order →
    order.Pairwise fun a b => k.sched.priority b.2 ≤ k.sched.priority a.2

variable {k : Kernel} {c : ℕ} {l : LockRef} {ws : List (ℕ × Tid)}

/-- **First come, first served.** -/
theorem SignalRun.prefix_of {order : List (ℕ × Tid)} (h : SignalRun c l k ws order) :
    order <+: ws := by
  induction h with
  | done => exact nil_prefix
  | @signal k k' k'' ws order w garbage hr hs hrun hw hwok hr'' _ _ ih =>
    cases ws with
    | nil => exact absurd hw not_mem_nil
    | cons v ws =>
      obtain ⟨k₁, hrun1, -, -, hnot, -⟩ := condSignal_first garbage hr hs
      cases hrun.symm.trans hrun1
      have hv : w = v := by
        rcases mem_cons.mp hw with hwv | hws
        · exact hwv
        · exact absurd hwok (hnot w hws)
      subst hv
      rw [erase_cons_head] at ih
      exact (cons_prefix_cons).mpr ⟨rfl, ih⟩

theorem signalRun_all : ∀ (ws : List (ℕ × Tid)) (k : Kernel), Registered k c ws → Signals k c l →
    SignalRun c l k ws ws
  | [], _, _, _ => .done
  | w :: ws, k, hr, hs => by
    obtain ⟨k', hrun, hwok, hr', -, hhold, hcur, hprio⟩ := condSignal_first 0 hr hs
    -- it calls `cond_signal` again
    have hr'' : Registered (k'.next [.condSignal c l]) c ws := by
      refine ⟨hr'.list, hr'.elems, hr'.threads, fun v hv => ?_, hr'.others⟩
      rcases hr'.waits v hv with h | ⟨hsem, hpend⟩
      · exact .inl h
      · refine .inr ⟨hsem, ?_⟩
        rw [k'.next_pend_ne _ (hr'.others v hv)]
        exact hpend
    have hs'' : Signals (k'.next [.condSignal c l]) c l := by
      refine ⟨?_, [], k'.next_pend _⟩
      show k'.holder l = some k'.cur
      rw [hhold, hcur]
      exact hs.1
    have hrest := signalRun_all ws _ hr'' hs''
    rw [← erase_cons_head w ws] at hr'' hrest
    refine .signal hr hs hrun mem_cons_self hwok hr'' (fun v _ => hprio v.2) ?_
    rw [erase_cons_head] at hrest ⊢
    exact hrest

/-- **When `cond_signal` wakes by priority**: when the threads have registered in that order. -/
theorem cond_signal_order_iff (hr : Registered k c ws) (hs : Signals k c l) :
    WakesByPriority k c l ws ↔
      ws.Pairwise fun a b => k.sched.priority b.2 ≤ k.sched.priority a.2 := by
  constructor
  · intro h
    exact h.order ws (signalRun_all ws k hr hs)
  · intro h
    refine ⟨fun garbage k' hrun hne => ?_, fun order hrun => ?_⟩
    · cases ws with
      | nil => exact absurd rfl hne
      | cons w ws =>
        obtain ⟨k₁, hrun1, hwok, -⟩ := condSignal_first garbage hr hs
        cases hrun.symm.trans hrun1
        refine ⟨w, mem_cons_self, hwok, fun v hv => ?_⟩
        rcases mem_cons.mp hv with rfl | hv
        · exact Int.le_refl _
        · exact (pairwise_cons.mp h).1 v hv
    · exact h.sublist hrun.prefix_of.sublist

/-- Two threads of priorities `p` and `q` asleep on a condition, in this order, and "main" about to
    signal it. -/
def twoWaiters (p q : Int) : Kernel :=
  { bootKernel (bootSched false false) fun _ => 0 with
    sched := { bootSched false false with
      thr := fun t =>
        if t = 2 then ⟨"low", .blocked, p, 0, 0, 0⟩
        else if t = 3 then ⟨"high", .blocked, q, 0, 0, 0⟩
        else (bootSched false false).thr t }
    sema := fun r => if r = .elem 0 then ⟨0, [2]⟩ else if r = .elem 1 then ⟨0, [3]⟩ else ⟨0, []⟩
    holder := fun _ => some 0
    cond := fun _ => [0, 1]
    pend := fun _ => [.condSignal 0 (.user 0)] }

theorem twoWaiters_cur (p q : Int) : (twoWaiters p q).cur = 0 := (bootSched_facts false false).1

theorem twoWaiters_registered (p q : Int) : Registered (twoWaiters p q) 0 [(0, 2), (1, 3)] := by
  refine ⟨rfl, by decide, by decide, fun w hw => ?_, fun w hw => ?_⟩
  · simp only [mem_cons, not_mem_nil, or_false] at hw
    rcases hw with rfl | rfl <;> exact .inl ⟨rfl, rfl⟩
  · rw [twoWaiters_cur]
    simp only [mem_cons, not_mem_nil, or_false] at hw
    rcases hw with rfl | rfl <;> decide

theorem twoWaiters_signals (p q : Int) : Signals (twoWaiters p q) 0 (.user 0) :=
  ⟨congrArg some (twoWaiters_cur p q).symm, [], rfl⟩

theorem cond_signal_order_sorted :
    WakesByPriority (twoWaiters 40 35) 0 (.user 0) [(0, 2), (1, 3)] := by
  refine (cond_signal_order_iff (twoWaiters_registered 40 35) (twoWaiters_signals 40 35)).mpr ?_
  refine pairwise_pair.mpr ?_
  decide

/-- **The thread of priority 35 is woken before the one of priority 40** that registered after it.
    -/
theorem cond_signal_fifo : ¬ WakesByPriority (twoWaiters 35 40) 0 (.user 0) [(0, 2), (1, 3)] := by
  intro h
  obtain ⟨k', hrun, -, -, hnot, -⟩ :=
    condSignal_first 0 (twoWaiters_registered 35 40) (twoWaiters_signals 35 40)
  obtain ⟨w, hw, hwok, hmax⟩ := h.highest 0 k' hrun (cons_ne_nil _ _)
  rcases mem_cons.mp hw with rfl | hw
  · exact absurd (hmax (1, 3) (by decide)) (by decide)
  · exact hnot w hw hwok

end Pintos
