/-
  Subject:   What the calls of thread.c do to the invariant of the scheduler.

  One spec lemma per function, for callers to cite. A call that switches ends in the invariant, and with
  no queued thread above the running one (`NoHigher`).
-/
import Pintos.Threads.SchedInv

namespace Pintos

open Lib Sched

/-! ## 1. Yielding, blocking and waking -/

variable {s s' : Sched} {t : Tid} {nice p prio topPri : Int}

/-- A thread off the queues becomes ready and goes to the end of the queue of its priority. -/
theorem ReadyInv.enqueue (h : ReadyInv s) (ht : ¬ Queued s.readyList t)
    (hlive : s.status t ≠ .dying) :
    ReadyInv ((s.pushReady (s.priority t) t).setStatus t .ready) := by
  have hlt := h.lt_next hlive
  refine ⟨?_, fun u hu => ?_, fun u hu hi => ?_, fun u => ?_, fun u hu => ?_, fun u hu => ?_,
    fun u hu => ?_, fun u hu => ?_, fun u hu => ?_⟩
  · exact (h.filed.push ht).congr fun u _ => by rw [priority_setStatus]; rfl
  · rw [status_setStatus]
    rcases queued_push.mp hu with hq | rfl
    · split
      · rfl
      · exact h.queued_ready u hq
    · rw [if_pos rfl]
  · rw [status_setStatus] at hu
    split at hu
    · rename_i e
      exact queued_push.mpr (.inr e)
    · exact queued_push.mpr (.inl (h.ready_queued u hu hi))
  · rw [priority_setStatus]
    exact h.prio u
  · exact h.idle_func u hu
  · rw [status_setStatus]
    split
    · decide
    · exact h.idle_live u hu
  · rw [name_setStatus]
    exact h.idleFunc_name u hu
  · have hu' : s.nextThread ≤ u := hu
    have hne : u ≠ t := Nat.ne_of_gt (Nat.lt_of_lt_of_le hlt hu')
    rw [status_setStatus, if_neg hne]
    exact h.fresh u hu'
  · rw [status_setStatus] at hu
    split at hu
    · rename_i e
      subst e
      exact h.all_mem u hlive
    · exact h.all_mem u hu

/-- Once the running thread has given up its status, nobody runs. -/
theorem RunInv.none_running (h : RunInv s) (st : ThreadStatus) (hst : st ≠ .running) (t : Tid) :
    (s.setStatus s.running st).status t ≠ .running := by
  rw [status_setStatus]
  split
  · exact hst
  · rename_i hne
    exact fun hr => hne ((h.running t).mp hr)

theorem RunInv.running_live (h : RunInv s) : s.status s.running ≠ .dying := by
  rw [h.running_status]
  decide

theorem schedule_keeps (hs : schedule s = some s') :
    s'.intr = s.intr ∧ s'.nextThread = s.nextThread ∧ s'.idleFunc = s.idleFunc ∧
      ∀ u, s'.name u = s.name u := by
  unfold schedule at hs
  split at hs
  · rename_i next s₁ hn
    cases hs
    have hkeep : s₁.intr = s.intr ∧ s₁.nextThread = s.nextThread ∧ s₁.idleFunc = s.idleFunc ∧
        s₁.thr = s.thr := by
      unfold nextThreadToRun at hn
      split at hn
      all_goals
        split at hn
        · cases hn
          exact ⟨rfl, rfl, rfl, rfl⟩
        · cases hn
    obtain ⟨hi, hn', hf, ht⟩ := hkeep
    refine ⟨hi, hn', hf, fun u => ?_⟩
    have hname := name_setStatus { s₁ with running := next } next u .running
    exact hname.trans (congrArg (fun thr => (thr u).name) ht)
  · cases hs

/-- **`thread_yield`** keeps the invariant and leaves no queued thread above the running one. -/
theorem threadYield_inv (h : RunInv s) (hy : threadYield s = some s') :
    RunInv s' ∧ NoHigher s' := by
  unfold threadYield at hy
  split at hy
  · cases hy
  · have h0 := h.setIntr .off
    dsimp only at hy
    split at hy
    · rename_i hidle
      refine schedule_inv ?_ (h0.none_running .ready (by decide)) hy
      exact h0.toReadyInv.setStatus h0.running_not_queued (fun _ => hidle)
        (h0.lt_next h0.running_live) (fun hd => by cases hd)
        (fun _ => h0.all_mem _ h0.running_live)
    · -- the store to `recent_unused` commutes with the push
      have h1 : RunInv (({ s with intr := .off } : Sched).modify s.running fun th =>
          { th with recentUnused := s.ticks }) := h0.modify rfl rfl rfl
      have he := h1.toReadyInv.enqueue h1.running_not_queued h1.running_live
      have hp := ({ s with intr := .off } : Sched).priority_modify (t := s.running)
        (f := fun th => { th with recentUnused := s.ticks }) rfl s.running
      refine schedule_inv ?_ (fun t => ?_) hy
      · rw [← hp]
        exact he
      · exact h1.none_running .ready (by decide) t

theorem threadYield_keeps (hy : threadYield s = some s') :
    s'.intr = .off ∧ s'.nextThread = s.nextThread ∧ s'.idleFunc = s.idleFunc ∧
      ∀ u, s'.name u = s.name u := by
  unfold threadYield at hy
  split at hy
  · cases hy
  · obtain ⟨hi, hn, hf, hname⟩ := schedule_keeps hy
    dsimp only at hi hn hf hname
    split at hi
    all_goals
      rename_i hc
      simp only [hc, if_true, if_false] at hn hf hname
      refine ⟨hi, hn, hf, fun u => ?_⟩
      rw [hname u, name_setStatus]
    · rfl
    · exact name_modify _ rfl u

/-- **`thread_block`** keeps the invariant and leaves no queued thread above the running one. -/
theorem threadBlock_inv (h : RunInv s) (hb : threadBlock s = some s') :
    RunInv s' ∧ NoHigher s' := by
  unfold threadBlock at hb
  split at hb
  · cases hb
  · refine schedule_inv ?_ (h.none_running .blocked (by decide)) hb
    exact h.toReadyInv.setStatus h.running_not_queued (fun hr => by cases hr)
      (h.lt_next h.running_live) (fun hd => by cases hd) (fun _ => h.all_mem _ h.running_live)

theorem threadBlock_intr (hb : threadBlock s = some s') : s'.intr = .off := by
  unfold threadBlock at hb
  split at hb
  · cases hb
  · rename_i hc
    rw [(schedule_keeps hb).1]
    cases hi : s.intr with
    | off => exact hi
    | on => exact absurd (.inr hi) hc

/-- **The waking section of `thread_unblock`**: the thread was blocked, it joins the queue of its
    priority, and priorities, the running thread and the interrupt level stay. -/
theorem unblockSection_spec (h : RunInv s) (hu : unblockSection s t = some (topPri, s')) :
    RunInv s' ∧ topPri = threadTopPriority s ∧ s'.running = s.running ∧ s'.intr = s.intr ∧
      (∀ u, s'.priority u = s.priority u) ∧
      ∀ u, Queued s'.readyList u ↔ Queued s.readyList u ∨ u = t := by
  unfold unblockSection at hu
  split at hu
  · rename_i hb
    cases hu
    have hnr : s.status t ≠ .ready := by rw [hb]; decide
    have hnd : s.status t ≠ .dying := by rw [hb]; decide
    have hne : t ≠ s.running := by
      intro e
      have hr := (h.running t).mpr e
      rw [hb] at hr
      cases hr
    refine ⟨⟨h.toReadyInv.enqueue (h.not_queued hnr) hnd, fun u => ?_⟩, rfl, rfl, rfl,
      fun u => priority_setStatus _ _ _ _, fun u => queued_push⟩
    rw [status_setStatus]
    split
    · rename_i e
      subst e
      exact iff_of_false (by decide) hne
    · exact h.running u
  · cases hu

theorem unblockTail_inv (h : RunInv s) (hu : unblockTail topPri t s = some s') : RunInv s' := by
  unfold unblockTail at hu
  split at hu
  · exact (threadYield_inv h hu).1
  · cases hu
    exact h

theorem threadUnblock_inv (h : RunInv s) (hu : threadUnblock s t = some s') : RunInv s' := by
  unfold threadUnblock at hu
  split at hu
  · rename_i topPri s₁ hs
    exact unblockTail_inv (unblockSection_spec h hs).1 hu
  · cases hu

/-! ## 2. Creation and exit -/

/-- **`init_thread`** on a fresh page: a blocked thread that is on no queue. -/
theorem addThread_inv (h : RunInv s) (name : String) (hp : priMin ≤ prio ∧ prio ≤ priMax) :
    RunInv (addThread s name prio) := by
  have hold : ∀ u, u ≠ s.nextThread → (addThread s name prio).thr u = s.thr u := by
    intro u hu
    simp [addThread, hu]
  have hnew : (addThread s name prio).thr s.nextThread = initThread s name prio := by
    simp [addThread]
  have hdy : s.status s.nextThread = .dying := h.fresh _ (Nat.le_refl _)
  have hnq : ∀ u, Queued s.readyList u → u ≠ s.nextThread := by
    intro u hu e
    have hr := h.queued_ready u hu
    rw [e, hdy] at hr
    cases hr
  have hni : ∀ u, s.idleThread = some u → u ≠ s.nextThread := by
    intro u hu e
    exact h.idle_live u hu (e ▸ hdy)
  refine ⟨⟨?_, fun u hu => ?_, fun u hu hi => ?_, fun u => ?_, fun u hu => ?_, fun u hu => ?_,
    fun u hu => ?_, fun u hu => ?_, fun u hu => ?_⟩, fun u => ?_⟩
  · refine h.filed.congr fun u hu => ?_
    rw [Sched.priority, hold u (hnq u hu)]
    rfl
  · rw [Sched.status, hold u (hnq u hu)]
    exact h.queued_ready u hu
  · by_cases e : u = s.nextThread
    · rw [Sched.status, e, hnew] at hu
      cases hu
    · rw [Sched.status, hold u e] at hu
      exact h.ready_queued u hu hi
  · by_cases e : u = s.nextThread
    · rw [Sched.priority, e, hnew]
      exact hp
    · rw [Sched.priority, hold u e]
      exact h.prio u
  · exact h.idle_func u hu
  · rw [Sched.status, hold u (hni u hu)]
    exact h.idle_live u hu
  · obtain ⟨hlt, hname⟩ := h.idleFunc_name u hu
    refine ⟨Nat.lt_succ_of_lt hlt, ?_⟩
    rw [Sched.name, hold u (Nat.ne_of_lt hlt)]
    exact hname
  · have hu' : s.nextThread + 1 ≤ u := hu
    have hne : u ≠ s.nextThread := Nat.ne_of_gt hu'
    rw [Sched.status, hold u hne]
    exact h.fresh u (Nat.le_of_succ_le hu')
  · by_cases e : u = s.nextThread
    · exact List.mem_append_right _ (by simp [e])
    · rw [Sched.status, hold u e] at hu
      exact List.mem_append_left _ (h.all_mem u hu)
  · by_cases e : u = s.nextThread
    · rw [Sched.status, e, hnew]
      refine iff_of_false (by simp [initThread]) fun hr => ?_
      have hrun := h.running_live
      exact hrun (hr ▸ hdy)
    · rw [Sched.status, hold u e]
      exact h.running u

theorem threadCreate_inv {name : String} {page : Bool} (h : RunInv s)
    (hc : threadCreate s name prio page = some s') : RunInv s' := by
  unfold threadCreate at hc
  split at hc
  · cases hc
    exact h
  · split at hc
    · rename_i hp
      exact threadUnblock_inv (addThread_inv h name hp) hc
    · cases hc

theorem threadUnblock_keeps (hu : threadUnblock s t = some s') :
    s'.nextThread = s.nextThread ∧ s'.idleFunc = s.idleFunc ∧ ∀ u, s'.name u = s.name u := by
  unfold threadUnblock unblockSection at hu
  split at hu
  · rename_i topPri s₁ hs
    split at hs
    · cases hs
      have hname := name_setStatus (s.pushReady (s.priority t) t) t
      unfold unblockTail at hu
      split at hu
      · obtain ⟨_, hn, hf, hy⟩ := threadYield_keeps hu
        exact ⟨hn, hf, fun u => (hy u).trans (hname u .ready)⟩
      · cases hu
        exact ⟨rfl, rfl, fun u => hname u .ready⟩
    · cases hs
  · cases hu

theorem threadStart_inv (h : RunInv s) (hs : threadStart s = some s') : RunInv s' := by
  unfold threadStart at hs
  split at hs
  · rename_i hnone
    obtain ⟨s₁, hc, rfl⟩ := Option.map_eq_some_iff.mp hs
    have h1 := threadCreate_inv h hc
    have hnew : s.nextThread < s₁.nextThread ∧ s₁.name s.nextThread = "idle" ∧
        s₁.idleFunc = none := by
      unfold threadCreate at hc
      split at hc
      · contradiction
      · split at hc
        · obtain ⟨hn, hf, hname⟩ := threadUnblock_keeps hc
          refine ⟨by rw [hn]; exact Nat.lt_succ_self _, ?_, hf.trans hnone⟩
          rw [hname]
          simp [Sched.name, addThread, initThread]
        · cases hc
    refine ⟨⟨h1.filed, h1.queued_ready, h1.ready_queued, h1.prio, fun u hu => ?_, h1.idle_live,
      fun u hu => ?_, h1.fresh, h1.all_mem⟩, h1.running⟩
    · have hf := h1.idle_func u hu
      rw [hnew.2.2] at hf
      cases hf
    · cases hu
      exact ⟨hnew.1, hnew.2.1⟩
  · cases hs

theorem idleEntry_inv (h : RunInv s) (hs : idleEntry s = some s') : RunInv s' := by
  unfold idleEntry at hs
  split at hs
  · rename_i hf
    cases hs
    refine ⟨⟨h.filed, h.queued_ready, fun u hu hi => ?_, h.prio, fun u hu => ?_, fun u hu => ?_,
      h.idleFunc_name, h.fresh, h.all_mem⟩, h.running⟩
    · -- an idle thread that has passed here before is this one
      refine h.ready_queued u hu fun hold => hi ?_
      have hfu := h.idle_func u hold
      rw [hf] at hfu
      exact hfu
    · cases hu
      exact hf
    · cases hu
      exact h.running_live
  · cases hs

/-- **The last section of `thread_exit`** keeps the invariant: the dead thread is on no queue. -/
theorem threadExit_inv {waiter : Option Tid} (h : RunInv s) (hidle : s.idleThread ≠ some s.running)
    (he : threadExit s waiter = some s') : RunInv s' ∧ NoHigher s' := by
  have h0 := h.setIntr .off
  unfold threadExit at he
  dsimp only at he
  split at he
  · rename_i s₁ hs
    -- waking the waiter of `lock_exit2` keeps the invariant and the running thread
    obtain ⟨h1, hrun, hi⟩ :
        RunInv s₁ ∧ s₁.running = s.running ∧ s₁.idleThread = s.idleThread := by
      cases waiter with
      | none =>
        cases hs
        exact ⟨h0, rfl, rfl⟩
      | some w =>
        obtain ⟨⟨topPri, s₂⟩, hu, rfl⟩ := Option.map_eq_some_iff.mp hs
        obtain ⟨hr, _, hrun, _⟩ := unblockSection_spec h0 hu
        refine ⟨hr, hrun, ?_⟩
        unfold unblockSection at hu
        split at hu
        · cases hu
          rfl
        · cases hu
    have h2 : ReadyInv (s₁.setStatus s₁.running .dying) :=
      h1.toReadyInv.setStatus h1.running_not_queued (fun hr => by cases hr)
        (h1.lt_next h1.running_live) (fun _ => by rw [hi, hrun]; exact hidle)
        (fun hd => absurd rfl hd)
    refine schedule_inv ?_ ?_ he
    swap
    · exact h1.none_running .dying (by decide)
    obtain ⟨f1, f2, f3, f4, f5, f6, f7, f8, f9⟩ := h2
    refine ⟨f1, f2, f3, f4, f5, f6, f7, f8, fun u hu => ?_⟩
    have hne : u ≠ s₁.running := by
      rintro rfl
      exact hu (by rw [status_setStatus, if_pos rfl])
    exact (List.mem_erase_of_ne hne).mpr (f9 u hu)
  · cases he

/-! ## 3. Priorities -/

/-- The priority of a thread off the queues may change to any that indexes a queue. -/
theorem ReadyInv.setPriority (h : ReadyInv s) (ht : ¬ Queued s.readyList t)
    (hp : priMin ≤ p ∧ p ≤ priMax) : ReadyInv (s.setPriority t p) := by
  refine ⟨?_, fun u hu => ?_, fun u hu hi => ?_, fun u => ?_, h.idle_func, fun u hu => ?_,
    fun u hu => ?_, fun u hu => ?_, fun u hu => ?_⟩
  · refine h.filed.congr fun u hu => ?_
    have hne : u ≠ t := fun e => ht (e ▸ hu)
    rw [priority_setPriority, if_neg hne]
  · rw [status_setPriority]
    exact h.queued_ready u hu
  · rw [status_setPriority] at hu
    exact h.ready_queued u hu hi
  · rw [priority_setPriority]
    split
    · exact hp
    · exact h.prio u
  · rw [status_setPriority]
    exact h.idle_live u hu
  · rw [name_setPriority]
    exact h.idleFunc_name u hu
  · rw [status_setPriority]
    exact h.fresh u hu
  · rw [status_setPriority] at hu
    exact h.all_mem u hu

theorem RunInv.setPriority (h : RunInv s) (ht : ¬ Queued s.readyList t)
    (hp : priMin ≤ p ∧ p ≤ priMax) : RunInv (s.setPriority t p) := by
  refine ⟨h.toReadyInv.setPriority ht hp, fun u => ?_⟩
  rw [status_setPriority]
  exact h.running u

/-- **Priority and queue change together**: the pair of stores that both walks over the lists
    make keeps the invariant. -/
theorem RunInv.requeue (h : RunInv s) (ht : Queued s.readyList t) (hp : priMin ≤ p ∧ p ≤ priMax) :
    RunInv (s.requeue t p) := by
  have hq : ∀ u, Queued (s.requeue t p).readyList u ↔ Queued s.readyList u := by
    intro u
    exact h.filed.queued_move ht
  have hst : ∀ u, (s.requeue t p).status u = s.status u := s.status_setPriority t (p := p)
  have hnm : ∀ u, (s.requeue t p).name u = s.name u := s.name_setPriority t (p := p)
  have hpr : ∀ u, (s.requeue t p).priority u = if u = t then p else s.priority u :=
    s.priority_setPriority t (p := p)
  refine ⟨⟨?_, fun u hu => ?_, fun u hu hi => ?_, fun u => ?_, h.idle_func, fun u hu => ?_,
    fun u hu => ?_, fun u hu => ?_, fun u hu => ?_⟩, fun u => ?_⟩
  · have hm : Filed (push (remove s.readyList t) ((s.requeue t p).priority t) t)
        (s.requeue t p).priority := h.filed.move t fun u hu => by rw [hpr, if_neg hu]
    rw [hpr t, if_pos rfl] at hm
    exact hm
  · rw [hst]
    exact h.queued_ready u ((hq u).mp hu)
  · rw [hst] at hu
    exact (hq u).mpr (h.ready_queued u hu hi)
  · rw [hpr]
    split
    · exact hp
    · exact h.prio u
  · rw [hst]
    exact h.idle_live u hu
  · rw [hnm]
    exact h.idleFunc_name u hu
  · rw [hst]
    exact h.fresh u hu
  · rw [hst] at hu
    exact h.all_mem u hu
  · rw [hst]
    exact h.running u

/-- **`thread_set_priority`** keeps the invariant for every argument that indexes a queue. -/
theorem threadSetPriority_inv (h : RunInv s) (hp : priMin ≤ p ∧ p ≤ priMax)
    (hs : threadSetPriority s p = some s') : RunInv s' := by
  have h1 : RunInv (s.setPriority s.running p) := h.setPriority h.running_not_queued hp
  unfold threadSetPriority at hs
  dsimp only at hs
  split at hs
  · exact (threadYield_inv h1 hs).1
  · cases hs
    exact h1

/-- **The mlfqs priority indexes a queue**, whatever the words `recent_cpu` and `nice` hold. -/
theorem bsdCalcPriorityThis_range (recentCpu nice : Int) :
    priMin ≤ bsdCalcPriorityThis recentCpu nice ∧ bsdCalcPriorityThis recentCpu nice ≤ priMax := by
  have clamp : ∀ p : Int, priMin ≤ (if (if p > priMax then priMax else p) < priMin then priMin
      else if p > priMax then priMax else p) ∧
      (if (if p > priMax then priMax else p) < priMin then priMin
        else if p > priMax then priMax else p) ≤ priMax := by
    intro p
    simp only [priMin, priMax]
    omega
  exact clamp _

theorem threadSetNice_inv (h : RunInv s) (hs : threadSetNice s nice = some s') : RunInv s' := by
  unfold threadSetNice at hs
  split at hs
  · have h1 : RunInv (s.modify s.running fun th => { th with nice := nice }) :=
      h.modify rfl rfl rfl
    have h2 := h1.setPriority h1.running_not_queued
      (bsdCalcPriorityThis_range ((s.modify s.running fun th =>
        { th with nice := nice }).thr s.running).recentCpu nice)
    dsimp only at hs
    split at hs
    · exact (threadYield_inv h2 hs).1
    · cases hs
      exact h2
  · cases hs

end Pintos
