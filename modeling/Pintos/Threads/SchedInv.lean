/-
  Subject:   The invariant of the scheduler, and what switching does to it.

  `ReadyInv` ties the ready queues to the thread records: a queued thread is ready and sits under
  its priority, a ready thread other than `idle_thread` is queued, priorities index an existing
  queue. `RunInv` adds that the running thread is the one with status `running`. Every function
  that switches passes through a state where no thread has that status, so `schedule` is specified
  from there (`schedule_cases`): the thread it picks has the highest priority of the queued ones.
-/
import Pintos.Threads.Thread

namespace Pintos

open Lib Sched

/-! ## 1. Reading a state after a store -/

variable {t u : Tid} {f : Thread → Thread} {s s' : Sched}

namespace Sched

theorem status_modify (s : Sched) (hf : (f (s.thr t)).status = s.status t) (u : Tid) :
    (s.modify t f).status u = s.status u := by
  by_cases h : u = t
  · subst h
    simp [modify, status, hf]
  · simp [modify, status, h]

theorem priority_modify (s : Sched) (hf : (f (s.thr t)).priority = s.priority t) (u : Tid) :
    (s.modify t f).priority u = s.priority u := by
  by_cases h : u = t
  · subst h
    simp [modify, priority, hf]
  · simp [modify, priority, h]

theorem name_modify (s : Sched) (hf : (f (s.thr t)).name = s.name t) (u : Tid) :
    (s.modify t f).name u = s.name u := by
  by_cases h : u = t
  · subst h
    simp [modify, name, hf]
  · simp [modify, name, h]

@[simp] theorem status_setStatus (s : Sched) (t u : Tid) (st : ThreadStatus) :
    (s.setStatus t st).status u = if u = t then st else s.status u := by
  by_cases h : u = t
  · subst h
    simp [setStatus, modify, status]
  · simp [setStatus, modify, status, h]

@[simp] theorem priority_setStatus (s : Sched) (t u : Tid) (st : ThreadStatus) :
    (s.setStatus t st).priority u = s.priority u :=
  s.priority_modify (t := t) (f := fun th => { th with status := st }) rfl u

@[simp] theorem name_setStatus (s : Sched) (t u : Tid) (st : ThreadStatus) :
    (s.setStatus t st).name u = s.name u :=
  s.name_modify (t := t) (f := fun th => { th with status := st }) rfl u

@[simp] theorem status_setPriority (s : Sched) (t u : Tid) (p : Int) :
    (s.setPriority t p).status u = s.status u :=
  s.status_modify (t := t) (f := fun th => { th with priority := p }) rfl u

@[simp] theorem priority_setPriority (s : Sched) (t u : Tid) (p : Int) :
    (s.setPriority t p).priority u = if u = t then p else s.priority u := by
  by_cases h : u = t
  · subst h
    simp [setPriority, modify, priority]
  · simp [setPriority, modify, priority, h]

@[simp] theorem name_setPriority (s : Sched) (t u : Tid) (p : Int) :
    (s.setPriority t p).name u = s.name u :=
  s.name_modify (t := t) (f := fun th => { th with priority := p }) rfl u

end Sched

/-! ## 2. The invariant -/

/-- **The ready queues agree with the thread records.** -/
structure ReadyInv (s : Sched) : Prop where
  filed : Filed s.readyList s.priority
  queued_ready : ∀ t, Queued s.readyList t → s.status t = .ready
  ready_queued : ∀ t, s.status t = .ready → s.idleThread ≠ some t → Queued s.readyList t
  prio : ∀ t, priMin ≤ s.priority t ∧ s.priority t ≤ priMax
  idle_func : ∀ t, s.idleThread = some t → s.idleFunc = some t
  idle_live : ∀ t, s.idleThread = some t → s.status t ≠ .dying
  idleFunc_name : ∀ t, s.idleFunc = some t → t < s.nextThread ∧ s.name t = "idle"
  fresh : ∀ t, s.nextThread ≤ t → s.status t = .dying
  all_mem : ∀ t, s.status t ≠ .dying → t ∈ s.allList

/-- **The invariant between operations**: one thread runs, the one the CPU is on. -/
structure RunInv (s : Sched) : Prop extends ReadyInv s where
  running : ∀ t, s.status t = .running ↔ t = s.running

/-- No queued thread has a strictly higher priority than the running one. -/
def NoHigher (s : Sched) : Prop :=
  ∀ t, Queued s.readyList t → s.priority t ≤ s.priority s.running

theorem ReadyInv.congr (h : ReadyInv s) (hst : ∀ t, s'.status t = s.status t)
    (hpr : ∀ t, s'.priority t = s.priority t) (hnm : ∀ t, s'.name t = s.name t)
    (hr : s'.readyList = s.readyList) (hi : s'.idleThread = s.idleThread)
    (hf : s'.idleFunc = s.idleFunc) (hn : s'.nextThread = s.nextThread)
    (ha : s'.allList = s.allList) : ReadyInv s' := by
  obtain ⟨h1, h2, h3, h4, h5, h6, h7, h8, h9⟩ := h
  have est : s'.status = s.status := funext hst
  have epr : s'.priority = s.priority := funext hpr
  have enm : s'.name = s.name := funext hnm
  exact ⟨by rw [hr, epr]; exact h1, by rw [hr, est]; exact h2, by rw [hr, est, hi]; exact h3,
    by rw [epr]; exact h4, by rw [hi, hf]; exact h5, by rw [hi, est]; exact h6,
    by rw [hf, hn, enm]; exact h7, by rw [hn, est]; exact h8, by rw [est, ha]; exact h9⟩

theorem RunInv.congr (h : RunInv s) (hst : ∀ t, s'.status t = s.status t)
    (hpr : ∀ t, s'.priority t = s.priority t) (hnm : ∀ t, s'.name t = s.name t)
    (hr : s'.readyList = s.readyList) (hi : s'.idleThread = s.idleThread)
    (hf : s'.idleFunc = s.idleFunc) (hn : s'.nextThread = s.nextThread)
    (ha : s'.allList = s.allList) (hu : s'.running = s.running) : RunInv s' := by
  refine ⟨h.toReadyInv.congr hst hpr hnm hr hi hf hn ha, fun t => ?_⟩
  rw [hst, hu]
  exact h.running t

theorem RunInv.setIntr (h : RunInv s) (level : IntrLevel) : RunInv { s with intr := level } :=
  h.congr (fun _ => rfl) (fun _ => rfl) (fun _ => rfl) rfl rfl rfl rfl rfl rfl

theorem RunInv.modify (h : RunInv s) (hst : (f (s.thr t)).status = s.status t)
    (hpr : (f (s.thr t)).priority = s.priority t) (hnm : (f (s.thr t)).name = s.name t) :
    RunInv (s.modify t f) :=
  h.congr (s.status_modify hst) (s.priority_modify hpr) (s.name_modify hnm) rfl rfl rfl rfl rfl
    rfl

theorem ReadyInv.idle_name (h : ReadyInv s) (ht : s.idleThread = some t) : s.name t = "idle" :=
  (h.idleFunc_name t (h.idle_func t ht)).2

theorem ReadyInv.not_queued (h : ReadyInv s) (ht : s.status t ≠ .ready) : ¬ Queued s.readyList t :=
  fun hq => ht (h.queued_ready t hq)

theorem RunInv.running_status (h : RunInv s) : s.status s.running = .running :=
  (h.running s.running).mpr rfl

theorem RunInv.running_not_queued (h : RunInv s) : ¬ Queued s.readyList s.running :=
  h.not_queued (by rw [h.running_status]; decide)

/-- A status is changed, and no queue: the thread leaves or enters a status that is not
    `ready`. -/
theorem ReadyInv.setStatus (h : ReadyInv s) {st : ThreadStatus} (ht : ¬ Queued s.readyList t)
    (hst : st = .ready → s.idleThread = some t) (hlive : t < s.nextThread)
    (hdy : st = .dying → s.idleThread ≠ some t) (hall : st ≠ .dying → t ∈ s.allList) :
    ReadyInv (s.setStatus t st) where
  filed := h.filed.congr fun u _ => s.priority_setStatus t u st
  queued_ready u hu := by
    have hne : u ≠ t := fun e => ht (e ▸ hu)
    rw [status_setStatus, if_neg hne]
    exact h.queued_ready u hu
  ready_queued u hu hi := by
    rw [status_setStatus] at hu
    split at hu
    · rename_i e
      subst e
      exact absurd (hst hu) hi
    · exact h.ready_queued u hu hi
  prio u := by
    rw [priority_setStatus]
    exact h.prio u
  idle_func := h.idle_func
  idle_live u hu := by
    rw [status_setStatus]
    split
    · rename_i e
      subst e
      exact fun hd => hdy hd hu
    · exact h.idle_live u hu
  idleFunc_name u hu := by
    rw [name_setStatus]
    exact h.idleFunc_name u hu
  fresh u hu := by
    have hu' : s.nextThread ≤ u := hu
    have hne : u ≠ t := Nat.ne_of_gt (Nat.lt_of_lt_of_le hlive hu')
    rw [status_setStatus, if_neg hne]
    exact h.fresh u hu'
  all_mem u hu := by
    rw [status_setStatus] at hu
    split at hu
    · rename_i e
      subst e
      exact hall hu
    · exact h.all_mem u hu

theorem ReadyInv.lt_next (h : ReadyInv s) (ht : s.status t ≠ .dying) : t < s.nextThread :=
  Nat.lt_of_not_le fun hle => ht (h.fresh t hle)

/-! ## 3. The highest priority -/

theorem topQueue_none (h : ReadyInv s) (ht : topQueue s = none) (u : Tid) :
    ¬ Queued s.readyList u := by
  intro hq
  obtain ⟨hlo, hhi⟩ := h.prio u
  simp only [priMin, priMax] at hlo hhi
  have hm := h.filed.mem_key hq
  have hz := highest_none ht (s.priority u).toNat (by omega)
  rw [Int.toNat_of_nonneg hlo] at hz
  rw [hz] at hm
  exact List.not_mem_nil hm

theorem topQueue_some (h : ReadyInv s) {i : ℕ} (ht : topQueue s = some i) :
    s.readyList i ≠ [] ∧ ∀ u, Queued s.readyList u → s.priority u ≤ i := by
  obtain ⟨_, hne, habove⟩ := highest_some ht
  refine ⟨hne, fun u hq => ?_⟩
  obtain ⟨hlo, hhi⟩ := h.prio u
  simp only [priMin, priMax] at hlo hhi
  have hm := h.filed.mem_key hq
  by_contra hc
  have hz := habove (s.priority u).toNat (by omega) (by omega)
  rw [Int.toNat_of_nonneg hlo] at hz
  rw [hz] at hm
  exact List.not_mem_nil hm

theorem le_threadTopPriority (h : ReadyInv s) (hq : Queued s.readyList u) :
    s.priority u ≤ threadTopPriority s := by
  unfold threadTopPriority
  split
  · rename_i i hi
    exact (topQueue_some h hi).2 u hq
  · rename_i hn
    exact absurd hq (topQueue_none h hn u)

/-- **`thread_top_priority` is 0 or the priority of a queued thread.** -/
theorem threadTopPriority_cases (h : ReadyInv s) :
    threadTopPriority s = 0 ∨ ∃ u, Queued s.readyList u ∧ s.priority u = threadTopPriority s := by
  unfold threadTopPriority
  split
  · rename_i i hi
    obtain ⟨u, hu⟩ := List.exists_mem_of_ne_nil _ (topQueue_some h hi).1
    exact .inr ⟨u, ⟨_, hu⟩, h.filed.key_eq hu⟩
  · exact .inl rfl

theorem threadTopPriority_le (h : ReadyInv s) (hn : NoHigher s) :
    threadTopPriority s ≤ s.priority s.running := by
  rcases threadTopPriority_cases h with h0 | ⟨u, hq, hu⟩
  · rw [h0]
    exact (h.prio s.running).1
  · rw [← hu]
    exact hn u hq

/-! ## 4. The switch -/

/-- **What `schedule` does**: it takes the thread it picks off its queue, no queued thread has a
    higher priority, and the rest of the state stays. -/
theorem schedule_cases (h : ReadyInv s) (hs : schedule s = some s') :
    ∃ next q, s' = threadScheduleTail { s with readyList := q, running := next } ∧
      Filed q s.priority ∧ (∀ u, Queued q u ↔ u ≠ next ∧ Queued s.readyList u) ∧
      (∀ u, Queued s.readyList u → s.priority u ≤ s.priority next) ∧
      (Queued s.readyList next ∨ s.idleThread = some next) := by
  unfold schedule at hs
  split at hs
  · rename_i next s₁ hn
    cases hs
    unfold nextThreadToRun at hn
    split at hn
    · rename_i i hi
      split at hn
      · rename_i t l hl
        cases hn
        have hk : s.priority next = i := h.filed.key_eq (hl ▸ List.mem_cons_self)
        refine ⟨next, _, rfl, h.filed.tail hl, fun u => h.filed.queued_tail hl,
          fun u hu => ?_, .inl ⟨_, hl ▸ List.mem_cons_self⟩⟩
        rw [hk]
        exact (topQueue_some h hi).2 u hu
      · cases hn
    · rename_i hi
      have hnone := topQueue_none h hi
      split at hn
      · rename_i t ht
        cases hn
        refine ⟨next, s.readyList, rfl, h.filed, fun u => ?_, fun u hu => absurd hu (hnone u),
          .inr ht⟩
        exact ⟨fun hu => absurd hu (hnone u), fun hu => hu.2⟩
      · cases hn
  · cases hs

/-- **A switch ends in the invariant**, from any state whose queues are in order and where no
    thread has status `running`; the thread it picked is one of the highest priority. -/
theorem schedule_inv (h : ReadyInv s) (hno : ∀ t, s.status t ≠ .running)
    (hs : schedule s = some s') : RunInv s' ∧ NoHigher s' := by
  obtain ⟨next, q, rfl, hfil, hq, htop, hwho⟩ := schedule_cases h hs
  have hlive : s.status next ≠ .dying := by
    rcases hwho with hn | hn
    · rw [h.queued_ready next hn]
      decide
    · exact h.idle_live next hn
  have hbase : ReadyInv (({ s with readyList := q, running := next } : Sched).setStatus next
      .running) := by
    refine ⟨?_, fun u hu => ?_, fun u hu hi => ?_, fun u => ?_, fun u hu => ?_, fun u hu => ?_,
      fun u hu => ?_, fun u hu => ?_, fun u hu => ?_⟩
    · exact hfil.congr fun u _ => by rw [priority_setStatus]; rfl
    · have hu' := (hq u).mp hu
      rw [status_setStatus, if_neg hu'.1]
      exact h.queued_ready u hu'.2
    · rw [status_setStatus] at hu
      split at hu
      · cases hu
      · rename_i hne
        exact (hq u).mpr ⟨hne, h.ready_queued u hu hi⟩
    · rw [priority_setStatus]
      exact h.prio u
    · exact h.idle_func u hu
    · rw [status_setStatus]
      split
      · decide
      · exact h.idle_live u hu
    · rw [name_setStatus]
      exact h.idleFunc_name u hu
    · have hlt := h.lt_next hlive
      have hu' : s.nextThread ≤ u := hu
      have hne : u ≠ next := Nat.ne_of_gt (Nat.lt_of_lt_of_le hlt hu')
      rw [status_setStatus, if_neg hne]
      exact h.fresh u hu'
    · rw [status_setStatus] at hu
      split at hu
      · rename_i e
        subst e
        exact h.all_mem _ hlive
      · exact h.all_mem u hu
  refine ⟨⟨hbase.congr (fun _ => rfl) (fun _ => rfl) (fun _ => rfl) rfl rfl rfl rfl rfl, fun t => ?_⟩,
    fun u hu => ?_⟩
  · show (({ s with readyList := q, running := next } : Sched).setStatus next .running).status t =
      .running ↔ t = next
    rw [status_setStatus]
    split
    · rename_i e
      exact iff_of_true rfl e
    · rename_i hne
      exact iff_of_false (hno t) hne
  · show (({ s with readyList := q, running := next } : Sched).setStatus next .running).priority u ≤
      (({ s with readyList := q, running := next } : Sched).setStatus next .running).priority next
    rw [priority_setStatus, priority_setStatus]
    exact htop u ((hq u).mp hu).2

end Pintos
