/-
  Subject:   What aging measures, over whole runs of the scheduler.

  * `thread_aging` promotes a queued thread whenever its time since `recent_unused` is a multiple of
    100 ticks. `thread_yield` stores the tick there, and so does `init_thread`; `thread_unblock`,
    the other way into the queues, does not.
  * `AgingRun` is the scheduler with the tick and the priority at which each thread last entered the
    queues. `QueueMoves` says what a step that is no tick does to the queues; a tick raises by one
    the threads that are due (`AgedTick`).
  * So in every run the promotions since the entry are counted from `recent_unused`
    (`AgingInv.count`), and **`aging_waiting_time`** says that they are counted from the entry in
    the runs that wake threads at a multiple of 100 ticks after their `recent_unused`.
-/
import Pintos.Threads.Aging

namespace Pintos

open Lib

/-! ## 1. Runs -/

/-- `t` stands in the ready queue of its priority. -/
def waiting (s : Sched) (t : Tid) : Bool := decide (t ∈ s.readyList (s.priority t))

/-- The scheduler, with the tick and the priority at which each thread entered the queues last. -/
structure AgingRun where
  sched : Sched
  since : Tid → Int × Int

/-- The entries after a step from `a` to `s`: a thread that was not queued has entered now. -/
def AgingRun.entered (a : AgingRun) (s : Sched) (t : Tid) : Int × Int :=
  if waiting s t && !waiting a.sched t then (s.ticks, s.priority t) else a.since t

def agingRunStep (a : AgingRun) (op : SchedOp) : Option AgingRun :=
  (schedStep a.sched op).map fun s => ⟨s, a.entered s⟩

/-- Round-robin scheduling with aging, after `thread_init`. -/
def agingStart : AgingRun := ⟨threadInit false true, fun _ => (0, 0)⟩

/-- A thread that is made ready, a new one included, is a multiple of 100 ticks past its
    `recent_unused`. A `thread_create` that is not interrupted makes its thread ready in the tick that
    `init_thread` has stored. -/
def onTheHundred (a : AgingRun) : SchedOp → Prop
  | .threadUnblock t | .unblockOnly t | .threadExit (some t) =>
    (a.sched.ticks - (a.sched.thr t).recentUnused) % 100 = 0
  | .timerTick woken =>
    ∀ t ∈ woken, (a.sched.ticks + 1 - (a.sched.thr t).recentUnused) % 100 = 0
  | _ => True

namespace Sched

def recentUnused (s : Sched) (t : Tid) : Int := (s.thr t).recentUnused

theorem recentUnused_setStatus (s : Sched) (t u : Tid) (st : ThreadStatus) :
    (s.setStatus t st).recentUnused u = s.recentUnused u := by
  by_cases h : u = t
  · subst h
    simp [setStatus, modify, recentUnused]
  · simp [setStatus, modify, recentUnused, h]

theorem recentUnused_setPriority (s : Sched) (t u : Tid) (p : Int) :
    (s.setPriority t p).recentUnused u = s.recentUnused u := by
  by_cases h : u = t
  · subst h
    simp [setPriority, modify, recentUnused]
  · simp [setPriority, modify, recentUnused, h]

end Sched

theorem waiting_iff {s : Sched} (h : RunInv s) (t : Tid) :
    waiting s t = true ↔ Queued s.readyList t := by
  rw [waiting, decide_eq_true_eq]
  exact ⟨fun hm => ⟨_, hm⟩, h.filed.mem_key⟩

/-! ## 2. Steps between ticks -/

/-- **A step that is no tick.** `W` are the threads it may make ready; every other thread that comes
    into the queues has the tick stored, and one that stays there is left alone. -/
structure QueueMoves (W : Tid → Prop) (s s' : Sched) : Prop where
  ticks : s'.ticks = s.ticks
  mlfqs : s'.mlfqs = s.mlfqs
  aging : s'.priorAging = s.priorAging
  unused : ∀ t, s'.recentUnused t = s.recentUnused t ∨ s'.recentUnused t = s.ticks
  stay : ∀ t, Queued s.readyList t → Queued s'.readyList t →
    s'.priority t = s.priority t ∧ s'.recentUnused t = s.recentUnused t
  enter : ∀ t, ¬ Queued s.readyList t → Queued s'.readyList t →
    s'.recentUnused t = s.ticks ∨ W t

/-- No thread leaves the queues. -/
def KeepsQueued (s s' : Sched) : Prop := ∀ t, Queued s.readyList t → Queued s'.readyList t

namespace QueueMoves

variable {W V : Tid → Prop} {s s₁ s' : Sched}

/-- A thread that left the queues and came back within the composition would be missed; the first
    part lets none leave. -/
theorem trans (h : QueueMoves W s s₁) (hk : KeepsQueued s s₁) (h' : QueueMoves W s₁ s') :
    QueueMoves W s s' where
  ticks := h'.ticks.trans h.ticks
  mlfqs := h'.mlfqs.trans h.mlfqs
  aging := h'.aging.trans h.aging
  unused t := by
    rcases h'.unused t with he | he
    · rw [he]
      exact h.unused t
    · exact .inr (he.trans h.ticks)
  stay t ht ht' := by
    obtain ⟨hp, hu⟩ := h.stay t ht (hk t ht)
    obtain ⟨hp', hu'⟩ := h'.stay t (hk t ht) ht'
    exact ⟨hp'.trans hp, hu'.trans hu⟩
  enter t ht ht' := by
    by_cases ht1 : Queued s₁.readyList t
    · rw [(h'.stay t ht1 ht').2]
      exact h.enter t ht ht1
    · rw [← h.ticks]
      exact h'.enter t ht1 ht'

theorem mono (h : QueueMoves W s s') (hW : ∀ t, W t → V t) : QueueMoves V s s' :=
  { h with enter := fun t ht ht' => (h.enter t ht ht').imp_right (hW t) }

/-- The threads that are made ready have the tick stored already. -/
theorem stored (h : QueueMoves W s s') (hW : ∀ t, W t → s.recentUnused t = s.ticks) :
    QueueMoves (fun _ => False) s s' :=
  { h with
    enter := fun t ht ht' => by
      rcases h.enter t ht ht' with he | hw
      · exact .inl he
      · rcases h.unused t with hu | hu
        · exact .inl (hu.trans (hW t hw))
        · exact .inl hu }

/-- No thread comes into the queues, and none of those in them is touched. -/
theorem leave (hq : ∀ t, Queued s'.readyList t → Queued s.readyList t)
    (hp : ∀ t, Queued s.readyList t → s'.priority t = s.priority t)
    (hu : ∀ t, s'.recentUnused t = s.recentUnused t) (ht : s'.ticks = s.ticks)
    (hm : s'.mlfqs = s.mlfqs) (ha : s'.priorAging = s.priorAging) : QueueMoves W s s' where
  ticks := ht
  mlfqs := hm
  aging := ha
  unused t := .inl (hu t)
  stay t hs _ := ⟨hp t hs, hu t⟩
  enter t hno hyes := absurd (hq t hyes) hno

theorem store (hq : s'.readyList = s.readyList) (hthr : s'.thr = s.thr) (ht : s'.ticks = s.ticks)
    (hm : s'.mlfqs = s.mlfqs) (ha : s'.priorAging = s.priorAging) : QueueMoves W s s' :=
  leave (fun _ h => hq ▸ h) (fun t _ => congrArg (fun f => (f t).priority) hthr)
    (fun t => congrArg (fun f => (f t).recentUnused) hthr) ht hm ha

end QueueMoves

section Steps

variable {W : Tid → Prop} {s s' : Sched} {t : Tid}

theorem schedule_moves (hs : schedule s = some s') : QueueMoves W s s' := by
  unfold schedule at hs
  split at hs
  · rename_i next s₁ hn
    cases hs
    unfold nextThreadToRun at hn
    have hq : (∀ t, Queued s₁.readyList t → Queued s.readyList t) ∧ s₁.thr = s.thr ∧
        s₁.ticks = s.ticks ∧ s₁.mlfqs = s.mlfqs ∧ s₁.priorAging = s.priorAging := by
      split at hn
      · split at hn
        · rename_i i _ _ u l hl
          cases hn
          refine ⟨fun t ht => ?_, rfl, rfl, rfl, rfl⟩
          obtain ⟨j, hj⟩ := ht
          refine ⟨j, ?_⟩
          by_cases hji : j = i
          · subst hji
            rw [hl]
            exact List.mem_cons_of_mem _ (by simpa using hj)
          · simpa [hji] using hj
        · cases hn
      · split at hn
        · cases hn
          exact ⟨fun _ ht => ht, rfl, rfl, rfl, rfl⟩
        · cases hn
    obtain ⟨hqueued, hthr, hticks, hmode, haging⟩ := hq
    refine QueueMoves.leave hqueued (fun t _ => ?_) (fun t => ?_) hticks hmode haging
    · show (Sched.setStatus { s₁ with running := next } next .running).priority t = _
      rw [Sched.priority_setStatus]
      exact congrArg (fun f => (f t).priority) hthr
    · show (Sched.setStatus { s₁ with running := next } next .running).recentUnused t = _
      rw [Sched.recentUnused_setStatus]
      exact congrArg (fun f => (f t).recentUnused) hthr
  · cases hs

theorem setStatus_schedule_moves {st : ThreadStatus} (hs : schedule (s.setStatus t st) = some s') :
    QueueMoves W s s' := by
  have hfirst : QueueMoves W s (s.setStatus t st) :=
    QueueMoves.leave (fun _ hq => hq) (fun u _ => s.priority_setStatus t u st)
      (fun u => s.recentUnused_setStatus t u st) rfl rfl rfl
  exact hfirst.trans (fun _ hq => hq) (schedule_moves hs)

/-- **`thread_yield`** stores the tick. -/
theorem threadYield_moves (h : RunInv s) (hy : threadYield s = some s') : QueueMoves W s s' := by
  unfold threadYield at hy
  split at hy
  · cases hy
  · dsimp only at hy
    split at hy
    · have hoff : QueueMoves W s { s with intr := .off } := QueueMoves.store rfl rfl rfl rfl rfl
      exact hoff.trans (fun _ hq => hq) (setStatus_schedule_moves hy)
    · let s₁ : Sched := ({ s with intr := .off }.pushReady (s.priority s.running) s.running).modify
        s.running fun th => { th with recentUnused := s.ticks }
      have hne : ∀ u, Queued s.readyList u → u ≠ s.running := fun u hu e =>
        h.running_not_queued (e ▸ hu)
      have hpr : ∀ u, s₁.priority u = s.priority u := fun u => Sched.priority_modify _ rfl u
      have hru : ∀ u, s₁.recentUnused u = if u = s.running then s.ticks else s.recentUnused u := by
        intro u
        by_cases hu : u = s.running
        · subst hu
          simp [s₁, Sched.recentUnused, Sched.modify, Sched.pushReady]
        · simp [s₁, Sched.recentUnused, Sched.modify, Sched.pushReady, hu]
      have hpush : ∀ u, Queued s₁.readyList u ↔ Queued s.readyList u ∨ u = s.running :=
        fun u => queued_push
      have hfirst : QueueMoves W s s₁ :=
        { ticks := rfl
          mlfqs := rfl
          aging := rfl
          unused := fun u => by
            rw [hru]
            split
            · exact .inr rfl
            · exact .inl rfl
          stay := fun u hu _ => ⟨hpr u, by rw [hru, if_neg (hne u hu)]⟩
          enter := fun u hu hu' => by
            have he := ((hpush u).mp hu').resolve_left hu
            exact .inl (by rw [hru, if_pos he]) }
      exact hfirst.trans (fun u hu => (hpush u).mpr (.inl hu)) (setStatus_schedule_moves hy)

/-- **`thread_unblock`**, up to its last test, stores nothing. -/
theorem unblockSection_moves {topPri : Int} (hu : unblockSection s t = some (topPri, s')) :
    QueueMoves (· = t) s s' ∧ KeepsQueued s s' := by
  unfold unblockSection at hu
  split at hu
  · cases hu
    have hpush : ∀ u, Queued ((s.pushReady (s.priority t) t).setStatus t .ready).readyList u ↔
        Queued s.readyList u ∨ u = t := fun u => queued_push
    refine ⟨⟨rfl, rfl, rfl, fun u => ?_, fun u _ _ => ⟨?_, ?_⟩, fun u hu hu' => ?_⟩, fun u hq => ?_⟩
    · exact .inl (Sched.recentUnused_setStatus _ t u .ready)
    · exact Sched.priority_setStatus _ t u .ready
    · exact Sched.recentUnused_setStatus _ t u .ready
    · exact .inr (((hpush u).mp hu').resolve_left hu)
    · exact (hpush u).mpr (.inl hq)
  · cases hu

theorem threadUnblock_moves (h : RunInv s) (hu : threadUnblock s t = some s') :
    QueueMoves (· = t) s s' := by
  unfold threadUnblock at hu
  split at hu
  · rename_i topPri s₁ hs
    obtain ⟨hm, hk⟩ := unblockSection_moves hs
    unfold unblockTail at hu
    split at hu
    · exact hm.trans hk (threadYield_moves (unblockSection_spec h hs).1 hu)
    · cases hu
      exact hm
  · cases hu

/-- `init_thread` stores the tick for the new thread, which is in no queue. -/
theorem addThread_moves (h : RunInv s) (name : String) (prio : Int) :
    QueueMoves W s (addThread s name prio) ∧
      (addThread s name prio).recentUnused s.nextThread = s.ticks := by
  have hold : ∀ u, u ≠ s.nextThread → (addThread s name prio).thr u = s.thr u :=
    fun u hu => Function.update_of_ne hu ..
  have hnew : (addThread s name prio).recentUnused s.nextThread = s.ticks := by
    show (Function.update s.thr s.nextThread (initThread s name prio) s.nextThread).recentUnused
      = s.ticks
    rw [Function.update_self]
    rfl
  have hne : ∀ u, Queued s.readyList u → u ≠ s.nextThread := by
    intro u hu he
    have hready := h.queued_ready u hu
    rw [h.fresh u (Nat.le_of_eq he.symm)] at hready
    cases hready
  refine ⟨⟨rfl, rfl, rfl, fun u => ?_, fun u hu _ => ?_, fun u hu hu' => absurd hu' hu⟩, hnew⟩
  · by_cases hu : u = s.nextThread
    · subst hu
      exact .inr hnew
    · exact .inl (congrArg Thread.recentUnused (hold u hu))
  · exact ⟨congrArg Thread.priority (hold u (hne u hu)),
      congrArg Thread.recentUnused (hold u (hne u hu))⟩

theorem threadCreate_moves {name : String} {prio : Int} {page : Bool} (h : RunInv s)
    (hc : threadCreate s name prio page = some s') : QueueMoves W s s' := by
  unfold threadCreate at hc
  split at hc
  · cases hc
    exact QueueMoves.store rfl rfl rfl rfl rfl
  · split at hc
    · rename_i hp
      obtain ⟨hfirst, hnew⟩ := addThread_moves (W := fun _ => False) h name prio
      have hrest := (threadUnblock_moves (addThread_inv h name hp) hc).stored fun u hu =>
        hu ▸ hnew
      exact (hfirst.trans (fun _ hq => hq) hrest).mono fun _ hf => hf.elim
    · cases hc

theorem threadExit_moves {waiter : Option Tid} (he : threadExit s waiter = some s') :
    QueueMoves (fun u => waiter = some u) s s' := by
  unfold threadExit at he
  dsimp only at he
  split at he
  · rename_i s₁ hw
    have hoff : QueueMoves (fun u => waiter = some u) s { s with intr := .off } :=
      QueueMoves.store rfl rfl rfl rfl rfl
    have hwake : QueueMoves (fun u => waiter = some u) { s with intr := .off } s₁ ∧
        KeepsQueued { s with intr := .off } s₁ := by
      cases waiter with
      | none =>
        cases hw
        exact ⟨QueueMoves.store rfl rfl rfl rfl rfl, fun _ hq => hq⟩
      | some w =>
        obtain ⟨⟨topPri, s₂⟩, hu, rfl⟩ := Option.map_eq_some_iff.mp hw
        obtain ⟨hm, hk⟩ := unblockSection_moves hu
        exact ⟨hm.mono fun u hu => congrArg some hu.symm, hk⟩
    have herase : QueueMoves (fun u => waiter = some u) s₁
        { s₁ with allList := s₁.allList.erase s₁.running } := QueueMoves.store rfl rfl rfl rfl rfl
    exact hoff.trans (fun _ hq => hq) (hwake.1.trans hwake.2
      (herase.trans (fun _ hq => hq) (setStatus_schedule_moves he)))
  · cases he

theorem setPriority_moves (h : RunInv s) (p : Int) :
    QueueMoves W s (s.setPriority s.running p) := by
  refine QueueMoves.leave (fun _ hq => hq) (fun u hu => ?_)
    (fun u => s.recentUnused_setPriority s.running u p) rfl rfl rfl
  have hne : u ≠ s.running := fun e => h.running_not_queued (e ▸ hu)
  rw [Sched.priority_setPriority, if_neg hne]

/-! ## 3. The tick -/

/-- **A tick of round-robin scheduling with aging**: the queues hold the same threads, and those
    that are due are higher by one. -/
structure AgedTick (s s' : Sched) : Prop where
  inv : RunInv s'
  intr : s'.intr = .off
  ticks : s'.ticks = s.ticks + 1
  mlfqs : s'.mlfqs = s.mlfqs
  aging : s'.priorAging = s.priorAging
  queued : ∀ t, Queued s'.readyList t ↔ Queued s.readyList t
  unused : ∀ t, s'.recentUnused t = s.recentUnused t
  priority : ∀ t, Queued s.readyList t → s'.priority t =
    if (s.ticks + 1 - s.recentUnused t) % 100 = 0 ∧ s.priority t < 63 then s.priority t + 1
    else s.priority t

theorem agedFrom_queued (h : RunInv s) (hinv : RunInv (agedFrom s 0)) (t : Tid) :
    Queued (agedFrom s 0).readyList t ↔ Queued s.readyList t := by
  have hlevel : ∀ {s : Sched}, RunInv s → (Queued s.readyList t ↔
      ∃ i : Fin 64, t ∈ s.readyList (i : ℕ)) := by
    intro s h
    refine ⟨fun hq => ?_, fun ⟨i, hi⟩ => ⟨_, hi⟩⟩
    obtain ⟨h0, h63⟩ := h.prio t
    simp only [priMin, priMax] at h0 h63
    refine ⟨⟨(s.priority t).toNat, by omega⟩, ?_⟩
    rw [show (((⟨(s.priority t).toNat, by omega⟩ : Fin 64) : ℕ) : Int) = s.priority t from
      Int.toNat_of_nonneg h0]
    exact h.filed.mem_key hq
  rw [hlevel hinv, hlevel h, ← mem_agedQueue s]
  exact exists_congr fun i => by rw [agedFrom_queue]

theorem agedFrom_priority (t : Tid) : (agedFrom s 0).priority t =
    if PromotedFrom s 0 t then s.priority t + 1 else s.priority t := by
  show (if PromotedFrom s 0 t then _ else s.thr t).priority = _
  split
  · rfl
  · rfl

theorem threadAging_tick (h : RunInv s) (hoff : s.intr = .off) : ∀ s₀ : Sched,
    s.ticks = s₀.ticks + 1 → s.mlfqs = s₀.mlfqs → s.priorAging = s₀.priorAging →
    s.readyList = s₀.readyList → s.thr = s₀.thr → AgedTick s₀ (threadAging s) := by
  intro s₀ hticks hm ha hq hthr
  obtain ⟨yield, hinv, -, heq⟩ := threadAging_eq h
  have hpr : s.priority = s₀.priority := funext fun u => congrArg (fun f => (f u).priority) hthr
  have hru : s.recentUnused = s₀.recentUnused :=
    funext fun u => congrArg (fun f => (f u).recentUnused) hthr
  rw [heq]
  refine ⟨hinv.congr (fun _ => rfl) (fun _ => rfl) (fun _ => rfl) rfl rfl rfl rfl rfl rfl, hoff,
    hticks, hm, ha, fun t => ?_, fun t => ?_, fun t ht => ?_⟩
  · rw [← hq]
    exact agedFrom_queued h hinv t
  · rw [← hru]
    show (if PromotedFrom s 0 t then _ else s.thr t).recentUnused = _
    split
    · rfl
    · rfl
  · rw [← hq] at ht
    rw [← hpr, ← hru, ← hticks]
    refine (agedFrom_priority t).trans (if_congr ⟨fun hp => ?_, fun hp => ?_⟩ rfl rfl)
    · exact ⟨of_decide_eq_true hp.2.2.2, hp.2.1⟩
    · exact ⟨(h.prio t).1, hp.2, h.filed.mem_key ht, decide_eq_true hp.1⟩

theorem threadTick_tick (h : RunInv s) (hm : s.mlfqs = false) (ha : s.priorAging = true) :
    AgedTick s (threadTick { intrEnter s with ticks := s.ticks + 1 }) := by
  have hrest : ∀ s₂ : Sched, RunInv s₂ → s₂.intr = .off → s₂.ticks = s.ticks + 1 →
      s₂.mlfqs = s.mlfqs → s₂.priorAging = s.priorAging → s₂.readyList = s.readyList →
      s₂.thr = s.thr → AgedTick s (if (if s₂.mlfqs then bsdSchedule s₂ else s₂).priorAging then
        threadAging (if s₂.mlfqs then bsdSchedule s₂ else s₂)
        else if s₂.mlfqs then bsdSchedule s₂ else s₂) := by
    intro s₂ h2 hoff hticks hm2 ha2 hq hthr
    have hrr : (if s₂.mlfqs then bsdSchedule s₂ else s₂) = s₂ := by
      rw [hm2, hm]
      rfl
    rw [hrr, ha2, ha, if_pos rfl]
    exact threadAging_tick h2 hoff s hticks hm2 ha2 hq hthr
  have hinv : ∀ (n : ℕ) (y : Bool), RunInv { intrEnter s with
      ticks := s.ticks + 1, threadTicks := n, yieldOnReturn := y } := fun n y =>
    h.congr (fun _ => rfl) (fun _ => rfl) (fun _ => rfl) rfl rfl rfl rfl rfl rfl
  unfold threadTick
  dsimp only
  split
  · exact hrest _ (hinv _ true) rfl rfl rfl rfl rfl rfl
  · exact hrest _ (hinv _ false) rfl rfl rfl rfl rfl rfl

/-- With interrupts off `thread_unblock` lets no thread run. -/
theorem wakeStep_moves (hoff : s.intr = .off) (hw : wakeStep (some s) t = some s') :
    QueueMoves (· = t) s s' ∧ KeepsQueued s s' := by
  obtain ⟨s₁, hu, rfl⟩ := Option.map_eq_some_iff.mp hw
  unfold threadUnblock at hu
  split at hu
  · rename_i topPri s₂ hs
    obtain ⟨hm, hk⟩ := unblockSection_moves hs
    have hi : s₂.intr = s.intr := by
      unfold unblockSection at hs
      split at hs
      · cases hs
        rfl
      · cases hs
    rw [unblockTail, if_neg fun hc => by rw [hi, hoff] at hc; cases hc.2] at hu
    cases hu
    exact ⟨hm.trans hk (QueueMoves.store rfl rfl rfl rfl rfl), hk⟩
  · cases hu

/-- The sleepers that `timer_interrupt` wakes, by induction on their list. -/
theorem wake_moves {l : List Tid} (h : RunInv s) (hoff : s.intr = .off)
    (hw : l.foldl wakeStep (some s) = some s') : QueueMoves (· ∈ l) s s' ∧ KeepsQueued s s' := by
  induction l generalizing s with
  | nil =>
    cases hw
    exact ⟨QueueMoves.store rfl rfl rfl rfl rfl, fun _ hq => hq⟩
  | cons t l ih =>
    rw [List.foldl_cons] at hw
    cases hs : wakeStep (some s) t with
    | none =>
      rw [hs, foldl_wakeStep_none] at hw
      cases hw
    | some s₁ =>
      rw [hs] at hw
      obtain ⟨h1, -, hoff1, -⟩ := wakeStep_spec h hoff hs
      obtain ⟨hm, hk⟩ := wakeStep_moves hoff hs
      obtain ⟨hm', hk'⟩ := ih h1 hoff1 hw
      have hfirst : QueueMoves (· ∈ t :: l) s s₁ := hm.mono fun u hu => hu ▸ List.mem_cons_self
      exact ⟨hfirst.trans hk (hm'.mono fun u => List.mem_cons_of_mem t),
        fun u hu => hk' u (hk u hu)⟩

/-- **The timer interrupt**: a tick, and then the sleepers and the yield. -/
theorem timerTick_moves {woken : List Tid} (h : RunInv s) (hm : s.mlfqs = false)
    (ha : s.priorAging = true) (hs : schedStep s (.timerTick woken) = some s') :
    ∃ s₁, AgedTick s s₁ ∧ QueueMoves (· ∈ woken) s₁ s' := by
  simp only [schedStep] at hs
  split at hs
  · obtain ⟨s₂, ht, he⟩ := Option.bind_eq_some_iff.mp hs
    have htick := threadTick_tick h hm ha
    obtain ⟨hwake, hk⟩ := wake_moves htick.inv htick.intr ht
    have h2 : RunInv { s₂ with inExternalIntr := false } :=
      (timerInterrupt_spec h ht).1.congr (fun _ => rfl) (fun _ => rfl) (fun _ => rfl) rfl rfl rfl
        rfl rfl rfl
    refine ⟨_, htick, hwake.trans hk ?_⟩
    have hleave : QueueMoves (· ∈ woken) s₂ { s₂ with inExternalIntr := false } :=
      QueueMoves.store rfl rfl rfl rfl rfl
    unfold intrExit at he
    dsimp only at he
    split at he
    · exact hleave.trans (fun _ hq => hq) (threadYield_moves h2 he)
    · cases he
      exact QueueMoves.store rfl rfl rfl rfl rfl
  · cases hs

/-- The threads that an event makes ready, apart from one that it creates in the same tick. -/
def SchedOp.wakes : SchedOp → Tid → Prop
  | .threadUnblock t, u | .unblockOnly t, u => u = t
  | .threadExit waiter, u => waiter = some u
  | .timerTick woken, u => u ∈ woken
  | _, _ => False

/-- **What an event does to the queues**, in round-robin scheduling. -/
theorem schedStep_moves (op : SchedOp) (h : RunInv s) (hm : s.mlfqs = false)
    (ha : s.priorAging = true) (hs : schedStep s op = some s') : ∃ s₁, QueueMoves op.wakes s₁ s' ∧
      (s₁ = s ∧ (∀ w, op ≠ .timerTick w) ∨ AgedTick s s₁ ∧ ∃ w, op = .timerTick w) := by
  cases op with
  | timerTick woken =>
    obtain ⟨s₁, htick, hmoves⟩ := timerTick_moves h hm ha hs
    exact ⟨s₁, hmoves, .inr ⟨htick, woken, rfl⟩⟩
  | intrSetLevel level =>
    cases hs
    exact ⟨s, QueueMoves.store rfl rfl rfl rfl rfl, .inl ⟨rfl, by simp⟩⟩
  | threadStart =>
    refine ⟨s, ?_, .inl ⟨rfl, by simp⟩⟩
    simp only [schedStep, threadStart] at hs
    split at hs
    · obtain ⟨s₁, hc, rfl⟩ := Option.map_eq_some_iff.mp hs
      have hcreate : QueueMoves (SchedOp.wakes .threadStart) s s₁ := threadCreate_moves h hc
      exact { hcreate with }
    · cases hs
  | idle =>
    refine ⟨s, ?_, .inl ⟨rfl, by simp⟩⟩
    simp only [schedStep, idleEntry] at hs
    split at hs
    · cases hs
      exact QueueMoves.store rfl rfl rfl rfl rfl
    · cases hs
  | threadCreate name priority page => exact ⟨s, threadCreate_moves h hs, .inl ⟨rfl, by simp⟩⟩
  | initThread name p =>
    refine ⟨s, ?_, .inl ⟨rfl, by simp⟩⟩
    simp only [schedStep] at hs
    split at hs
    · cases hs
      exact (addThread_moves h name p).1
    · cases hs
  | threadYield => exact ⟨s, threadYield_moves h hs, .inl ⟨rfl, by simp⟩⟩
  | threadBlock =>
    refine ⟨s, ?_, .inl ⟨rfl, by simp⟩⟩
    simp only [schedStep, threadBlock] at hs
    split at hs
    · cases hs
    · exact setStatus_schedule_moves hs
  | threadUnblock t => exact ⟨s, threadUnblock_moves h hs, .inl ⟨rfl, by simp⟩⟩
  | unblockOnly t =>
    obtain ⟨⟨topPri, s₁⟩, hu, rfl⟩ := Option.map_eq_some_iff.mp hs
    exact ⟨s, (unblockSection_moves hu).1, .inl ⟨rfl, by simp⟩⟩
  | threadExit waiter =>
    refine ⟨s, ?_, .inl ⟨rfl, by simp⟩⟩
    simp only [schedStep] at hs
    split at hs
    · cases hs
    · exact threadExit_moves hs
  | threadSetPriority p =>
    refine ⟨s, ?_, .inl ⟨rfl, by simp⟩⟩
    simp only [schedStep] at hs
    split at hs
    · rename_i hp
      have h1 := h.setPriority h.running_not_queued hp
      unfold threadSetPriority at hs
      dsimp only at hs
      split at hs
      · exact (setPriority_moves h p).trans (fun _ hq => hq) (threadYield_moves h1 hs)
      · cases hs
        exact setPriority_moves h p
    · cases hs
  | storePriority p =>
    refine ⟨s, ?_, .inl ⟨rfl, by simp⟩⟩
    simp only [schedStep] at hs
    split at hs
    · cases hs
      exact setPriority_moves h p
    · cases hs
  | threadSetNice nice =>
    simp only [schedStep, hm] at hs
    cases hs

end Steps

/-! ## 4. The law -/

/-- **The invariant of every run**: the promotions since the entry, counted from `recent_unused`. -/
structure AgingInv (a : AgingRun) : Prop where
  inv : RunInv a.sched
  mlfqs : a.sched.mlfqs = false
  aging : a.sched.priorAging = true
  past : ∀ t, Queued a.sched.readyList t → (a.since t).1 ≤ a.sched.ticks
  count : ∀ t, Queued a.sched.readyList t → a.sched.priority t = min 63 ((a.since t).2 +
    ((a.sched.ticks - a.sched.recentUnused t) / 100 -
      ((a.since t).1 - a.sched.recentUnused t) / 100))

/-- The queued threads entered a multiple of 100 ticks after their `recent_unused`. -/
def InStep (a : AgingRun) : Prop :=
  ∀ t, Queued a.sched.readyList t → ((a.since t).1 - a.sched.recentUnused t) % 100 = 0

variable {a a' : AgingRun}

section Law

variable {s s' : Sched} {since : Tid → Int × Int} {W : Tid → Prop}

theorem AgingInv.tick (h : AgingInv ⟨s, since⟩) (ht : AgedTick s s') : AgingInv ⟨s', since⟩ where
  inv := ht.inv
  mlfqs := ht.mlfqs.trans h.mlfqs
  aging := ht.aging.trans h.aging
  past t hq := by
    have hp := h.past t ((ht.queued t).mp hq)
    have hticks := ht.ticks
    dsimp only at hp ⊢
    omega
  count t hq := by
    have hq := (ht.queued t).mp hq
    have hc := h.count t hq
    have hp := ht.priority t hq
    dsimp only at hc ⊢
    rw [ht.unused, ht.ticks, hp]
    split
    · omega
    · omega

theorem InStep.tick (h : InStep ⟨s, since⟩) (ht : AgedTick s s') : InStep ⟨s', since⟩ := by
  intro t hq
  rw [ht.unused]
  exact h t ((ht.queued t).mp hq)

theorem entered_cases (h : RunInv a.sched) (h' : RunInv s') {t : Tid} (hq : Queued s'.readyList t) :
    Queued a.sched.readyList t ∧ a.entered s' t = a.since t ∨
      ¬ Queued a.sched.readyList t ∧ a.entered s' t = (s'.ticks, s'.priority t) := by
  have hw' := (waiting_iff h' t).mpr hq
  unfold AgingRun.entered
  cases hw : waiting a.sched t with
  | true =>
    refine .inl ⟨(waiting_iff h t).mp hw, if_neg ?_⟩
    rw [Bool.not_true, Bool.and_false]
    exact Bool.false_ne_true
  | false =>
    refine .inr ⟨fun hc => ?_, if_pos ?_⟩
    · rw [(waiting_iff h t).mpr hc] at hw
      cases hw
    · rw [hw']
      rfl

/-- **The invariant over the rest of a step**, when the tick, if there was one, is done. -/
theorem AgingInv.moves (ha : RunInv a.sched) (h : AgingInv ⟨s, a.since⟩)
    (hq : ∀ t, Queued s.readyList t ↔ Queued a.sched.readyList t) (hm : QueueMoves W s s')
    (h' : RunInv s') : AgingInv ⟨s', a.entered s'⟩ where
  inv := h'
  mlfqs := hm.mlfqs.trans h.mlfqs
  aging := hm.aging.trans h.aging
  past t ht := by
    show (a.entered s' t).1 ≤ s'.ticks
    rcases entered_cases ha h' ht with ⟨hold, he⟩ | ⟨-, he⟩
    · rw [he, hm.ticks]
      exact h.past t ((hq t).mpr hold)
    · exact Int.le_of_eq (by rw [he])
  count t ht := by
    show s'.priority t = min 63 ((a.entered s' t).2 + ((s'.ticks - s'.recentUnused t) / 100 -
      ((a.entered s' t).1 - s'.recentUnused t) / 100))
    rcases entered_cases ha h' ht with ⟨hold, he⟩ | ⟨-, he⟩
    · obtain ⟨hp, hu⟩ := hm.stay t ((hq t).mpr hold) ht
      rw [he, hp, hu, hm.ticks]
      exact h.count t ((hq t).mpr hold)
    · have hle : s'.priority t ≤ 63 := (h'.prio t).2
      rw [he]
      omega

theorem InStep.moves (ha : RunInv a.sched) (h : InStep ⟨s, a.since⟩)
    (hq : ∀ t, Queued s.readyList t ↔ Queued a.sched.readyList t) (hm : QueueMoves W s s')
    (h' : RunInv s') (hW : ∀ t, W t → (s.ticks - s.recentUnused t) % 100 = 0) :
    InStep ⟨s', a.entered s'⟩ := by
  intro t ht
  show ((a.entered s' t).1 - s'.recentUnused t) % 100 = 0
  rcases entered_cases ha h' ht with ⟨hold, he⟩ | ⟨hnew, he⟩
  · rw [he, (hm.stay t ((hq t).mpr hold) ht).2]
    exact h t ((hq t).mpr hold)
  · rw [he, hm.ticks]
    rcases hm.enter t (fun hc => hnew ((hq t).mp hc)) ht with hu | hw
    · rw [hu, Int.sub_self]
      rfl
    · rcases hm.unused t with hu | hu
      · rw [hu]
        exact hW t hw
      · rw [hu, Int.sub_self]
        rfl

end Law

theorem agingRunStep_inv {op : SchedOp} (h : AgingInv a) (hs : agingRunStep a op = some a') :
    AgingInv a' ∧ (InStep a → onTheHundred a op → InStep a') := by
  obtain ⟨s', hstep, rfl⟩ := Option.map_eq_some_iff.mp hs
  have h' := schedStep_inv op h.inv hstep
  obtain ⟨s₁, hm, hfrom⟩ := schedStep_moves op h.inv h.mlfqs h.aging hstep
  rcases hfrom with ⟨rfl, hop⟩ | ⟨htick, woken, rfl⟩
  · refine ⟨AgingInv.moves h.inv h (fun _ => Iff.rfl) hm h', fun hin hon =>
      InStep.moves h.inv hin (fun _ => Iff.rfl) hm h' fun t hw => ?_⟩
    cases op with
    | timerTick woken => exact absurd rfl (hop woken)
    | threadUnblock u => exact (show t = u from hw) ▸ hon
    | unblockOnly u => exact (show t = u from hw) ▸ hon
    | threadExit waiter =>
      obtain rfl : waiter = some t := hw
      exact hon
    | _ => exact hw.elim
  · refine ⟨AgingInv.moves h.inv (h.tick htick) htick.queued hm h', fun hin hon =>
      InStep.moves h.inv (hin.tick htick) htick.queued hm h' fun t hw => ?_⟩
    rw [htick.ticks, htick.unused]
    exact hon t hw

theorem agingStart_inv : AgingInv agingStart ∧ InStep agingStart := by
  have hnone : ∀ t, ¬ Queued agingStart.sched.readyList t := fun t ⟨_, ht⟩ => List.not_mem_nil ht
  exact ⟨⟨threadInit_inv false true, rfl, rfl, fun t ht => absurd ht (hnone t),
    fun t ht => absurd ht (hnone t)⟩, fun t ht => absurd ht (hnone t)⟩

/-- **Aging measures the time in the queues**, in the runs that wake threads on the hundred: a
    thread that entered the queues at tick `r` and has stayed there has been promoted once for every
    100 ticks since, up to `PRI_MAX`. -/
theorem aging_waiting_time (a : AgingRun) (h : Reach agingRunStep onTheHundred agingStart a)
    (t : Tid) (hw : waiting a.sched t = true) : ∃ n : ℕ, a.sched.ticks = (a.since t).1 + n ∧
      a.sched.priority t = min 63 ((a.since t).2 + (n / 100 : ℕ)) := by
  obtain ⟨hinv, hin⟩ := h.invariant (I := fun a => AgingInv a ∧ InStep a) agingStart_inv
    fun a op a' hi ok hs => ⟨(agingRunStep_inv hi.1 hs).1, (agingRunStep_inv hi.1 hs).2 hi.2 ok⟩
  have hq := (waiting_iff hinv.inv t).mp hw
  have hpast := hinv.past t hq
  have hcount := hinv.count t hq
  have hstep := hin t hq
  refine ⟨(a.sched.ticks - (a.since t).1).toNat, by omega, ?_⟩
  rw [hcount]
  omega

instance (a : AgingRun) : (op : SchedOp) → Decidable (onTheHundred a op)
  | .threadUnblock _ | .unblockOnly _ | .threadExit (some _) => inferInstanceAs (Decidable (_ = _))
  | .timerTick woken => inferInstanceAs (Decidable (∀ t ∈ woken, _))
  | .intrSetLevel _ | .threadStart | .idle | .threadCreate .. | .initThread .. | .threadYield
  | .threadBlock | .threadExit none | .threadSetPriority _ | .storePriority _
  | .threadSetNice _ => .isTrue trivial

/-- A thread is created, and woken in the same tick; it waits for one tick. -/
def createdRun : List SchedOp :=
  [.initThread "a" 10, .threadUnblock 1, .intrSetLevel .on, .timerTick []]

theorem aging_waiting_time_created : ∃ a, runList agingRunStep agingStart createdRun = some a ∧
    a.since 1 = (0, 10) ∧ a.sched.ticks = 1 ∧ a.sched.priority 1 = 10 := by
  have hsome : ((runList (stepIf agingRunStep onTheHundred) agingStart createdRun).map fun a =>
      (a.since 1, a.sched.ticks, waiting a.sched 1)) = some ((0, 10), 1, true) := by
    decide +kernel
  obtain ⟨a, ha, he⟩ := Option.map_eq_some_iff.mp hsome
  have hsince : a.since 1 = (0, 10) := congrArg Prod.fst he
  have hticks : a.sched.ticks = 1 := congrArg (fun x => x.2.1) he
  have hw : waiting a.sched 1 = true := congrArg (fun x => x.2.2) he
  have hreach : Reach agingRunStep onTheHundred agingStart a := reach_runIf _ ha
  obtain ⟨n, hn, hp⟩ := aging_waiting_time a hreach 1 hw
  refine ⟨a, ha, hsince, hticks, ?_⟩
  rw [hsince] at hn hp
  rw [hp]
  omega

/-- "main" lets the new thread run, which blocks; a tick passes; "main" wakes it; 99 ticks pass. -/
def wokenLater : List SchedOp :=
  [.threadCreate "a" 10 true, .threadBlock, .threadUnblock 0, .threadBlock, .intrSetLevel .on,
    .timerTick [], .threadUnblock 1] ++
      (List.replicate 99 [.intrSetLevel .on, .timerTick []]).flatten

/-- What that run comes to. -/
def wokenEnd : { r // ((runList agingRunStep agingStart wokenLater).map fun a =>
    (waiting a.sched 1, a.since 1, a.sched.ticks, a.sched.priority 1)) = some r } :=
  ⟨(true, (1, 10), 100, 11), by decide +kernel⟩

/-- **A thread that is woken one tick after its creation is promoted after 99 ticks**. -/
theorem aging_before_the_hundred : ∃ a, Reach agingRunStep always agingStart a ∧
    waiting a.sched 1 = true ∧ a.since 1 = (1, 10) ∧ a.sched.ticks = 1 + 99 ∧
    a.sched.priority 1 = 11 ∧ ¬ ∃ n : ℕ, a.sched.ticks = (a.since 1).1 + n ∧
      a.sched.priority 1 = min 63 ((a.since 1).2 + (n / 100 : ℕ)) := by
  obtain ⟨a, ha, he⟩ := Option.map_eq_some_iff.mp wokenEnd.property
  have hsince : a.since 1 = (1, 10) := congrArg (fun x => x.2.1) he
  have hticks : a.sched.ticks = 100 := congrArg (fun x => x.2.2.1) he
  have hprio : a.sched.priority 1 = 11 := congrArg (fun x => x.2.2.2) he
  refine ⟨a, reach_runList _ (fun _ _ _ => trivial) ha, congrArg Prod.fst he, hsince, hticks,
    hprio, fun ⟨n, hn, hp⟩ => ?_⟩
  rw [hsince] at hn hp
  omega

end Pintos
