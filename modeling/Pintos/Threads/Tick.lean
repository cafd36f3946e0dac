/-
  Subject:   The two walks of a timer tick that change priorities: `BSD_calc_priority` over
             `all_list` and `thread_aging` over the ready queues.

  Both walks keep the invariant of the scheduler (`RunInv`). What they leave behind when they do
  not ask for a yield is said by `Quiet`: every queued thread is then at most as high as the
  running one, or stands where it stood before the tick relative to an unchanged running thread.
  `Quiet` composes, so one turn of a loop is all that has to be looked at, although the walk
  compares old priorities with new ones in the middle.
-/
import Pintos.Threads.SchedOps

namespace Pintos

open Lib List

/-! ## 1. A change that needs no yield -/

/-- **A change of priorities that cannot make a queued thread overtake the running one.** -/
def Quiet (s s' : Sched) : Prop :=
  ∀ u, Queued s'.readyList u → s'.priority u ≤ s'.priority s'.running ∨
    (s'.priority s'.running = s.priority s.running ∧ s'.priority u = s.priority u ∧
      Queued s.readyList u)

theorem Quiet.refl (s : Sched) : Quiet s s := fun _ hu => Or.inr ⟨rfl, rfl, hu⟩

variable {s s' s₁ s₂ s₃ : Sched} {b y : Bool} {t : Tid} {i : ℕ}

theorem Quiet.trans (h : Quiet s₁ s₂) (h' : Quiet s₂ s₃) : Quiet s₁ s₃ := by
  intro u hu
  rcases h' u hu with hle | ⟨hrun, hpu, hq⟩
  · exact .inl hle
  · rcases h u hq with hle | ⟨hrun', hpu', hq'⟩
    · left
      rw [hpu, hrun]
      exact hle
    · exact .inr ⟨hrun.trans hrun', hpu.trans hpu', hq'⟩

theorem Quiet.of_eq (hr : s'.readyList = s.readyList) (hp : ∀ u, s'.priority u = s.priority u)
    (hrun : s'.running = s.running) : Quiet s s' := by
  intro u hu
  rw [hr] at hu
  exact .inr ⟨by rw [hp, hrun], hp u, hu⟩

theorem NoHigher.quiet (h : NoHigher s) (hq : Quiet s s') : NoHigher s' := by
  intro u hu
  rcases hq u hu with hle | ⟨hrun, hpu, hu'⟩
  · exact hle
  · rw [hpu, hrun]
    exact h u hu'

/-- What a turn of a walk does to the state and to the flag `yield`. -/
structure Turn (s : Sched) (y : Bool) (sy : Sched × Bool) : Prop where
  inv : RunInv sy.1
  running : sy.1.running = s.running
  intr : sy.1.intr = s.intr
  ext : sy.1.inExternalIntr = s.inExternalIntr
  ret : sy.1.yieldOnReturn = s.yieldOnReturn
  quiet : sy.2 = false → y = false ∧ Quiet s sy.1

theorem Turn.refl (h : RunInv s) (y : Bool) : Turn s y (s, y) :=
  ⟨h, rfl, rfl, rfl, rfl, fun hy => ⟨hy, Quiet.refl s⟩⟩

theorem Turn.trans {sy sy' : Sched × Bool} (h : Turn s y sy) (h' : Turn sy.1 sy.2 sy') :
    Turn s y sy' where
  inv := h'.inv
  running := h'.running.trans h.running
  intr := h'.intr.trans h.intr
  ext := h'.ext.trans h.ext
  ret := h'.ret.trans h.ret
  quiet hy := by
    obtain ⟨hy', hq'⟩ := h'.quiet hy
    obtain ⟨hy'', hq⟩ := h.quiet hy'
    exact ⟨hy'', hq.trans hq'⟩

/-- **A ready thread is requeued** and the flag is raised if it is now above the running one. -/
theorem Turn.requeue (h : RunInv s) (y : Bool) {p : Int} (ht : Queued s.readyList t)
    (hp : priMin ≤ p ∧ p ≤ priMax) :
    Turn s y (s.requeue t p, y || decide (p > (s.requeue t p).priority s.running)) := by
  refine ⟨h.requeue ht hp, rfl, rfl, rfl, rfl, fun hy => ?_⟩
  have hpr : ∀ u, (s.requeue t p).priority u = if u = t then p else s.priority u :=
    s.priority_setPriority t (p := p)
  have hrt : s.running ≠ t := by
    intro e
    exact h.running_not_queued (e ▸ ht)
  rw [Bool.or_eq_false_iff, decide_eq_false_iff_not, hpr, if_neg hrt] at hy
  refine ⟨hy.1, fun u hu => ?_⟩
  have hu' : Queued s.readyList u := (h.filed.queued_move ht).mp hu
  show (s.requeue t p).priority u ≤ (s.requeue t p).priority s.running ∨
    ((s.requeue t p).priority s.running = s.priority s.running ∧ _ ∧ _)
  rw [hpr, hpr, if_neg hrt]
  split
  · left
    omega
  · exact .inr ⟨rfl, rfl, hu'⟩

/-! ## 2. `BSD_calc_priority` -/

theorem bsdCalcPriorityStep_turn (h : RunInv s) (y : Bool) (t : Tid) :
    Turn s y (bsdCalcPriorityStep (s, y) t) := by
  have hrange := bsdCalcPriorityThis_range (s.thr t).recentCpu (s.thr t).nice
  unfold bsdCalcPriorityStep
  dsimp only
  generalize bsdCalcPriorityThis (s.thr t).recentCpu (s.thr t).nice = new at hrange
  split
  · exact Turn.refl h y
  · rename_i hidle
    split
    · rename_i hready
      -- a ready thread that is not the idle thread is on a queue
      have hq : Queued s.readyList t :=
        h.ready_queued t hready.1 fun hi => hidle (h.idle_name hi)
      exact Turn.requeue h y hq hrange
    · rename_i hkeep
      by_cases hready : s.status t = .ready
      · -- the priority is stored again
        have hsame : s.priority t = new := by
          by_contra hne
          exact hkeep ⟨hready, hne⟩
        have hpr : ∀ u, (s.setPriority t new).priority u = s.priority u := by
          intro u
          rw [Sched.priority_setPriority]
          split
          · rename_i e
            rw [e, hsame]
          · rfl
        have hinv : RunInv (s.setPriority t new) :=
          h.congr (s.status_setPriority t (p := new)) hpr (s.name_setPriority t (p := new))
            rfl rfl rfl rfl rfl rfl
        have hnr : (s.setPriority t new).status t ≠ .running := by
          rw [Sched.status_setPriority, hready]
          decide
        rw [if_neg hnr]
        exact ⟨hinv, rfl, rfl, rfl, rfl, fun hy => ⟨hy, Quiet.of_eq rfl hpr rfl⟩⟩
      · have hnq := h.not_queued hready
        have hinv := h.setPriority hnq hrange
        refine ⟨hinv, rfl, rfl, rfl, rfl, fun hy => ?_⟩
        rw [Sched.status_setPriority] at hy
        split at hy
        · -- the running thread: the flag stayed down, so it is still the highest
          rename_i hrun
          rw [Bool.or_eq_false_iff, decide_eq_false_iff_not] at hy
          refine ⟨hy.1, fun u hu => .inl ?_⟩
          have htop := le_threadTopPriority hinv.toReadyInv hu
          have hrt : s.running = t := ((h.running t).mp hrun).symm
          show (s.setPriority t new).priority u ≤ (s.setPriority t new).priority s.running
          rw [Sched.priority_setPriority _ _ s.running, if_pos hrt]
          omega
        · -- a blocked thread: nobody on a queue, nor the running one, has changed
          rename_i hnr
          refine ⟨hy, fun u hu => .inr ⟨?_, ?_, hu⟩⟩
          · have hrt : s.running ≠ t := fun e => hnr ((h.running t).mpr e.symm)
            show (s.setPriority t new).priority s.running = s.priority s.running
            rw [Sched.priority_setPriority, if_neg hrt]
          · have hut : u ≠ t := fun e => hnq (e ▸ hu)
            rw [Sched.priority_setPriority, if_neg hut]

/-- **The walk of `BSD_calc_priority`**, over any list of threads. -/
theorem bsdCalcPriority_walk (h : RunInv s) (y : Bool) (l : List Tid) :
    Turn s y (l.foldl bsdCalcPriorityStep (s, y)) :=
  foldlRecOn l bsdCalcPriorityStep (Turn.refl h y)
    fun _ hb t _ => hb.trans (bsdCalcPriorityStep_turn hb.inv _ t)

/-! ## 3. `thread_aging` -/

/-- **One turn of `thread_aging`** on a thread that a level below `PRI_MAX` holds. -/
theorem agingStep_turn (h : RunInv s) (y : Bool) (hi : i < 63) (ht : t ∈ s.readyList i) :
    Turn s y (agingStep (s, y) t) ∧
      ∀ u, u ≠ t → u ∈ s.readyList i → u ∈ (agingStep (s, y) t).1.readyList i := by
  have hp : s.priority t = i := h.filed.key_eq ht
  unfold agingStep
  dsimp only
  split
  · refine ⟨Turn.requeue h y ⟨_, ht⟩ ?_, fun u hu hm => ?_⟩
    · simp only [priMin, priMax]
      omega
    · exact mem_push.mpr (.inl (h.filed.mem_remove.mpr ⟨hu, hm⟩))
  · exact ⟨Turn.refl h y, fun u _ hm => hm⟩

/-- **The inner loop of `thread_aging`.** The induction is on the threads the queue held when
    the loop began: those still to come have not left it. -/
theorem agingLevel_walk (hi : i < 63) : ∀ (l : List Tid) (s : Sched) (y : Bool),
    RunInv s → l.Nodup → (∀ t ∈ l, t ∈ s.readyList i) →
    Turn s y (l.foldl agingStep (s, y))
  | [], s, y, h, _, _ => Turn.refl h y
  | t :: l, s, y, h, hnd, hl => by
    obtain ⟨hturn, hkeep⟩ := agingStep_turn h y hi (hl t mem_cons_self)
    obtain ⟨htl, hnd'⟩ := nodup_cons.mp hnd
    rw [foldl_cons]
    refine hturn.trans (agingLevel_walk hi l _ _ hturn.inv hnd' fun u hu => ?_)
    have hne : u ≠ t := fun e => htl (e ▸ hu)
    exact hkeep u hne (hl u (mem_cons_of_mem _ hu))

theorem agingLevel_turn (h : RunInv s) (y : Bool) (hi : i < 63) : Turn s y (agingLevel (s, y) i) :=
  agingLevel_walk hi _ s y h (h.filed.nodup i) fun _ ht => ht

theorem threadAging_walk (h : RunInv s) :
    Turn s false ((range 63).reverse.foldl agingLevel (s, false)) :=
  foldlRecOn _ agingLevel (Turn.refl h false) fun _ hb _ hi =>
    hb.trans (agingLevel_turn hb.inv _ (mem_range.mp (mem_reverse.mp hi)))

/-! ## 4. The tick -/

/-- What a tick does: the invariant is kept, the thread that runs goes on running, and a tick in
    an interrupt that does not ask for a yield was quiet. -/
structure Ticked (s s' : Sched) : Prop where
  inv : RunInv s'
  running : s'.running = s.running
  intr : s'.intr = s.intr
  ext : s'.inExternalIntr = s.inExternalIntr
  quiet : s.inExternalIntr = true → s'.yieldOnReturn = false →
    s.yieldOnReturn = false ∧ Quiet s s'

theorem Ticked.refl (h : RunInv s) : Ticked s s :=
  ⟨h, rfl, rfl, rfl, fun _ hy => ⟨hy, Quiet.refl s⟩⟩

theorem Ticked.trans (h : Ticked s₁ s₂) (h' : Ticked s₂ s₃) : Ticked s₁ s₃ where
  inv := h'.inv
  running := h'.running.trans h.running
  intr := h'.intr.trans h.intr
  ext := h'.ext.trans h.ext
  quiet hx hy := by
    obtain ⟨hy', hq'⟩ := h'.quiet (h.ext.trans hx) hy
    obtain ⟨hy'', hq⟩ := h.quiet hx hy'
    exact ⟨hy'', hq.trans hq'⟩

theorem Ticked.ite {f : Sched → Sched} (h : RunInv s) (c : Sched → Prop) [DecidablePred c]
    (hf : ∀ s, RunInv s → Ticked s (f s)) : Ticked s (if c s then f s else s) := by
  split
  · exact hf s h
  · exact Ticked.refl h

theorem Ticked.modify (h : RunInv s) {f : Thread → Thread} (hst : (f (s.thr t)).status = s.status t)
    (hpr : (f (s.thr t)).priority = s.priority t) (hnm : (f (s.thr t)).name = s.name t) :
    Ticked s (s.modify t f) :=
  ⟨h.modify hst hpr hnm, rfl, rfl, rfl,
    fun _ hy => ⟨hy, Quiet.of_eq rfl (s.priority_modify hpr) rfl⟩⟩

theorem Ticked.request (h : RunInv s) (b : Bool) :
    Ticked s (if b then { s with yieldOnReturn := true } else s) := by
  split
  · refine ⟨?_, rfl, rfl, rfl, fun _ hy => by cases hy⟩
    exact h.congr (fun _ => rfl) (fun _ => rfl) (fun _ => rfl) rfl rfl rfl rfl rfl rfl
  · exact Ticked.refl h

/-- A walk that raised no flag was quiet; one that did asks for a yield. -/
theorem Turn.ticked (h : Turn s false (s', y)) (hb : s.inExternalIntr = true → b = y) :
    Ticked s (if b then { s' with yieldOnReturn := true } else s') := by
  have hreq := Ticked.request h.inv b
  refine ⟨hreq.inv, hreq.running.trans h.running, hreq.intr.trans h.intr, hreq.ext.trans h.ext,
    fun hx hy => ?_⟩
  cases b with
  | true => cases hy
  | false =>
    obtain ⟨_, hq⟩ := h.quiet (hb hx).symm
    exact ⟨h.ret ▸ hy, hq⟩

theorem bsdCalcPriority_ticked (h : RunInv s) : Ticked s (bsdCalcPriority s) := by
  have hw := bsdCalcPriority_walk h false s.allList
  unfold bsdCalcPriority
  generalize s.allList.foldl bsdCalcPriorityStep (s, false) = sy at hw
  obtain ⟨s', y⟩ := sy
  refine hw.ticked fun hx => ?_
  have hx' : s'.inExternalIntr = true := hw.ext.trans hx
  simp [hx']

theorem threadAging_ticked (h : RunInv s) : Ticked s (threadAging s) := by
  have hw := threadAging_walk h
  unfold threadAging
  generalize (range 63).reverse.foldl agingLevel (s, false) = sy at hw
  obtain ⟨s', y⟩ := sy
  exact hw.ticked fun _ => rfl

theorem bsdCalcRecentCpu_ticked (h : RunInv s) : Ticked s (bsdCalcRecentCpu s) := by
  refine foldlRecOn s.allList _ (Ticked.refl h) fun s₁ h1 t _ => h1.trans ?_
  unfold bsdCalcRecentCpuStep
  split
  · exact Ticked.refl h1.inv
  · exact Ticked.modify h1.inv rfl rfl rfl

theorem bsdCalcLoadAverage_ticked (h : RunInv s) : Ticked s (bsdCalcLoadAverage s) := by
  refine ⟨?_, rfl, rfl, rfl, fun _ hy => ⟨hy, Quiet.of_eq rfl (fun _ => rfl) rfl⟩⟩
  exact h.congr (fun _ => rfl) (fun _ => rfl) (fun _ => rfl) rfl rfl rfl rfl rfl rfl

theorem bsdSchedule_ticked (h : RunInv s) : Ticked s (bsdSchedule s) := by
  have h1 := Ticked.ite h (fun s => s.name s.running ≠ "idle") fun s h =>
    Ticked.modify (f := fun th => { th with recentCpu := fpAdd th.recentCpu 1 .int })
      (t := s.running) h rfl rfl rfl
  have h2 := Ticked.ite h1.inv (fun s => s.ticks.tmod timerFreq = 0) fun s h =>
    (bsdCalcLoadAverage_ticked h).trans (bsdCalcRecentCpu_ticked (bsdCalcLoadAverage_ticked h).inv)
  have h3 := Ticked.ite h2.inv (fun s => s.ticks.tmod 4 = 0) fun s h => bsdCalcPriority_ticked h
  exact (h1.trans h2).trans h3

/-- **`thread_tick`**: the invariant is kept, and a tick in an interrupt that asks for no yield
    leaves nobody above the running thread who was not there before. -/
theorem threadTick_ticked (h : RunInv s) : Ticked s (threadTick s) := by
  have h0 : Ticked s { s with threadTicks := s.threadTicks + 1 } := by
    refine ⟨?_, rfl, rfl, rfl, fun _ hy => ⟨hy, Quiet.of_eq rfl (fun _ => rfl) rfl⟩⟩
    exact h.congr (fun _ => rfl) (fun _ => rfl) (fun _ => rfl) rfl rfl rfl rfl rfl rfl
  have h1 := Ticked.ite h0.inv (fun s => timeSlice ≤ s.threadTicks) fun s h => Ticked.request h true
  have h2 := Ticked.ite h1.inv (fun s => s.mlfqs = true) fun s h => bsdSchedule_ticked h
  have h3 := Ticked.ite h2.inv (fun s => s.priorAging = true) fun s h => threadAging_ticked h
  exact ((h0.trans h1).trans h2).trans h3

/-! ## 5. The timer interrupt -/

/-- Waking one sleeper, with interrupts off: the thread that runs goes on running, and a yield is
    asked for. -/
theorem wakeStep_spec (h : RunInv s) (hoff : s.intr = .off) (hw : wakeStep (some s) t = some s') :
    RunInv s' ∧ s'.running = s.running ∧ s'.intr = .off ∧ s'.yieldOnReturn = true := by
  obtain ⟨s₁, hu, rfl⟩ := Option.map_eq_some_iff.mp hw
  unfold threadUnblock at hu
  split at hu
  · rename_i topPri s₂ hs
    obtain ⟨h2, _, hrun, hi, _⟩ := unblockSection_spec h hs
    have hno : ¬ (topPri < s₂.priority t ∧ s₂.intr = .on) := by
      rw [hi, hoff]
      exact fun hc => by cases hc.2
    rw [unblockTail, if_neg hno] at hu
    cases hu
    refine ⟨?_, hrun, hi.trans hoff, rfl⟩
    exact h2.congr (fun _ => rfl) (fun _ => rfl) (fun _ => rfl) rfl rfl rfl rfl rfl rfl
  · cases hu

theorem foldl_wakeStep_none (woken : List Tid) : woken.foldl wakeStep none = none := by
  induction woken with
  | nil => rfl
  | cons t woken ih => exact ih

/-- **The walk over `list_alarm`**: if it wakes anybody, it asks for a yield. -/
theorem wakeStep_walk : ∀ (woken : List Tid) (s s' : Sched), RunInv s → s.intr = .off →
    woken.foldl wakeStep (some s) = some s' →
    RunInv s' ∧ s'.running = s.running ∧ (s' = s ∨ s'.yieldOnReturn = true)
  | [], s, s', h, _, hw => by
    cases hw
    exact ⟨h, rfl, .inl rfl⟩
  | t :: woken, s, s', h, hoff, hw => by
    rw [foldl_cons] at hw
    cases hs : wakeStep (some s) t with
    | none =>
      rw [hs, foldl_wakeStep_none] at hw
      cases hw
    | some s₁ =>
      rw [hs] at hw
      obtain ⟨h1, hrun, hi, hy⟩ := wakeStep_spec h hoff hs
      obtain ⟨h', hrun', hlast⟩ := wakeStep_walk woken s₁ s' h1 hi hw
      refine ⟨h', hrun'.trans hrun, .inr ?_⟩
      rcases hlast with rfl | hy'
      · exact hy
      · exact hy'

/-- **A timer interrupt up to its return.** If no yield is pending, nobody was woken and the tick
    was quiet. -/
theorem timerInterrupt_spec {woken : List Tid} (h : RunInv s)
    (ht : timerInterrupt (intrEnter s) woken = some s') :
    RunInv s' ∧ s'.running = s.running ∧ (s'.yieldOnReturn = false → Quiet s s') := by
  have h0 : RunInv { intrEnter s with ticks := s.ticks + 1 } :=
    h.congr (fun _ => rfl) (fun _ => rfl) (fun _ => rfl) rfl rfl rfl rfl rfl rfl
  have htick := threadTick_ticked h0
  obtain ⟨h', hrun, hw⟩ := wakeStep_walk woken _ s' htick.inv htick.intr ht
  refine ⟨h', hrun.trans htick.running, fun hy => ?_⟩
  rcases hw with rfl | hy'
  · obtain ⟨_, hq⟩ := htick.quiet rfl hy
    have hstart : Quiet s { intrEnter s with ticks := s.ticks + 1 } :=
      Quiet.of_eq rfl (fun _ => rfl) rfl
    exact hstart.trans hq
  · rw [hy] at hy'
    cases hy'

theorem intrExit_inv (h : RunInv s) (he : intrExit s = some s') : RunInv s' := by
  have h0 : RunInv { s with inExternalIntr := false } :=
    h.congr (fun _ => rfl) (fun _ => rfl) (fun _ => rfl) rfl rfl rfl rfl rfl rfl
  unfold intrExit at he
  dsimp only at he
  split at he
  · exact (threadYield_inv h0 he).1
  · cases he
    exact h0.congr (fun _ => rfl) (fun _ => rfl) (fun _ => rfl) rfl rfl rfl rfl rfl rfl

end Pintos
